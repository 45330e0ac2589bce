import LlvmTms9900.Builtins.Div32Signed
import LlvmTms9900.Builtins.Udivmoddi4Value

/-!
# Signed 64-bit division (libtms9900/builtins/i64/divdi3.c, moddi3.c)

`(x ^ s) - s` with the sign mask `s` of `x` is the magnitude of `x`, also for
the most negative value, whose magnitude only an unsigned word holds. The core
divides the magnitudes and the sign is put back the same way.
-/

namespace LlvmTms9900.Builtins.Divdi3
open LlvmTms9900.Isa (Word)
open LlvmTms9900.Builtins.Udivmoddi4

/-- `__divdi3`. -/
def divdi3 (mem : Objects) (a b : LongLong) : Option (LongLong × Objects) := do
  let s_a := a.sshiftRight 63
  let s_b := b.sshiftRight 63
  let a_u := (a ^^^ s_a) + -s_a
  let b_u := (b ^^^ s_b) + -s_b
  let s_a := s_a ^^^ s_b
  let (q, mem) ← udivmoddi4 mem a_u b_u 0#16
  return ((q ^^^ s_a) + -s_a, mem)

/-- `__moddi3`, with the local `res` at `slot`. -/
def moddi3 (mem : Objects) (slot : Word) (a b : LongLong) : Option (LongLong × Objects) := do
  let s := b.sshiftRight 63
  let b_u := (b ^^^ s) + -s
  let s := a.sshiftRight 63
  let a_u := (a ^^^ s) + -s
  let (_, mem) ← udivmoddi4 mem a_u b_u slot
  let res := mem slot
  return ((res ^^^ s) + -s, mem)

/-- The mask of a sign. -/
def signMask (neg : Bool) : LongLong := if neg then BitVec.allOnes 64 else 0#64

/-- `x` or `-x`. -/
def withSign (neg : Bool) (x : LongLong) : LongLong := if neg then -x else x

theorem sshiftRight_eq_signMask (x : LongLong) : x.sshiftRight 63 = signMask x.msb := by
  apply BitVec.eq_of_getLsbD_eq
  intro i hi
  have hlast : x.getLsbD 63 = x.msb := by rw [BitVec.msb_eq_getLsbD_last]
  rw [BitVec.getLsbD_sshiftRight]
  cases hm : x.msb
  · simp only [signMask]
    grind
  · simp only [signMask, if_true, BitVec.getLsbD_allOnes]
    grind

theorem signMask_xor (p q : Bool) : signMask p ^^^ signMask q = signMask (p ^^ q) := by
  cases p <;> cases q <;> rfl

theorem xor_add_signMask (neg : Bool) (x : LongLong) :
    (x ^^^ signMask neg) + -signMask neg = withSign neg x := by
  cases neg with
  | false => simp [signMask, withSign]
  | true =>
    have hxor : x ^^^ BitVec.allOnes 64 = ~~~x := BitVec.xor_allOnes
    have hone : -BitVec.allOnes 64 = 1#64 := rfl
    simp only [signMask, withSign, if_true]
    rw [hxor, hone, BitVec.neg_eq_not_add]

/-- The magnitude of a two's complement value. -/
def magnitude (x : LongLong) : LongLong := withSign x.msb x

theorem magnitude_ne_zero {x : LongLong} (h : x ≠ 0#64) : magnitude x ≠ 0#64 := by
  unfold magnitude withSign
  split
  · intro he
    exact h (by bv_omega)
  · exact h

theorem divdi3_eq (mem : Objects) {a b : LongLong} (hb : b ≠ 0#64) :
    divdi3 mem a b = some (a.sdiv b, mem) := by
  have hval : udivmoddi4 mem (withSign a.msb a) (withSign b.msb b) 0#16 =
      some (magnitude a / magnitude b, mem) :=
    udivmoddi4_value (magnitude a) (magnitude b) mem 0#16 (magnitude_ne_zero hb)
  simp only [divdi3, sshiftRight_eq_signMask, signMask_xor, xor_add_signMask, hval,
    Option.bind_eq_bind, Option.bind_some, Option.pure_def, Option.some.injEq, Prod.mk.injEq,
    and_true]
  rw [BitVec.sdiv_eq]
  cases ha : a.msb <;> cases hbm : b.msb <;> simp [magnitude, withSign, ha, hbm]

theorem moddi3_eq (mem : Objects) {slot : Word} (hslot : slot ≠ 0#16) {a b : LongLong}
    (hb : b ≠ 0#64) :
    moddi3 mem slot a b =
      some (a.srem b, Function.update mem slot (magnitude a % magnitude b)) := by
  have hval : udivmoddi4 mem (withSign a.msb a) (withSign b.msb b) slot =
      some (magnitude a / magnitude b, store mem slot (magnitude a % magnitude b)) :=
    udivmoddi4_value (magnitude a) (magnitude b) mem slot (magnitude_ne_zero hb)
  simp only [moddi3, sshiftRight_eq_signMask, xor_add_signMask, hval,
    Option.bind_eq_bind, Option.bind_some, Option.pure_def, Option.some.injEq, Prod.mk.injEq,
    store, if_neg hslot, Function.update_self, and_true]
  rw [BitVec.srem_eq]
  cases ha : a.msb <;> cases hbm : b.msb <;> simp [magnitude, withSign, ha, hbm]

/-- The quotient is truncated toward zero, reduced to 64 bits where it does not
fit (`-2^63 / -1`); the remainder has the sign of the dividend. -/
theorem signed_division64 (mem : Objects) {slot : Word} (hslot : slot ≠ 0#16) (a : LongLong)
    {b : LongLong} (hb : b ≠ 0#64) :
    ∃ q r : LongLong, divdi3 mem a b = some (q, mem) ∧
      (∃ mem', moddi3 mem slot a b = some (r, mem') ∧ ∀ p ≠ slot, mem' p = mem p) ∧
      q = BitVec.ofInt 64 (a.toInt.tdiv b.toInt) ∧ (r = 0#64 ∨ r.toInt.sign = a.toInt.sign) ∧
      r.toInt.natAbs < b.toInt.natAbs ∧ a = q * b + r := by
  have hb0 : b.toInt ≠ 0 := by
    intro h
    exact hb (BitVec.eq_of_toInt_eq (by simpa using h))
  have hq : a.sdiv b = BitVec.ofInt 64 (a.toInt.tdiv b.toInt) := by
    apply BitVec.eq_of_toInt_eq
    rw [BitVec.toInt_sdiv, BitVec.toInt_ofInt]
  have hr := BitVec.toInt_srem a b
  refine ⟨_, _, divdi3_eq mem hb, ⟨_, moddi3_eq mem hslot hb, fun p hp => ?_⟩, hq, ?_, ?_, ?_⟩
  · exact Function.update_of_ne hp _ _
  · rcases Div32.tmod_eq_zero_or_sign a.toInt b.toInt with h | h
    · exact .inl (BitVec.eq_of_toInt_eq (by rw [hr, h]; rfl))
    · exact .inr (by rw [hr, h])
  · rw [hr]
    exact Div32.natAbs_tmod_lt hb0
  · have hr' : a.srem b = BitVec.ofInt 64 (a.toInt.tmod b.toInt) := by
      rw [← hr, BitVec.ofInt_toInt]
    calc a = BitVec.ofInt 64 (a.toInt.tdiv b.toInt * b.toInt + a.toInt.tmod b.toInt) := by
          rw [Int.mul_comm, Int.mul_tdiv_add_tmod, BitVec.ofInt_toInt]
      _ = a.sdiv b * b + a.srem b := by
          rw [BitVec.ofInt_add, BitVec.ofInt_mul, BitVec.ofInt_toInt, hq, hr']

/-- `-2^63 / -1` wraps around, with remainder 0. -/
theorem most_negative_by_minus_one :
    ∃ mem', divdi3 (fun _ => 0#64) 0x8000000000000000#64 (-1#64) =
        some (0x8000000000000000#64, fun _ => 0#64) ∧
      moddi3 (fun _ => 0#64) 2#16 0x8000000000000000#64 (-1#64) = some (0#64, mem') := by
  obtain ⟨q, r, hd, ⟨mem', hm, -⟩, hq, -, hlt, -⟩ :=
    signed_division64 (fun _ => 0#64) (by decide : (2#16 : Word) ≠ 0#16) 0x8000000000000000#64
      (b := -1#64) (by decide)
  have hqv : q = 0x8000000000000000#64 := by
    rw [hq]
    decide
  have hr0 : r = 0#64 := by
    have hone : (-1#64 : LongLong).toInt.natAbs = 1 := by decide
    apply BitVec.eq_of_toInt_eq
    rw [BitVec.toInt_zero]
    omega
  exact ⟨mem', hqv ▸ hd, hr0 ▸ hm⟩

end LlvmTms9900.Builtins.Divdi3
