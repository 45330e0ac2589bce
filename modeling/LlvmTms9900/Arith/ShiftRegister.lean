import Mathlib

/-!
# Shift registers with feedback

A register is shifted right; the bit that leaves it decides whether the feedback
word is added. The step is linear, and it loses nothing where the feedback has
its top bit set. Feeding up to a register's width of bits is to add them at once
and then to step.
-/

namespace LlvmTms9900.Arith

section Register
variable {w : ℕ} {p s t : BitVec w}

def registerStep (p s : BitVec w) : BitVec w :=
  if s.getLsbD 0 then (s >>> 1) ^^^ p else s >>> 1

theorem registerStep_xor (p s t : BitVec w) :
    registerStep p (s ^^^ t) = registerStep p s ^^^ registerStep p t := by
  unfold registerStep
  rw [BitVec.getLsbD_xor, BitVec.ushiftRight_xor_distrib]
  cases s.getLsbD 0 <;> cases t.getLsbD 0
  · rfl
  · simp only [Bool.false_xor, if_true, Bool.false_eq_true, if_false, BitVec.xor_assoc]
  · simp only [Bool.xor_false, if_true, Bool.false_eq_true, if_false]
    ac_rfl
  · simp only [Bool.xor_self, Bool.false_eq_true, if_false, if_true]
    calc s >>> 1 ^^^ t >>> 1 = s >>> 1 ^^^ t >>> 1 ^^^ (p ^^^ p) := by
          rw [BitVec.xor_self, BitVec.xor_zero]
      _ = s >>> 1 ^^^ p ^^^ (t >>> 1 ^^^ p) := by ac_rfl

/-- The top bit of the feedback tells which bit left the register. -/
theorem registerStep_eq_zero (hp : p.msb = true) (h : registerStep p s = 0#w) : s = 0#w := by
  unfold registerStep at h
  split at h
  next hbit =>
    have hmsb := congrArg BitVec.msb h
    rw [BitVec.msb_xor, hp, BitVec.msb_ushiftRight] at hmsb
    simp at hmsb
  next hbit =>
    have hval := congrArg BitVec.toNat h
    have heven : s.toNat % 2 = 0 := by
      rw [BitVec.getLsbD, Nat.testBit_zero, decide_eq_true_eq] at hbit
      omega
    rw [BitVec.toNat_ushiftRight, Nat.shiftRight_eq_div_pow, BitVec.toNat_ofNat,
      Nat.zero_mod] at hval
    apply BitVec.eq_of_toNat_eq
    rw [BitVec.toNat_ofNat, Nat.zero_mod]
    omega

theorem registerStep_injective (hp : p.msb = true) : Function.Injective (registerStep p) := by
  intro s t h
  have hzero : registerStep p (s ^^^ t) = 0#w := by rw [registerStep_xor, h, BitVec.xor_self]
  exact BitVec.xor_eq_zero_iff.1 (registerStep_eq_zero hp hzero)

/-- What is moved one place up comes back, and feeds nothing. -/
theorem registerStep_shiftLeft (hs : 2 * s.toNat < 2 ^ w) : registerStep p (s <<< 1) = s := by
  have hlow : (s <<< 1).getLsbD 0 = false := by
    rw [BitVec.getLsbD_shiftLeft]
    simp
  unfold registerStep
  rw [hlow, if_neg Bool.false_ne_true]
  apply BitVec.eq_of_toNat_eq
  rw [BitVec.toNat_ushiftRight, BitVec.toNat_shiftLeft, Nat.shiftLeft_eq, pow_one,
    Nat.mod_eq_of_lt (by omega), Nat.shiftRight_eq_div_pow, pow_one,
    Nat.mul_div_cancel _ Nat.two_pos]

/-- The bits as a number, the first one the least. -/
def ofBits (w : ℕ) : List Bool → BitVec w
  | [] => 0#w
  | b :: bits => (if b then 1#w else 0#w) ^^^ (ofBits w bits <<< 1)

theorem toNat_ofBits_cons {b : Bool} {bits : List Bool} (hw : bits.length < w)
    (hbits : (ofBits w bits).toNat < 2 ^ bits.length) :
    (ofBits w (b :: bits)).toNat = 2 * (ofBits w bits).toNat + b.toNat := by
  have hpow : 2 ^ bits.length * 2 ≤ 2 ^ w := by
    rw [← pow_succ]
    exact Nat.pow_le_pow_right Nat.two_pos hw
  have hone : 1 % 2 ^ w = 1 := Nat.mod_eq_of_lt (Nat.one_lt_two_pow (by omega))
  rw [ofBits, BitVec.toNat_xor, BitVec.toNat_shiftLeft, Nat.shiftLeft_eq, pow_one,
    Nat.mod_eq_of_lt (by omega), Nat.mul_comm]
  cases b
  · rw [if_neg Bool.false_ne_true, BitVec.toNat_ofNat, Nat.zero_mod, Nat.zero_xor,
      Bool.toNat_false, Nat.add_zero]
  · rw [if_pos rfl, BitVec.toNat_ofNat, hone, Nat.xor_comm, Nat.xor_one_of_even (even_two_mul _),
      Bool.toNat_true]

theorem toNat_ofBits_lt {bits : List Bool} (hw : bits.length ≤ w) :
    (ofBits w bits).toNat < 2 ^ bits.length := by
  induction bits with
  | nil => exact Nat.one_pos
  | cons b bits ih =>
    rw [List.length_cons] at hw
    have hbits := ih (by omega)
    have hb := b.toNat_le
    rw [toNat_ofBits_cons hw hbits, List.length_cons, pow_succ]
    omega

theorem ofBits_injective {bits bits' : List Bool} (hw : bits.length ≤ w)
    (hlen : bits.length = bits'.length) (h : ofBits w bits = ofBits w bits') : bits = bits' := by
  induction bits generalizing bits' with
  | nil => exact (List.length_eq_zero_iff.1 hlen.symm).symm
  | cons b bits ih =>
    obtain ⟨b', bits', rfl⟩ : ∃ c cs, bits' = c :: cs :=
      List.exists_cons_of_length_eq_add_one hlen.symm
    simp only [List.length_cons] at hw hlen
    have hlen' : bits.length = bits'.length := by omega
    have hval := congrArg BitVec.toNat h
    have hb := b.toNat_le
    have hb' := b'.toNat_le
    rw [toNat_ofBits_cons hw (toNat_ofBits_lt (by omega)),
      toNat_ofBits_cons (by omega) (toNat_ofBits_lt (by omega))] at hval
    have hfirst : b.toNat = b'.toNat := by omega
    have hrest : (ofBits w bits).toNat = (ofBits w bits').toNat := by omega
    have hbit : b = b' := by
      revert hfirst
      cases b <;> cases b' <;> decide
    rw [ih (by omega) hlen' (BitVec.eq_of_toNat_eq hrest), hbit]

theorem getLsbD_ofBits (bits : List Bool) (i : ℕ) :
    (ofBits w bits).getLsbD i = (decide (i < w) && bits.getD i false) := by
  induction bits generalizing i with
  | nil => simp [ofBits]
  | cons b bits ih =>
    rw [ofBits, BitVec.getLsbD_xor, BitVec.getLsbD_shiftLeft]
    cases i with
    | zero => cases b <;> simp
    | succ i =>
      have hi : (decide (i + 1 < w) && decide (i < w)) = decide (i + 1 < w) := by
        by_cases h : i + 1 < w
        · simp [h, Nat.lt_of_succ_lt h]
        · simp [h]
      cases b <;> simp [ih, ← Bool.and_assoc, hi]

/-- A word is rebuilt from all its bits. -/
theorem ofBits_getLsbD (s : BitVec w) : ofBits w ((List.range w).map s.getLsbD) = s := by
  apply BitVec.eq_of_getLsbD_eq
  intro i hi
  rw [getLsbD_ofBits, decide_eq_true hi, Bool.true_and, List.getD_eq_getElem?_getD,
    List.getElem?_map, List.getElem?_range hi]
  rfl

def feed (p s : BitVec w) (b : Bool) : BitVec w := registerStep p (s ^^^ if b then 1#w else 0#w)

def feedAll (p s : BitVec w) (bits : List Bool) : BitVec w := bits.foldl (feed p) s

theorem feedAll_append (bits bits' : List Bool) :
    feedAll p s (bits ++ bits') = feedAll p (feedAll p s bits) bits' :=
  List.foldl_append

/-- Up to a register's width of bits may be added at once. -/
theorem feedAll_eq {bits : List Bool} (hw : bits.length ≤ w) :
    feedAll p s bits = (registerStep p)^[bits.length] (s ^^^ ofBits w bits) := by
  induction bits generalizing s with
  | nil => exact BitVec.xor_zero.symm
  | cons b bits ih =>
    rw [List.length_cons] at hw
    have hbits : (ofBits w bits).toNat < 2 ^ bits.length := toNat_ofBits_lt (by omega)
    have hpow : 2 ^ bits.length * 2 ≤ 2 ^ w := by
      rw [← pow_succ]
      exact Nat.pow_le_pow_right Nat.two_pos hw
    have hstep : registerStep p (s ^^^ ofBits w (b :: bits)) = feed p s b ^^^ ofBits w bits := by
      rw [ofBits, ← BitVec.xor_assoc, registerStep_xor, registerStep_shiftLeft (by omega)]
      rfl
    rw [List.length_cons, Function.iterate_succ_apply, hstep, ← ih (by omega)]
    rfl

theorem feedAll_injective (hp : p.msb = true) (bits : List Bool) :
    Function.Injective fun s => feedAll p s bits := by
  induction bits with
  | nil => exact fun _ _ h => h
  | cons b bits ih =>
    intro s t h
    have hfirst := registerStep_injective hp (ih h)
    exact (BitVec.xor_left_inj _).1 hfirst

/-- A burst no longer than the register always shows. -/
theorem feedAll_burst_ne (hp : p.msb = true) {burst burst' : List Bool}
    (hw : burst.length ≤ w) (hlen : burst.length = burst'.length) (hne : burst ≠ burst')
    (before after : List Bool) :
    feedAll p s (before ++ burst ++ after) ≠ feedAll p s (before ++ burst' ++ after) := by
  intro h
  simp only [feedAll_append] at h
  have hburst := feedAll_injective hp after h
  have hw' : burst'.length ≤ w := hlen.symm.le.trans hw
  rw [feedAll_eq hw, feedAll_eq hw', hlen] at hburst
  have hxor := (registerStep_injective hp).iterate burst'.length hburst
  exact hne (ofBits_injective hw hlen ((BitVec.xor_right_inj _).1 hxor))

end Register

end LlvmTms9900.Arith
