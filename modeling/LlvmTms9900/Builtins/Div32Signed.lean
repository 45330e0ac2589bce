import LlvmTms9900.Builtins.Div32Value

/-!
# Signed division in two's complement

The signed entry points divide the magnitudes and put the sign back. Read in
two's complement this is the division of C: the quotient is truncated toward
zero and the remainder has the sign of the dividend, reduced to 32 bits where
the quotient does not fit (`-2^31 / -1`).
-/

namespace LlvmTms9900.Builtins.Div32
open LlvmTms9900.Isa

/-- The two's complement reading of a 32-bit value. -/
def signed32 (v : Nat) : Int := if isNeg v then (v : Int) - 2 ^ 32 else v

/-- The 32 bits that hold an integer. -/
def word32 (z : Int) : Nat := (z % 2 ^ 32).toNat

theorem isNeg_iff (v : Nat) : isNeg v = true ↔ 2 ^ 31 ≤ v := decide_eq_true_iff

/-- A value read in two's complement is its magnitude or the negative of it. -/
theorem signed32_eq {v : Nat} (h : v < 2 ^ 32) :
    signed32 v = if isNeg v then -(abs32 v : Int) else (abs32 v : Int) := by
  by_cases hn : isNeg v = true
  · have hge := (isNeg_iff v).1 hn
    simp only [signed32, abs32, neg32, hn, if_true]
    omega
  · simp only [signed32, abs32, hn, if_false, Bool.false_eq_true]

theorem abs32_lt {v : Nat} (h : v < 2 ^ 32) : abs32 v < 2 ^ 32 := by
  unfold abs32 neg32
  split <;> omega

theorem abs32_ne_zero {v : Nat} (h : v < 2 ^ 32) (h0 : v ≠ 0) : abs32 v ≠ 0 := by
  by_cases hn : isNeg v = true
  · have hge := (isNeg_iff v).1 hn
    simp only [abs32, neg32, hn, if_true]
    omega
  · simpa only [abs32, hn, if_false, Bool.false_eq_true] using h0

theorem signed32_ne_zero {v : Nat} (h : v < 2 ^ 32) (h0 : v ≠ 0) : signed32 v ≠ 0 := by
  have habs := abs32_ne_zero h h0
  rw [signed32_eq h]
  split <;> omega

theorem word32_natCast {v : Nat} (h : v < 2 ^ 32) : word32 v = v := by
  unfold word32
  omega

theorem word32_neg {v : Nat} (h : v < 2 ^ 32) : word32 (-(v : Int)) = neg32 v := by
  unfold word32 neg32
  omega

/-- The quotient of the magnitudes with its sign is the truncated quotient. -/
theorem word32_tdiv {n d : Nat} (hn : n < 2 ^ 32) (hd : d < 2 ^ 32) :
    word32 ((signed32 n).tdiv (signed32 d)) =
      if isNeg n = isNeg d then abs32 n / abs32 d else neg32 (abs32 n / abs32 d) := by
  have hq : abs32 n / abs32 d < 2 ^ 32 := (Nat.div_le_self _ _).trans_lt (abs32_lt hn)
  have hcast : (abs32 n : Int).tdiv (abs32 d : Int) = ((abs32 n / abs32 d : Nat) : Int) := rfl
  rw [signed32_eq hn, signed32_eq hd]
  cases isNeg n <;> cases isNeg d <;>
    simp only [if_true, if_false, Bool.false_eq_true, reduceCtorEq, Int.neg_tdiv, Int.tdiv_neg,
      Int.neg_neg, hcast, word32_natCast hq, word32_neg hq]

/-- The remainder of the magnitudes with the sign of the dividend is the
truncated remainder. -/
theorem word32_tmod {n d : Nat} (hn : n < 2 ^ 32) (hd : d < 2 ^ 32) (hd0 : d ≠ 0) :
    word32 ((signed32 n).tmod (signed32 d)) =
      if isNeg n then neg32 (abs32 n % abs32 d) else abs32 n % abs32 d := by
  have hr : abs32 n % abs32 d < 2 ^ 32 :=
    (Nat.mod_lt _ (Nat.pos_of_ne_zero (abs32_ne_zero hd hd0))).trans (abs32_lt hd)
  have hcast : (abs32 n : Int).tmod (abs32 d : Int) = ((abs32 n % abs32 d : Nat) : Int) := rfl
  rw [signed32_eq hn, signed32_eq hd]
  cases isNeg n <;> cases isNeg d <;>
    simp only [if_true, if_false, Bool.false_eq_true, Int.neg_tmod, Int.tmod_neg, hcast,
      word32_natCast hr, word32_neg hr]

theorem natAbs_tmod_lt {n d : Int} (hd : d ≠ 0) : (n.tmod d).natAbs < d.natAbs := by
  rw [Int.natAbs_tmod]
  exact Nat.mod_lt _ (Int.natAbs_pos.2 hd)

theorem tmod_eq_zero_or_sign (n d : Int) : n.tmod d = 0 ∨ (n.tmod d).sign = n.sign := by
  have h := Int.sign_tmod n d
  by_cases hdvd : d ∣ n
  · rw [if_pos hdvd] at h
    exact .inl (Int.sign_eq_zero_iff_zero.1 h)
  · rw [if_neg hdvd] at h
    exact .inr h

/-- `div32.S:54-128`. -/
theorem signed_division (base : Word) (s : State) (heven : (s.regs .r10).toNat % 2 = 0)
    (hroom : 8 ≤ (s.regs .r10).toNat) (hd : s.pair .r2 .r3 ≠ 0) :
    ∃ q r : Int, q = (signed32 (s.pair .r0 .r1)).tdiv (signed32 (s.pair .r2 .r3)) ∧
      signed32 (s.pair .r0 .r1) = signed32 (s.pair .r2 .r3) * q + r ∧
      r.natAbs < (signed32 (s.pair .r2 .r3)).natAbs ∧
      (r = 0 ∨ r.sign = (signed32 (s.pair .r0 .r1)).sign) ∧
      (s.pc = entry .divsi3 → ∃ u, Called .swapped (program base) 8 s u (word32 q)) ∧
      (s.pc = entry .modsi3 → ∃ u, Called .swapped (program base) 8 s u (word32 r)) := by
  have hn := s.pair_lt .r0 .r1
  have hdlt := s.pair_lt .r2 .r3
  have hvalue := udiv32Value_swapped (abs32_lt hn)
    (Nat.pos_of_ne_zero (abs32_ne_zero hdlt hd)) (abs32_lt hdlt)
  refine ⟨_, (signed32 (s.pair .r0 .r1)).tmod (signed32 (s.pair .r2 .r3)), rfl,
    (Int.mul_tdiv_add_tmod _ _).symm, natAbs_tmod_lt (signed32_ne_zero hdlt hd),
    tmod_eq_zero_or_sign _ _, ?_, ?_⟩
  · intro h
    have hq := divsi3_called .swapped base h heven hroom
    rw [divsi3Value, hvalue] at hq
    rw [word32_tdiv hn hdlt]
    exact hq
  · intro h
    have hr := modsi3_called .swapped base h heven hroom
    rw [modsi3Value, hvalue] at hr
    rw [word32_tmod hn hdlt hd]
    exact hr

/-- `__divsi3` of -2^31 by -1: the quotient wraps around. -/
def divideMostNegative (l : Label) : State where
  pc := entry l
  regs := fun
    | .r0 => 0x8000#16
    | .r2 => 0xFFFF#16
    | .r3 => 0xFFFF#16
    | .r10 => 0xFFF0#16
    | .r11 => 0x7000#16
    | _ => 0#16
  mem := fun _ => 0#8
  st := ⟨false, false, false, false⟩

theorem divideMostNegative_wraps :
    ∃ u, Called .swapped (program 0x6000#16) 8 (divideMostNegative .divsi3) u 0x80000000 := by
  obtain ⟨q, r, hq, -, -, -, hdiv, -⟩ := signed_division 0x6000#16 (divideMostNegative .divsi3)
    (by decide) (by decide) (by decide)
  have hval : word32 q = 0x80000000 := by
    rw [hq]
    decide
  rw [← hval]
  exact hdiv rfl

end LlvmTms9900.Builtins.Div32
