import LlvmTms9900.Arith.RestoringDivision
import LlvmTms9900.Builtins.Div32Calls

/-!
# What UDIV32 computes under either operand order of `C`

With the order `div32.S` documents, `UDIV32` divides. With the order of the
data manual it subtracts exactly when it should not: the first round always
sets the top quotient bit, and the hardware path is entered exactly when `DIV`
overflows, so that no quotient comes out right.
-/

namespace LlvmTms9900.Builtins.Div32
open LlvmTms9900.Isa LlvmTms9900.Arith

/-- While no bit is lost, a round of `UDIV_LOOP` is a round of restoring division. -/
theorem divRound_swapped {d : Nat} {x : Nat × Nat} (hd : d < 2 ^ 32)
    (hx : shiftedRem 32 x < 2 ^ 32) : divRound .swapped d x = restoringRound 32 d x := by
  have hrem : (2 * x.1 + x.2 / 2 ^ 31) % 2 ^ 32 = shiftedRem 32 x := Nat.mod_eq_of_lt hx
  unfold divRound restoringRound
  rw [hrem]
  by_cases hc : shiftedRem 32 x < d
  · simp only [CompareOrder.over, hc, decide_true, if_true]
  · have hsub : (shiftedRem 32 x + (2 ^ 32 - d)) % 2 ^ 32 = shiftedRem 32 x - d := by omega
    simp only [CompareOrder.over, hc, decide_false, if_false, Bool.false_eq_true, hsub]

theorem divRounds_swapped {n d : Nat} (hn : n < 2 ^ 32) (hd0 : 0 < d) (hd : d < 2 ^ 32) (k : Nat)
    (hk : k ≤ 32) : (divRound .swapped d)^[k] (0, n) = (restoringRound 32 d)^[k] (0, n) := by
  induction k with
  | zero => rfl
  | succ k ih =>
    rw [Function.iterate_succ_apply', Function.iterate_succ_apply', ih (by omega)]
    exact divRound_swapped hd
      (shiftedRem_lt (by omega) hn (roundInv_iterate hd0 hn k (by omega)))

theorem udiv32Value_swapped {n d : Nat} (hn : n < 2 ^ 32) (hd0 : 0 < d) (hd : d < 2 ^ 32) :
    udiv32Value .swapped n d = (n / d, n % d) := by
  unfold udiv32Value
  by_cases hhw : hardware .swapped (n / 65536) d = true
  · have hlt : n / 65536 < d := by
      simp only [hardware, CompareOrder.over, Bool.and_eq_true, decide_eq_true_eq] at hhw
      exact hhw.2
    rw [if_pos hhw, if_neg (by omega)]
  · rw [if_neg hhw, divRounds_swapped hn hd0 hd 32 le_rfl, restoring_division hd0 hn]
    rfl

/-- However a round decides, the quotient is shifted up by one bit. -/
theorem divRound_quo (ord : CompareOrder) (d : Nat) (x : Nat × Nat) :
    (divRound ord d x).2 = 2 * x.2 % 2 ^ 32 ∨ (divRound ord d x).2 = 2 * x.2 % 2 ^ 32 + 1 := by
  simp only [divRound]
  split
  · exact Or.inl rfl
  · exact Or.inr rfl

/-- Shifting in one more bit moves bit `k` to bit `k + 1`. -/
theorem bit_shifted {k q q' : Nat} (hk : k + 1 < 32) (h : 2 ^ k ≤ q % 2 ^ (k + 1))
    (hq : q' = 2 * q % 2 ^ 32 ∨ q' = 2 * q % 2 ^ 32 + 1) : 2 ^ (k + 1) ≤ q' % 2 ^ (k + 2) := by
  have hdvd : 2 ^ (k + 2) ∣ 2 ^ 32 := pow_dvd_pow 2 (by omega)
  have hlow : 2 * q % 2 ^ 32 % 2 ^ (k + 2) = 2 * (q % 2 ^ (k + 1)) := by
    rw [Nat.mod_mod_of_dvd _ hdvd, pow_succ' 2 (k + 1), Nat.mul_mod_mul_left]
  have hlt : q % 2 ^ (k + 1) < 2 ^ (k + 1) := Nat.mod_lt _ (by positivity)
  have hpow : 2 ^ (k + 1) = 2 * 2 ^ k := pow_succ' 2 k
  have hpow2 : 2 ^ (k + 2) = 2 * 2 ^ (k + 1) := pow_succ' 2 (k + 1)
  rcases hq with rfl | rfl
  · omega
  · rw [Nat.add_mod, hlow, Nat.mod_eq_of_lt (by omega : 1 < 2 ^ (k + 2)),
      Nat.mod_eq_of_lt (by omega)]
    omega

/-- The bit that the first round sets on the order of the manual is bit `k`
of the quotient `k` rounds later. -/
theorem divRounds_manual_bit {n d : Nat} (hn : n < 2 ^ 32) (hd0 : 0 < d) (k : Nat) (hk : k < 32) :
    2 ^ k ≤ ((divRound .manual d)^[k + 1] (0, n)).2 % 2 ^ (k + 1) := by
  induction k with
  | zero =>
    have hb : n / 2 ^ 31 ≤ 1 := by omega
    have hov : CompareOrder.over .manual ((2 * 0 + n / 2 ^ 31) % 2 ^ 32) d = false := by
      simp only [CompareOrder.over, decide_eq_false_iff_not]
      omega
    simp only [Nat.zero_add, Function.iterate_one, divRound, hov, Bool.false_eq_true, if_false]
    omega
  | succ k ih =>
    rw [Function.iterate_succ_apply']
    exact bit_shifted hk (ih (by omega)) (divRound_quo .manual d _)

theorem udiv32Value_manual_ne {n d : Nat} (hn : n < 2 ^ 32) (hd0 : 0 < d) :
    (udiv32Value .manual n d).1 ≠ n / d := by
  unfold udiv32Value
  by_cases hhw : hardware .manual (n / 65536) d = true
  · have hlt : d < n / 65536 := by
      simp only [hardware, CompareOrder.over, Bool.and_eq_true, decide_eq_true_eq] at hhw
      exact hhw.2
    have hdiv : n / 65536 < n / d := by
      rw [Nat.lt_div_iff_mul_lt hd0]
      have hmul : n / 65536 * d ≤ n / 65536 * 65535 := Nat.mul_le_mul_left _ (by omega)
      omega
    rw [if_pos hhw, if_pos (by omega)]
    exact Nat.ne_of_lt hdiv
  · have hbit : 2 ^ 31 ≤ ((divRound .manual d)^[32] (0, n)).2 % 2 ^ 32 :=
      divRounds_manual_bit hn hd0 31 (by omega)
    have hsmall : n / d < 2 ^ 31 := by
      by_cases h1 : d = 1
      · subst h1
        rw [Nat.div_one]
        by_contra hge
        have hlt : 1 < n / 65536 := by omega
        exact hhw (by simp only [hardware, CompareOrder.over, hlt]; decide)
      · exact Nat.div_lt_of_lt_mul (by omega)
    have hle := Nat.mod_le ((divRound .manual d)^[32] (0, n)).2 (2 ^ 32)
    rw [if_neg hhw]
    simp only [Prod.fst_swap]
    omega

end LlvmTms9900.Builtins.Div32
