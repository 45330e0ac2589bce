import Mathlib

/-!
# A reciprocal by Newton's iteration in fixed point

A word has `n + 1` bits. For a divisor `b` the iteration approaches
`2 ^ (2 n + 1) / b`; the error of a step is the square of the one before it, and
what the two truncations lose.
-/

namespace LlvmTms9900.Arith

/-- `x (2 - x b)`, both products cut off to a word. -/
def newtonStep (n b x : ℕ) : ℕ := x * (2 ^ (n + 1) - x * b / 2 ^ (n + 1)) / 2 ^ n

section Error
variable {K : Type*} [Field K] [LinearOrder K] [IsStrictOrderedRing K]
variable {n b x : ℕ}

/-- The number that the iteration approaches. -/
def reciprocalOf (n b : ℕ) : K := 2 ^ (2 * n + 1) / b

theorem reciprocalOf_mul (hb : 0 < b) : (reciprocalOf n b : K) * b = 2 ^ (2 * n + 1) := by
  have hne : (b : K) ≠ 0 := by exact_mod_cast hb.ne'
  exact div_mul_cancel₀ _ hne

/-- Without the truncations only the square of the error is left. -/
theorem newton_exact (hb : 0 < b) (y : K) :
    2 * y - y ^ 2 * b / 2 ^ (2 * n + 1) =
      reciprocalOf n b - (y - reciprocalOf n b) ^ 2 * b / 2 ^ (2 * n + 1) := by
  have hT := reciprocalOf_mul (K := K) (n := n) hb
  have hpos : (2 : K) ^ (2 * n + 1) ≠ 0 := by positivity
  field_simp
  rw [← hT]
  ring

theorem newtonStep_exact (hx : x < 2 ^ (n + 1)) (hb : b < 2 ^ (n + 1)) :
    2 * (x : K) - x ^ 2 * b / 2 ^ (2 * n + 1) - 1 < newtonStep n b x ∧
      (newtonStep n b x : K) < 2 * x - x ^ 2 * b / 2 ^ (2 * n + 1) + 2 := by
  obtain ⟨P, hP⟩ : ∃ P, P = x * b / 2 ^ (n + 1) := ⟨_, rfl⟩
  obtain ⟨y, hy⟩ : ∃ y, y = newtonStep n b x := ⟨_, rfl⟩
  have hPle : P ≤ 2 ^ (n + 1) := by
    rw [hP]
    refine Nat.div_le_of_le_mul ?_
    exact Nat.mul_le_mul hx.le hb.le
  have hPlow : P * 2 ^ (n + 1) ≤ x * b := by
    rw [hP]
    exact Nat.div_mul_le_self _ _
  have hPup : x * b < (P + 1) * 2 ^ (n + 1) := by
    rw [hP, Nat.mul_comm _ (2 ^ (n + 1))]
    exact Nat.lt_mul_div_succ _ (Nat.two_pow_pos _)
  have hylow : y * 2 ^ n ≤ x * (2 ^ (n + 1) - P) := by
    rw [hy, newtonStep, ← hP]
    exact Nat.div_mul_le_self _ _
  have hyup : x * (2 ^ (n + 1) - P) < (y + 1) * 2 ^ n := by
    rw [hy, newtonStep, ← hP, Nat.mul_comm _ (2 ^ n)]
    exact Nat.lt_mul_div_succ _ (Nat.two_pow_pos _)
  rw [← hy]
  obtain ⟨w, hw⟩ : ∃ w : K, w = 2 ^ n := ⟨_, rfl⟩
  have hwpos : 0 < w := by rw [hw]; positivity
  have hpow : (2 : K) ^ (n + 1) = 2 * w := by rw [hw, pow_succ, mul_comm]
  have hpow2 : (2 : K) ^ (2 * n + 1) = 2 * w * w := by
    rw [hw, pow_succ, two_mul n, pow_add]
    ring
  have hxK : (x : K) < 2 * w := by
    rw [← hpow]
    exact_mod_cast hx
  have hx0 : (0 : K) ≤ x := Nat.cast_nonneg x
  have hPlowK : (P : K) * (2 * w) ≤ x * b := by
    rw [← hpow]
    exact_mod_cast hPlow
  have hPupK : (x : K) * b < (P + 1) * (2 * w) := by
    rw [← hpow]
    exact_mod_cast hPup
  have hcast : ((2 ^ (n + 1) - P : ℕ) : K) = 2 * w - P := by
    rw [Nat.cast_sub hPle]
    push_cast
    rw [hpow]
  have hylowK : (y : K) * w ≤ x * (2 * w - P) := by
    rw [← hcast, hw]
    exact_mod_cast hylow
  have hyupK : (x : K) * (2 * w - P) < (y + 1) * w := by
    rw [← hcast, hw]
    exact_mod_cast hyup
  have hq : (x : K) ^ 2 * b / (2 * w * w) * (2 * w * w) = x ^ 2 * b :=
    div_mul_cancel₀ _ (by positivity)
  obtain ⟨q, hqdef⟩ : ∃ q : K, q = (x : K) ^ 2 * b / (2 * w * w) := ⟨_, rfl⟩
  rw [hpow2, ← hqdef]
  rw [← hqdef] at hq
  -- `x P` against `x² b / 2 ^ (n + 1)`, which is `q` scaled.
  have hxP : (x : K) * P ≤ q * w := by
    have hmul := mul_le_mul_of_nonneg_left hPlowK hx0
    have hle : (x : K) * P * (2 * w) ≤ q * w * (2 * w) := by
      calc (x : K) * P * (2 * w) = x * (P * (2 * w)) := by ring
        _ ≤ x * (x * b) := hmul
        _ = q * w * (2 * w) := by linear_combination -hq
    exact le_of_mul_le_mul_right hle (by positivity)
  have hxP' : q * w ≤ x * P + x := by
    have hmul := mul_le_mul_of_nonneg_left hPupK.le hx0
    have hle : q * w * (2 * w) ≤ ((x : K) * P + x) * (2 * w) := by
      calc q * w * (2 * w) = x * (x * b) := by linear_combination hq
        _ ≤ x * ((P + 1) * (2 * w)) := hmul
        _ = (x * P + x) * (2 * w) := by ring
    exact le_of_mul_le_mul_right hle (by positivity)
  constructor
  · refine lt_of_mul_lt_mul_right ?_ hwpos.le
    linarith
  · refine lt_of_mul_lt_mul_right ?_ hwpos.le
    linarith

/-- The error of a step from a bound of the one before it. -/
theorem newtonStep_error (hx : x < 2 ^ (n + 1)) (hb0 : 0 < b) (hb : b < 2 ^ (n + 1)) {E : K}
    (hE : |(x : K) - reciprocalOf n b| ≤ E) :
    -(E ^ 2 / 2 ^ n) - 1 < newtonStep n b x - (reciprocalOf n b : K) ∧
      newtonStep n b x - (reciprocalOf n b : K) < 2 := by
  obtain ⟨hlow, hup⟩ := newtonStep_exact (K := K) hx hb
  rw [newton_exact hb0] at hlow hup
  have hbK : (b : K) ≤ 2 ^ (n + 1) := by exact_mod_cast hb.le
  have hsq : ((x : K) - reciprocalOf n b) ^ 2 ≤ E ^ 2 := sq_le_sq' (by linarith [abs_le.1 hE])
    (abs_le.1 hE).2
  have hnonneg : 0 ≤ ((x : K) - reciprocalOf n b) ^ 2 * b / 2 ^ (2 * n + 1) := by positivity
  have hle : ((x : K) - reciprocalOf n b) ^ 2 * b / 2 ^ (2 * n + 1) ≤ E ^ 2 / 2 ^ n := by
    rw [div_le_div_iff₀ (by positivity) (by positivity)]
    have hmul : ((x : K) - reciprocalOf n b) ^ 2 * b ≤ E ^ 2 * 2 ^ (n + 1) :=
      mul_le_mul hsq hbK (Nat.cast_nonneg b) (sq_nonneg E)
    calc ((x : K) - reciprocalOf n b) ^ 2 * b * 2 ^ n
        ≤ E ^ 2 * 2 ^ (n + 1) * 2 ^ n := mul_le_mul_of_nonneg_right hmul (by positivity)
      _ = E ^ 2 * 2 ^ (2 * n + 1) := by
        rw [mul_assoc, ← pow_add]
        congr 2
        omega
  constructor <;> linarith

end Error
end LlvmTms9900.Arith
