import Mathlib

/-!
# Sine and cosine near zero

The Taylor polynomials of degree 7 and 6 with their remainders, and the formulas
that turn by a number of quarters.
-/

namespace LlvmTms9900.Arith
open Complex (exp I exp_bound)

section Taylor

/-- The first eight terms of the exponential of `x * I`. -/
theorem exp_terms (x : ℝ) : ∑ m ∈ Finset.range 8, ((x : ℂ) * I) ^ m / m.factorial =
    ((1 - x ^ 2 / 2 + x ^ 4 / 24 - x ^ 6 / 720 : ℝ) : ℂ) +
      ((x - x ^ 3 / 6 + x ^ 5 / 120 - x ^ 7 / 5040 : ℝ) : ℂ) * I := by
  have h2 : (I : ℂ) ^ 2 = -1 := Complex.I_sq
  have h3 : (I : ℂ) ^ 3 = -I := Complex.I_pow_three
  have h4 : (I : ℂ) ^ 4 = 1 := Complex.I_pow_four
  have h5 : (I : ℂ) ^ 5 = I := by rw [pow_succ, h4, one_mul]
  have h6 : (I : ℂ) ^ 6 = -1 := by rw [pow_succ, h5, ← sq, h2]
  have h7 : (I : ℂ) ^ 7 = -I := by rw [pow_succ, h6, neg_one_mul]
  simp only [Finset.sum_range_succ, Finset.sum_range_zero, mul_pow, h2, h3, h4, h5, h6, h7,
    Nat.factorial]
  push_cast
  ring

theorem exp_remainder (x : ℝ) (hx : |x| ≤ 1) {n : ℕ} (hn : 0 < n) :
    ‖exp (x * I) - ∑ m ∈ Finset.range n, (x * I) ^ m / m.factorial‖ ≤
      |x| ^ n * ((n.succ : ℝ) * (n.factorial * n : ℝ)⁻¹) := by
  have hnorm : ‖(x : ℂ) * I‖ = |x| := by simp
  have h := exp_bound (x := (x : ℂ) * I) (by rw [hnorm]; exact hx) hn
  rwa [hnorm] at h

theorem sin_taylor (x : ℝ) (hx : |x| ≤ 1) :
    |Real.sin x - (x - x ^ 3 / 6 + x ^ 5 / 120 - x ^ 7 / 5040)| ≤ |x| ^ 9 / 326592 := by
  have h := exp_remainder x hx (n := 9) (by norm_num)
  -- The ninth term is real.
  have hlast : ((x : ℂ) * I) ^ 8 / (Nat.factorial 8 : ℕ) = ((x ^ 8 / 40320 : ℝ) : ℂ) := by
    have h8 : (I : ℂ) ^ 8 = 1 := by
      rw [show 8 = 4 + 4 from rfl, pow_add, Complex.I_pow_four, one_mul]
    rw [mul_pow, h8, mul_one]
    norm_num [Nat.factorial]
  have him : (exp (x * I) - ∑ m ∈ Finset.range 9, (x * I) ^ m / m.factorial).im =
      Real.sin x - (x - x ^ 3 / 6 + x ^ 5 / 120 - x ^ 7 / 5040) := by
    rw [Finset.sum_range_succ, exp_terms, hlast, Complex.exp_mul_I, ← Complex.ofReal_cos,
      ← Complex.ofReal_sin]
    simp only [Complex.sub_im, Complex.add_im, Complex.mul_im, Complex.ofReal_im,
      Complex.ofReal_re, Complex.I_im, Complex.I_re]
    ring
  have hle := (Complex.abs_im_le_norm _).trans h
  rw [him] at hle
  refine hle.trans_eq ?_
  norm_num [Nat.factorial]
  ring

theorem cos_taylor (x : ℝ) (hx : |x| ≤ 1) :
    |Real.cos x - (1 - x ^ 2 / 2 + x ^ 4 / 24 - x ^ 6 / 720)| ≤ |x| ^ 8 / 35840 := by
  have h := exp_remainder x hx (n := 8) (by norm_num)
  have hre : (exp (x * I) - ∑ m ∈ Finset.range 8, (x * I) ^ m / m.factorial).re =
      Real.cos x - (1 - x ^ 2 / 2 + x ^ 4 / 24 - x ^ 6 / 720) := by
    rw [exp_terms, Complex.exp_mul_I, ← Complex.ofReal_cos, ← Complex.ofReal_sin]
    simp only [Complex.sub_re, Complex.add_re, Complex.mul_re, Complex.ofReal_im,
      Complex.ofReal_re, Complex.I_im, Complex.I_re]
    ring
  have hle := (Complex.abs_re_le_norm _).trans h
  rw [hre] at hle
  refine hle.trans_eq ?_
  norm_num [Nat.factorial]
  ring

end Taylor

section Quarters
open Real

/-- A whole number of turns can be left out. -/
theorem quarters_eq (w : ℝ) (m : ℤ) :
    w + m * (π / 2) = w + (m % 4 : ℤ) * (π / 2) + (m / 4 : ℤ) * (2 * π) := by
  have hm : (m : ℝ) = (m % 4 : ℤ) + 4 * (m / 4 : ℤ) := by
    exact_mod_cast (Int.emod_add_mul_ediv m 4).symm
  rw [hm]
  ring

/-- What is left of the sine after `m` quarter turns. -/
noncomputable def sinQuarter (m : ℤ) (w : ℝ) : ℝ :=
  if m % 4 = 0 then sin w else if m % 4 = 1 then cos w else if m % 4 = 2 then -sin w else -cos w

theorem sin_add_quarters (w : ℝ) (m : ℤ) : sin (w + m * (π / 2)) = sinQuarter m w := by
  rw [quarters_eq, sin_add_int_mul_two_pi]
  have hlt := Int.emod_lt_of_pos m (by norm_num : (0 : ℤ) < 4)
  have hge := Int.emod_nonneg m (by norm_num : (4 : ℤ) ≠ 0)
  unfold sinQuarter
  obtain h | h | h | h : m % 4 = 0 ∨ m % 4 = 1 ∨ m % 4 = 2 ∨ m % 4 = 3 := by omega
  · rw [h, if_pos rfl, Int.cast_zero, zero_mul, add_zero]
  · rw [h, if_neg (by norm_num), if_pos rfl, Int.cast_one, one_mul, sin_add_pi_div_two]
  · have hturn : ((2 : ℤ) : ℝ) * (π / 2) = π := by
      push_cast
      ring
    rw [h, if_neg (by norm_num), if_neg (by norm_num), if_pos rfl, hturn, sin_add_pi]
  · have hturn : w + ((3 : ℤ) : ℝ) * (π / 2) = w + π / 2 + π := by
      push_cast
      ring
    rw [h, if_neg (by norm_num), if_neg (by norm_num), if_neg (by norm_num), hturn, sin_add_pi,
      sin_add_pi_div_two]

theorem cos_add_quarters (w : ℝ) (m : ℤ) : cos (w + m * (π / 2)) = sinQuarter (m + 1) w := by
  rw [← sin_add_quarters, ← sin_add_pi_div_two]
  push_cast
  congr 1
  ring

/-- A quarter more or less keeps the distance of two sines or cosines. -/
theorem sinQuarter_sub_le (m : ℤ) (v w : ℝ) : |sinQuarter m v - sinQuarter m w| ≤ |v - w| := by
  have h := abs_sin_sub_sin_le (v + m * (π / 2)) (w + m * (π / 2))
  rw [sin_add_quarters, sin_add_quarters, add_sub_add_right_eq_sub] at h
  exact h

end Quarters

end LlvmTms9900.Arith
