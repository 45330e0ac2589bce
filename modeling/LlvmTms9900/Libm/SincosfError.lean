import LlvmTms9900.Arith.SinCos
import LlvmTms9900.Libm.Sincosf

/-!
# The errors of the kernels and of the reduction

The error of a kernel is the one of the Taylor remainder and of the roundings;
the reduction adds the rounding of a multiple of `pi / 2`, which is proportional
to the argument.
-/

namespace LlvmTms9900.Libm
open LlvmTms9900.Softfloat LlvmTms9900.Arith
open LlvmTms9900.Isa (Word)

section Kernel
variable {k1 k2 k3 x x2 : Rep} {X : ℚ}

/-- The polynomial of the values. -/
def poly (c1 c2 c3 X : ℚ) : ℚ := 1 + X * (c1 + X * (c2 + X * c3))

theorem polynomial_approx (h1 : Finite k1) (h2 : Finite k2) (h3 : Finite k3)
    (hk1 : |value k1| ≤ 1 / 2) (hk2 : |value k2| ≤ 1 / 20) (hk3 : |value k3| ≤ 1 / 500)
    (hx2 : Approx x2 X (1 / 2 ^ 24)) (hX : |X| ≤ 7 / 10) :
    ∃ z, polynomial k1 k2 k3 x2 = some z ∧
      Approx z (poly (value k1) (value k2) (value k3) X) (4 / 2 ^ 24) ∧
      |poly (value k1) (value k2) (value k3) X| ≤ 7 / 5 := by
  have hmul : ∀ {y B : ℚ}, |y| ≤ B → |X * y| ≤ 7 / 10 * B := by
    intro y B hy
    rw [abs_mul]
    exact mul_le_mul hX hy (abs_nonneg y) (by norm_num)
  obtain ⟨m3, hm3, e3⟩ := hx2.mul (Approx.exact h3) hX hk3 (by norm_num)
  have p3 := hmul hk3
  have s2 : |value k2 + X * value k3| ≤ 3 / 50 := (abs_add_le _ _).trans (by linarith)
  obtain ⟨a2, ha2, e2⟩ := (Approx.exact h2).add (e3.mono (d := 1 / 200 / 2 ^ 24) (by norm_num)) s2
    (by norm_num)
  obtain ⟨m2, hm2, f2⟩ := hx2.mul (e2.mono (d := 1 / 10 / 2 ^ 24) (by norm_num)) hX s2 (by norm_num)
  have p2 := hmul s2
  have s1 : |value k1 + X * (value k2 + X * value k3)| ≤ 11 / 20 :=
    (abs_add_le _ _).trans (by linarith)
  obtain ⟨a1, ha1, e1⟩ := (Approx.exact h1).add (f2.mono (d := 1 / 5 / 2 ^ 24) (by norm_num)) s1
    (by norm_num)
  obtain ⟨m1, hm1, f1⟩ := hx2.mul (e1.mono (d := 4 / 5 / 2 ^ 24) (by norm_num)) hX s1 (by norm_num)
  have p1 := hmul s1
  have hone : Approx one 1 0 := by
    have h := Approx.exact (a := one) (by decide)
    rwa [value_one] at h
  have s0 : |poly (value k1) (value k2) (value k3) X| ≤ 7 / 5 := by
    refine (abs_add_le _ _).trans ?_
    rw [abs_one]
    linarith
  obtain ⟨z, hz, e0⟩ := hone.add (f1.mono (d := 8 / 5 / 2 ^ 24) (by norm_num)) s0 (by norm_num)
  refine ⟨z, ?_, e0.mono (by norm_num), s0⟩
  simp only [polynomial, add, hm3, ha2, hm2, ha1, hm1, hz, Option.bind_eq_bind, Option.bind_some]

theorem square_approx (hx : Finite x) (hbound : |value x| ≤ 41 / 50) :
    ∃ z, mulsf3 x x = some z ∧ Approx z (value x ^ 2) (1 / 2 ^ 24) ∧ |value x ^ 2| ≤ 7 / 10 := by
  obtain ⟨z, hz, h⟩ := (Approx.exact hx).mul (Approx.exact hx) hbound hbound (by norm_num)
  refine ⟨z, hz, ?_, ?_⟩
  · rw [sq]
    exact h.mono (by norm_num)
  · rw [abs_pow]
    exact (pow_le_pow_left₀ (abs_nonneg _) hbound 2).trans (by norm_num)

theorem kernelSinf_approx (hx : Finite x) (hbound : |value x| ≤ 41 / 50) :
    ∃ z, kernelSinf x = some z ∧
      Approx z (value x * poly (value sin1) (value sin2) (value sin3) (value x ^ 2))
        (5 / 2 ^ 24) := by
  obtain ⟨x2, hx2, hsq, hsq'⟩ := square_approx hx hbound
  obtain ⟨p, hp, happ, hle⟩ := polynomial_approx finite_sin.1 finite_sin.2.1 finite_sin.2.2
    (by rw [value_sin1]; norm_num [abs_of_pos]) (by rw [value_sin2]; norm_num [abs_of_pos])
    (by rw [value_sin3]; norm_num [abs_of_pos]) hsq hsq'
  obtain ⟨z, hz, h⟩ := (Approx.exact hx).mul happ hbound hle (by norm_num)
  refine ⟨z, ?_, h.mono (by norm_num)⟩
  simp only [kernelSinf, hx2, hp, hz, Option.bind_eq_bind, Option.bind_some]

theorem kernelCosf_approx (hx : Finite x) (hbound : |value x| ≤ 41 / 50) :
    ∃ z, kernelCosf x = some z ∧
      Approx z (poly (value cos1) (value cos2) (value cos3) (value x ^ 2)) (5 / 2 ^ 24) := by
  obtain ⟨x2, hx2, hsq, hsq'⟩ := square_approx hx hbound
  obtain ⟨z, hz, h, -⟩ := polynomial_approx finite_cos.1 finite_cos.2.1 finite_cos.2.2
    (by rw [value_cos1]; norm_num [abs_of_pos]) (by rw [value_cos2]; norm_num [abs_of_pos])
    (by rw [value_cos3]; norm_num [abs_of_pos]) hsq hsq'
  refine ⟨z, ?_, h.mono (by norm_num)⟩
  simp only [kernelCosf, hx2, hz, Option.bind_eq_bind, Option.bind_some]

theorem abs_term_le {v : ℝ} (hv : |v| ≤ 41 / 50) (n : ℕ) (d : ℝ) :
    |v ^ n * d| ≤ (41 / 50) ^ n * |d| := by
  rw [abs_mul, abs_pow]
  exact mul_le_mul_of_nonneg_right (pow_le_pow_left₀ (abs_nonneg v) hv n) (abs_nonneg d)

/-- The rounded coefficients and the remainder of the sine. -/
theorem poly_sin {v : ℝ} (hv : |v| ≤ 41 / 50) :
    |v * (1 + v ^ 2 * (-(11184811 / 2 ^ 26) + v ^ 2 * (8947849 / 2 ^ 30 +
      v ^ 2 * -(13634817 / 2 ^ 36)))) - Real.sin v| ≤ 9 / 2 ^ 24 := by
  have hrem := sin_taylor v (hv.trans (by norm_num))
  have hsplit : v * (1 + v ^ 2 * (-(11184811 / 2 ^ 26) + v ^ 2 * (8947849 / 2 ^ 30 +
      v ^ 2 * -(13634817 / 2 ^ 36)))) - Real.sin v =
      (v ^ 3 * (1 / 6 - 11184811 / 2 ^ 26) + v ^ 5 * (8947849 / 2 ^ 30 - 1 / 120) +
        v ^ 7 * (1 / 5040 - 13634817 / 2 ^ 36)) -
      (Real.sin v - (v - v ^ 3 / 6 + v ^ 5 / 120 - v ^ 7 / 5040)) := by ring
  have h3 := abs_term_le hv 3 (1 / 6 - 11184811 / 2 ^ 26)
  have h5 := abs_term_le hv 5 (8947849 / 2 ^ 30 - 1 / 120)
  have h7 := abs_term_le hv 7 (1 / 5040 - 13634817 / 2 ^ 36)
  have h9 : |v| ^ 9 ≤ (41 / 50) ^ 9 := pow_le_pow_left₀ (abs_nonneg v) hv 9
  have hsum := abs_add_three (v ^ 3 * (1 / 6 - 11184811 / 2 ^ 26))
    (v ^ 5 * (8947849 / 2 ^ 30 - 1 / 120)) (v ^ 7 * (1 / 5040 - 13634817 / 2 ^ 36))
  rw [hsplit]
  refine (abs_sub _ _).trans ?_
  norm_num [abs_of_pos, abs_of_neg] at h3 h5 h7 h9 hsum ⊢
  linarith

/-- The rounded coefficients and the remainder of the cosine. -/
theorem poly_cos {v : ℝ} (hv : |v| ≤ 41 / 50) :
    |1 + v ^ 2 * (-(1 / 2) + v ^ 2 * (11184811 / 2 ^ 28 +
      v ^ 2 * -(11930465 / 2 ^ 33))) - Real.cos v| ≤ 97 / 2 ^ 24 := by
  have hrem := cos_taylor v (hv.trans (by norm_num))
  have hsplit : 1 + v ^ 2 * (-(1 / 2) + v ^ 2 * (11184811 / 2 ^ 28 +
      v ^ 2 * -(11930465 / 2 ^ 33))) - Real.cos v =
      (v ^ 4 * (11184811 / 2 ^ 28 - 1 / 24) + v ^ 6 * (1 / 720 - 11930465 / 2 ^ 33)) -
      (Real.cos v - (1 - v ^ 2 / 2 + v ^ 4 / 24 - v ^ 6 / 720)) := by ring
  have h4 := abs_term_le hv 4 (11184811 / 2 ^ 28 - 1 / 24)
  have h6 := abs_term_le hv 6 (1 / 720 - 11930465 / 2 ^ 33)
  have h8 : |v| ^ 8 ≤ (41 / 50) ^ 8 := pow_le_pow_left₀ (abs_nonneg v) hv 8
  have hsum := abs_add_le (v ^ 4 * (11184811 / 2 ^ 28 - 1 / 24))
    (v ^ 6 * (1 / 720 - 11930465 / 2 ^ 33))
  rw [hsplit]
  refine (abs_sub _ _).trans ?_
  norm_num [abs_of_pos, abs_of_neg] at h4 h6 h8 hsum ⊢
  linarith

/-- The real number that a finite representation stands for. -/
noncomputable def real (a : Rep) : ℝ := value a

theorem approx_real {z : Rep} {q e : ℚ} (h : Approx z q e) : |real z - q| ≤ e := by
  have herr := h.error
  unfold real
  exact_mod_cast herr

theorem abs_real_le {c : ℚ} (h : |value x| ≤ c) : |real x| ≤ c := by
  unfold real
  exact_mod_cast h

theorem kernelSinf_error (hx : Finite x) (hbound : |value x| ≤ 41 / 50) :
    ∃ z, kernelSinf x = some z ∧ Finite z ∧ |real z - Real.sin (real x)| ≤ 14 / 2 ^ 24 := by
  obtain ⟨z, hz, h⟩ := kernelSinf_approx hx hbound
  have herr := approx_real h
  have hv := abs_real_le hbound
  push_cast at hv
  have hpoly := poly_sin hv
  have htri := abs_sub_le (real z)
    (real x * (1 + real x ^ 2 * (-(11184811 / 2 ^ 26) + real x ^ 2 * (8947849 / 2 ^ 30 +
      real x ^ 2 * -(13634817 / 2 ^ 36))))) (Real.sin (real x))
  rw [poly, value_sin1, value_sin2, value_sin3] at herr
  push_cast at herr
  refine ⟨z, hz, h.finite, ?_⟩
  norm_num [real] at herr hpoly htri ⊢
  linarith

theorem kernelCosf_error (hx : Finite x) (hbound : |value x| ≤ 41 / 50) :
    ∃ z, kernelCosf x = some z ∧ Finite z ∧ |real z - Real.cos (real x)| ≤ 102 / 2 ^ 24 := by
  obtain ⟨z, hz, h⟩ := kernelCosf_approx hx hbound
  have herr := approx_real h
  have hv := abs_real_le hbound
  push_cast at hv
  have hpoly := poly_cos hv
  have htri := abs_sub_le (real z)
    (1 + real x ^ 2 * (-(1 / 2) + real x ^ 2 * (11184811 / 2 ^ 28 +
      real x ^ 2 * -(11930465 / 2 ^ 33)))) (Real.cos (real x))
  rw [poly, value_cos1, value_cos2, value_cos3] at herr
  push_cast at herr
  refine ⟨z, hz, h.finite, ?_⟩
  norm_num [real] at herr hpoly htri ⊢
  linarith

end Kernel

section Conversion
variable {x z : Rep} {n : Word}

/-- The code of `2 ^ 15`. -/
def intLimit : ℕ := 142 * 2 ^ 23

theorem grid_intLimit : grid intLimit = 2 ^ 15 * 2 ^ 149 := by
  have h := grid_two_pow 15
  rwa [show (15 + 126) * 2 ^ 23 + 2 ^ 23 = intLimit from rfl] at h

theorem abs_value_lt_iff (x : Rep) : |value x| < 2 ^ 15 ↔ code x < intLimit := by
  have hpos : (0 : ℚ) < 2 ^ 149 := by positivity
  rw [abs_value, div_lt_iff₀ hpos, ← grid_intLimit, ← grid_strictMono.lt_iff_lt]
  rfl

theorem toInt_of_large (h : intLimit ≤ code x) : toInt x = none := by
  refine if_neg fun hlt => ?_
  have hcode : code x < intLimit := BitVec.lt_def.1 hlt
  omega

theorem toInt_of_small (h : |value x| < 2 ^ 15) :
    ∃ n, toInt x = some n ∧ n.toInt = truncate (value x) := by
  have hcode := (abs_value_lt_iff x).1 h
  have hfin : Finite x := lt_trans hcode (by decide)
  obtain ⟨z, hz, hzv⟩ := fixsfsi_spec x
  rw [if_pos ⟨hfin, h.trans (by norm_num)⟩] at hzv
  refine ⟨z.setWidth 16, ?_, ?_⟩
  · have hlt : x &&& absMask < 0x47000000#32 := BitVec.lt_def.2 hcode
    rw [toInt, if_pos hlt, hz]
    rfl
  · have hpart : (integerPart x : ℤ) < 2 ^ 15 := by
      rw [← floor_abs_value, Int.floor_lt]
      exact_mod_cast h
    have hbound : -2 ^ 15 < truncate (value x) ∧ truncate (value x) < 2 ^ 15 := by
      rw [truncate_value]
      split <;> omega
    obtain ⟨t, ht⟩ : ∃ t, truncate (value x) = t := ⟨_, rfl⟩
    rw [ht] at hbound hzv ⊢
    rw [hzv, BitVec.toInt_setWidth, BitVec.toNat_ofInt, Int.bmod_def]
    split <;> omega

/-- `(float)n` is exact. -/
theorem floatsisf_exact (n : Word) :
    ∃ z, floatsisf (n.signExtend 32) = some z ∧ Finite z ∧ value z = n.toInt := by
  obtain ⟨z, hz, hr⟩ := floatsisf_spec (n.signExtend 32)
  have hn : (n.signExtend 32).toInt = n.toInt := BitVec.toInt_signExtend_of_le (by norm_num)
  have hlo := BitVec.le_toInt n
  have hhi := BitVec.toInt_lt (x := n)
  rw [hn] at hr
  have hcode := hr.le_two_pow (k := 15) (by norm_num) (by rw [abs_le]; omega)
  refine ⟨z, hz, ?_, hr.exact_of_small (fun _ => rfl) (by rw [abs_le]; omega)⟩
  rw [Softfloat.Finite, infCode]
  omega

end Conversion

section Reduction
variable {x z h : Rep} {n : Word} {r : Reduced}

/-- The operand without its sign. -/
def absolute (x : Rep) : Rep := if x >>> 31 ≠ 0#32 then negsf2 x else x

theorem sign_ne_zero_iff (x : Rep) : x >>> 31 ≠ 0#32 ↔ x.msb = true := by
  have hzero : x >>> 31 = 0#32 ↔ (x >>> 31).toNat = 0 :=
    ⟨fun h => by rw [h]; rfl, fun h => BitVec.eq_of_toNat_eq h⟩
  have hlt := x.isLt
  rw [Ne, hzero, Builtins.Udivmoddi4.shr_toNat, msb_eq, decide_eq_true_eq]
  omega

theorem packed_absolute (x : Rep) : Packed false (code x) (absolute x) := by
  unfold absolute
  by_cases hs : x.msb = true
  · rw [if_pos ((sign_ne_zero_iff x).2 hs)]
    have h := packed_negsf2 x
    rwa [hs] at h
  · rw [if_neg (fun h => hs ((sign_ne_zero_iff x).1 h))]
    have h := packed_self x
    have hs' : x.msb = false := Bool.eq_false_iff.2 hs
    rwa [hs'] at h

theorem value_absolute (x : Rep) : value (absolute x) = |value x| := by
  have h := packed_absolute x
  rw [abs_value, value, h.msb, units, units, h.code, if_neg Bool.false_ne_true, one_mul]

/-- What is taken off for `n` quarter turns. -/
def turned (z fn : Rep) : Option Rep := do
  sub (← sub z (← mulsf3 fn pio2Hi)) (← mulsf3 fn pio2Lo)

theorem turned_approx {fn : Rep} {N : ℕ} (hz : Finite z) (hf : Finite fn) (hfn : value fn = N)
    (hN : N < 2 ^ 15) (hV : |value z - N * value pio2Hi| ≤ 4 / 5) :
    ∃ y, turned z fn = some y ∧
      Approx y (value z - N * value pio2Hi - N * value pio2Lo) (value z / 2 ^ 24 + 3 / 2 ^ 24) := by
  have hNQ : (N : ℚ) ≤ 2 ^ 15 := by exact_mod_cast hN.le
  have hN0 : |(N : ℚ)| ≤ N := (abs_of_nonneg (Nat.cast_nonneg N)).le
  have hHi : |value pio2Hi| ≤ value pio2Hi := by
    rw [abs_of_nonneg]
    rw [value_pio2Hi]
    norm_num
  have hLo : |value pio2Lo| ≤ 1 / 2 ^ 24 := by
    rw [value_pio2Lo]
    norm_num [abs_of_pos]
  have hprod : (N : ℚ) * value pio2Hi ≤ 2 ^ 16 := by
    rw [value_pio2Hi]
    calc (N : ℚ) * (13176795 / 2 ^ 23) ≤ 2 ^ 15 * (13176795 / 2 ^ 23) :=
          mul_le_mul_of_nonneg_right hNQ (by norm_num)
      _ ≤ 2 ^ 16 := by norm_num
  have hNlo : |(N : ℚ) * value pio2Lo| ≤ 1 / 500 := by
    rw [abs_mul]
    refine (mul_le_mul (hN0.trans hNQ) hLo (abs_nonneg _) (by norm_num)).trans (by norm_num)
  have hfA : Approx fn N 0 := hfn ▸ Approx.exact hf
  obtain ⟨p1, hp1, e1⟩ := hfA.mul (Approx.exact finite_pio2.1) hN0 hHi
    (by rw [add_zero, add_zero]; exact hprod.trans (by norm_num))
  have e1' := e1.mono (d := (N : ℚ) * value pio2Hi / 2 ^ 24 + 1 / 2 ^ 150) (by
    rw [mul_zero, zero_mul, zero_add, zero_add, add_zero, add_zero])
  obtain ⟨d1, hd1, f1⟩ := (Approx.exact hz).sub e1' hV (by
    norm_num at hprod ⊢
    linarith)
  obtain ⟨p2, hp2, e2⟩ := hfA.mul (Approx.exact finite_pio2.2.1) (hN0.trans hNQ) hLo (by norm_num)
  have hdiff : |value z - N * value pio2Hi - N * value pio2Lo| ≤ 803 / 1000 :=
    (abs_sub _ _).trans (by linarith)
  have f1' := f1.mono (d := (N : ℚ) * value pio2Hi / 2 ^ 24 + 9 / 10 / 2 ^ 24) (by
    norm_num at hprod ⊢
    linarith)
  obtain ⟨y, hy, e⟩ := f1'.sub (e2.mono (d := 1 / 100 / 2 ^ 24) (by norm_num)) hdiff (by
    norm_num at hprod ⊢
    linarith)
  refine ⟨y, ?_, e.mono ?_⟩
  · simp only [turned, sub, hp1, hd1, hp2, hy, Option.bind_eq_bind, Option.bind_some]
  · have hup := (abs_le.1 hV).1
    norm_num at hprod hup ⊢
    linarith

theorem IsQuietNaN.intLimit_le (h : IsQuietNaN z) : intLimit ≤ code z := by
  have hlt := h.1
  unfold IsNaN at hlt
  exact le_trans (by decide) hlt.le

theorem IsInf.intLimit_le (h : IsInf z) : intLimit ≤ code z := by
  rw [IsInf] at h
  rw [h]
  decide

theorem quotient_large (hm : z.msb = false) (hz : ¬ Softfloat.Finite z ∨ 2 ^ 16 ≤ value z) :
    ∃ q, mulsf3 z invpio2 = some q ∧ intLimit ≤ code q ∧ (¬ IsNaN q → q.msb = false) := by
  obtain ⟨q, hq, hr⟩ := mulsf3_result z invpio2
  have hsign : (z.msb ^^ invpio2.msb) = false := by rw [hm]; decide
  rw [hsign] at hr
  have hI := finite_pio2.2.2
  have hI0 : ¬ IsZero invpio2 := by decide
  refine ⟨q, hq, ?_⟩
  by_cases hn : IsNaN z
  · have hquiet := hr.nan (.inl hn)
    exact ⟨IsQuietNaN.intLimit_le hquiet, fun h => absurd hquiet.1 h⟩
  have hinvalid :
      ¬ (IsNaN z ∨ IsNaN invpio2 ∨ IsInf z ∧ IsZero invpio2 ∨ IsZero z ∧ IsInf invpio2) := by
    rintro (h | h | h | h)
    exacts [hn h, hI.not_isNaN h, hI0 h.2, hI.not_isInf h.2]
  by_cases hi : IsInf z
  · obtain ⟨hinf, hs⟩ := hr.inf hinvalid (.inl hi)
    exact ⟨IsInf.intLimit_le hinf, fun _ => hs⟩
  · have hfin := ((not_isNaN_iff z).1 hn).resolve_left hi
    have hrd := hr.rounded hinvalid (not_or.2 ⟨hi, hI.not_isInf⟩)
    have hle := hrd.le_code (k := 15) (by norm_num) (by
      have hlarge := hz.resolve_left (not_not.2 hfin)
      rw [value_invpio2]
      refine le_trans ?_ (le_abs_self _)
      norm_num at hlarge ⊢
      linarith)
    exact ⟨hle, fun _ => hrd.sign⟩

theorem index_large {q : Rep} (hq : intLimit ≤ code q) (hm : ¬ IsNaN q → q.msb = false) :
    ∃ h, add q half = some h ∧ intLimit ≤ code h := by
  obtain ⟨h, hh, hr⟩ := addsf3_result q half
  have hH : Softfloat.Finite half := by decide
  refine ⟨h.rep, by rw [add, hh]; rfl, ?_⟩
  by_cases hn : IsNaN q
  · exact IsQuietNaN.intLimit_le (hr.nan (.inl hn))
  have hinvalid : ¬ (IsNaN q ∨ IsNaN half ∨ IsInf q ∧ IsInf half ∧ q.msb ≠ half.msb) := by
    rintro (h | h | h)
    exacts [hn h, hH.not_isNaN h, hH.not_isInf h.2.1]
  by_cases hi : IsInf q
  · exact IsInf.intLimit_le (hr.inf hinvalid (.inl hi)).1
  · have hrd := hr.rounded hinvalid (not_or.2 ⟨hi, hH.not_isInf⟩)
    have hnot : ¬ |value q| < 2 ^ 15 := fun hlt => absurd ((abs_value_lt_iff q).1 hlt) (by omega)
    have hpos : |value q| = value q := by
      rw [abs_value, value, hm hn, if_neg Bool.false_ne_true, one_mul]
    rw [hpos] at hnot
    exact hrd.le_code (k := 15) (by norm_num) (by
      rw [value_half]
      refine le_trans ?_ (le_abs_self _)
      linarith)

theorem index_approx (hz : Softfloat.Finite z) (h0 : 0 ≤ value z) (hle : value z ≤ 2 ^ 16) :
    ∃ q h, mulsf3 z invpio2 = some q ∧ add q half = some h ∧
      Approx h (value z * value invpio2 + 1 / 2) (1 / 150) := by
  have hI : |value invpio2| ≤ 2 / 3 := by
    rw [value_invpio2]
    norm_num [abs_of_pos]
  obtain ⟨q, hq, e⟩ := (Approx.exact hz).mul (Approx.exact finite_pio2.2.2)
    ((abs_of_nonneg h0).trans_le hle) hI (by norm_num)
  have hhalf : Approx half (1 / 2) 0 := by
    have h := Approx.exact (a := half) (by decide)
    rwa [value_half] at h
  have hsum : |value z * value invpio2 + 1 / 2| ≤ 41723 := by
    rw [value_invpio2, abs_of_nonneg (by positivity)]
    norm_num at hle ⊢
    linarith
  obtain ⟨h, hh, f⟩ := (e.mono (d := 27 / 10000) (by norm_num)).add hhalf hsum (by norm_num)
  exact ⟨q, h, hq, hh, f.mono (by norm_num)⟩

/-- The representation just above `pi / 4` up to which nothing is taken off. -/
def pio4 : Rep := 0x3F490FDB#32

theorem value_pio4 : value pio4 = 13176795 / 2 ^ 24 := by
  rw [value_of_code (e := 125) (s := 13176795) (by decide) (by norm_num) (by norm_num)]
  norm_num [show pio4.msb = false from rfl]

theorem abs_value_le_pio4 (x : Rep) : |value x| ≤ 13176795 / 2 ^ 24 ↔ code x ≤ code pio4 := by
  have h : value pio4 = |value pio4| := by
    rw [value_pio4, abs_of_pos (by norm_num)]
  rw [← value_pio4, h, abs_value, abs_value, div_le_div_iff_of_pos_right (by positivity),
    units_le_iff]

theorem remPio2f_small (h : code x ≤ code pio4) : remPio2f x = some ⟨0#16, x⟩ := by
  have hle : x &&& 0x7FFFFFFF#32 ≤ 0x3F490FDB#32 := BitVec.le_def.2 h
  simp only [remPio2f, if_pos hle, Option.pure_def]

/-- With its sign the rest of `x`. -/
def signed (x : Rep) (n : Word) (y : Rep) : Reduced :=
  if x >>> 31 ≠ 0#32 then ⟨-n, negsf2 y⟩ else ⟨n, y⟩

theorem remPio2f_large (h : code pio4 < code x) : remPio2f x =
    (mulsf3 (absolute x) invpio2).bind fun q => (add q half).bind fun h => (toInt h).bind fun n =>
      (floatsisf (n.signExtend 32)).bind fun fn => (turned (absolute x) fn).map (signed x n) := by
  have hle : ¬ x &&& 0x7FFFFFFF#32 ≤ 0x3F490FDB#32 := fun hle =>
    absurd h (not_lt.2 (BitVec.le_def.1 hle))
  unfold remPio2f
  simp only [if_neg hle, turned, absolute, signed, Option.bind_eq_bind, Option.pure_def,
    Option.map_eq_bind, Option.bind_assoc, Function.comp_def]

theorem remPio2f_none (hx : ¬ Softfloat.Finite x ∨ 2 ^ 16 ≤ |value x|) : remPio2f x = none := by
  have hp := packed_absolute x
  have hlarge : ¬ Softfloat.Finite (absolute x) ∨ 2 ^ 16 ≤ value (absolute x) := by
    rwa [Softfloat.Finite, hp.code, value_absolute]
  obtain ⟨q, hq, hqle, hqm⟩ := quotient_large hp.msb hlarge
  obtain ⟨h, hh, hhle⟩ := index_large hqle hqm
  have hcode : code pio4 < code x := by
    by_contra hcon
    have hle := (abs_value_le_pio4 x).2 (not_lt.1 hcon)
    have hfin : Softfloat.Finite x := lt_of_le_of_lt (not_lt.1 hcon) (by decide)
    have h16 := hx.resolve_left (not_not.2 hfin)
    norm_num at hle h16
    linarith
  rw [remPio2f_large hcode, hq, Option.bind_some, hh, Option.bind_some, toInt_of_large hhle,
    Option.bind_none]

/-- The quarter turns `r.n` and the rest `r.y` of `x`, with the error of the reduction. -/
structure ReducedTo (x : Rep) (r : Reduced) : Prop where
  finite : Softfloat.Finite r.y
  small : |value r.y| ≤ 41 / 50
  turns : |r.n.toInt| < 2 ^ 15
  error : |value r.y - (value x - r.n.toInt * (value pio2Hi + value pio2Lo))| ≤
    |value x| / 2 ^ 24 + 3 / 2 ^ 24

/-- The number of turns is the nearest one, up to the error of the quotient. -/
theorem turns_near {V H : ℚ} {N : ℕ} (hN : N < 2 ^ 15)
    (hH : |H - (V * value invpio2 + 1 / 2)| ≤ 1 / 150) (hlo : (N : ℚ) ≤ H)
    (hhi : H < N + 1) : |V - N * value pio2Hi| ≤ 4 / 5 := by
  have hNQ : (N : ℚ) ≤ 2 ^ 15 := by exact_mod_cast hN.le
  obtain ⟨h1, h2⟩ := abs_le.1 hH
  rw [value_invpio2] at h1 h2
  rw [value_pio2Hi, abs_le]
  have hN0 : (0 : ℚ) ≤ N := Nat.cast_nonneg N
  have h15 : (2 : ℚ) ^ 15 = 32768 := by norm_num
  rw [h15] at hNQ
  constructor <;> linarith

theorem value_eq_signed (x : Rep) : value x = if x.msb then -|value x| else |value x| := by
  rw [abs_value, value]
  split
  · ring
  · ring

/-- The sign of `x` goes to both parts. -/
theorem signed_reducedTo {y : Rep} {N : ℕ} (hn : n.toInt = N) (hN : N < 2 ^ 15)
    (hV : |value x| < 2 ^ 16) (hnear : |(|value x|) - N * value pio2Hi| ≤ 4 / 5)
    (hy : Approx y (|value x| - N * value pio2Hi - N * value pio2Lo)
      (|value x| / 2 ^ 24 + 3 / 2 ^ 24)) : ReducedTo x (signed x n y) := by
  have hsmall : |value y| ≤ 41 / 50 := by
    have hNQ : (N : ℚ) ≤ 2 ^ 15 := by exact_mod_cast hN.le
    have hLo : |(N : ℚ) * value pio2Lo| ≤ 1 / 500 := by
      rw [value_pio2Lo, abs_mul, abs_of_nonneg (Nat.cast_nonneg N), abs_neg,
        abs_of_pos (by norm_num)]
      exact (mul_le_mul_of_nonneg_right hNQ (by norm_num)).trans (by norm_num)
    refine (hy.abs_le ((abs_sub _ _).trans (add_le_add hnear hLo))).trans ?_
    norm_num at hV ⊢
    linarith
  have herr := hy.error
  by_cases hs : x.msb = true
  · have hneg : (-n).toInt = -(N : ℤ) := by
      rw [BitVec.toInt_neg, hn, Int.bmod_eq_of_le (by omega) (by omega)]
    have hval := value_eq_signed x
    rw [if_pos hs] at hval
    rw [signed, if_pos ((sign_ne_zero_iff x).2 hs)]
    refine ⟨hy.neg.finite, ?_, ?_, ?_⟩
    · rw [value_negsf2, abs_neg]
      exact hsmall
    · change |(-n).toInt| < _
      rw [hneg, abs_neg, Nat.abs_cast]
      exact_mod_cast hN
    · change |value (negsf2 y) - (value x - (-n).toInt * _)| ≤ _
      have hsplit : value (negsf2 y) -
          (value x - ((-(N : ℤ) : ℤ) : ℚ) * (value pio2Hi + value pio2Lo)) =
          -(value y - (|value x| - N * value pio2Hi - N * value pio2Lo)) := by
        rw [value_negsf2]
        push_cast
        linear_combination -hval
      rw [hneg, hsplit, abs_neg]
      exact herr
  · have hval := value_eq_signed x
    rw [if_neg hs] at hval
    rw [signed, if_neg (fun h => hs ((sign_ne_zero_iff x).1 h))]
    refine ⟨hy.finite, hsmall, ?_, ?_⟩
    · change |n.toInt| < _
      rw [hn, Nat.abs_cast]
      exact_mod_cast hN
    · change |value y - (value x - n.toInt * _)| ≤ _
      have hsplit : value y - (value x - ((N : ℤ) : ℚ) * (value pio2Hi + value pio2Lo)) =
          value y - (|value x| - N * value pio2Hi - N * value pio2Lo) := by
        push_cast
        linear_combination -hval
      rw [hn, hsplit]
      exact herr

theorem remPio2f_cases (hx : Softfloat.Finite x) (hV : |value x| < 2 ^ 16) :
    remPio2f x = none ∧ 51471 < |value x| ∨ ∃ r, remPio2f x = some r ∧ ReducedTo x r := by
  have hp := packed_absolute x
  have hval := value_absolute x
  rcases le_or_gt (code x) (code pio4) with hsmall | hlarge
  · refine .inr ⟨_, remPio2f_small hsmall, hx, ?_, (by decide : |(0#16).toInt| < 2 ^ 15), ?_⟩
    · exact ((abs_value_le_pio4 x).2 hsmall).trans (by norm_num)
    · have hzero : (0#16).toInt = 0 := rfl
      rw [hzero, Int.cast_zero, zero_mul, sub_zero, sub_self, abs_zero]
      positivity
  have hfin : Softfloat.Finite (absolute x) := by rwa [Softfloat.Finite, hp.code]
  have h0 : 0 ≤ value (absolute x) := by
    rw [hval]
    exact abs_nonneg _
  obtain ⟨q, h, hq, hh, happ⟩ := index_approx hfin h0 (by rw [hval]; exact hV.le)
  have hpos : 0 ≤ value h := by
    have hle := (abs_le.1 happ.error).1
    rw [value_invpio2] at hle
    linarith
  rw [remPio2f_large hlarge, hq, Option.bind_some, hh, Option.bind_some]
  by_cases hfit : |value h| < 2 ^ 15
  · right
    obtain ⟨n, hn, hnv⟩ := toInt_of_small hfit
    obtain ⟨fn, hfn, hffin, hfv⟩ := floatsisf_exact n
    obtain ⟨N, hN⟩ : ∃ N : ℕ, truncate (value h) = N := by
      refine ⟨integerPart h, ?_⟩
      rw [truncate, if_neg (not_lt.2 hpos), ← floor_abs_value, abs_of_nonneg hpos]
    rw [hN] at hnv
    have hfloor : ⌊value h⌋ = N := by rw [← hN, truncate, if_neg (not_lt.2 hpos)]
    obtain ⟨hlo, hhi⟩ := Int.floor_eq_iff.1 hfloor
    push_cast at hlo hhi
    have hlt : N < 2 ^ 15 := by
      rw [abs_of_nonneg hpos] at hfit
      exact_mod_cast hlo.trans_lt hfit
    rw [hnv, Int.cast_natCast] at hfv
    have hnear := turns_near hlt happ.error hlo hhi
    obtain ⟨y, hy, hye⟩ := turned_approx hfin hffin hfv hlt hnear
    refine ⟨signed x n y, ?_, ?_⟩
    · rw [hn, Option.bind_some, hfn, Option.bind_some, hy, Option.map_some]
    · rw [hval] at hnear hye
      exact signed_reducedTo hnv hlt hV hnear hye
  · left
    have hle : intLimit ≤ code h := not_lt.1 fun hlt => hfit ((abs_value_lt_iff h).2 hlt)
    rw [toInt_of_large hle, Option.bind_none]
    refine ⟨rfl, ?_⟩
    have hup := (abs_le.1 happ.error).2
    rw [abs_of_nonneg hpos, not_lt] at hfit
    rw [value_invpio2, hval] at hup
    norm_num at hfit
    linarith

end Reduction

end LlvmTms9900.Libm
