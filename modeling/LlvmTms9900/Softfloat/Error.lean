import LlvmTms9900.Softfloat.IntConversion
import LlvmTms9900.Softfloat.Laws

/-!
# Errors of the operations

Every operation on finite numbers whose exact result is not too large is finite,
and off by at most the part `2 ^ -24` of the result and half of the least number.
-/

namespace LlvmTms9900.Softfloat
open LlvmTms9900.Arith

/-- The value of a number that is not a subnormal, from its significand. -/
theorem value_of_code {a : Rep} {e s : ℕ} (hc : code a = e * 2 ^ 23 + s) (hlo : 2 ^ 23 ≤ s)
    (hhi : s ≤ 2 ^ 24) : value a = (if a.msb then -1 else 1) * (s * 2 ^ e) / 2 ^ 149 := by
  rw [value, units, hc, mag_binade hhi (.inl hlo)]
  push_cast
  rfl

section Error
variable {x : ℚ} {s : Bool} {a b z : Rep}

/-- The bound of the error of a rounded `x`. -/
def roundoff (x : ℚ) : ℚ := |x| / 2 ^ 24 + 1 / 2 ^ 150

theorem value_eq_abs (hs : value z < 0 ↔ x < 0) :
    |value z - x| = |(|value z| - |x|)| := by
  by_cases hx : x < 0
  · have hz := hs.2 hx
    rw [abs_of_neg hz, abs_of_neg hx, ← abs_neg]
    congr 1
    ring
  · have hz : ¬ value z < 0 := fun h => hx (hs.1 h)
    rw [abs_of_nonneg (not_lt.1 hz), abs_of_nonneg (not_lt.1 hx)]

theorem Rounded.error (h : Rounded x s z) (hs : x ≠ 0 → s = decide (x < 0)) (hx : |x| ≤ 2 ^ 127) :
    Finite z ∧ |value z - x| ≤ roundoff x := by
  have hcode := h.code_le (k := 127) (by norm_num) hx
  have hfin : code z < infCode := by
    rw [infCode]
    omega
  refine ⟨hfin, ?_⟩
  have herr := NearestEven.error (p := 23) h.nearest hfin (by positivity)
  have habs : |(|value z| - |x|)| * 2 ^ 149 = |(|x| * 2 ^ 149 - mag 23 (code z))| := by
    have hpos : (0 : ℚ) < 2 ^ 149 := by positivity
    rw [abs_value, units, ← abs_of_pos hpos, ← abs_mul, abs_of_pos hpos, sub_mul,
      div_mul_cancel₀ _ hpos.ne', abs_sub_comm]
  have hbound : |(|value z| - |x|)| ≤ roundoff x := by
    have hpos : (0 : ℚ) < 2 ^ 149 := by positivity
    refine le_of_mul_le_mul_right ?_ hpos
    rw [habs]
    refine herr.trans_eq ?_
    unfold roundoff
    ring
  by_cases hz : IsZero z
  · rw [value_eq_zero hz, abs_zero, zero_sub, abs_neg, abs_abs] at hbound
    rw [value_eq_zero hz, zero_sub, abs_neg]
    exact hbound
  by_cases hx0 : x = 0
  · rw [hx0, abs_zero, sub_zero, abs_abs] at hbound
    rw [hx0, sub_zero]
    exact hbound
  · rw [value_eq_abs]
    · exact hbound
    · have hsign := (decide_value_neg hz).trans (h.sign.trans (hs hx0))
      exact decide_eq_decide.1 hsign

/-- A finite number with a given value, up to an error. -/
structure Approx (z : Rep) (x e : ℚ) : Prop where
  finite : Finite z
  error : |value z - x| ≤ e

theorem productSign_eq (h0 : value a * value b ≠ 0) :
    (a.msb ^^ b.msb) = decide (value a * value b < 0) := by
  have hza : ¬ IsZero a := fun hz => h0 (by rw [value_eq_zero hz, zero_mul])
  have hzb : ¬ IsZero b := fun hz => h0 (by rw [value_eq_zero hz, mul_zero])
  have hna := value_ne_zero hza
  have hnb := value_ne_zero hzb
  rw [← decide_value_neg hza, ← decide_value_neg hzb]
  rcases lt_or_gt_of_ne hna with h1 | h1 <;> rcases lt_or_gt_of_ne hnb with h2 | h2
  · rw [decide_eq_true h1, decide_eq_true h2, decide_eq_false (mul_pos_of_neg_of_neg h1 h2).not_gt]
    rfl
  · rw [decide_eq_true h1, decide_eq_false h2.not_gt, decide_eq_true (mul_neg_of_neg_of_pos h1 h2)]
    rfl
  · rw [decide_eq_false h1.not_gt, decide_eq_true h2, decide_eq_true (mul_neg_of_pos_of_neg h1 h2)]
    rfl
  · rw [decide_eq_false h1.not_gt, decide_eq_false h2.not_gt,
      decide_eq_false (mul_pos h1 h2).not_gt]
    rfl

theorem mulsf3_error (ha : Finite a) (hb : Finite b) (h : |value a * value b| ≤ 2 ^ 127) :
    ∃ z, mulsf3 a b = some z ∧ Approx z (value a * value b) (roundoff (value a * value b)) := by
  obtain ⟨z, hz, hr⟩ := mulsf3_result a b
  have hinvalid : ¬ (IsNaN a ∨ IsNaN b ∨ IsInf a ∧ IsZero b ∨ IsZero a ∧ IsInf b) := by
    rintro (h | h | h | h)
    exacts [ha.not_isNaN h, hb.not_isNaN h, ha.not_isInf h.1, hb.not_isInf h.2]
  have hinf : ¬ (IsInf a ∨ IsInf b) := not_or.2 ⟨ha.not_isInf, hb.not_isInf⟩
  obtain ⟨hfin, herr⟩ := (hr.rounded hinvalid hinf).error productSign_eq h
  exact ⟨z, hz, hfin, herr⟩

theorem sumSign_eq (ha : Finite a) (hb : Finite b) (h0 : value a + value b ≠ 0) :
    sumSign a b = decide (value a + value b < 0) := by
  rw [sumSign, if_neg ha.not_isInf, if_neg hb.not_isInf, if_neg h0]

theorem addsf3_error (ha : Finite a) (hb : Finite b) (h : |value a + value b| ≤ 2 ^ 127) :
    ∃ z, (addsf3 .toNearest a b).map Sum.rep = some z ∧
      Approx z (value a + value b) (roundoff (value a + value b)) := by
  obtain ⟨z, hz, hr⟩ := addsf3_result a b
  have hinvalid : ¬ (IsNaN a ∨ IsNaN b ∨ IsInf a ∧ IsInf b ∧ a.msb ≠ b.msb) := by
    rintro (h | h | h)
    exacts [ha.not_isNaN h, hb.not_isNaN h, ha.not_isInf h.1]
  have hinf : ¬ (IsInf a ∨ IsInf b) := not_or.2 ⟨ha.not_isInf, hb.not_isInf⟩
  obtain ⟨hfin, herr⟩ := (hr.rounded hinvalid hinf).error (sumSign_eq ha hb) h
  exact ⟨z.rep, by rw [hz]; rfl, hfin, herr⟩

end Error

section Approx
variable {a b z : Rep} {x y e d A B C : ℚ}

theorem Approx.exact (h : Finite a) : Approx a (value a) 0 :=
  ⟨h, by rw [sub_self, abs_zero]⟩

theorem Approx.mono (h : Approx z x e) (he : e ≤ d) : Approx z x d := ⟨h.finite, h.error.trans he⟩

theorem Approx.nonneg (h : Approx z x e) : 0 ≤ e := (abs_nonneg _).trans h.error

theorem Approx.abs_le (h : Approx z x e) (hx : |x| ≤ A) : |value z| ≤ A + e := by
  have htri := abs_sub_abs_le_abs_sub (value z) x
  linarith [h.error]

/-- The error of an operation on top of one in its exact result. -/
theorem Approx.trans (h : Approx z y (roundoff y)) (hyx : |y - x| ≤ e) (hy : |y| ≤ C) :
    Approx z x (e + (C / 2 ^ 24 + 1 / 2 ^ 150)) := by
  refine ⟨h.finite, ?_⟩
  have htri := abs_sub_le (value z) y x
  have hround : roundoff y ≤ C / 2 ^ 24 + 1 / 2 ^ 150 := by
    have hdiv : |y| / 2 ^ 24 ≤ C / 2 ^ 24 := div_le_div_of_nonneg_right hy (by positivity)
    unfold roundoff
    linarith
  linarith [h.error]

theorem Approx.mul (ha : Approx a x e) (hb : Approx b y d) (hx : |x| ≤ A) (hy : |y| ≤ B)
    (hbig : (A + e) * (B + d) ≤ 2 ^ 127) :
    ∃ z, mulsf3 a b = some z ∧
      Approx z (x * y) (A * d + e * (B + d) + ((A + e) * (B + d) / 2 ^ 24 + 1 / 2 ^ 150)) := by
  have hav := ha.abs_le hx
  have hbv := hb.abs_le hy
  have hA : 0 ≤ A := (abs_nonneg x).trans hx
  have hprod : |value a * value b| ≤ (A + e) * (B + d) := by
    rw [abs_mul]
    exact mul_le_mul hav hbv (abs_nonneg _) (add_nonneg hA ha.nonneg)
  have hdiff : |value a * value b - x * y| ≤ A * d + e * (B + d) := by
    have hsplit : value a * value b - x * y =
        x * (value b - y) + (value a - x) * value b := by ring
    have h1 : |x * (value b - y)| ≤ A * d := by
      rw [abs_mul]
      exact mul_le_mul hx hb.error (abs_nonneg _) hA
    have h2 : |(value a - x) * value b| ≤ e * (B + d) := by
      rw [abs_mul]
      exact mul_le_mul ha.error hbv (abs_nonneg _) ha.nonneg
    rw [hsplit]
    exact (abs_add_le _ _).trans (add_le_add h1 h2)
  obtain ⟨z, hz, h⟩ := mulsf3_error ha.finite hb.finite (hprod.trans hbig)
  exact ⟨z, hz, h.trans hdiff hprod⟩

theorem Approx.add (ha : Approx a x e) (hb : Approx b y d) (hsum : |x + y| ≤ C)
    (hbig : C + (e + d) ≤ 2 ^ 127) :
    ∃ z, (addsf3 .toNearest a b).map Sum.rep = some z ∧
      Approx z (x + y) (e + d + ((C + (e + d)) / 2 ^ 24 + 1 / 2 ^ 150)) := by
  have hdiff : |value a + value b - (x + y)| ≤ e + d := by
    have hsplit : value a + value b - (x + y) = (value a - x) + (value b - y) := by ring
    rw [hsplit]
    exact (abs_add_le _ _).trans (add_le_add ha.error hb.error)
  have habs : |value a + value b| ≤ C + (e + d) := by
    have htri := abs_sub_abs_le_abs_sub (value a + value b) (x + y)
    linarith
  obtain ⟨z, hz, h⟩ := addsf3_error ha.finite hb.finite (habs.trans hbig)
  exact ⟨z, hz, h.trans hdiff habs⟩

theorem Approx.neg (h : Approx a x e) : Approx (negsf2 a) (-x) e := by
  refine ⟨by rw [Finite, (packed_negsf2 a).code]; exact h.finite, ?_⟩
  rw [value_negsf2, ← abs_neg]
  have hsub : -(-value a - -x) = value a - x := by ring
  rw [hsub]
  exact h.error

theorem Approx.sub (ha : Approx a x e) (hb : Approx b y d) (hdiff : |x - y| ≤ C)
    (hbig : C + (e + d) ≤ 2 ^ 127) :
    ∃ z, (subsf3 .toNearest a b).map Sum.rep = some z ∧
      Approx z (x - y) (e + d + ((C + (e + d)) / 2 ^ 24 + 1 / 2 ^ 150)) := by
  rw [sub_eq_add_neg] at hdiff ⊢
  exact ha.add hb.neg hdiff hbig

end Approx

end LlvmTms9900.Softfloat
