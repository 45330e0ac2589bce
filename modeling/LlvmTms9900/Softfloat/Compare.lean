import LlvmTms9900.Softfloat.Sum

/-!
# Comparison (libtms9900/builtins/softfloat/fp_compare_impl.inc)

Representations are compared as signed integers, with the sense flipped for two
negative ones. The order they stand for is that of the extended real numbers.
-/

namespace LlvmTms9900.Softfloat
open LlvmTms9900.Arith

section Model

/-- `__leXf2__` and `__geXf2__`, which differ in the result for NaNs. -/
def compareXf2 (unordered : ℤ) (a b : Rep) : ℤ :=
  let aAbs := a &&& absMask
  let bAbs := b &&& absMask
  if infRep < aAbs ∨ infRep < bAbs then unordered
  else if aAbs ||| bAbs = 0#32 then 0
  else if 0 ≤ (a &&& b).toInt then
    if a.toInt < b.toInt then -1 else if a = b then 0 else 1
  else if b.toInt < a.toInt then -1 else if a = b then 0 else 1

/-- `__lesf2`, also `__cmpsf2`, `__eqsf2`, `__ltsf2` and `__nesf2` -/
def lesf2 (a b : Rep) : ℤ := compareXf2 1 a b

/-- `__gesf2`, also `__gtsf2` -/
def gesf2 (a b : Rep) : ℤ := compareXf2 (-1) a b

/-- `__unordsf2` -/
def unordsf2 (a b : Rep) : ℤ :=
  if infRep < a &&& absMask ∨ infRep < b &&& absMask then 1 else 0

end Model

section Order
variable {a b : Rep}

/-- The extended real number that a representation stands for. -/
noncomputable def extended (a : Rep) : EReal :=
  if IsInf a then if a.msb then ⊥ else ⊤ else ((value a : ℝ) : EReal)

/-- The code with the sign of the number. -/
def signedCode (a : Rep) : ℤ := if a.msb then -code a else code a

theorem toInt_eq (a : Rep) : a.toInt = if a.msb then (code a : ℤ) - 2 ^ 31 else (code a : ℤ) := by
  have hcode : code a < 2 ^ 31 := (packed_self a).lt
  have hval := toNat_eq a
  rw [BitVec.toInt_eq_toNat_cond]
  cases hs : a.msb
  · rw [hs, if_neg Bool.false_ne_true] at hval
    rw [if_neg Bool.false_ne_true]
    split <;> omega
  · rw [hs, if_pos rfl] at hval
    rw [if_pos rfl]
    split <;> omega

theorem toInt_and_nonneg_iff (a b : Rep) : 0 ≤ (a &&& b).toInt ↔ ¬ (a.msb ∧ b.msb) := by
  have hcode : code (a &&& b) < 2 ^ 31 := (packed_self (a &&& b)).lt
  rw [toInt_eq, BitVec.msb_and, ← Bool.and_eq_true]
  cases (a.msb && b.msb)
  · simp
  · simp only [if_true, not_true, iff_false]
    omega

theorem units_lt_iff : units a < units b ↔ code a < code b := by
  rw [← not_le, units_le_iff, not_le]

/-- Finite numbers are ordered as their signed codes. -/
theorem value_lt_iff : value a < value b ↔ signedCode a < signedCode b := by
  have hlt := units_lt_iff (a := a) (b := b)
  have hgt := units_lt_iff (a := b) (b := a)
  have hpos : (0 : ℚ) < 2 ^ 149 := by positivity
  have ha := units_nonneg a
  have hb := units_nonneg b
  have hza := units_eq_zero_iff a
  have hzb := units_eq_zero_iff b
  rw [IsZero] at hza hzb
  unfold value signedCode
  rw [div_lt_div_iff_of_pos_right hpos]
  cases a.msb <;> cases b.msb
  · rw [if_neg Bool.false_ne_true, if_neg Bool.false_ne_true, one_mul, one_mul, hlt]
    simp
  · rw [if_neg Bool.false_ne_true, if_pos rfl, one_mul, neg_one_mul]
    simp only [Bool.false_eq_true, if_false, if_true]
    exact iff_of_false (by linarith) (by omega)
  · rw [if_pos rfl, if_neg Bool.false_ne_true, one_mul, neg_one_mul]
    simp only [Bool.false_eq_true, if_false, if_true]
    have hsum : -units a < units b ↔ ¬ (units a = 0 ∧ units b = 0) := by
      constructor
      · rintro h ⟨h1, h2⟩
        linarith
      · intro h
        by_contra hcon
        exact h ⟨by linarith, by linarith⟩
    rw [hsum, hza, hzb]
    omega
  · rw [if_pos rfl, neg_one_mul, neg_one_mul, neg_lt_neg_iff, hgt]
    simp only [if_true]
    omega

theorem extended_lt_iff (ha : ¬ IsNaN a) (hb : ¬ IsNaN b) :
    extended a < extended b ↔ signedCode a < signedCode b := by
  have hfin : ∀ c : Rep, ¬ IsNaN c → ¬ IsInf c → code c < infCode := fun c hc hi =>
    ((not_isNaN_iff c).1 hc).resolve_left hi
  have hpos : 0 < infCode := by decide
  unfold extended
  by_cases hia : IsInf a <;> by_cases hib : IsInf b
  · rw [if_pos hia, if_pos hib]
    rw [IsInf] at hia hib
    unfold signedCode
    rw [hia, hib]
    cases a.msb <;> cases b.msb <;> simp [infCode]
  · have hlt := hfin b hb hib
    rw [if_pos hia, if_neg hib]
    rw [IsInf] at hia
    unfold signedCode
    rw [hia]
    cases a.msb
    · simp only [Bool.false_eq_true, if_false]
      exact iff_of_false not_top_lt (by split <;> omega)
    · simp only [if_true]
      exact iff_of_true (EReal.bot_lt_coe _) (by split <;> omega)
  · have hlt := hfin a ha hia
    rw [if_neg hia, if_pos hib]
    rw [IsInf] at hib
    unfold signedCode
    rw [hib]
    cases b.msb
    · simp only [Bool.false_eq_true, if_false]
      exact iff_of_true (EReal.coe_lt_top _) (by split <;> omega)
    · simp only [if_true]
      exact iff_of_false not_lt_bot (by split <;> omega)
  · rw [if_neg hia, if_neg hib, EReal.coe_lt_coe_iff, Rat.cast_lt, value_lt_iff]

theorem extended_eq_iff (ha : ¬ IsNaN a) (hb : ¬ IsNaN b) :
    extended a = extended b ↔ signedCode a = signedCode b := by
  have h1 := extended_lt_iff ha hb
  have h2 := extended_lt_iff hb ha
  constructor
  · intro h
    have h3 := mt h1.2 h.not_lt
    have h4 := mt h2.2 h.not_gt
    omega
  · intro h
    exact le_antisymm (not_lt.1 fun hlt => by have := h2.1 hlt; omega)
      (not_lt.1 fun hlt => by have := h1.1 hlt; omega)

end Order

section Value

/-- The three-way comparison of two numbers, with the result for a NaN. -/
noncomputable def order (unordered : ℤ) (a b : Rep) : ℤ :=
  if IsNaN a ∨ IsNaN b then unordered
  else if extended a < extended b then -1
  else if extended a = extended b then 0 else 1

/-- The comparison of the representations is that of the signed codes. -/
theorem compareXf2_eq (unordered : ℤ) {a b : Rep} (ha : ¬ IsNaN a) (hb : ¬ IsNaN b) :
    compareXf2 unordered a b =
      if signedCode a < signedCode b then -1 else if signedCode a = signedCode b then 0 else 1 := by
  have hca : code a < 2 ^ 31 := (packed_self a).lt
  have hcb : code b < 2 ^ 31 := (packed_self b).lt
  have hzero : (a &&& absMask) ||| (b &&& absMask) = 0#32 ↔ code a = 0 ∧ code b = 0 := by
    rw [BitVec.or_eq_zero_iff, abs_eq_zero_iff, abs_eq_zero_iff, IsZero, IsZero]
  have heq : a = b ↔ a.msb = b.msb ∧ code a = code b := by
    constructor
    · rintro rfl
      exact ⟨rfl, rfl⟩
    · rintro ⟨hm, hc⟩
      apply BitVec.eq_of_toNat_eq
      rw [toNat_eq a, toNat_eq b, hm, hc]
  unfold compareXf2
  simp only [infRep_lt_iff, not_or.2 ⟨ha, hb⟩, if_false, hzero, toInt_and_nonneg_iff]
  rw [toInt_eq, toInt_eq, signedCode, signedCode]
  simp only [heq]
  generalize code a = m at *
  generalize code b = n at *
  cases a.msb <;> cases b.msb
  all_goals
    simp only [Bool.false_eq_true, Bool.true_eq_false, and_true, and_false, false_and, true_and,
      not_false_iff, not_true, if_true, if_false]
    grind

theorem compareXf2_eq_order (unordered : ℤ) (a b : Rep) :
    compareXf2 unordered a b = order unordered a b := by
  unfold order
  by_cases hn : IsNaN a ∨ IsNaN b
  · rw [if_pos hn, compareXf2]
    simp only [infRep_lt_iff, hn, if_true]
  · obtain ⟨ha, hb⟩ := not_or.1 hn
    rw [if_neg hn, compareXf2_eq unordered ha hb]
    simp only [extended_lt_iff ha hb, extended_eq_iff ha hb]

/-- The comparisons give the order of the extended real numbers, with both zeros
equal, and tell the unordered pairs apart. -/
theorem comparisons_correct (a b : Rep) :
    lesf2 a b = order 1 a b ∧ gesf2 a b = order (-1) a b ∧
      unordsf2 a b = (if IsNaN a ∨ IsNaN b then 1 else 0) ∧
      (lesf2 a b ≠ gesf2 a b ↔ IsNaN a ∨ IsNaN b) := by
  have hle : lesf2 a b = order 1 a b := compareXf2_eq_order 1 a b
  have hge : gesf2 a b = order (-1) a b := compareXf2_eq_order (-1) a b
  refine ⟨hle, hge, ?_, ?_⟩
  · simp only [unordsf2, infRep_lt_iff]
  · rw [hle, hge]
    unfold order
    by_cases hn : IsNaN a ∨ IsNaN b
    · rw [if_pos hn, if_pos hn]
      exact iff_of_true (by decide) hn
    · rw [if_neg hn, if_neg hn]
      exact iff_of_false (not_not.2 rfl) hn

end Value

end LlvmTms9900.Softfloat
