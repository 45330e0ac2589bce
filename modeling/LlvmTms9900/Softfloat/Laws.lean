import LlvmTms9900.Softfloat.Compare
import LlvmTms9900.Softfloat.Multiply

/-!
# Laws of the operations

A correctly rounded result is determined by the exact one, so that what holds of
the exact numbers holds of the results: operands can be swapped, a difference is
exact near cancellation, and order is kept.
-/

namespace LlvmTms9900.Softfloat
open LlvmTms9900.Arith

section Unique
variable {x y : ℚ} {s t : Bool} {a b c z w : Rep} {invalid infinite : Prop}

theorem rep_ext (hc : code z = code w) (hm : z.msb = w.msb) : z = w := by
  apply BitVec.eq_of_toNat_eq
  rw [toNat_eq z, toNat_eq w, hc, hm]

theorem Rounded.unique (hz : Rounded x s z) (hw : Rounded x s w) : z = w :=
  rep_ext (hz.nearest.unique grid_strictMono hw.nearest) (hz.sign.trans hw.sign.symm)

/-- Only the representation of a NaN is not determined. -/
theorem Result.unique (hn : ¬ invalid) (hz : Result invalid infinite x s z)
    (hw : Result invalid infinite x s w) : z = w := by
  by_cases hi : infinite
  · obtain ⟨hz1, hz2⟩ := hz.inf hn hi
    obtain ⟨hw1, hw2⟩ := hw.inf hn hi
    exact rep_ext (hz1.trans hw1.symm) (hz2.trans hw2.symm)
  · exact (hz.rounded hn hi).unique (hw.rounded hn hi)

theorem Result.isNaN_iff (h : Result invalid infinite x s z) : IsNaN z ↔ invalid := by
  constructor
  · intro hz
    by_contra hn
    by_cases hi : infinite
    · exact (h.inf hn hi).1.not_isNaN hz
    · exact absurd hz (not_lt.2 (h.rounded hn hi).nearest.le)
  · intro hn
    exact (h.nan hn).1

theorem sumSign_comm (hab : IsInf a → IsInf b → a.msb = b.msb) : sumSign a b = sumSign b a := by
  unfold sumSign
  by_cases ha : IsInf a <;> by_cases hb : IsInf b
  · rw [if_pos ha, if_pos hb, hab ha hb]
  · rw [if_pos ha, if_neg hb, if_pos ha]
  · rw [if_neg ha, if_pos hb, if_pos hb]
  · rw [if_neg ha, if_neg hb, if_neg hb, if_neg ha, add_comm, Bool.and_comm]

theorem addsf3_comm (h : ¬ (IsNaN a ∨ IsNaN b ∨ IsInf a ∧ IsInf b ∧ a.msb ≠ b.msb)) :
    (addsf3 .toNearest a b).map Sum.rep = (addsf3 .toNearest b a).map Sum.rep := by
  obtain ⟨z, hz, hzr⟩ := addsf3_result a b
  obtain ⟨w, hw, hwr⟩ := addsf3_result b a
  have hinv : (IsNaN b ∨ IsNaN a ∨ IsInf b ∧ IsInf a ∧ b.msb ≠ a.msb) ↔
      (IsNaN a ∨ IsNaN b ∨ IsInf a ∧ IsInf b ∧ a.msb ≠ b.msb) := by
    rw [or_left_comm, and_left_comm, ne_comm]
  have hsign : sumSign b a = sumSign a b := sumSign_comm fun hb ha => by
    by_contra hne
    exact h (.inr (.inr ⟨ha, hb, Ne.symm hne⟩))
  rw [hinv, or_comm (a := IsInf b), add_comm, hsign] at hwr
  rw [hz, hw, Option.map_some, Option.map_some, hzr.unique h hwr]

theorem mulsf3_comm (h : ¬ (IsNaN a ∨ IsNaN b ∨ IsInf a ∧ IsZero b ∨ IsZero a ∧ IsInf b)) :
    mulsf3 a b = mulsf3 b a := by
  obtain ⟨z, hz, hzr⟩ := mulsf3_result a b
  obtain ⟨w, hw, hwr⟩ := mulsf3_result b a
  have hinv : (IsNaN b ∨ IsNaN a ∨ IsInf b ∧ IsZero a ∨ IsZero b ∧ IsInf a) ↔
      (IsNaN a ∨ IsNaN b ∨ IsInf a ∧ IsZero b ∨ IsZero a ∧ IsInf b) := by
    tauto
  rw [hinv, or_comm (a := IsInf b), mul_comm, Bool.xor_comm] at hwr
  rw [hz, hw, hzr.unique h hwr]

/-- Every product is the IEEE one, and the operands can be swapped. -/
theorem multiplication_correct (a b : Rep) :
    (∃ z, mulsf3 a b = some z ∧
      Result (IsNaN a ∨ IsNaN b ∨ IsInf a ∧ IsZero b ∨ IsZero a ∧ IsInf b) (IsInf a ∨ IsInf b)
        (value a * value b) (a.msb ^^ b.msb) z) ∧
      (¬ (IsNaN a ∨ IsNaN b ∨ IsInf a ∧ IsZero b ∨ IsZero a ∧ IsInf b) →
        mulsf3 a b = mulsf3 b a) :=
  ⟨mulsf3_result a b, mulsf3_comm⟩

/-- Every sum and every difference is the IEEE one, and the operands of a sum can be
swapped. -/
theorem addition_correct (a b : Rep) :
    (∃ z, addsf3 .toNearest a b = some z ∧
      Result (IsNaN a ∨ IsNaN b ∨ IsInf a ∧ IsInf b ∧ a.msb ≠ b.msb) (IsInf a ∨ IsInf b)
        (value a + value b) (sumSign a b) z.rep) ∧
      (∃ z, subsf3 .toNearest a b = some z ∧
        Result (IsNaN a ∨ IsNaN b ∨ IsInf a ∧ IsInf b ∧ a.msb = b.msb) (IsInf a ∨ IsInf b)
          (value a - value b) (sumSign a (negsf2 b)) z.rep) ∧
      (¬ (IsNaN a ∨ IsNaN b ∨ IsInf a ∧ IsInf b ∧ a.msb ≠ b.msb) →
        (addsf3 .toNearest a b).map Sum.rep = (addsf3 .toNearest b a).map Sum.rep) :=
  ⟨addsf3_result a b, subsf3_result a b, addsf3_comm⟩

/-- The representation of 2. -/
def two : Rep := 0x40000000#32

theorem value_two : value two = 2 := by
  have hc : code two = 128 * 2 ^ 23 := by decide
  have hm : two.msb = false := by decide
  have hmag : mag 23 (127 * 2 ^ 23 + 2 ^ 23) = 2 ^ 23 * 2 ^ 127 :=
    mag_binade (by norm_num) (.inl le_rfl)
  rw [value, units, hc, hm]
  norm_num at hmag ⊢
  rw [hmag]
  norm_num

/-- Twice a number is the number added to itself. -/
theorem addsf3_self (a : Rep) (hn : ¬ IsNaN a) :
    (addsf3 .toNearest a a).map Sum.rep = mulsf3 a two := by
  obtain ⟨z, hz, hzr⟩ := addsf3_result a a
  obtain ⟨w, hw, hwr⟩ := mulsf3_result a two
  have h1 : ¬ IsNaN two := by decide
  have h2 : ¬ IsInf two := by decide
  have h3 : ¬ IsZero two := by decide
  have hinv : ¬ (IsNaN a ∨ IsNaN a ∨ IsInf a ∧ IsInf a ∧ a.msb ≠ a.msb) := by
    rintro (h | h | h)
    exacts [hn h, hn h, h.2.2 rfl]
  have hinv' : ¬ (IsNaN a ∨ IsNaN two ∨ IsInf a ∧ IsZero two ∨ IsZero a ∧ IsInf two) := by
    rintro (h | h | h | h)
    exacts [hn h, h1 h, h3 h.2, h2 h.2]
  have hmsb : two.msb = false := by decide
  rw [hz, hw, Option.map_some, Option.some.injEq]
  by_cases hi : IsInf a
  · obtain ⟨hz1, hz2⟩ := hzr.inf hinv (.inl hi)
    obtain ⟨hw1, hw2⟩ := hwr.inf hinv' (.inl hi)
    rw [sumSign, if_pos hi] at hz2
    rw [hmsb, Bool.xor_false] at hw2
    exact rep_ext (hz1.trans hw1.symm) (hz2.trans hw2.symm)
  · have hr := hzr.rounded hinv (by rw [or_self]; exact hi)
    have hr' := hwr.rounded hinv' (not_or.2 ⟨hi, h2⟩)
    have hval : value a + value a = value a * value two := by
      rw [value_two]
      ring
    have hsign : sumSign a a = (a.msb ^^ two.msb) := by
      rw [sumSign, if_neg hi, if_neg hi, hmsb, Bool.xor_false, Bool.and_self]
      by_cases hza : IsZero a
      · rw [value_eq_zero hza, add_zero, if_pos rfl]
      · have hne := value_ne_zero hza
        have hdouble : value a + value a ≠ 0 := fun h => hne (by linarith)
        rw [if_neg hdouble, ← decide_value_neg hza, decide_eq_decide]
        constructor <;> intro h <;> linarith
    rw [hval, hsign] at hr
    exact hr.unique hr'

theorem addsf3_self_two : (addsf3 .toNearest two two).map Sum.rep = mulsf3 two two :=
  addsf3_self two (by decide)

end Unique

section Cancellation
variable {a b : Rep}

/-- A number is a whole number of units. -/
theorem exists_int_units (a : Rep) : ∃ n : ℤ, value a * 2 ^ 149 = n := by
  refine ⟨(if a.msb then -1 else 1) * (mag 23 (code a) : ℤ), ?_⟩
  rw [value, units, div_mul_cancel₀ _ (by positivity)]
  push_cast
  split <;> rfl

theorem one_le_diff (h : value a ≠ value b) : 1 ≤ |value a - value b| * 2 ^ 149 := by
  obtain ⟨m, hm⟩ := exists_int_units a
  obtain ⟨n, hn⟩ := exists_int_units b
  have hdiff : (value a - value b) * 2 ^ 149 = ((m - n : ℤ) : ℚ) := by
    rw [sub_mul, hm, hn, Int.cast_sub]
  have hne : m - n ≠ 0 := by
    intro h0
    rw [h0, Int.cast_zero, mul_eq_zero, sub_eq_zero] at hdiff
    exact hdiff.elim h (by norm_num)
  have habs : |value a - value b| * 2 ^ 149 = ((|m - n| : ℤ) : ℚ) := by
    rw [Int.cast_abs, ← hdiff, abs_mul, abs_of_pos (by positivity : (0 : ℚ) < 2 ^ 149)]
  rw [habs]
  exact_mod_cast Int.one_le_abs hne

/-- What a difference of two finite numbers is. -/
theorem subsf3_rounds (mode : RoundMode) (ha : Finite a) (hb : Finite b) :
    ∃ z, subsf3 mode a b = some z ∧ z.rep.msb = sumSign a (negsf2 b) ∧
      RoundedBy mode (sumSign a (negsf2 b)) (|value a - value b| * 2 ^ 149) (code z.rep) ∧
      (Finite z.rep → (z.inexact = true ↔ value z.rep ≠ value a - value b)) := by
  have hb' : Finite (negsf2 b) := by rwa [Finite, (packed_negsf2 b).code]
  have h := addsf3_rounds mode ha hb'
  rw [value_negsf2, ← sub_eq_add_neg] at h
  exact h

/-- In each of the four modes a sum and a difference of finite numbers is the exact
one rounded that way, and a finite result is reported as inexact where it is not
the exact one. -/
theorem rounding_modes_correct (mode : RoundMode) (ha : Finite a) (hb : Finite b) :
    (∃ z, addsf3 mode a b = some z ∧ z.rep.msb = sumSign a b ∧
      RoundedBy mode (sumSign a b) (|value a + value b| * 2 ^ 149) (code z.rep) ∧
      (Finite z.rep → (z.inexact = true ↔ value z.rep ≠ value a + value b))) ∧
    ∃ z, subsf3 mode a b = some z ∧ z.rep.msb = sumSign a (negsf2 b) ∧
      RoundedBy mode (sumSign a (negsf2 b)) (|value a - value b| * 2 ^ 149) (code z.rep) ∧
      (Finite z.rep → (z.inexact = true ↔ value z.rep ≠ value a - value b)) :=
  ⟨addsf3_rounds mode ha hb, subsf3_rounds mode ha hb⟩

/-- The least number added to 1, rounded up. -/
theorem rounding_modes_one_least :
    RoundUp grid infCode (|value 0x3F800000#32 + value 0x00000001#32| * 2 ^ 149)
      (code 0x3F800001#32) := by
  obtain ⟨⟨z, hz, hs, hr, -⟩, -⟩ := rounding_modes_correct (a := 0x3F800000#32)
    (b := 0x00000001#32) .upward (by decide) (by decide)
  have hval : addsf3 .upward 0x3F800000#32 0x00000001#32 = some ⟨0x3F800001#32, true⟩ := by decide
  obtain rfl := Option.some.inj (hz.symm.trans hval)
  rw [← hs] at hr
  exact hr

/-- Numbers of one sign within a factor of two of each other. -/
theorem diff_units (hs : a.msb = b.msb) (hle : units b ≤ units a) :
    |value a - value b| * 2 ^ 149 = units a - units b := by
  have hnonneg : 0 ≤ units a - units b := by linarith
  have hval : value a - value b = (if a.msb then -1 else 1) * ((units a - units b) / 2 ^ 149) := by
    rw [value, value, ← hs]
    ring
  rw [hval, abs_mul, abs_div, abs_of_nonneg hnonneg]
  split <;> norm_num

theorem exists_code_diff (hb : Finite b) (hs : a.msb = b.msb) (hle : units b ≤ units a)
    (htwice : units a ≤ 2 * units b) :
    ∃ i, i < infCode ∧ |value a - value b| * 2 ^ 149 = grid i := by
  have htwice' : mag 23 (code a) ≤ 2 * mag 23 (code b) := by
    rw [units, units] at htwice
    exact_mod_cast htwice
  have hmle : mag 23 (code b) ≤ mag 23 (code a) :=
    (mag_strictMono 23).monotone (units_le_iff.1 hle)
  obtain ⟨i, hi, hib⟩ := exists_code_sub (units_le_iff.1 hle) htwice'
  refine ⟨i, lt_of_le_of_lt hib hb, ?_⟩
  rw [diff_units hs hle, grid, hi, units, units, Nat.cast_sub hmle]

/-- A difference of numbers within a factor of two is exact. -/
theorem exists_exact_diff (ha : Finite a) (hb : Finite b) (hs : a.msb = b.msb)
    (h1 : units a ≤ 2 * units b) (h2 : units b ≤ 2 * units a) :
    ∃ i, i < infCode ∧ |value a - value b| * 2 ^ 149 = grid i := by
  rcases le_total (units b) (units a) with hle | hle
  · exact exists_code_diff hb hs hle h1
  · rw [abs_sub_comm]
    exact exists_code_diff ha hs.symm hle h2

/-- Subtraction near cancellation: the difference is zero for equal numbers only, and
exact where the operands are within a factor of two of each other. -/
theorem subtraction_exact (ha : Finite a) (hb : Finite b) :
    ∃ z, subsf3 .toNearest a b = some z ∧ (IsZero z.rep ↔ value a = value b) ∧
      (a.msb = b.msb → units a ≤ 2 * units b → units b ≤ 2 * units a →
        value z.rep = value a - value b ∧ z.inexact = false) := by
  obtain ⟨z, hz, hmsb, hr, hflag⟩ := subsf3_rounds .toNearest ha hb
  have hsign : value a - value b ≠ 0 → z.rep.msb = decide (value a - value b < 0) := by
    intro h
    have hb' : ¬ IsInf (negsf2 b) := by rw [IsInf, (packed_negsf2 b).code]; exact hb.not_isInf
    rw [hmsb, sumSign, if_neg ha.not_isInf, if_neg hb', value_negsf2, ← sub_eq_add_neg, if_neg h]
  refine ⟨z, hz, ?_, fun hs h1 h2 => ?_⟩
  · constructor
    · intro hzero
      by_contra hne
      have hg1 : grid 1 = 1 := by rw [grid, mag_of_le (by norm_num), Nat.cast_one]
      have hmono := (NearestEven.exact grid_strictMono (by decide : 1 ≤ infCode)).mono
        grid_strictMono hr (hg1 ▸ one_le_diff hne)
      rw [IsZero] at hzero
      omega
    · intro heq
      rw [heq, sub_self, abs_zero, zero_mul, ← grid_zero] at hr
      exact NearestEven.eq_of_exact grid_strictMono hr (Nat.zero_le _)
  · obtain ⟨i, hi, hx⟩ := exists_exact_diff ha hb hs h1 h2
    rw [hx] at hr
    have hcode := NearestEven.eq_of_exact grid_strictMono hr hi.le
    have hval : value z.rep = value a - value b := by
      rw [value_eq_iff hsign, hcode, hx]
    have hfin : Finite z.rep := by rw [Finite, hcode]; exact hi
    refine ⟨hval, ?_⟩
    rw [← Bool.not_eq_true, hflag hfin]
    exact not_not.2 hval

/-- The difference of 1 and its predecessor. -/
theorem subtraction_exact_one :
    ∃ z, subsf3 .toNearest 0x3F800000#32 0x3F7FFFFF#32 = some z ∧ ¬ IsZero z.rep := by
  obtain ⟨z, hz, hzero, -⟩ := subtraction_exact (a := 0x3F800000#32) (b := 0x3F7FFFFF#32)
    (by decide) (by decide)
  refine ⟨z, hz, fun h => ?_⟩
  have heq := hzero.1 h
  have hlt : value 0x3F7FFFFF#32 < value 0x3F800000#32 := value_lt_iff.2 (by decide)
  exact hlt.ne' heq

end Cancellation

section Monotone
variable {a b c z w : Rep} {x y : ℚ} {s t : Bool}

theorem extended_le_iff (ha : ¬ IsNaN a) (hb : ¬ IsNaN b) :
    extended a ≤ extended b ↔ signedCode a ≤ signedCode b := by
  rw [← not_lt, extended_lt_iff hb ha, not_lt]

theorem extended_eq_bot_iff (a : Rep) : extended a = ⊥ ↔ IsInf a ∧ a.msb = true := by
  unfold extended
  by_cases h : IsInf a
  · cases ha : a.msb <;> simp [h]
  · simp [h]

theorem extended_eq_top_iff (a : Rep) : extended a = ⊤ ↔ IsInf a ∧ a.msb = false := by
  unfold extended
  by_cases h : IsInf a
  · cases ha : a.msb <;> simp [h]
  · simp [h]

/-- Rounding keeps the order of the exact numbers. -/
theorem Rounded.mono (hz : Rounded x s z) (hw : Rounded y t w) (hxy : x ≤ y)
    (hs : x ≠ 0 → s = decide (x < 0)) (ht : y ≠ 0 → t = decide (y < 0)) :
    extended z ≤ extended w := by
  have hpos : (0 : ℚ) < 2 ^ 149 := by positivity
  rw [extended_le_iff (not_lt.2 hz.nearest.le) (not_lt.2 hw.nearest.le), signedCode, signedCode,
    hz.sign, hw.sign]
  have hs0 : s = false → 0 ≤ x := by
    intro h
    by_contra hlt
    have h1 := hs (by linarith)
    rw [h, decide_eq_true (not_le.1 hlt)] at h1
    exact Bool.false_ne_true h1
  have ht0 : t = true → y ≤ 0 := by
    intro h
    by_contra hlt
    have h1 := ht (by linarith)
    rw [h, decide_eq_false (by linarith)] at h1
    exact Bool.false_ne_true h1.symm
  cases s with
  | false =>
    have hx := hs0 rfl
    have hle := hz.nearest.mono grid_strictMono hw.nearest
      (mul_le_mul_of_nonneg_right (abs_le_abs_of_nonneg hx hxy) hpos.le)
    cases t with
    | false => simpa using hle
    | true =>
      have hy0 : y = 0 := le_antisymm (ht0 rfl) (hx.trans hxy)
      have hx0 : x = 0 := le_antisymm (hxy.trans hy0.le) hx
      have hw0 := hw.nearest
      rw [hy0, abs_zero, zero_mul, ← grid_zero] at hw0
      have hcode := hw0.eq_of_exact grid_strictMono (Nat.zero_le _)
      simp only [Bool.false_eq_true, if_false, if_true]
      omega
  | true =>
    cases t with
    | false =>
      simp only [Bool.false_eq_true, if_false, if_true]
      omega
    | true =>
      have hy := ht0 rfl
      have hle := hw.nearest.mono grid_strictMono hz.nearest
        (mul_le_mul_of_nonneg_right (abs_le_abs_of_nonpos hy hxy) hpos.le)
      simpa using hle

theorem addsf3_mono (ha : ¬ IsNaN a) (hb : ¬ IsNaN b) (hab : extended a ≤ extended b) :
    ∃ z w, addsf3 .toNearest a c = some z ∧ addsf3 .toNearest b c = some w ∧
      (¬ IsNaN z.rep → ¬ IsNaN w.rep → extended z.rep ≤ extended w.rep) := by
  obtain ⟨z, hz, hzr⟩ := addsf3_result a c
  obtain ⟨w, hw, hwr⟩ := addsf3_result b c
  refine ⟨z, w, hz, hw, fun hnz hnw => ?_⟩
  rw [hzr.isNaN_iff] at hnz
  rw [hwr.isNaN_iff] at hnw
  by_cases hic : IsInf c
  · have hsign : ∀ d, ¬ (IsNaN d ∨ IsNaN c ∨ IsInf d ∧ IsInf c ∧ d.msb ≠ c.msb) →
        sumSign d c = c.msb := by
      intro d hd
      unfold sumSign
      by_cases hid : IsInf d
      · rw [if_pos hid]
        by_contra hne
        exact hd (.inr (.inr ⟨hid, hic, hne⟩))
      · rw [if_neg hid, if_pos hic]
    obtain ⟨hz1, hz2⟩ := hzr.inf hnz (.inr hic)
    obtain ⟨hw1, hw2⟩ := hwr.inf hnw (.inr hic)
    rw [hsign a hnz] at hz2
    rw [hsign b hnw] at hw2
    rw [rep_ext (hz1.trans hw1.symm) (hz2.trans hw2.symm)]
  by_cases hia : IsInf a
  · obtain ⟨hz1, hz2⟩ := hzr.inf hnz (.inl hia)
    rw [sumSign, if_pos hia] at hz2
    cases hm : a.msb
    · have htop := (extended_eq_top_iff a).2 ⟨hia, hm⟩
      obtain ⟨hib, hmb⟩ := (extended_eq_top_iff b).1 (top_le_iff.1 (htop ▸ hab))
      obtain ⟨hw1, hw2⟩ := hwr.inf hnw (.inl hib)
      rw [sumSign, if_pos hib, hmb] at hw2
      rw [(extended_eq_top_iff w.rep).2 ⟨hw1, hw2⟩]
      exact le_top
    · rw [(extended_eq_bot_iff z.rep).2 ⟨hz1, hz2.trans hm⟩]
      exact bot_le
  by_cases hib : IsInf b
  · obtain ⟨hw1, hw2⟩ := hwr.inf hnw (.inl hib)
    rw [sumSign, if_pos hib] at hw2
    cases hm : b.msb
    · rw [(extended_eq_top_iff w.rep).2 ⟨hw1, hw2.trans hm⟩]
      exact le_top
    · have hbot := (extended_eq_bot_iff b).2 ⟨hib, hm⟩
      exact absurd ((extended_eq_bot_iff a).1 (le_bot_iff.1 (hbot ▸ hab))).1 hia
  have hval : value a + value c ≤ value b + value c := by
    have hcode := (extended_le_iff ha hb).1 hab
    have hle : value a ≤ value b := by
      rw [← not_lt, value_lt_iff, not_lt]
      exact hcode
    linarith
  refine (hzr.rounded hnz (not_or.2 ⟨hia, hic⟩)).mono (hwr.rounded hnw (not_or.2 ⟨hib, hic⟩)) hval
    (fun h => ?_) (fun h => ?_)
  · rw [sumSign, if_neg hia, if_neg hic, if_neg h]
  · rw [sumSign, if_neg hib, if_neg hic, if_neg h]

theorem lesf2_nonpos_iff : lesf2 a b ≤ 0 ↔ ¬ IsNaN a ∧ ¬ IsNaN b ∧ extended a ≤ extended b := by
  have h : lesf2 a b = order 1 a b := compareXf2_eq_order 1 a b
  rw [h, order]
  by_cases hn : IsNaN a ∨ IsNaN b
  · rw [if_pos hn]
    exact iff_of_false (by decide) fun hc => hn.elim hc.1 hc.2.1
  · obtain ⟨ha, hb⟩ := not_or.1 hn
    rw [if_neg hn]
    rcases lt_trichotomy (extended a) (extended b) with hlt | heq | hgt
    · rw [if_pos hlt]
      exact iff_of_true (by decide) ⟨ha, hb, hlt.le⟩
    · rw [if_neg heq.not_lt, if_pos heq]
      exact iff_of_true le_rfl ⟨ha, hb, heq.le⟩
    · rw [if_neg hgt.not_gt, if_neg hgt.ne']
      exact iff_of_false (by decide) fun hc => hgt.not_ge hc.2.2

/-- The order that the comparison finds is kept by an addition, up to an infinity,
unless a result is a NaN. -/
theorem addition_monotone (hab : lesf2 a b ≤ 0) :
    ∃ z w, addsf3 .toNearest a c = some z ∧ addsf3 .toNearest b c = some w ∧
      (IsNaN z.rep ∨ IsNaN w.rep ∨ lesf2 z.rep w.rep ≤ 0) := by
  obtain ⟨ha, hb, hle⟩ := lesf2_nonpos_iff.1 hab
  obtain ⟨z, w, hz, hw, hmono⟩ := addsf3_mono (c := c) ha hb hle
  refine ⟨z, w, hz, hw, ?_⟩
  by_cases hnz : IsNaN z.rep
  · exact .inl hnz
  by_cases hnw : IsNaN w.rep
  · exact .inr (.inl hnw)
  · exact .inr (.inr (lesf2_nonpos_iff.2 ⟨hnz, hnw, hmono hnz hnw⟩))

/-- The largest number and its predecessor, both added to themselves. -/
theorem addition_monotone_largest :
    ∃ z w, addsf3 .toNearest 0x7F7FFFFE#32 0x7F7FFFFF#32 = some z ∧
      addsf3 .toNearest 0x7F7FFFFF#32 0x7F7FFFFF#32 = some w ∧
      (IsNaN z.rep ∨ IsNaN w.rep ∨ lesf2 z.rep w.rep ≤ 0) :=
  addition_monotone (by decide)

end Monotone

end LlvmTms9900.Softfloat
