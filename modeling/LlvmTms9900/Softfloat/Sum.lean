import LlvmTms9900.Softfloat.Add

/-!
# The value of a sum (libtms9900/builtins/softfloat/addsf3.c, subsf3.c)

The aligned significands give the exact sum as far as the rounding asks, so that
`__addsf3` and `__subsf3` are correctly rounded for all operands.
-/

namespace LlvmTms9900.Softfloat
open LlvmTms9900.Arith
open LlvmTms9900.Isa (Word)

section Finite
variable {a b : Rep} {mode : RoundMode}

/-- The exact result of an addition in the mode: `+0` for a cancellation, else the
rounded magnitude with the sign of the sum. -/
def SumRounded (mode : RoundMode) (x : ℚ) (z : Sum) : Prop :=
  if x = 0 then z = ⟨0#32, false⟩
  else ∃ r, Packed (decide (x < 0)) r z.rep ∧ RoundedBy mode (decide (x < 0)) (|x| * 2 ^ 149) r ∧
    (Finite z.rep → (z.inexact = true ↔ grid r ≠ |x| * 2 ^ 149))

theorem shl_three_toNat {sig : Rep} (h : sig.toNat < 2 ^ 24) :
    (sig <<< 3).toNat = sig.toNat * 2 ^ 3 := by
  rw [Builtins.Udivmoddi4.shl_toNat (by norm_num), Nat.mod_eq_of_lt (by omega)]

/-- The smaller operand in units of the exponent of the larger one. -/
theorem exponent_diff {sa sb : Rep} {ea eb : Word} (ha : Unpacked a sa ea) (hb : Unpacked b sb eb)
    (hle : code b ≤ code a) :
    ∃ d : ℕ, (ea - eb).toNat = d ∧
      units b = (sb.toNat : ℚ) / 2 ^ d * (2 : ℚ) ^ (ea.toInt - 1) := by
  have hexp : eb.toInt ≤ ea.toInt := by
    by_contra hcon
    have hunits := units_le_iff.2 hle
    have hsa : (sa.toNat : ℚ) < 2 ^ 24 := by exact_mod_cast ha.high
    have hsb : (2 : ℚ) ^ 23 ≤ sb.toNat := by exact_mod_cast hb.low
    have hpow : (2 : ℚ) ^ (ea.toInt - 1 + 1) ≤ 2 ^ (eb.toInt - 1) :=
      zpow_le_zpow_right₀ (by norm_num) (by omega)
    rw [zpow_add_one₀ two_ne_zero] at hpow
    have hpos : (0 : ℚ) < 2 ^ (ea.toInt - 1) := by positivity
    have hub : (2 : ℚ) ^ 23 * (2 ^ (ea.toInt - 1) * 2) ≤ units b := by
      rw [hb.units]
      exact mul_le_mul hsb hpow (by positivity) (by positivity)
    have hua : units a < 2 ^ 24 * 2 ^ (ea.toInt - 1) := by
      rw [ha.units]
      exact mul_lt_mul_of_pos_right hsa hpos
    have hring : (2 : ℚ) ^ 23 * (2 ^ (ea.toInt - 1) * 2) = 2 ^ 24 * 2 ^ (ea.toInt - 1) := by ring
    linarith
  have hal := ha.exponentHigh
  have hbl := hb.exponentLow
  have hdiff := toInt_sub_of_small (x := ea) (y := eb) rfl rfl (by omega) (by omega)
  obtain ⟨d, hd⟩ : ∃ d : ℕ, ea.toInt - eb.toInt = d := ⟨(ea.toInt - eb.toInt).toNat, by omega⟩
  refine ⟨d, ?_, ?_⟩
  · rw [hd, BitVec.toInt_eq_toNat_cond] at hdiff
    split at hdiff <;> omega
  · have hsplit : ea.toInt - 1 = (eb.toInt - 1) + d := by omega
    rw [hb.units, hsplit, zpow_add₀ two_ne_zero, zpow_natCast]
    field_simp

theorem sum_of_same_sign (hs : a.msb = b.msb) (ha : 0 < units a) :
    |value a + value b| * 2 ^ 149 = units a + units b ∧ value a + value b ≠ 0 ∧
      decide (value a + value b < 0) = a.msb := by
  have hb := units_nonneg b
  have hval : value a + value b = (if a.msb then -1 else 1) * ((units a + units b) / 2 ^ 149) := by
    rw [value, value, ← hs]
    ring
  have hpos : 0 < (units a + units b) / 2 ^ 149 := by positivity
  have hcancel : (units a + units b) / 2 ^ 149 * 2 ^ 149 = units a + units b := by field_simp
  rw [hval]
  cases a.msb
  · rw [if_neg Bool.false_ne_true, one_mul, abs_of_pos hpos]
    exact ⟨hcancel, hpos.ne', decide_eq_false hpos.le.not_gt⟩
  · rw [if_pos rfl, neg_one_mul, abs_neg, abs_of_pos hpos]
    exact ⟨hcancel, (neg_neg_of_pos hpos).ne, decide_eq_true (neg_neg_of_pos hpos)⟩

theorem sum_of_opposite_sign (hs : b.msb = !a.msb) (hle : units b ≤ units a) :
    |value a + value b| * 2 ^ 149 = units a - units b ∧
      (value a + value b = 0 ↔ units a = units b) ∧
      (units a ≠ units b → decide (value a + value b < 0) = a.msb) := by
  have hval : value a + value b = (if a.msb then -1 else 1) * ((units a - units b) / 2 ^ 149) := by
    rw [value, value, hs]
    cases a.msb <;> simp <;> ring
  have hnonneg : 0 ≤ (units a - units b) / 2 ^ 149 := div_nonneg (by linarith) (by positivity)
  have hcancel : (units a - units b) / 2 ^ 149 * 2 ^ 149 = units a - units b := by field_simp
  have hzero : (units a - units b) / 2 ^ 149 = 0 ↔ units a = units b := by
    rw [div_eq_zero_iff, sub_eq_zero, or_iff_left (by positivity)]
  have hpos : units a ≠ units b → 0 < (units a - units b) / 2 ^ 149 := fun h =>
    lt_of_le_of_ne hnonneg fun he => h (hzero.1 he.symm)
  rw [hval]
  cases a.msb
  · rw [if_neg Bool.false_ne_true, one_mul, abs_of_nonneg hnonneg]
    exact ⟨hcancel, hzero, fun h => decide_eq_false (hpos h).le.not_gt⟩
  · rw [if_pos rfl, neg_one_mul, abs_neg, abs_of_nonneg hnonneg, neg_eq_zero]
    exact ⟨hcancel, hzero, fun h => decide_eq_true (neg_neg_of_pos (hpos h))⟩

/-- Both significands at the exponent of the larger number; `v` stands for the
exact `y`, and is it where the difference can lose more than one bit. -/
structure Aligned (a b : Rep) (exponent : Word) (A v : Rep) (y : ℚ) : Prop where
  low : 2 ^ 26 ≤ A.toNat
  high : A.toNat < 2 ^ 27
  even : A.toNat % 2 = 0
  exponentLow : -22 ≤ exponent.toInt
  exponentHigh : exponent.toInt ≤ 254
  larger : units a * 8 = A.toNat * (2 : ℚ) ^ (exponent.toInt - 1)
  smaller : units b * 8 = y * (2 : ℚ) ^ (exponent.toInt - 1)
  side : SameSide 1 y v.toNat
  exact : A.toNat - v.toNat < 2 ^ 25 → y = v.toNat

variable {e : Word} {A v : Rep} {y : ℚ}

theorem Aligned.eq_even (h : Aligned a b e A v y) :
    (A.toNat : ℚ) = ((A.toNat / 2 : ℕ) : ℤ) * 2 ^ 1 := by
  have he := h.even
  have hsplit : A.toNat = A.toNat / 2 * 2 := by omega
  rw [pow_one]
  exact_mod_cast hsplit

/-- The smaller one stays the smaller one. -/
theorem Aligned.le (h : Aligned a b e A v y) (hle : code b ≤ code a) : v.toNat ≤ A.toNat := by
  have hpow : (0 : ℚ) < 2 ^ (e.toInt - 1) := by positivity
  have hy : y ≤ A.toNat := by
    have hunits := units_le_iff.2 hle
    rw [← mul_le_mul_iff_left₀ hpow, ← h.smaller, ← h.larger]
    linarith
  have hv := (h.side.le (A.toNat / 2 : ℕ)).1 (h.eq_even ▸ hy)
  rw [← h.eq_even] at hv
  exact_mod_cast hv

theorem Aligned.units_eq_iff (h : Aligned a b e A v y) : units b = units a ↔ v.toNat = A.toNat := by
  have hpow : (0 : ℚ) < 2 ^ (e.toInt - 1) := by positivity
  have heq := h.side.eq (A.toNat / 2 : ℕ)
  rw [← h.eq_even] at heq
  rw [← mul_left_inj' (show (8 : ℚ) ≠ 0 by norm_num), h.smaller, h.larger, mul_left_inj' hpow.ne',
    heq, Nat.cast_inj]

/-- The significands of the sum as the code has them. -/
theorem aligned_spec (ha0 : ¬ IsZero a) (haf : Finite a) (hb0 : ¬ IsZero b) (hbf : Finite b)
    (hle : code b ≤ code a) :
    ∃ oa ob v y, unpack a = some oa ∧ unpack b = some ob ∧
      alignSignificand ((ob.significand ||| implicitBit) <<< 3) (oa.exponent - ob.exponent) =
        some v ∧
      Aligned a b oa.exponent ((oa.significand ||| implicitBit) <<< 3) v y := by
  obtain ⟨oa, hoa, hua⟩ := unpack_spec ha0 haf
  obtain ⟨ob, hob, hub⟩ := unpack_spec hb0 hbf
  obtain ⟨d, hd, hbd⟩ := exponent_diff hua hub hle
  have hA := shl_three_toNat hua.high
  obtain ⟨B, hBdef⟩ : ∃ B, B = (ob.significand ||| implicitBit) <<< 3 := ⟨_, rfl⟩
  have hB : B.toNat = (ob.significand ||| implicitBit).toNat * 2 ^ 3 :=
    hBdef ▸ shl_three_toNat hub.high
  have hal := hua.low
  have hah := hua.high
  have hbl := hub.low
  have hbh := hub.high
  obtain ⟨v, hv, hside, hexact⟩ := alignSignificand_spec (B := B) hd (by omega) (by omega)
  refine ⟨oa, ob, v, (B.toNat : ℚ) / 2 ^ d, hoa, hob, hBdef ▸ hv, by omega, by omega, by omega,
    hua.exponentLow, hua.exponentHigh, ?_, ?_, hside, fun hlt => ?_⟩
  · rw [hA, hua.units]
    push_cast
    ring
  · rw [hB, hbd]
    push_cast
    ring
  · refine hexact ?_
    have hd1 : d ≤ 1 := by
      by_contra hcon
      have hpow4 : (2 : ℚ) ^ 2 ≤ 2 ^ d := pow_le_pow_right₀ (by norm_num) (by omega)
      have hB27 : (B.toNat : ℚ) < 2 ^ 27 := by exact_mod_cast (by omega)
      have hv25 : (B.toNat : ℚ) / 2 ^ d < ((2 ^ 24 : ℤ) : ℚ) * 2 ^ 1 := by
        rw [div_lt_iff₀ (by positivity)]
        push_cast
        linarith
      have hvlt : (v.toNat : ℚ) < 2 ^ 25 := by
        have h := (hside.lt _).1 hv25
        push_cast at h
        linarith
      have hvlt' : v.toNat < 2 ^ 25 := by exact_mod_cast hvlt
      omega
    rw [hB]
    exact (pow_dvd_pow 2 (by omega : d ≤ 3)).mul_left _

theorem addition_spec (mode : RoundMode) (h : Aligned a b e A v y) (ha0 : ¬ IsZero a)
    (hle : code b ≤ code a) (hs : a.msb = b.msb) :
    ∃ z, packSum mode (a &&& signBit) (carrySum ⟨e, A + v⟩) = some z ∧
      SumRounded mode (value a + value b) z := by
  obtain ⟨hunits, hne, hneg⟩ := sum_of_same_sign hs (units_pos ha0)
  have hlow := h.low
  have hhigh := h.high
  have hvle := h.le hle
  have hsum : (A + v).toNat = A.toNat + v.toNat := by
    rw [BitVec.toNat_add]
    exact Nat.mod_eq_of_lt (by omega)
  have hside : SameSide 1 ((A.toNat : ℚ) + y) ((A + v).toNat : ℚ) := by
    rw [hsum, Nat.cast_add, h.eq_even]
    exact h.side.add _
  have hx : |value a + value b| * 2 ^ 149 * 8 =
      ((A.toNat : ℚ) + y) * (2 : ℚ) ^ (e.toInt - 1) := by
    rw [hunits, add_mul, add_mul, h.larger, h.smaller]
  obtain ⟨hcarry, hlow'⟩ := carrySum_spec (s := ⟨e, A + v⟩) (by rw [hsum]; omega)
    (by rw [hsum]; omega) hside h.exponentHigh h.exponentLow hx
  obtain ⟨z, r, hz, hp, hr, hflag⟩ := packSum_spec mode hcarry (and_signBit_toNat a) hlow'
  refine ⟨z, hz, ?_⟩
  rw [SumRounded, if_neg hne, hneg]
  exact ⟨r, hp, hr, hflag⟩

theorem subtraction_spec (mode : RoundMode) (h : Aligned a b e A v y) (hle : code b ≤ code a)
    (hs : b.msb = !a.msb) :
    ∃ z, (if A - v = 0#32 then some ⟨0#32, false⟩
        else (cancelDifference ⟨e, A - v⟩).bind fun s => packSum mode (a &&& signBit) s) = some z ∧
      SumRounded mode (value a + value b) z := by
  obtain ⟨hunits, hzero, hneg⟩ := sum_of_opposite_sign hs (units_le_iff.2 hle)
  have hhigh := h.high
  have hvle := h.le hle
  have hdiff : (A - v).toNat = A.toNat - v.toNat := BitVec.toNat_sub_of_le hvle
  have hequal : units a = units b ↔ A - v = 0#32 := by
    have hz : A - v = 0#32 ↔ (A - v).toNat = 0 :=
      ⟨fun h => by rw [h]; rfl, fun h => BitVec.eq_of_toNat_eq h⟩
    rw [eq_comm, h.units_eq_iff, hz, hdiff]
    omega
  by_cases hz : A - v = 0#32
  · refine ⟨⟨0#32, false⟩, if_pos hz, ?_⟩
    rw [SumRounded, if_pos (hzero.2 (hequal.2 hz))]
  have hne : units a ≠ units b := fun h => hz (hequal.1 h)
  have hpos : 0 < (A - v).toNat := Nat.pos_of_ne_zero fun h => hz (BitVec.eq_of_toNat_eq h)
  have hside : SameSide 1 ((A.toNat : ℚ) - y) ((A - v).toNat : ℚ) := by
    rw [hdiff, Nat.cast_sub hvle, h.eq_even]
    exact h.side.sub _
  have hx : |value a + value b| * 2 ^ 149 * 8 =
      ((A.toNat : ℚ) - y) * (2 : ℚ) ^ (e.toInt - 1) := by
    rw [hunits, sub_mul, sub_mul, h.larger, h.smaller]
  have hsmall : (A - v).toNat < 2 ^ 25 → (A.toNat : ℚ) - y = ((A - v).toNat : ℚ) := by
    intro hlt
    rw [hdiff] at hlt
    rw [h.exact hlt, hdiff, Nat.cast_sub hvle]
  have hone : 1 ≤ |value a + value b| * 2 ^ 149 := by
    have hlt : units b < units a := lt_of_le_of_ne (units_le_iff.2 hle) hne.symm
    rw [units, units, Nat.cast_lt] at hlt
    rw [hunits, units, units, ← Nat.cast_sub hlt.le]
    exact_mod_cast (by omega)
  obtain ⟨t, ht, hsum, hlow⟩ := cancelDifference_spec (s := ⟨e, A - v⟩) hpos
    (by rw [hdiff]; omega) hside hsmall h.exponentHigh h.exponentLow hx hone
  obtain ⟨z, r, hz', hp, hr, hflag⟩ := packSum_spec mode hsum (and_signBit_toNat a) hlow
  refine ⟨z, by rw [if_neg hz, ht]; exact hz', ?_⟩
  rw [SumRounded, if_neg fun h => hne (hzero.1 h)]
  rw [← hneg hne] at hp hr
  exact ⟨r, hp, hr, hflag⟩

/-- The sum of two numbers that are not zero. -/
theorem addFinite_spec (mode : RoundMode) (ha0 : ¬ IsZero a) (haf : Finite a) (hb0 : ¬ IsZero b)
    (hbf : Finite b) (hle : code b ≤ code a) :
    ∃ z, addFinite mode a b = some z ∧ SumRounded mode (value a + value b) z := by
  obtain ⟨oa, ob, v, y, hoa, hob, hv, h⟩ := aligned_spec ha0 haf hb0 hbf hle
  have hxor := sign_ne_zero_iff (sign_xor_toNat a b)
  rw [addFinite, hoa, hob]
  simp only [Option.bind_eq_bind, Option.bind_some, hv]
  by_cases hs : a.msb = b.msb
  · rw [if_neg fun hne => absurd (hxor.1 hne) (by rw [hs, Bool.xor_self]; exact Bool.false_ne_true)]
    exact addition_spec mode h ha0 hle hs
  · have hs' : b.msb = !a.msb := by
      rw [Bool.eq_not]
      exact Ne.symm hs
    rw [if_pos (hxor.2 (by rw [hs', Bool.xor_not_self]))]
    exact subtraction_spec mode h hle hs'

end Finite

section Sign
variable {a b : Rep}

/-- The sign of a sum: that of the infinite operand or of the exact sum. A sum that
is zero is `+0` unless both operands are negative. -/
def sumSign (a b : Rep) : Bool :=
  if IsInf a then a.msb
  else if IsInf b then b.msb
  else if value a + value b = 0 then a.msb && b.msb
  else decide (value a + value b < 0)

theorem decide_value_neg (h : ¬ IsZero a) : decide (value a < 0) = a.msb := by
  have hpos : 0 < units a / 2 ^ 149 := div_pos (units_pos h) (by positivity)
  rw [value, mul_div_assoc]
  cases a.msb
  · rw [if_neg Bool.false_ne_true, one_mul]
    exact decide_eq_false hpos.le.not_gt
  · rw [if_pos rfl, neg_one_mul]
    exact decide_eq_true (neg_neg_of_pos hpos)

theorem value_ne_zero (h : ¬ IsZero a) : value a ≠ 0 := by
  intro hz
  have hu := units_pos h
  have habs := abs_value a
  rw [hz, abs_zero, eq_comm, div_eq_zero_iff] at habs
  exact habs.elim hu.ne' (by positivity)

theorem value_eq_iff {z : Rep} {x : ℚ} (hs : x ≠ 0 → z.msb = decide (x < 0)) :
    value z = x ↔ grid (code z) = |x| * 2 ^ 149 := by
  have hval : |value z| * 2 ^ 149 = grid (code z) := by
    rw [abs_value, grid, units]
    field_simp
  constructor
  · rintro rfl
    exact hval.symm
  · intro h
    have habs : |value z| = |x| := by
      rw [← hval] at h
      exact mul_right_cancel₀ (by positivity) h
    by_cases hx : x = 0
    · rwa [hx, abs_zero, abs_eq_zero, ← hx] at habs
    have hz : ¬ IsZero z := by
      intro hz
      rw [value_eq_zero hz, abs_zero] at habs
      exact hx (abs_eq_zero.1 habs.symm)
    have hneg := (decide_value_neg hz).trans (hs hx)
    rw [decide_eq_decide] at hneg
    rcases lt_or_ge x 0 with hlt | hge
    · rw [abs_of_neg hlt, abs_of_neg (hneg.2 hlt)] at habs
      exact neg_injective habs
    · have hge' : 0 ≤ value z := not_lt.1 fun h => absurd (hneg.1 h) hge.not_gt
      rwa [abs_of_nonneg hge, abs_of_nonneg hge'] at habs

theorem roundedBy_exact (mode : RoundMode) (s : Bool) {r : ℕ} (hr : r ≤ infCode) :
    RoundedBy mode s (grid r) r := by
  have hdown : RoundDown grid infCode (grid r) r :=
    ⟨hr, le_rfl, fun _ => grid_strictMono (Nat.lt_succ_self r)⟩
  have hup : RoundUp grid infCode (grid r) r :=
    ⟨hr, fun k hk => grid_strictMono (by omega), fun _ => le_rfl⟩
  have hnear := NearestEven.exact grid_strictMono hr
  cases mode <;> cases s
  exacts [hnear, hnear, hdown, hup, hup, hdown, hdown, hdown]

end Sign

section Sum
variable {a b : Rep}

/-- Where the early returns of an addition can apply. -/
theorem special_iff (a : Rep) :
    infRep - 1#32 ≤ (a &&& absMask) - 1#32 ↔ ¬ (Finite a ∧ ¬ IsZero a) := by
  have hcode : code a < 2 ^ 31 := (packed_self a).lt
  have hinf : (infRep - 1#32).toNat = infCode - 1 := rfl
  have hone : (1#32).toNat = 1 := rfl
  have habs : (a &&& absMask).toNat = code a := rfl
  rw [BitVec.le_def, hinf, BitVec.toNat_sub, hone, habs, Finite, IsZero, infCode]
  omega

theorem addsf3_of_finite (mode : RoundMode) (ha : Finite a ∧ ¬ IsZero a)
    (hb : Finite b ∧ ¬ IsZero b) :
    ∃ z, addsf3 mode a b = some z ∧ SumRounded mode (value a + value b) z := by
  have hcond : ¬ (infRep - 1#32 ≤ (a &&& absMask) - 1#32 ∨
      infRep - 1#32 ≤ (b &&& absMask) - 1#32) := by
    rw [special_iff, special_iff]
    exact not_or.2 ⟨not_not.2 ha, not_not.2 hb⟩
  unfold addsf3
  rw [if_neg hcond]
  by_cases hlt : (a &&& absMask) < (b &&& absMask)
  · rw [if_pos hlt, add_comm]
    rw [BitVec.lt_def] at hlt
    exact addFinite_spec mode hb.2 hb.1 ha.2 ha.1 hlt.le
  · rw [if_neg hlt]
    rw [BitVec.lt_def] at hlt
    exact addFinite_spec mode ha.2 ha.1 hb.2 hb.1 (not_lt.1 hlt)

theorem addsf3_of_special (mode : RoundMode) {z : Rep} (hz : addSpecial a b = some z)
    (h : ¬ (Finite a ∧ ¬ IsZero a) ∨ ¬ (Finite b ∧ ¬ IsZero b)) :
    addsf3 mode a b = some ⟨z, false⟩ := by
  unfold addsf3
  rw [if_pos (h.imp (special_iff a).2 (special_iff b).2), hz]
  rfl

/-- Of two finite numbers of which one is zero the sum is the other. -/
theorem addSpecial_zero (ha : Finite a) (hb : Finite b) (h : IsZero a ∨ IsZero b) :
    ∃ z, addSpecial a b = some z ∧ value z = value a + value b ∧ z.msb = sumSign a b ∧
      Finite z := by
  have hna := ha.not_isNaN
  have hnb := hb.not_isNaN
  have hia := ha.not_isInf
  have hib := hb.not_isInf
  simp only [addSpecial, sumSign, infRep_lt_iff, abs_eq_infRep_iff, abs_eq_zero_iff, if_neg hna,
    if_neg hnb, if_neg hia, if_neg hib]
  by_cases hza : IsZero a
  · rw [if_pos hza, value_eq_zero hza, zero_add]
    by_cases hzb : IsZero b
    · have hzero : IsZero (a &&& b) := by
        rw [← abs_eq_zero_iff] at hza hzb ⊢
        rw [BitVec.and_assoc, hzb, BitVec.and_zero]
      rw [if_pos hzb, value_eq_zero hzb, if_pos rfl]
      refine ⟨a &&& b, rfl, value_eq_zero hzero, BitVec.msb_and, ?_⟩
      rw [IsZero] at hzero
      rw [Finite, hzero]
      decide
    · rw [if_neg hzb, if_neg (value_ne_zero hzb)]
      exact ⟨b, rfl, rfl, (decide_value_neg hzb).symm, hb⟩
  · have hzb := h.resolve_left hza
    rw [if_neg hza, if_pos hzb, value_eq_zero hzb, add_zero, if_neg (value_ne_zero hza)]
    exact ⟨a, rfl, rfl, (decide_value_neg hza).symm, ha⟩

/-- In every mode the sum of two finite numbers is the exact sum rounded that way,
an overflow being an infinity, and a finite result is reported as inexact where it
is not the sum. -/
theorem addsf3_rounds (mode : RoundMode) (ha : Finite a) (hb : Finite b) :
    ∃ z, addsf3 mode a b = some z ∧ z.rep.msb = sumSign a b ∧
      RoundedBy mode (sumSign a b) (|value a + value b| * 2 ^ 149) (code z.rep) ∧
      (Finite z.rep → (z.inexact = true ↔ value z.rep ≠ value a + value b)) := by
  have hsgn : sumSign a b = if value a + value b = 0 then a.msb && b.msb
      else decide (value a + value b < 0) := by
    rw [sumSign, if_neg ha.not_isInf, if_neg hb.not_isInf]
  have hsgn' : value a + value b ≠ 0 → sumSign a b = decide (value a + value b < 0) := by
    intro h
    rw [hsgn, if_neg h]
  by_cases hzero : IsZero a ∨ IsZero b
  · obtain ⟨z, hz, hval, hmsb, hfin⟩ := addSpecial_zero ha hb hzero
    refine ⟨⟨z, false⟩, addsf3_of_special mode hz ?_, hmsb, ?_, fun _ => ?_⟩
    · exact hzero.imp (fun h hc => hc.2 h) (fun h hc => hc.2 h)
    · have heq := (value_eq_iff (x := value a + value b) (z := z) fun h =>
        hmsb.trans (hsgn' h)).1 hval
      rw [← heq]
      exact roundedBy_exact mode _ (le_of_lt hfin)
    · exact iff_of_false Bool.false_ne_true (not_not.2 hval)
  · obtain ⟨hza, hzb⟩ := not_or.1 hzero
    obtain ⟨z, hz, hsum⟩ := addsf3_of_finite mode ⟨ha, hza⟩ ⟨hb, hzb⟩
    refine ⟨z, hz, ?_⟩
    unfold SumRounded at hsum
    by_cases hx : value a + value b = 0
    · rw [if_pos hx] at hsum
      have hs : sumSign a b = false := by
        rw [hsgn, if_pos hx]
        have hneg : value a = -value b := by linarith
        have hna := decide_value_neg hza
        have hnb := decide_value_neg hzb
        rw [← hna, ← hnb, hneg]
        rcases lt_or_ge (value b) 0 with hlt | hge
        · rw [decide_eq_false (by linarith : ¬ -value b < 0), Bool.false_and]
        · rw [decide_eq_false hge.not_gt, Bool.and_false]
      have hcode : code 0#32 = 0 := by decide
      rw [hsum, hs, hx, abs_zero, zero_mul]
      refine ⟨rfl, ?_, fun _ => iff_of_false Bool.false_ne_true (not_not.2 ?_)⟩
      · have h := roundedBy_exact mode false (Nat.zero_le infCode)
        rw [grid_zero] at h
        rwa [hcode]
      · exact value_eq_zero hcode
    · rw [if_neg hx] at hsum
      obtain ⟨r, hp, hr, hflag⟩ := hsum
      have hmsb := hp.msb
      rw [hsgn' hx]
      refine ⟨hmsb, hp.code.symm ▸ hr, fun hfin => (hflag hfin).trans (not_congr ?_)⟩
      rw [value_eq_iff fun _ => hmsb, hp.code]

theorem xor_signBit_toNat (a : Rep) :
    (a ^^^ signBit).toNat = (if a.msb then 0 else 2 ^ 31) + code a := by
  have hlt := a.isLt
  have hcode := code_eq a
  have hmask : signBit.toNat = 2 ^ 31 := rfl
  rw [BitVec.toNat_xor, hmask, msb_eq]
  by_cases h : 2 ^ 31 ≤ a.toNat
  · obtain ⟨m, hm⟩ : ∃ m, a.toNat = m + 2 ^ 31 := ⟨a.toNat - 2 ^ 31, by omega⟩
    rw [decide_eq_true h, if_pos rfl, hm, add_xor_two_pow (by omega)]
    omega
  · rw [decide_eq_false h, if_neg Bool.false_ne_true, xor_two_pow (by omega)]
    omega

theorem packed_negsf2 (a : Rep) : Packed (!a.msb) (code a) (negsf2 a) := by
  refine ⟨(packed_self a).lt, ?_⟩
  rw [negsf2, xor_signBit_toNat]
  cases a.msb <;> rfl

theorem value_negsf2 (a : Rep) : value (negsf2 a) = -value a := by
  have h := packed_negsf2 a
  rw [value, value, units, units, h.code, h.msb]
  cases a.msb
  · rw [Bool.not_false, if_pos rfl, if_neg Bool.false_ne_true]
    ring
  · rw [Bool.not_true, if_neg Bool.false_ne_true, if_pos rfl]
    ring

/-- Two infinities of opposite sign. -/
theorem xor_eq_signBit_iff (a b : Rep) : a ^^^ b = signBit ↔ code a = code b ∧ a.msb ≠ b.msb := by
  have hiff : a ^^^ b = signBit ↔ b = negsf2 a := by
    constructor
    · intro h
      rw [negsf2, ← h, ← BitVec.xor_assoc, BitVec.xor_self, BitVec.zero_xor]
    · intro h
      rw [h, negsf2, ← BitVec.xor_assoc, BitVec.xor_self, BitVec.zero_xor]
  have hn := packed_negsf2 a
  rw [hiff]
  constructor
  · rintro rfl
    rw [hn.code, hn.msb]
    exact ⟨rfl, by cases a.msb <;> decide⟩
  · rintro ⟨hc, hm⟩
    apply BitVec.eq_of_toNat_eq
    have hmsb : b.msb = !a.msb := by
      rw [Bool.eq_not]
      exact Ne.symm hm
    rw [hn.toNat, toNat_eq b, hc, hmsb]

/-- Every sum is the IEEE one: with a NaN or `inf - inf` a quiet NaN, else the
exact sum rounded to the nearest, ties to even. -/
theorem addsf3_result (a b : Rep) :
    ∃ z, addsf3 .toNearest a b = some z ∧
      Result (IsNaN a ∨ IsNaN b ∨ IsInf a ∧ IsInf b ∧ a.msb ≠ b.msb) (IsInf a ∨ IsInf b)
        (value a + value b) (sumSign a b) z.rep := by
  by_cases hfin : Finite a ∧ Finite b
  · obtain ⟨z, hz, hmsb, hr, -⟩ := addsf3_rounds .toNearest hfin.1 hfin.2
    refine ⟨z, hz, .of_rounded ?_ ?_ ⟨hr, hmsb⟩⟩
    · rintro (h | h | h)
      exacts [hfin.1.not_isNaN h, hfin.2.not_isNaN h, hfin.1.not_isInf h.1]
    · exact not_or.2 ⟨hfin.1.not_isInf, hfin.2.not_isInf⟩
  have hcond : ¬ (Finite a ∧ ¬ IsZero a) ∨ ¬ (Finite b ∧ ¬ IsZero b) :=
    (not_and_or.1 hfin).imp (fun h hc => h hc.1) (fun h hc => h hc.1)
  have hret : ∀ z, addSpecial a b = some z →
      Result (IsNaN a ∨ IsNaN b ∨ IsInf a ∧ IsInf b ∧ a.msb ≠ b.msb) (IsInf a ∨ IsInf b)
        (value a + value b) (sumSign a b) z → ∃ z, addsf3 .toNearest a b = some z ∧
      Result (IsNaN a ∨ IsNaN b ∨ IsInf a ∧ IsInf b ∧ a.msb ≠ b.msb) (IsInf a ∨ IsInf b)
        (value a + value b) (sumSign a b) z.rep :=
    fun z hz hr => ⟨⟨z, false⟩, addsf3_of_special .toNearest hz hcond, hr⟩
  simp only [addSpecial, infRep_lt_iff, abs_eq_infRep_iff] at hret
  by_cases hna : IsNaN a
  · exact hret _ (if_pos hna) (.of_nan (.inl hna) (isQuietNaN_or hna))
  by_cases hnb : IsNaN b
  · exact hret _ (by rw [if_neg hna, if_pos hnb]) (.of_nan (.inr (.inl hnb)) (isQuietNaN_or hnb))
  rw [if_neg hna, if_neg hnb] at hret
  by_cases hia : IsInf a
  · rw [if_pos hia] at hret
    by_cases hop : a ^^^ b = signBit
    · have hop' := (xor_eq_signBit_iff a b).1 hop
      have hib : IsInf b := hop'.1.symm.trans hia
      rw [if_pos hop] at hret
      exact hret _ rfl (.of_nan (.inr (.inr ⟨hia, hib, hop'.2⟩)) isQuietNaN_qnanRep)
    · rw [if_neg hop] at hret
      refine hret _ rfl (.of_inf ?_ (.inl hia) ⟨hia, by rw [sumSign, if_pos hia]⟩)
      rintro (h | h | ⟨-, hib, hm⟩)
      exacts [hna h, hnb h, hop ((xor_eq_signBit_iff a b).2 ⟨hia.trans hib.symm, hm⟩)]
  · have hfa : Finite a := ((not_isNaN_iff a).1 hna).resolve_left hia
    have hib : IsInf b := ((not_isNaN_iff b).1 hnb).resolve_right fun h => hfin ⟨hfa, h⟩
    rw [if_neg hia, if_pos hib] at hret
    refine hret _ rfl (.of_inf ?_ (.inr hib) ⟨hib, by rw [sumSign, if_neg hia, if_pos hib]⟩)
    rintro (h | h | h)
    exacts [hna h, hnb h, hia h.1]

/-- Every difference is the IEEE one. -/
theorem subsf3_result (a b : Rep) :
    ∃ z, subsf3 .toNearest a b = some z ∧
      Result (IsNaN a ∨ IsNaN b ∨ IsInf a ∧ IsInf b ∧ a.msb = b.msb) (IsInf a ∨ IsInf b)
        (value a - value b) (sumSign a (negsf2 b)) z.rep := by
  have hp := packed_negsf2 b
  obtain ⟨z, hz, hr⟩ := addsf3_result a (negsf2 b)
  refine ⟨z, hz, ?_⟩
  have hmsb : a.msb ≠ !b.msb ↔ a.msb = b.msb := by
    cases a.msb <;> cases b.msb <;> decide
  rw [value_negsf2, ← sub_eq_add_neg] at hr
  simp only [IsNaN, IsInf, hp.code, hp.msb, hmsb] at hr
  exact hr

end Sum

end LlvmTms9900.Softfloat
