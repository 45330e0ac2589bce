import LlvmTms9900.Arith.NewtonReciprocal
import LlvmTms9900.Softfloat.Multiply

/-!
# Division (libtms9900/builtins/softfloat/fp_div_impl.inc)

A reciprocal of the divisor from three Newton iterations, made a little too
small, gives a quotient that is right or one too small. The remainder says which
and rounds.
-/

namespace LlvmTms9900.Softfloat
open LlvmTms9900.Arith
open LlvmTms9900.Isa (Word)
open LlvmTms9900.Builtins.Udivmoddi4 (shl shr hi32 lo32 shl_of_lt shr_of_lt hi32_toNat lo32_toNat)

section Model

/-- One full iteration; `-` is `2 -` in the fixed point of the correction. -/
def fullIteration (b_UQ1 x_UQ0 : Rep) : Rep :=
  let corr_UQ1 := 0#32 - hi32 (x_UQ0.setWidth 64 * b_UQ1.setWidth 64)
  ((x_UQ0.setWidth 64 * corr_UQ1.setWidth 64) >>> 31).setWidth 32

/-- The reciprocal, less two for an overflow and `RECIPROCAL_PRECISION`. -/
def reciprocal (b_UQ1 : Rep) : Rep :=
  let x_UQ0 := 0x7504F333#32 - b_UQ1
  fullIteration b_UQ1 (fullIteration b_UQ1 (fullIteration b_UQ1 x_UQ0)) - 2#32 - 10#32

/-- The early returns of `__divXf3__`. -/
def divSpecial (a b : Rep) : Option Rep :=
  let quotientSign := (a ^^^ b) &&& signBit
  let aAbs := a &&& absMask
  let bAbs := b &&& absMask
  if infRep < aAbs then some (a ||| quietBit)
  else if infRep < bAbs then some (b ||| quietBit)
  else if aAbs = infRep then some (if bAbs = infRep then qnanRep else aAbs ||| quotientSign)
  else if bAbs = infRep then some quotientSign
  else if aAbs = 0#32 then some (if bAbs = 0#32 then qnanRep else quotientSign)
  else if bAbs = 0#32 then some (infRep ||| quotientSign)
  else none

/-- One more where the remainder is over half of the divisor, or is half of it
and the result odd. -/
def roundQuotient (bSignificand residualLo absResult : Rep) : Rep :=
  absResult + bit (decide (bSignificand < residualLo + (absResult &&& 1#32)))

/-- From the test for overflow on. -/
def packQuotient (quotientSign aSignificand bSignificand quotient_UQ1 residualLo : Rep)
    (writtenExponent : Word) : Option Rep := do
  if maxExponent.sle writtenExponent then return infRep ||| quotientSign
  if (0#16).slt writtenExponent then
    let absResult := (quotient_UQ1 &&& significandMask) ||| (writtenExponent.signExtend 32 <<< 23)
    return roundQuotient bSignificand (residualLo <<< 1) absResult ||| quotientSign
  if (23#16 + writtenExponent).slt 0#16 then return quotientSign
  let absResult ← shr quotient_UQ1 (-writtenExponent + 1#16)
  let residualLo :=
    (← shl aSignificand (23#16 + writtenExponent)) - (absResult * bSignificand) <<< 1
  return roundQuotient bSignificand residualLo absResult ||| quotientSign

/-- The quotient of two numbers that are not zero. -/
def divFinite (a b : Rep) (x y : Operand) : Option Rep :=
  let quotientSign := (a ^^^ b) &&& signBit
  let aSignificand := x.significand ||| implicitBit
  let bSignificand := y.significand ||| implicitBit
  let writtenExponent :=
    exponentField a - exponentField b + (x.exponent - y.exponent) + exponentBias
  let quotient_UQ1 := (wideMultiply (reciprocal (bSignificand <<< 8)) (aSignificand <<< 1)).hi
  if quotient_UQ1 < implicitBit <<< 1 then
    packQuotient quotientSign (aSignificand <<< 1) bSignificand quotient_UQ1
      ((aSignificand <<< 24) - quotient_UQ1 * bSignificand) (writtenExponent - 1#16)
  else
    let quotient_UQ1 := quotient_UQ1 >>> 1
    packQuotient quotientSign aSignificand bSignificand quotient_UQ1
      ((aSignificand <<< 23) - quotient_UQ1 * bSignificand) writtenExponent

/-- `__divsf3` -/
def divsf3 (a b : Rep) : Option Rep :=
  if exceptional a b then
    (divSpecial a b).elim
      (do divFinite a b (← renormalize a) (← renormalize b)) some
  else divFinite a b ⟨0#16, a &&& significandMask⟩ ⟨0#16, b &&& significandMask⟩

end Model

section Reciprocal
variable {b x : Rep}

theorem fullIteration_toNat (hP : 2 ^ 32 ≤ x.toNat * b.toNat)
    (hlt : newtonStep 31 b.toNat x.toNat < 2 ^ 32) :
    (fullIteration b x).toNat = newtonStep 31 b.toNat x.toNat := by
  have hx := x.isLt
  have hb := b.isLt
  obtain ⟨c, hc⟩ : ∃ c, c = 0#32 - hi32 (x.setWidth 64 * b.setWidth 64) := ⟨_, rfl⟩
  have hmul : ∀ y : Rep, (x.setWidth 64 * y.setWidth 64).toNat = x.toNat * y.toNat := by
    intro y
    have hy := y.isLt
    have hlt : x.toNat * y.toNat < 2 ^ 32 * 2 ^ 32 := Nat.mul_lt_mul'' hx hy
    rw [BitVec.toNat_mul, Builtins.Udivmoddi4.setWidth_toNat, Builtins.Udivmoddi4.setWidth_toNat]
    exact Nat.mod_eq_of_lt hlt
  have hcorr : c.toNat = 2 ^ 32 - x.toNat * b.toNat / 2 ^ 32 := by
    have hprod : x.toNat * b.toNat < 2 ^ 32 * 2 ^ 32 := Nat.mul_lt_mul'' hx hb
    have hzero : (0#32).toNat = 0 := rfl
    rw [hc, BitVec.toNat_sub, hi32_toNat, hmul, hzero]
    omega
  have hstep : x.toNat * c.toNat / 2 ^ 31 = newtonStep 31 b.toNat x.toNat := by
    rw [hcorr, newtonStep]
  unfold fullIteration
  simp only [← hc]
  rw [BitVec.toNat_setWidth, BitVec.toNat_ushiftRight, Nat.shiftRight_eq_div_pow, hmul, hstep,
    Nat.mod_eq_of_lt hlt]

/-- What an iteration makes of an error, where the divisor is not a power of two. -/
theorem fullIteration_error (hb : 2 ^ 31 + 2 ^ 8 ≤ b.toNat) {E : ℚ}
    (hE : |(x.toNat : ℚ) - reciprocalOf 31 b.toNat| ≤ E) (hsmall : E ≤ 2 ^ 28) :
    -(E ^ 2 / 2 ^ 31) - 1 < (fullIteration b x).toNat - (reciprocalOf 31 b.toNat : ℚ) ∧
      (fullIteration b x).toNat - (reciprocalOf 31 b.toNat : ℚ) < 2 := by
  have hblt := b.isLt
  have hstep := newtonStep_error (K := ℚ) (n := 31) x.isLt (by omega) hblt hE
  have hT := reciprocalOf_mul (K := ℚ) (n := 31) (b := b.toNat) (by omega)
  obtain ⟨T, hTdef⟩ : ∃ T : ℚ, T = reciprocalOf 31 b.toNat := ⟨_, rfl⟩
  rw [← hTdef] at hE hstep hT ⊢
  have hbQ : (2 : ℚ) ^ 31 + 2 ^ 8 ≤ b.toNat := by exact_mod_cast hb
  have hbQ' : (b.toNat : ℚ) < 2 ^ 32 := by exact_mod_cast hblt
  have hTlow : (2 : ℚ) ^ 31 ≤ T := by
    by_contra hcon
    have hlt : T * b.toNat < 2 ^ 31 * 2 ^ 32 :=
      mul_lt_mul'' (not_le.1 hcon) hbQ' (by rw [hTdef, reciprocalOf]; positivity) (by positivity)
    rw [hT] at hlt
    norm_num at hlt
  have hTup : T + 2 ≤ 2 ^ 32 := by
    by_contra hcon
    have hlt : (2 ^ 32 - 2) * ((2 : ℚ) ^ 31 + 2 ^ 8) ≤ T * b.toNat :=
      mul_le_mul (by linarith) hbQ (by positivity) (by linarith)
    rw [hT] at hlt
    norm_num at hlt
  have hxlow : 2 ≤ x.toNat := by
    have h := (abs_le.1 hE).1
    have hle : (2 : ℚ) ≤ x.toNat := by
      norm_num at hTlow hsmall
      linarith
    exact_mod_cast hle
  have hlt : newtonStep 31 b.toNat x.toNat < 2 ^ 32 := by
    have h : (newtonStep 31 b.toNat x.toNat : ℚ) < 2 ^ 32 := by linarith [hstep.2]
    exact_mod_cast h
  rw [fullIteration_toNat (by nlinarith) hlt]
  exact hstep

/-- The first approximation is within a twenty-third of the reciprocal. -/
theorem first_error (hb : 2 ^ 31 ≤ b.toNat) :
    |((0x7504F333#32 - b).toNat : ℚ) - reciprocalOf 31 b.toNat| ≤ 184224973 := by
  have hblt := b.isLt
  have hC : (0x7504F333#32).toNat = 1963258675 := rfl
  have hx : (0x7504F333#32 - b).toNat = 6258225971 - b.toNat := by
    rw [BitVec.toNat_sub, hC]
    omega
  have hcast : ((6258225971 - b.toNat : ℕ) : ℚ) = 6258225971 - b.toNat := by
    rw [Nat.cast_sub (by omega)]
    norm_num
  have hT := reciprocalOf_mul (K := ℚ) (n := 31) (b := b.toNat) (by omega)
  obtain ⟨T, hTdef⟩ : ∃ T : ℚ, T = reciprocalOf 31 b.toNat := ⟨_, rfl⟩
  obtain ⟨d, hd⟩ : ∃ d : ℚ, d = b.toNat := ⟨_, rfl⟩
  have hdlow : (2 : ℚ) ^ 31 ≤ d := by
    rw [hd]
    exact_mod_cast hb
  have hdup : d ≤ 2 ^ 32 := by
    rw [hd]
    exact_mod_cast hblt.le
  rw [hx, hcast, ← hTdef, ← hd]
  rw [← hTdef, ← hd] at hT
  norm_num at hT hdlow hdup
  have hdpos : 0 < d := by linarith
  rw [abs_le]
  constructor
  · refine le_of_mul_le_mul_right ?_ hdpos
    linear_combination mul_nonneg (sub_nonneg.2 hdlow) (sub_nonneg.2 hdup) + hT
  · refine le_of_mul_le_mul_right ?_ hdpos
    linear_combination sq_nonneg (d - 3037000499) - hT

theorem reciprocal_eq (b : Rep) : reciprocal b =
    fullIteration b (fullIteration b (fullIteration b (0x7504F333#32 - b))) - 12#32 := by
  have hsum : (12#32 : Rep) = 2#32 + 10#32 := rfl
  rw [hsum, ← BitVec.sub_sub]
  rfl

/-- The reciprocal is too small, by less than twenty. -/
theorem reciprocal_spec {s : Rep} (hlo : 2 ^ 23 ≤ s.toNat) (hhi : s.toNat < 2 ^ 24) :
    ((reciprocal (s <<< 8)).toNat : ℚ) < reciprocalOf 31 (s.toNat * 2 ^ 8) ∧
      (reciprocalOf 31 (s.toNat * 2 ^ 8) : ℚ) < (reciprocal (s <<< 8)).toNat + 20 := by
  have hshl : (s <<< 8).toNat = s.toNat * 2 ^ 8 := by
    rw [Builtins.Udivmoddi4.shl_toNat (by norm_num), Nat.mod_eq_of_lt (by omega)]
  rcases hlo.eq_or_lt with heq | hgt
  · have himp : s = implicitBit := BitVec.eq_of_toNat_eq heq.symm
    have hval : (reciprocal (implicitBit <<< 8)).toNat = 2 ^ 32 - 12 := by decide +kernel
    have hT : (reciprocalOf 31 (2 ^ 23 * 2 ^ 8) : ℚ) = 2 ^ 32 := by
      rw [reciprocalOf]
      norm_num
    rw [← heq, himp, hval, hT]
    norm_num
  · have hb : 2 ^ 31 + 2 ^ 8 ≤ (s <<< 8).toNat := by omega
    rw [reciprocal_eq, ← hshl]
    obtain ⟨b, hbdef⟩ : ∃ b, b = s <<< 8 := ⟨_, rfl⟩
    rw [← hbdef] at hb ⊢
    have h0 := first_error (b := b) (by omega)
    obtain ⟨x0, hx0⟩ : ∃ x0, x0 = 0x7504F333#32 - b := ⟨_, rfl⟩
    rw [← hx0] at h0 ⊢
    have h1 := fullIteration_error hb h0 (by norm_num)
    obtain ⟨x1, hx1⟩ : ∃ x1, x1 = fullIteration b x0 := ⟨_, rfl⟩
    rw [← hx1] at h1 ⊢
    have h2 := fullIteration_error (x := x1) hb (E := 15804006)
      (abs_le.2 ⟨by norm_num at h1; linarith, by linarith⟩) (by norm_num)
    obtain ⟨x2, hx2⟩ : ∃ x2, x2 = fullIteration b x1 := ⟨_, rfl⟩
    rw [← hx2] at h2 ⊢
    have h3 := fullIteration_error (x := x2) hb (E := 116309)
      (abs_le.2 ⟨by norm_num at h2; linarith, by linarith⟩) (by norm_num)
    obtain ⟨x3, hx3⟩ : ∃ x3, x3 = fullIteration b x2 := ⟨_, rfl⟩
    rw [← hx3] at h3 ⊢
    norm_num at h3
    obtain ⟨hlow, hup⟩ := h3
    have hTlow : (2 : ℚ) ^ 31 ≤ reciprocalOf 31 b.toNat := by
      have hblt := b.isLt
      have hpos : (0 : ℚ) < b.toNat := by exact_mod_cast (by omega : 0 < b.toNat)
      have hle : (b.toNat : ℚ) ≤ 2 ^ 32 := by exact_mod_cast hblt.le
      rw [reciprocalOf, le_div_iff₀ hpos]
      calc (2 : ℚ) ^ 31 * b.toNat ≤ 2 ^ 31 * 2 ^ 32 := mul_le_mul_of_nonneg_left hle (by norm_num)
        _ = 2 ^ (2 * 31 + 1) := by norm_num
    have hx3ge : 12 ≤ x3.toNat := by
      have hle : (12 : ℚ) ≤ x3.toNat := by
        norm_num at hTlow
        linarith
      exact_mod_cast hle
    have hsub : (x3 - 12#32).toNat = x3.toNat - 12 := by
      have h12 : (12#32).toNat = 12 := rfl
      have hlt := x3.isLt
      rw [BitVec.toNat_sub, h12]
      omega
    rw [hsub, Nat.cast_sub hx3ge]
    constructor <;> push_cast <;> linarith

end Reciprocal

section Words
variable {x y : Rep}

theorem sub_toNat_of_le {m n : ℕ} (hx : x.toNat = m % 2 ^ 32) (hy : y.toNat = n % 2 ^ 32)
    (hle : n ≤ m) (hlt : m - n < 2 ^ 32) : (x - y).toNat = m - n := by
  rw [BitVec.toNat_sub, hx, hy]
  omega

theorem shl_toNat_mod {k : ℕ} : (x <<< k).toNat = x.toNat * 2 ^ k % 2 ^ 32 := by
  rw [BitVec.toNat_shiftLeft, Nat.shiftLeft_eq]

/-- The parity of the result turns the test into the one for a tie. -/
theorem roundUp_eq (half rest k : ℕ) :
    roundUp half rest k = if half < rest + k % 2 then 1 else 0 := by
  unfold roundUp
  split_ifs <;> omega

theorem roundQuotient_toNat {b r z : Rep} (hz : z.toNat + 1 < 2 ^ 32) (hr : r.toNat + 1 < 2 ^ 32) :
    (roundQuotient b r z).toNat = z.toNat + roundUp b.toNat r.toNat z.toNat := by
  have hodd : (z &&& 1#32).toNat = z.toNat % 2 := by
    have hmask : (1#32).toNat = 2 ^ 1 - 1 := rfl
    rw [BitVec.toNat_and, hmask, Nat.and_two_pow_sub_one_eq_mod, pow_one]
  have hsum : (r + (z &&& 1#32)).toNat = r.toNat + z.toNat % 2 := by
    rw [BitVec.toNat_add, hodd]
    omega
  have hiff : b < r + (z &&& 1#32) ↔ b.toNat < r.toNat + z.toNat % 2 := by
    rw [BitVec.lt_def, hsum]
  have hbit : (bit (decide (b < r + (z &&& 1#32)))).toNat = roundUp b.toNat r.toNat z.toNat := by
    rw [roundUp_eq]
    by_cases h : b < r + (z &&& 1#32)
    · rw [decide_eq_true h, if_pos (hiff.1 h)]
      rfl
    · rw [decide_eq_false h, if_neg fun hlt => h (hiff.2 hlt)]
      rfl
  have hle : roundUp b.toNat r.toNat z.toNat ≤ 1 := by
    rw [roundUp_eq]
    split <;> omega
  rw [roundQuotient, BitVec.toNat_add, hbit]
  omega

end Words

section Pack
variable {e : ℤ} {pe : Word} {sign a b q residualLo : Rep} {s : Bool} {A B Q : ℕ} {x : ℚ}

/-- The significand `Q` of the quotient `A / B`, perhaps one too small. -/
structure QuotientOf (A B Q : ℕ) : Prop where
  divisor : B < 2 ^ 24
  low : 2 ^ 23 ≤ Q
  high : Q < 2 ^ 24
  le : Q * B ≤ A * 2 ^ 23
  lt : 2 * (A * 2 ^ 23) < (2 * Q + 3) * B

theorem QuotientOf.pos (h : QuotientOf A B Q) : 0 < B := by
  have hlt := h.lt
  by_contra hcon
  obtain rfl : B = 0 := by omega
  omega

theorem QuotientOf.le_two (h : QuotientOf A B Q) : A ≤ 2 * B := by
  obtain ⟨hB, -, hhi, -, hlt⟩ := h
  have hmul : (2 * Q + 3) * B ≤ (2 ^ 25 + 1) * B := Nat.mul_le_mul_right _ (by omega)
  have hexp : (2 ^ 25 + 1) * B = 2 ^ 25 * B + B := Nat.succ_mul _ _
  omega

theorem packQuotient_overflow (hs : sign.toNat = if s then 2 ^ 31 else 0) (he : pe.toInt = e)
    (h : QuotientOf A B Q) (hx : x * B = ((A * 2 ^ 23 : ℕ) : ℚ) * (2 : ℚ) ^ (e - 1))
    (hover : 255 ≤ e) :
    ∃ z r, packQuotient sign a b q residualLo pe = some z ∧ Packed s r z ∧
      NearestEven grid infCode x r := by
  have hinf : infRep.toNat = infCode := rfl
  refine ⟨infRep ||| sign, infCode, ?_, hinf ▸ Packed.or (by rw [hinf]; decide) hs,
    NearestEven.overflow grid_strictMono ?_⟩
  · rw [packQuotient, sle_maxExponent he, decide_eq_true hover]
    rfl
  · have hpow : (2 : ℚ) ^ (254 : ℕ) ≤ 2 ^ (e - 1) := by
      rw [← zpow_natCast]
      exact zpow_le_zpow_right₀ (by norm_num) (by push_cast; omega)
    have hB : (0 : ℚ) < B := by exact_mod_cast h.pos
    have hnum : (2 : ℚ) ^ 23 * B ≤ (A * 2 ^ 23 : ℕ) := by
      have hle := (Nat.mul_le_mul_right B h.low).trans h.le
      exact_mod_cast hle
    have hmul : (2 : ℚ) ^ 23 * B * 2 ^ (254 : ℕ) ≤ x * B := by
      rw [hx]
      exact mul_le_mul hnum hpow (by positivity) (Nat.cast_nonneg _)
    rw [grid_infCode]
    refine le_of_mul_le_mul_right ?_ hB
    linarith

theorem packQuotient_normal (hs : sign.toNat = if s then 2 ^ 31 else 0) (he : pe.toInt = e)
    (h : QuotientOf A B Q) (hb : b.toNat = B) (hq : q.toNat = Q)
    (hr : residualLo.toNat = A * 2 ^ 23 - Q * B)
    (hx : x * B = ((A * 2 ^ 23 : ℕ) : ℚ) * (2 : ℚ) ^ (e - 1)) (h1 : 1 ≤ e) (h254 : e ≤ 254) :
    ∃ z r, packQuotient sign a b q residualLo pe = some z ∧ Packed s r z ∧
      NearestEven grid infCode x r := by
  obtain ⟨hB, hlo, hhi, hle, hlt⟩ := h
  have hpos := QuotientOf.pos ⟨hB, hlo, hhi, hle, hlt⟩
  obtain ⟨k, hk⟩ : ∃ k : ℕ, e - 1 = k := ⟨(e - 1).toNat, by omega⟩
  have hins : ((q &&& significandMask) ||| (pe.signExtend 32 <<< 23)).toNat = k * 2 ^ 23 + Q := by
    rw [insertExponent_toNat he (by omega) h254]
    omega
  have hexp : (2 * Q + 3) * B = 2 * (Q * B) + 3 * B := by ring
  have hdouble : (residualLo <<< 1).toNat = 2 * (A * 2 ^ 23 - Q * B) := by
    rw [shl_toNat_mod, hr]
    omega
  have hround := roundQuotient_toNat (b := b) (r := residualLo <<< 1)
    (z := (q &&& significandMask) ||| (pe.signExtend 32 <<< 23)) (by omega) (by omega)
  rw [hins, hdouble, hb] at hround
  have hnear := nearestEven_of_quotient (K := ℚ) (p := 23) (e := k) (N := infCode) hpos
    (by rw [hx, hk, zpow_natCast]) hle hlt (by omega) (.inl hlo) (by rw [infCode]; omega)
  have hrle := hnear.le
  rw [← hround] at hnear hrle
  refine ⟨_, _, ?_, Packed.or (by rw [infCode] at hrle; omega) hs, hnear⟩
  rw [packQuotient, sle_maxExponent he, decide_eq_false (by omega), BitVec.slt_eq_decide, he,
    decide_eq_true (by change (0 : ℤ) < e; omega)]
  rfl

/-- A quotient too small for a shift is not above the first midpoint. -/
theorem QuotientOf.underflow (h : QuotientOf A B Q) {k : ℕ}
    (hx : x * (B * 2 ^ k : ℕ) = (A * 2 ^ 23 : ℕ)) (hk : 25 ≤ k) :
    NearestEven grid infCode x 0 := by
  refine NearestEven.underflow ?_
  have hg1 : grid 1 = 1 := by rw [grid, mag_of_le (by norm_num), Nat.cast_one]
  have hpos : (0 : ℚ) < (B * 2 ^ k : ℕ) := by
    exact_mod_cast Nat.mul_pos h.pos (Nat.two_pow_pos k)
  have hpow : 2 ^ 25 ≤ 2 ^ k := Nat.pow_le_pow_right (by norm_num) hk
  have hle : 2 * (A * 2 ^ 23) ≤ B * 2 ^ k := by
    have hmul : B * 2 ^ 25 ≤ B * 2 ^ k := Nat.mul_le_mul_left B hpow
    have htwo := h.le_two
    omega
  have hleQ : (2 : ℚ) * (A * 2 ^ 23 : ℕ) ≤ (B * 2 ^ k : ℕ) := by exact_mod_cast hle
  rw [grid_zero, hg1]
  refine le_of_mul_le_mul_right ?_ hpos
  linarith

theorem packQuotient_subnormal (hs : sign.toNat = if s then 2 ^ 31 else 0) (he : pe.toInt = e)
    (helo : -2 ^ 14 ≤ e) (h : QuotientOf A B Q) (ha : a.toNat = A) (hb : b.toNat = B)
    (hq : q.toNat = Q) (hx : x * B = ((A * 2 ^ 23 : ℕ) : ℚ) * (2 : ℚ) ^ (e - 1)) (hsub : e ≤ 0) :
    ∃ z r, packQuotient sign a b q residualLo pe = some z ∧ Packed s r z ∧
      NearestEven grid infCode x r := by
  obtain ⟨k, hk⟩ : ∃ k : ℕ, 1 - e = k := ⟨(1 - e).toNat, by omega⟩
  have hscale : x * (B * 2 ^ k : ℕ) = (A * 2 ^ 23 : ℕ) := by
    have hexp : e - 1 = -(k : ℤ) := by omega
    have hpow : (2 : ℚ) ^ k ≠ 0 := by positivity
    rw [hexp, zpow_neg, zpow_natCast] at hx
    rw [Nat.cast_mul, ← mul_assoc, hx, Nat.cast_pow, Nat.cast_ofNat, inv_mul_cancel_right₀ hpow]
  have hsum : (23#16 + pe).toInt = 23 + e :=
    toInt_add_of_small (i := 23) rfl he (by omega) (by omega)
  have hneg : (-pe + 1#16).toNat = k := by
    have hlt := pe.isLt
    have hone : (1#16).toNat = 1 := rfl
    rw [BitVec.toInt_eq_toNat_cond] at he
    rw [BitVec.toNat_add, BitVec.toNat_neg, hone]
    split at he <;> omega
  unfold packQuotient
  rw [sle_maxExponent he, decide_eq_false (by omega), BitVec.slt_eq_decide, he,
    decide_eq_false (by change ¬ (0 : ℤ) < e; omega), BitVec.slt_eq_decide, hsum]
  by_cases h25 : 25 ≤ k
  · rw [decide_eq_true (by change 23 + e < (0 : ℤ); omega)]
    exact ⟨sign, 0, rfl, ⟨by norm_num, by rw [hs]; rfl⟩, h.underflow hscale h25⟩
  · obtain ⟨hB, hlo, hhi, hle, hlt⟩ := h
    have hpos := QuotientOf.pos ⟨hB, hlo, hhi, hle, hlt⟩
    have hleft : (23#16 + pe).toNat = 24 - k := by
      have hlt := (23#16 + pe).isLt
      rw [BitVec.toInt_eq_toNat_cond] at hsum
      split at hsum <;> omega
    obtain ⟨S, hS⟩ : ∃ S, S = Q / 2 ^ k := ⟨_, rfl⟩
    have hSlow : S * 2 ^ k ≤ Q := by
      rw [hS]
      exact Nat.div_mul_le_self Q _
    have hSup : Q + 1 ≤ (S + 1) * 2 ^ k := by
      rw [hS, Nat.mul_comm]
      exact Nat.lt_mul_div_succ Q (Nat.two_pow_pos k)
    have hk1 : 2 ^ 1 ≤ 2 ^ k := Nat.pow_le_pow_right (by norm_num) (by omega)
    have hp : 2 ^ (24 - k) * 2 ^ k = 2 ^ 24 := by
      rw [← pow_add]
      congr 1
      omega
    -- The remainder of the shifted quotient, both sides scaled up again.
    have hnumlow : S * (2 * B) ≤ A * 2 ^ (24 - k) := by
      refine Nat.le_of_mul_le_mul_right ?_ (Nat.two_pow_pos k)
      calc S * (2 * B) * 2 ^ k = 2 * (S * 2 ^ k * B) := by ring
        _ ≤ 2 * (A * 2 ^ 23) := Nat.mul_le_mul_left 2 ((Nat.mul_le_mul_right B hSlow).trans hle)
        _ = A * 2 ^ (24 - k) * 2 ^ k := by rw [Nat.mul_assoc A, hp]; omega
    have hnumup : 2 * (A * 2 ^ (24 - k)) < (2 * S + 3) * (2 * B) := by
      refine Nat.lt_of_mul_lt_mul_right (a := 2 ^ k) ?_
      have hBk : 2 * B ≤ 2 ^ k * B := Nat.mul_le_mul_right B hk1
      have hSB : (Q + 1) * B ≤ (S + 1) * 2 ^ k * B := Nat.mul_le_mul_right B hSup
      have h1 : 2 * (A * 2 ^ (24 - k)) * 2 ^ k = 4 * (A * 2 ^ 23) := by
        rw [Nat.mul_assoc, Nat.mul_assoc, hp]
        omega
      have h2 : (2 * S + 3) * (2 * B) * 2 ^ k = 4 * ((S + 1) * 2 ^ k * B) + 2 * (2 ^ k * B) := by
        ring
      have h3 : (2 * Q + 3) * B = 2 * ((Q + 1) * B) + B := by ring
      omega
    have hSmall : S < 2 ^ 23 := by
      rw [hS]
      exact Nat.div_lt_of_lt_mul (lt_of_lt_of_le hhi (by omega))
    have hSx : (2 * S + 3) * (2 * B) = 2 * (S * (2 * B)) + 6 * B := by ring
    have habs : (q >>> k).toNat = S := by
      rw [Builtins.Udivmoddi4.shr_toNat, hq, hS]
    have hres : ((a <<< (24 - k)) - (q >>> k * b) <<< 1).toNat =
        A * 2 ^ (24 - k) - S * (2 * B) := by
      refine sub_toNat_of_le (by rw [shl_toNat_mod, ha]) ?_ hnumlow (by omega)
      rw [shl_toNat_mod, BitVec.toNat_mul, habs, hb, Nat.mod_mul_mod, pow_one]
      congr 1
      ring
    have hround := roundQuotient_toNat (b := b)
      (r := (a <<< (24 - k)) - (q >>> k * b) <<< 1) (z := q >>> k) (by omega) (by omega)
    rw [habs, hres, hb] at hround
    have hnear : NearestEven (fun k => (mag 23 k : ℚ)) infCode x (0 * 2 ^ 23 + S +
        roundUp (2 * B) (2 * (A * 2 ^ (24 - k) - S * (2 * B))) (0 * 2 ^ 23 + S)) :=
      nearestEven_of_quotient (by omega) (by
        have hpow : (2 : ℚ) ^ k ≠ 0 := by positivity
        refine mul_right_cancel₀ hpow ?_
        have hnum : ((A * 2 ^ (24 - k) : ℕ) : ℚ) * 2 ^ k = 2 * (A * 2 ^ 23 : ℕ) := by
          have hnat : A * 2 ^ (24 - k) * 2 ^ k = 2 * (A * 2 ^ 23) := by
            rw [Nat.mul_assoc A, hp]
            omega
          exact_mod_cast hnat
        rw [pow_zero, mul_one, hnum, ← hscale]
        push_cast
        ring) hnumlow hnumup (by omega) (.inr rfl) (by rw [infCode]; omega)
    have hhalf : roundUp (2 * B) (2 * (A * 2 ^ (24 - k) - S * (2 * B))) (0 * 2 ^ 23 + S) =
        roundUp B (A * 2 ^ (24 - k) - S * (2 * B)) S := by
      rw [Nat.zero_mul, Nat.zero_add, roundUp_eq, roundUp_eq]
      split_ifs <;> omega
    have hrle := hnear.le
    rw [hhalf, Nat.zero_mul, Nat.zero_add, ← hround] at hnear hrle
    refine ⟨_, _, ?_, Packed.or (by rw [infCode] at hrle; omega) hs, hnear⟩
    rw [decide_eq_false (by change ¬ 23 + e < (0 : ℤ); omega)]
    simp only [Bool.false_eq_true, if_false]
    rw [shr_of_lt (by omega), shl_of_lt (by omega), hneg, hleft]
    rfl

/-- The tail of the division rounds the exact quotient. -/
theorem packQuotient_spec (hs : sign.toNat = if s then 2 ^ 31 else 0) (he : pe.toInt = e)
    (helo : -2 ^ 14 ≤ e) (h : QuotientOf A B Q) (ha : a.toNat = A) (hb : b.toNat = B)
    (hq : q.toNat = Q) (hr : residualLo.toNat = A * 2 ^ 23 - Q * B)
    (hx : x * B = ((A * 2 ^ 23 : ℕ) : ℚ) * (2 : ℚ) ^ (e - 1)) :
    ∃ z r, packQuotient sign a b q residualLo pe = some z ∧ Packed s r z ∧
      NearestEven grid infCode x r := by
  rcases le_or_gt 255 e with hover | hover
  · exact packQuotient_overflow hs he h hx hover
  rcases le_or_gt e 0 with hsub | hsub
  · exact packQuotient_subnormal hs he helo h ha hb hq hx hsub
  · exact packQuotient_normal hs he h hb hq hr hx (by omega) (by omega)

end Pack

section Quotient
variable {a b : Rep}

/-- The reciprocal in integers. -/
theorem reciprocal_mul {s : Rep} (hlo : 2 ^ 23 ≤ s.toNat) (hhi : s.toNat < 2 ^ 24) :
    (reciprocal (s <<< 8)).toNat * s.toNat < 2 ^ 55 ∧
      2 ^ 55 < ((reciprocal (s <<< 8)).toNat + 20) * s.toNat := by
  obtain ⟨hlow, hup⟩ := reciprocal_spec hlo hhi
  obtain ⟨n, hn⟩ : ∃ n, s.toNat = n := ⟨_, rfl⟩
  obtain ⟨r, hr⟩ : ∃ r, (reciprocal (s <<< 8)).toNat = r := ⟨_, rfl⟩
  rw [hn] at hlo hlow hup ⊢
  rw [hr] at hlow hup ⊢
  have hpos : (0 : ℚ) < n := by exact_mod_cast (by omega : 0 < n)
  have hT : (reciprocalOf 31 (n * 2 ^ 8) : ℚ) * n = 2 ^ 55 := by
    rw [reciprocalOf]
    push_cast
    field_simp
    norm_num
  have h1 : (r : ℚ) * n < 2 ^ 55 := by
    rw [← hT]
    exact mul_lt_mul_of_pos_right hlow hpos
  have h2 : (2 : ℚ) ^ 55 < (r + 20) * n := by
    rw [← hT]
    exact mul_lt_mul_of_pos_right hup hpos
  exact ⟨by exact_mod_cast h1, by exact_mod_cast h2⟩

/-- The product with the reciprocal is the quotient, or a little less. -/
theorem quotient_bounds {m n r q : ℕ} (hm : m < 2 ^ 24) (hlow : r * n < 2 ^ 55)
    (hup : 2 ^ 55 < (r + 20) * n) (hq : q = r * (m * 2) / 2 ^ 32) :
    q * n ≤ m * 2 ^ 24 ∧ 4 * (m * 2 ^ 24) < (4 * q + 5) * n := by
  have hqlow : q * 2 ^ 32 ≤ r * (m * 2) := by
    rw [hq]
    exact Nat.div_mul_le_self _ _
  have hqup : r * (m * 2) < (q + 1) * 2 ^ 32 := by
    rw [hq, Nat.mul_comm _ (2 ^ 32)]
    exact Nat.lt_mul_div_succ _ (Nat.two_pow_pos _)
  have hn : 0 < n := by
    by_contra hcon
    obtain rfl : n = 0 := by omega
    omega
  have h1 : q * 2 ^ 32 * n ≤ r * (m * 2) * n := Nat.mul_le_mul_right n hqlow
  have h2 : r * (m * 2) * n < (q + 1) * 2 ^ 32 * n := Nat.mul_lt_mul_of_pos_right hqup hn
  have h3 : r * (m * 2) * n = r * n * (m * 2) := by ring
  have h4 : r * n * (m * 2) ≤ 2 ^ 55 * (m * 2) := Nat.mul_le_mul_right _ hlow.le
  have h5 : 2 ^ 55 * (m * 2) ≤ (r + 20) * n * (m * 2) := Nat.mul_le_mul_right _ hup.le
  have h6 : (r + 20) * n * (m * 2) = r * n * (m * 2) + 40 * (m * n) := by ring
  have h7 : m * n ≤ 2 ^ 24 * n := Nat.mul_le_mul_right n hm.le
  have h8 : (q + 1) * 2 ^ 32 * n = 2 ^ 32 * (q * n) + 2 ^ 32 * n := by ring
  have h9 : q * 2 ^ 32 * n = 2 ^ 32 * (q * n) := by ring
  have h10 : (4 * q + 5) * n = 4 * (q * n) + 5 * n := by ring
  constructor <;> omega

/-- The quotient as it is where it has no more bits than a significand. -/
theorem quotientOf_small {m n q : ℕ} (hm : 2 ^ 23 ≤ m) (hn : n < 2 ^ 24)
    (hle : q * n ≤ m * 2 ^ 24) (hlt : 4 * (m * 2 ^ 24) < (4 * q + 5) * n) (hq : q < 2 ^ 24) :
    QuotientOf (m * 2) n q := by
  have hlow : 2 ^ 23 ≤ q := by
    by_contra hcon
    have hmul : (4 * q + 5) * n ≤ (2 ^ 25 + 1) * n := Nat.mul_le_mul_right n (by omega)
    have hexp : (2 ^ 25 + 1) * n = 2 ^ 25 * n + n := Nat.succ_mul _ _
    omega
  have h0 : m * 2 * 2 ^ 23 = m * 2 ^ 24 := by ring
  refine ⟨hn, hlow, hq, by rw [h0]; exact hle, ?_⟩
  have h1 : (2 * q + 3) * n = 2 * (q * n) + 3 * n := by ring
  have h2 : (4 * q + 5) * n = 4 * (q * n) + 5 * n := by ring
  rw [h0]
  omega

/-- … and halved where it has one more. -/
theorem quotientOf_large {m n q : ℕ} (hm : m < 2 ^ 24) (hn : n < 2 ^ 24) (hn' : 2 ^ 23 ≤ n)
    (hle : q * n ≤ m * 2 ^ 24) (hlt : 4 * (m * 2 ^ 24) < (4 * q + 5) * n) (hq : 2 ^ 24 ≤ q) :
    QuotientOf m n (q / 2) := by
  have hup : q < 2 ^ 25 := by
    by_contra hcon
    have hmul : 2 ^ 25 * 2 ^ 23 ≤ q * n := Nat.mul_le_mul (by omega) hn'
    omega
  have hhalf : q / 2 * 2 * n ≤ q * n := Nat.mul_le_mul_right n (Nat.div_mul_le_self q 2)
  have hodd : q * n ≤ (q / 2 * 2 + 1) * n := Nat.mul_le_mul_right n (by omega)
  have h1 : q / 2 * 2 * n = 2 * (q / 2 * n) := by ring
  have h2 : (q / 2 * 2 + 1) * n = 2 * (q / 2 * n) + n := by ring
  have h3 : (2 * (q / 2) + 3) * n = 2 * (q / 2 * n) + 3 * n := by ring
  have h4 : (4 * q + 5) * n = 4 * (q * n) + 5 * n := by ring
  exact ⟨hn, by omega, by omega, by omega, by omega⟩

/-- Where no early return is due both numbers are unpacked. -/
theorem divFinite_spec {x y : Operand}
    (ha : Unpacked a (x.significand ||| implicitBit) (exponentField a + x.exponent))
    (hb : Unpacked b (y.significand ||| implicitBit) (exponentField b + y.exponent)) :
    ∃ z, divFinite a b x y = some z ∧ Rounded (value a / value b) (a.msb ^^ b.msb) z := by
  obtain ⟨sa, hsa⟩ : ∃ sa, sa = x.significand ||| implicitBit := ⟨_, rfl⟩
  obtain ⟨sb, hsb⟩ : ∃ sb, sb = y.significand ||| implicitBit := ⟨_, rfl⟩
  rw [← hsa] at ha
  rw [← hsb] at hb
  obtain ⟨halo, hahi, hael, haeh, hau⟩ := ha
  obtain ⟨hblo, hbhi, hbel, hbeh, hbu⟩ := hb
  obtain ⟨ea, hea⟩ : ∃ ea, (exponentField a + x.exponent).toInt = ea := ⟨_, rfl⟩
  obtain ⟨eb, heb⟩ : ∃ eb, (exponentField b + y.exponent).toInt = eb := ⟨_, rfl⟩
  rw [hea] at hael haeh hau
  rw [heb] at hbel hbeh hbu
  obtain ⟨pe, hpe⟩ : ∃ pe, pe =
      exponentField a - exponentField b + (x.exponent - y.exponent) + exponentBias := ⟨_, rfl⟩
  have hpeInt : pe.toInt = ea - eb + 127 := by
    have hrw : pe = exponentField a + x.exponent - (exponentField b + y.exponent) + 127#16 := by
      rw [hpe, exponentBias]
      ring
    have hdiff := toInt_sub_of_small hea heb (by omega) (by omega)
    rw [hrw]
    exact toInt_add_of_small hdiff rfl (by omega) (by omega)
  obtain ⟨m, hm⟩ : ∃ m, sa.toNat = m := ⟨_, rfl⟩
  obtain ⟨n, hn⟩ : ∃ n, sb.toNat = n := ⟨_, rfl⟩
  rw [hm] at halo hahi hau
  have hmul := reciprocal_mul hblo hbhi
  rw [hn] at hblo hbhi hbu hmul
  have habs : |value a / value b| * 2 ^ 149 * n = m * (2 : ℚ) ^ (ea - eb + 149) := by
    have hnpos : (n : ℚ) ≠ 0 := by exact_mod_cast (by omega : n ≠ 0)
    have hpow : (2 : ℚ) ^ (ea - eb + 149) * 2 ^ (eb - 1) = 2 ^ (ea - 1) * 2 ^ (149 : ℕ) := by
      rw [← zpow_natCast, ← zpow_add₀ two_ne_zero, ← zpow_add₀ two_ne_zero]
      congr 1
      push_cast
      omega
    have hQ : (2 : ℚ) ^ (eb - 1) ≠ 0 := by positivity
    rw [abs_div, abs_value, abs_value, hau, hbu, div_div_div_cancel_right₀ (by positivity),
      div_mul_eq_mul_div, div_mul_eq_mul_div, div_eq_iff (mul_ne_zero hnpos hQ)]
    linear_combination -(m : ℚ) * n * hpow
  have hsign := sign_xor_toNat a b
  have hshl : (sa <<< 1).toNat = m * 2 := by
    rw [shl_toNat_mod, hm]
    omega
  obtain ⟨q, hq⟩ : ∃ q, q = (wideMultiply (reciprocal (sb <<< 8)) (sa <<< 1)).hi := ⟨_, rfl⟩
  have hqn : q.toNat = (reciprocal (sb <<< 8)).toNat * (m * 2) / 2 ^ 32 := by
    rw [hq, ← Wide.div, wideMultiply_toNat, hshl]
  obtain ⟨hle, hlt⟩ := quotient_bounds hahi hmul.1 hmul.2 hqn
  have hiff : q < implicitBit <<< 1 ↔ q.toNat < 2 ^ 24 := BitVec.lt_def
  have hround : ∃ z r, divFinite a b x y = some z ∧ Packed (a.msb ^^ b.msb) r z ∧
      NearestEven grid infCode (|value a / value b| * 2 ^ 149) r := by
    simp only [divFinite, ← hsa, ← hsb, ← hpe, ← hq]
    by_cases hsmall : q < implicitBit <<< 1
    · have hquot := quotientOf_small halo hbhi hle hlt (hiff.1 hsmall)
      have hpe1 : (pe - 1#16).toInt = ea - eb + 127 - 1 :=
        toInt_sub_of_small hpeInt rfl (by omega) (by omega)
      have hrem := hquot.lt
      have hexp : (2 * q.toNat + 3) * n = 2 * (q.toNat * n) + 3 * n := by ring
      rw [if_pos hsmall]
      refine packQuotient_spec hsign hpe1 (by omega) hquot hshl hn rfl ?_ ?_
      · refine sub_toNat_of_le ?_ ?_ hquot.le (by omega)
        · have hdouble : m * 2 * 2 ^ 23 = m * 2 ^ 24 := by ring
          rw [shl_toNat_mod, hm, hdouble]
        · rw [BitVec.toNat_mul, hn]
      · have hpow : ea - eb + 149 = (ea - eb + 127 - 1 - 1) + 24 := by omega
        rw [habs, hpow, zpow_add₀ two_ne_zero]
        push_cast
        ring
    · have hquot := quotientOf_large hahi hbhi hblo hle hlt
        (Nat.le_of_not_lt fun h => hsmall (hiff.2 h))
      have hqhalf : (q >>> 1).toNat = q.toNat / 2 := Builtins.Udivmoddi4.shr_toNat q 1
      have hrem := hquot.lt
      have hexp : (2 * (q.toNat / 2) + 3) * n = 2 * (q.toNat / 2 * n) + 3 * n := by ring
      rw [if_neg hsmall]
      refine packQuotient_spec hsign hpeInt (by omega) hquot hm hn hqhalf ?_ ?_
      · refine sub_toNat_of_le ?_ ?_ hquot.le (by omega)
        · rw [shl_toNat_mod, hm]
        · rw [BitVec.toNat_mul, hn, hqhalf]
      · have hpow : ea - eb + 149 = (ea - eb + 127 - 1) + 23 := by omega
        rw [habs, hpow, zpow_add₀ two_ne_zero]
        push_cast
        ring
  obtain ⟨z, r, hz, hp, hr⟩ := hround
  exact ⟨z, hz, hp.rounded hr⟩

/-- What the early returns give, and where there is none. -/
theorem divSpecial_spec (a b : Rep) :
    (∃ z, divSpecial a b = some z ∧
      Result (IsNaN a ∨ IsNaN b ∨ IsInf a ∧ IsInf b ∨ IsZero a ∧ IsZero b) (IsInf a ∨ IsZero b)
        (if IsInf b then 0 else value a / value b) (a.msb ^^ b.msb) z) ∨
    divSpecial a b = none ∧ (Finite a ∧ ¬ IsZero a) ∧ Finite b ∧ ¬ IsZero b := by
  have hsign := sign_xor_toNat a b
  simp only [divSpecial, infRep_lt_iff, abs_eq_infRep_iff, abs_eq_zero_iff]
  by_cases hna : IsNaN a
  · exact .inl ⟨_, if_pos hna, .of_nan (.inl hna) (isQuietNaN_or hna)⟩
  by_cases hnb : IsNaN b
  · exact .inl ⟨_, by rw [if_neg hna, if_pos hnb], .of_nan (.inr (.inl hnb)) (isQuietNaN_or hnb)⟩
  rw [if_neg hna, if_neg hnb]
  have hinvalid : ¬ (IsInf a ∧ IsInf b) → ¬ (IsZero a ∧ IsZero b) →
      ¬ (IsNaN a ∨ IsNaN b ∨ IsInf a ∧ IsInf b ∨ IsZero a ∧ IsZero b) := by
    rintro h1 h2 (h | h | h | h)
    exacts [hna h, hnb h, h1 h, h2 h]
  by_cases hia : IsInf a
  · rw [if_pos hia]
    refine .inl ⟨_, rfl, ?_⟩
    by_cases hib : IsInf b
    · simp only [if_pos hib]
      exact .of_nan (.inr (.inr (.inl ⟨hia, hib⟩))) isQuietNaN_qnanRep
    · simp only [if_neg hib, (abs_eq_infRep_iff a).2 hia]
      exact .of_inf (hinvalid (fun h => hib h.2) fun h => hia.not_isZero h.1) (.inl hia)
        (isInf_or_sign hsign)
  have hfa : Finite a := ((not_isNaN_iff a).1 hna).resolve_left hia
  rw [if_neg hia]
  by_cases hib : IsInf b
  · refine .inl ⟨_, if_pos hib, ?_⟩
    rw [if_pos hib]
    refine .of_rounded (hinvalid (fun h => hia h.1) fun h => hib.not_isZero h.2) ?_
      (rounded_zero hsign)
    rintro (h | h)
    exacts [hia h, hib.not_isZero h]
  have hfb : Finite b := ((not_isNaN_iff b).1 hnb).resolve_left hib
  rw [if_neg hib, if_neg hib]
  by_cases hza : IsZero a
  · rw [if_pos hza]
    refine .inl ⟨_, rfl, ?_⟩
    by_cases hzb : IsZero b
    · rw [if_pos hzb]
      exact .of_nan (.inr (.inr (.inr ⟨hza, hzb⟩))) isQuietNaN_qnanRep
    · rw [if_neg hzb, value_eq_zero hza, zero_div]
      refine .of_rounded (hinvalid (fun h => hia h.1) fun h => hzb h.2) ?_ (rounded_zero hsign)
      rintro (h | h)
      exacts [hia h, hzb h]
  rw [if_neg hza]
  by_cases hzb : IsZero b
  · refine .inl ⟨_, if_pos hzb, ?_⟩
    exact .of_inf (hinvalid (fun h => hia h.1) fun h => hza h.1) (.inr hzb) (isInf_or_sign hsign)
  · exact .inr ⟨if_neg hzb, ⟨hfa, hza⟩, hfb, hzb⟩

/-- Every quotient is the IEEE one: with a NaN, `inf / inf` or `0 / 0` a quiet NaN,
over a zero an infinity, over an infinity a zero, else the exact quotient rounded
to the nearest, ties to even. -/
theorem division_correct (a b : Rep) :
    ∃ z, divsf3 a b = some z ∧
      Result (IsNaN a ∨ IsNaN b ∨ IsInf a ∧ IsInf b ∨ IsZero a ∧ IsZero b) (IsInf a ∨ IsZero b)
        (if IsInf b then 0 else value a / value b) (a.msb ^^ b.msb) z := by
  have hfinite : (Finite a ∧ ¬ IsZero a) ∧ Finite b ∧ ¬ IsZero b →
      ∃ x y, renormalize a = some x ∧ renormalize b = some y ∧
        ∃ z, divFinite a b x y = some z ∧
          Result (IsNaN a ∨ IsNaN b ∨ IsInf a ∧ IsInf b ∨ IsZero a ∧ IsZero b) (IsInf a ∨ IsZero b)
            (if IsInf b then 0 else value a / value b) (a.msb ^^ b.msb) z := by
    rintro ⟨⟨hfa, hza⟩, hfb, hzb⟩
    obtain ⟨x, hx, hxa⟩ := renormalize_spec hza hfa
    obtain ⟨y, hy, hyb⟩ := renormalize_spec hzb hfb
    obtain ⟨z, hz, hr⟩ := divFinite_spec hxa hyb
    rw [if_neg hfb.not_isInf]
    refine ⟨x, y, hx, hy, z, hz, .of_rounded ?_ ?_ hr⟩
    · rintro (h | h | h | h)
      exacts [hfa.not_isNaN h, hfb.not_isNaN h, hfa.not_isInf h.1, hza h.1]
    · rintro (h | h)
      exacts [hfa.not_isInf h, hzb h]
  unfold divsf3
  by_cases hex : exceptional a b
  · rw [if_pos hex]
    rcases divSpecial_spec a b with ⟨z, hz, hr⟩ | ⟨hnone, hfin⟩
    · exact ⟨z, by rw [hz, Option.elim_some], hr⟩
    · obtain ⟨x, y, hx, hy, z, hz, hr⟩ := hfinite hfin
      refine ⟨z, ?_, hr⟩
      rw [hnone, Option.elim_none]
      exact Option.bind_eq_some_iff.2 ⟨x, hx, Option.bind_eq_some_iff.2 ⟨y, hy, hz⟩⟩
  · rw [if_neg hex]
    obtain ⟨hx, hy, hfa, hfb⟩ := renormalize_of_not_exceptional hex
    obtain ⟨x, y, hx', hy', hz⟩ := hfinite ⟨hfa, hfb⟩
    rw [hx, Option.some.injEq] at hx'
    rw [hy, Option.some.injEq] at hy'
    rw [hx', hy']
    exact hz

end Quotient

end LlvmTms9900.Softfloat
