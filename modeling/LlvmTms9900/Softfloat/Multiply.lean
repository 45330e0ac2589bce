import LlvmTms9900.Softfloat.Format

/-!
# Multiplication (libtms9900/builtins/softfloat/fp_mul_impl.inc)

The significands are multiplied exactly into two words. Their low word holds the
lost bits; where the product is subnormal the shift keeps a sticky bit.
-/

namespace LlvmTms9900.Softfloat
open LlvmTms9900.Arith
open LlvmTms9900.Isa (Word)
open LlvmTms9900.Builtins.Udivmoddi4 (shl shr hi32 lo32 shl_of_lt shr_of_lt hi32_toNat lo32_toNat)

section Model

/-- The two words of a product. -/
structure Wide where
  hi : Rep
  lo : Rep
  deriving DecidableEq, Repr

def wideMultiply (a b : Rep) : Wide :=
  let product := a.setWidth 64 * b.setWidth 64
  ⟨hi32 product, lo32 product⟩

def wideLeftShift (w : Wide) (count : Word) : Option Wide := do
  return ⟨(← shl w.hi count) ||| (← shr w.lo (32#16 - count)), ← shl w.lo count⟩

def wideRightShiftWithSticky (w : Wide) (count : Word) : Option Wide := do
  if count < 32#16 then
    let sticky := bit ((← shl w.lo (32#16 - count)) != 0#32)
    return ⟨← shr w.hi count, (← shl w.hi (32#16 - count)) ||| (← shr w.lo count) ||| sticky⟩
  else if count < 64#16 then
    let sticky := bit (((← shl w.hi (64#16 - count)) ||| w.lo) != 0#32)
    return ⟨0#32, (← shr w.hi (count - 32#16)) ||| sticky⟩
  else return ⟨0#32, bit ((w.hi ||| w.lo) != 0#32)⟩

/-- An operand is zero, subnormal, infinite or a NaN. -/
def exceptional (a b : Rep) : Prop :=
  maxExponent - 1#16 ≤ exponentField a - 1#16 ∨ maxExponent - 1#16 ≤ exponentField b - 1#16

instance (a b : Rep) : Decidable (exceptional a b) := inferInstanceAs (Decidable (_ ∨ _))

/-- The early returns of `__mulXf3__`. -/
def mulSpecial (a b : Rep) : Option Rep :=
  let productSign := (a ^^^ b) &&& signBit
  let aAbs := a &&& absMask
  let bAbs := b &&& absMask
  if infRep < aAbs then some (a ||| quietBit)
  else if infRep < bAbs then some (b ||| quietBit)
  else if aAbs = infRep then some (if bAbs ≠ 0#32 then aAbs ||| productSign else qnanRep)
  else if bAbs = infRep then some (if aAbs ≠ 0#32 then bAbs ||| productSign else qnanRep)
  else if aAbs = 0#32 then some productSign
  else if bAbs = 0#32 then some productSign
  else none

/-- From the test for overflow on. -/
def packProduct (productSign : Rep) (product : Wide) (productExponent : Word) : Option Rep := do
  if maxExponent.sle productExponent then return infRep ||| productSign
  if productExponent.sle 0#16 then
    let shift := (1#32 - productExponent.setWidth 32).setWidth 16
    if 32#16 ≤ shift then return productSign
    let product ← wideRightShiftWithSticky product shift
    return roundNearest signBit product.lo (product.hi ||| productSign)
  let productHi := (product.hi &&& significandMask) ||| (productExponent.signExtend 32 <<< 23)
  return roundNearest signBit product.lo (productHi ||| productSign)

/-- The product of two numbers that are not zero. -/
def mulFinite (a b : Rep) (x y : Operand) : Option Rep := do
  let productSign := (a ^^^ b) &&& signBit
  let aSignificand := x.significand ||| implicitBit
  let bSignificand := y.significand ||| implicitBit
  let product := wideMultiply aSignificand (bSignificand <<< 8)
  let productExponent :=
    exponentField a + exponentField b - exponentBias + (x.exponent + y.exponent)
  if product.hi &&& implicitBit ≠ 0#32 then
    packProduct productSign product (productExponent + 1#16)
  else packProduct productSign (← wideLeftShift product 1#16) productExponent

/-- `__mulsf3` -/
def mulsf3 (a b : Rep) : Option Rep :=
  if exceptional a b then
    (mulSpecial a b).elim
      (do mulFinite a b (← renormalize a) (← renormalize b)) some
  else mulFinite a b ⟨0#16, a &&& significandMask⟩ ⟨0#16, b &&& significandMask⟩

end Model

section Words

/-- The number in two words. -/
def Wide.toNat (w : Wide) : ℕ := w.hi.toNat * 2 ^ 32 + w.lo.toNat

theorem Wide.div (w : Wide) : w.toNat / 2 ^ 32 = w.hi.toNat := by
  have h := w.lo.isLt
  unfold Wide.toNat
  omega

theorem Wide.mod (w : Wide) : w.toNat % 2 ^ 32 = w.lo.toNat := by
  have h := w.lo.isLt
  unfold Wide.toNat
  omega

theorem wideMultiply_toNat (a b : Rep) : (wideMultiply a b).toNat = a.toNat * b.toNat := by
  have ha := a.isLt
  have hb := b.isLt
  have hlt : a.toNat * b.toNat < 2 ^ 64 :=
    calc a.toNat * b.toNat < 2 ^ 32 * 2 ^ 32 := Nat.mul_lt_mul'' ha hb
      _ = 2 ^ 64 := by norm_num
  have hprod : (a.setWidth 64 * b.setWidth 64).toNat = a.toNat * b.toNat := by
    rw [BitVec.toNat_mul, Builtins.Udivmoddi4.setWidth_toNat, Builtins.Udivmoddi4.setWidth_toNat,
      Nat.mod_eq_of_lt hlt]
  simp only [wideMultiply, Wide.toNat, hi32_toNat, lo32_toNat, hprod]
  omega

theorem wideLeftShift_one {w : Wide} (h : w.toNat < 2 ^ 63) :
    ∃ v, wideLeftShift w 1#16 = some v ∧ v.toNat = 2 * w.toNat := by
  have hlo := w.lo.isLt
  have hshr : (w.lo >>> 31).toNat < 2 ^ 1 := by
    rw [BitVec.toNat_ushiftRight, Nat.shiftRight_eq_div_pow]
    omega
  refine ⟨⟨w.hi <<< 1 ||| w.lo >>> 31, w.lo <<< 1⟩, rfl, ?_⟩
  simp only [Wide.toNat] at h ⊢
  rw [Builtins.Udivmoddi4.shl_or_toNat (by norm_num) w.hi hshr,
    Builtins.Udivmoddi4.shl_toNat (by norm_num), Builtins.Udivmoddi4.shr_toNat]
  omega

/-- Two words shifted right; the last bit keeps what is lost. -/
theorem wideRightShiftWithSticky_toNat (w : Wide) {count : Word} {k : ℕ} (hc : count.toNat = k)
    (hk1 : 1 ≤ k) (hk : k < 32) :
    ∃ v, wideRightShiftWithSticky w count = some v ∧ v.toNat = jam k w.toNat := by
  have hlt : count < 32#16 := by
    rw [BitVec.lt_def, hc]
    exact hk
  have hsub : (32#16 - count).toNat = 32 - k := by
    rw [BitVec.toNat_sub, hc]
    change (2 ^ 16 - k + 32) % 2 ^ 16 = 32 - k
    omega
  have hshl : ∀ x : Rep, shl x (32#16 - count) = some (x <<< (32 - k)) := by
    intro x
    rw [shl_of_lt (by omega), hsub]
  have hshr : ∀ x : Rep, shr x count = some (x >>> k) := by
    intro x
    rw [shr_of_lt (by omega), hc]
  refine ⟨⟨w.hi >>> k, w.hi <<< (32 - k) ||| w.lo >>> k ||| bit (w.lo <<< (32 - k) != 0#32)⟩,
    ?_, ?_⟩
  · unfold wideRightShiftWithSticky
    simp only [if_pos hlt, hshl, hshr, Option.bind_eq_bind, Option.bind_some, Option.pure_def]
  have hlo := w.lo.isLt
  have hpow : 2 ^ 32 = 2 ^ (32 - k) * 2 ^ k := by rw [← pow_add, Nat.sub_add_cancel hk.le]
  have hlt' : (w.lo >>> k).toNat < 2 ^ (32 - k) := by
    rw [Builtins.Udivmoddi4.shr_toNat]
    rw [hpow] at hlo
    exact Nat.div_lt_of_lt_mul (by rw [Nat.mul_comm]; exact hlo)
  have hmid := Builtins.Udivmoddi4.shl_or_toNat (i := 32 - k) (by omega) w.hi hlt'
  rw [Nat.sub_sub_self hk.le, Builtins.Udivmoddi4.shr_toNat] at hmid
  have hdiv : w.toNat / 2 ^ k = w.hi.toNat / 2 ^ k * 2 ^ 32 +
      (w.hi.toNat % 2 ^ k * 2 ^ (32 - k) + w.lo.toNat / 2 ^ k) := by
    have hsplit := Nat.div_add_mod w.hi.toNat (2 ^ k)
    have hsum : w.toNat = (w.hi.toNat / 2 ^ k * 2 ^ 32 + w.hi.toNat % 2 ^ k * 2 ^ (32 - k)) *
        2 ^ k + w.lo.toNat := by
      rw [Wide.toNat, Nat.add_mul, Nat.mul_assoc (w.hi.toNat % 2 ^ k), ← hpow, Nat.mul_right_comm,
        ← Nat.add_mul, Nat.mul_comm _ (2 ^ k), hsplit]
    rw [hsum, Nat.mul_comm _ (2 ^ k), Nat.mul_add_div (Nat.two_pow_pos k), Nat.add_assoc]
  have hmod : w.toNat % 2 ^ k = w.lo.toNat % 2 ^ k := by
    rw [Wide.toNat, hpow, ← Nat.mul_assoc, Nat.mul_add_mod_self_right]
  have hmidlt : (w.hi <<< (32 - k) ||| w.lo >>> k).toNat < 2 ^ 32 := BitVec.isLt _
  rw [jam, hdiv, hmod, Wide.toNat, toNat_or_bit, sticky_eq w.lo hk.le,
    Builtins.Udivmoddi4.shr_toNat, hmid]
  have hor : ∀ q l b : ℕ, l < 2 ^ 32 → b < 2 → q * 2 ^ 32 + (l ||| b) = (q * 2 ^ 32 + l) ||| b := by
    intro q l b hl hb
    have hlb : l ||| b < 2 ^ 32 := Nat.or_lt_two_pow hl (by omega)
    rw [Nat.mul_comm, Nat.two_pow_add_eq_or_of_lt hlb, Nat.two_pow_add_eq_or_of_lt hl, Nat.or_assoc]
  refine hor _ _ _ ?_ ?_
  · rw [← hmid]
    exact hmidlt
  · split <;> omega

end Words

section Pack
variable {e : ℤ} {pe : Word}

/-- The count of the shift that makes a subnormal. -/
theorem shift_toNat (he : pe.toInt = e) (hlo : -2 ^ 14 ≤ e) (hhi : e ≤ 0) :
    ((1#32 - pe.setWidth 32).setWidth 16).toNat = (1 - e).toNat := by
  have hlt := pe.isLt
  rw [BitVec.toInt_eq_toNat_cond] at he
  rw [BitVec.toNat_setWidth, BitVec.toNat_sub, BitVec.toNat_setWidth]
  have hone : (1#32).toNat = 1 := rfl
  rw [hone]
  split at he <;> omega

variable {sign : Rep} {s : Bool} {product : Wide} {x : ℚ}

theorem packProduct_overflow (hs : sign.toNat = if s then 2 ^ 31 else 0) (he : pe.toInt = e)
    (hlo : 2 ^ 55 ≤ product.toNat)
    (hx : x * 2 ^ 32 = (product.toNat : ℚ) * (2 : ℚ) ^ (e - 1)) (hover : 255 ≤ e) :
    ∃ z r, packProduct sign product pe = some z ∧ Packed s r z ∧ NearestEven grid infCode x r := by
  have hinf : infRep.toNat = infCode := rfl
  refine ⟨infRep ||| sign, infCode, ?_, hinf ▸ Packed.or (by rw [hinf]; decide) hs,
    NearestEven.overflow grid_strictMono ?_⟩
  · rw [packProduct, sle_maxExponent he, decide_eq_true hover]
    rfl
  · have hpow : (2 : ℚ) ^ (254 : ℕ) ≤ 2 ^ (e - 1) := by
      rw [← zpow_natCast]
      exact zpow_le_zpow_right₀ (by norm_num) (by push_cast; omega)
    have hprod : (2 : ℚ) ^ 55 ≤ product.toNat := by exact_mod_cast hlo
    have hmul : (2 : ℚ) ^ 55 * 2 ^ (254 : ℕ) ≤ x * 2 ^ 32 := by
      rw [hx]
      exact mul_le_mul hprod hpow (by positivity) (by positivity)
    have hsplit : (2 : ℚ) ^ 55 * 2 ^ (254 : ℕ) = 2 ^ 23 * 2 ^ 254 * 2 ^ 32 := by norm_num
    rw [hsplit] at hmul
    rw [grid_infCode]
    exact le_of_mul_le_mul_right hmul (by positivity)

/-- A product too small for a shift is below the first midpoint. -/
theorem underflow_of_shift {k : ℕ} (hhi : product.toNat < 2 ^ 56)
    (hx : x * 2 ^ 32 = (product.toNat : ℚ) / 2 ^ k) (hk : 32 ≤ k) :
    NearestEven grid infCode x 0 := by
  refine NearestEven.underflow ?_
  have hg1 : grid 1 = 1 := by rw [grid, mag_of_le (by norm_num), Nat.cast_one]
  have hprod : (product.toNat : ℚ) < 2 ^ 56 := by exact_mod_cast hhi
  have hpow : (2 : ℚ) ^ 32 ≤ 2 ^ k := pow_le_pow_right₀ (by norm_num) hk
  have hdiv : (product.toNat : ℚ) / 2 ^ k ≤ 2 ^ 56 / 2 ^ 32 :=
    div_le_div₀ (by positivity) hprod.le (by positivity) hpow
  rw [grid_zero, hg1]
  rw [← hx] at hdiv
  norm_num at hdiv ⊢
  linarith

theorem packProduct_subnormal (hs : sign.toNat = if s then 2 ^ 31 else 0) (he : pe.toInt = e)
    (helo : -2 ^ 14 ≤ e) (hhi : product.toNat < 2 ^ 56)
    (hx : x * 2 ^ 32 = (product.toNat : ℚ) * (2 : ℚ) ^ (e - 1)) (hsub : e ≤ 0) :
    ∃ z r, packProduct sign product pe = some z ∧ Packed s r z ∧ NearestEven grid infCode x r := by
  obtain ⟨k, hk⟩ : ∃ k : ℕ, 1 - e = k := ⟨(1 - e).toNat, by omega⟩
  have hcount : ((1#32 - pe.setWidth 32).setWidth 16).toNat = k := by
    rw [shift_toNat he helo hsub]
    omega
  have hscale : x * 2 ^ 32 = (product.toNat : ℚ) / 2 ^ k := by
    have hexp : e - 1 = -(k : ℤ) := by omega
    rw [hx, hexp, zpow_neg, zpow_natCast, div_eq_mul_inv]
  have hle : (32#16 ≤ (1#32 - pe.setWidth 32).setWidth 16) ↔ 32 ≤ k := by
    rw [BitVec.le_def, hcount]
    rfl
  unfold packProduct
  rw [sle_maxExponent he, sle_zero he, decide_eq_false (by omega), decide_eq_true hsub]
  simp only [Bool.false_eq_true, if_false, if_true]
  by_cases h32 : 32 ≤ k
  · exact ⟨sign, 0, by rw [if_pos (hle.2 h32)]; rfl, ⟨by norm_num, by rw [hs]; rfl⟩,
      underflow_of_shift hhi hscale h32⟩
  · obtain ⟨v, hv, hjam⟩ := wideRightShiftWithSticky_toNat product hcount (by omega) (by omega)
    have hG : jam k product.toNat < 2 ^ 56 := by
      have h := jam_le k product.toNat
      have hdiv : product.toNat / 2 ^ k ≤ product.toNat / 2 ^ 1 :=
        Nat.div_le_div_left (Nat.pow_le_pow_right (by norm_num) (by omega)) (by norm_num)
      omega
    have hvdiv := v.div
    have hvmod := v.mod
    rw [hjam] at hvdiv hvmod
    have hvhi : v.hi.toNat < 2 ^ 24 := by omega
    have hloc := located_of_sameSide (K := ℚ) (p := 23) (e := 0) (h := 31) (x := x)
      (y := (product.toNat : ℚ) / 2 ^ k) (G := jam k product.toNat)
      (by rw [pow_zero, mul_one]; exact hscale) ((SameSide.jam k _).mono (by norm_num))
      (by rw [hvdiv]; exact hvhi) (.inr rfl)
    rw [hvdiv, hvmod, Nat.zero_mul, Nat.zero_add] at hloc
    have hnear := hloc.nearest grid_strictMono (N := infCode) (by rw [infCode]; omega)
    refine ⟨roundNearest signBit v.lo (v.hi ||| sign), _, ?_,
      (Packed.or (by omega) hs).roundNearest (by omega), hnear⟩
    rw [if_neg (fun h => h32 (hle.1 h)), hv]
    rfl

theorem packProduct_normal (hs : sign.toNat = if s then 2 ^ 31 else 0) (he : pe.toInt = e)
    (hlo : 2 ^ 55 ≤ product.toNat) (hhi : product.toNat < 2 ^ 56)
    (hx : x * 2 ^ 32 = (product.toNat : ℚ) * (2 : ℚ) ^ (e - 1)) (h1 : 1 ≤ e) (h254 : e ≤ 254) :
    ∃ z r, packProduct sign product pe = some z ∧ Packed s r z ∧ NearestEven grid infCode x r := by
  obtain ⟨k, hk⟩ : ∃ k : ℕ, e - 1 = k := ⟨(e - 1).toNat, by omega⟩
  have hdiv := product.div
  have hmod := product.mod
  have hins : ((product.hi &&& significandMask) ||| (pe.signExtend 32 <<< 23)).toNat =
      k * 2 ^ 23 + product.hi.toNat := by
    rw [insertExponent_toNat he (by omega) h254]
    omega
  have hloc := located_of_sameSide (K := ℚ) (p := 23) (e := k) (h := 31) (x := x)
    (y := product.toNat) (G := product.toNat)
    (by rw [hx, hk, zpow_natCast]) (SameSide.refl 31 _) (by rw [hdiv]; omega)
    (.inl (by rw [hdiv]; omega))
  rw [hdiv, hmod, ← hins] at hloc
  have hnear := hloc.nearest grid_strictMono (N := infCode) (by rw [hins, infCode]; omega)
  refine ⟨roundNearest signBit product.lo
      (((product.hi &&& significandMask) ||| (pe.signExtend 32 <<< 23)) ||| sign), _, ?_,
    (Packed.or (by omega) hs).roundNearest (by omega), hnear⟩
  rw [packProduct, sle_maxExponent he, sle_zero he, decide_eq_false (by omega),
    decide_eq_false (by omega)]
  rfl

/-- The tail of the multiplication rounds the exact product. -/
theorem packProduct_spec (hs : sign.toNat = if s then 2 ^ 31 else 0) (he : pe.toInt = e)
    (helo : -2 ^ 14 ≤ e) (hlo : 2 ^ 55 ≤ product.toNat) (hhi : product.toNat < 2 ^ 56)
    (hx : x * 2 ^ 32 = (product.toNat : ℚ) * (2 : ℚ) ^ (e - 1)) :
    ∃ z r, packProduct sign product pe = some z ∧ Packed s r z ∧ NearestEven grid infCode x r := by
  rcases le_or_gt 255 e with hover | hover
  · exact packProduct_overflow hs he hlo hx hover
  rcases le_or_gt e 0 with hsub | hsub
  · exact packProduct_subnormal hs he helo hhi hx hsub
  · exact packProduct_normal hs he hlo hhi hx (by omega) (by omega)

end Pack

section Product
variable {a b : Rep}

/-- Where no early return is due both numbers are unpacked. -/
theorem mulFinite_spec {x y : Operand}
    (ha : Unpacked a (x.significand ||| implicitBit) (exponentField a + x.exponent))
    (hb : Unpacked b (y.significand ||| implicitBit) (exponentField b + y.exponent)) :
    ∃ z, mulFinite a b x y = some z ∧ Rounded (value a * value b) (a.msb ^^ b.msb) z := by
  obtain ⟨sa, hsa⟩ : ∃ sa, sa = x.significand ||| implicitBit := ⟨_, rfl⟩
  obtain ⟨sb, hsb⟩ : ∃ sb, sb = y.significand ||| implicitBit := ⟨_, rfl⟩
  rw [← hsa] at ha
  rw [← hsb] at hb
  obtain ⟨halo, hahi, hael, haeh, hau⟩ := ha
  obtain ⟨hblo, hbhi, hbel, hbeh, hbu⟩ := hb
  have hshl : (sb <<< 8).toNat = sb.toNat * 2 ^ 8 := by
    rw [Builtins.Udivmoddi4.shl_toNat (by norm_num), Nat.mod_eq_of_lt (by omega)]
  have hprod : (wideMultiply sa (sb <<< 8)).toNat = sa.toNat * sb.toNat * 2 ^ 8 := by
    rw [wideMultiply_toNat, hshl, Nat.mul_assoc]
  have hlo : 2 ^ 46 ≤ sa.toNat * sb.toNat :=
    calc 2 ^ 46 = 2 ^ 23 * 2 ^ 23 := by norm_num
      _ ≤ sa.toNat * sb.toNat := Nat.mul_le_mul halo hblo
  have hhi : sa.toNat * sb.toNat < 2 ^ 48 :=
    calc sa.toNat * sb.toNat < 2 ^ 24 * 2 ^ 24 := Nat.mul_lt_mul'' hahi hbhi
      _ = 2 ^ 48 := by norm_num
  obtain ⟨ea, hea⟩ : ∃ ea, (exponentField a + x.exponent).toInt = ea := ⟨_, rfl⟩
  obtain ⟨eb, heb⟩ : ∃ eb, (exponentField b + y.exponent).toInt = eb := ⟨_, rfl⟩
  rw [hea] at hael haeh hau
  rw [heb] at hbel hbeh hbu
  obtain ⟨pe, hpe⟩ : ∃ pe, pe =
      exponentField a + exponentField b - exponentBias + (x.exponent + y.exponent) := ⟨_, rfl⟩
  have hpeInt : pe.toInt = ea + eb - 127 := by
    have hrw : pe = exponentField a + x.exponent + (exponentField b + y.exponent) - 127#16 := by
      rw [hpe, exponentBias]
      ring
    have hsum := toInt_add_of_small hea heb (by omega) (by omega)
    rw [hrw]
    exact toInt_sub_of_small hsum rfl (by omega) (by omega)
  have habs : |value a * value b| * 2 ^ 149 =
      (sa.toNat * sb.toNat : ℕ) * (2 : ℚ) ^ (ea + eb - 151) := by
    have hexp : ea + eb - 151 = (ea - 1) + (eb - 1) + -149 := by omega
    rw [abs_mul, abs_value, abs_value, hau, hbu, hexp, zpow_add₀ two_ne_zero, zpow_add₀ two_ne_zero]
    push_cast
    norm_num
    ring
  have hsign := sign_xor_toNat a b
  have hdiv := (wideMultiply sa (sb <<< 8)).div
  have himp : implicitBit.toNat = 2 ^ 23 := rfl
  have hset := and_two_pow_ne_zero (x := (wideMultiply sa (sb <<< 8)).hi) himp (by omega)
  have hround : ∃ z r, mulFinite a b x y = some z ∧ Packed (a.msb ^^ b.msb) r z ∧
      NearestEven grid infCode (|value a * value b| * 2 ^ 149) r := by
    simp only [mulFinite, ← hsa, ← hsb, ← hpe]
    by_cases hbit : (wideMultiply sa (sb <<< 8)).hi &&& implicitBit ≠ 0#32
    · have hlarge := hset.1 hbit
      have hpe1 : (pe + 1#16).toInt = ea + eb - 127 + 1 :=
        toInt_add_of_small hpeInt rfl (by omega) (by omega)
      rw [if_pos hbit]
      refine packProduct_spec hsign hpe1 (by omega) (by omega) (by omega) ?_
      have hexp : ea + eb - 127 + 1 - 1 = (ea + eb - 151) + 24 := by omega
      rw [habs, hprod, hexp, zpow_add₀ two_ne_zero]
      push_cast
      norm_num
      ring
    · have hsmall : ¬ 2 ^ 23 ≤ (wideMultiply sa (sb <<< 8)).hi.toNat := fun h => hbit (hset.2 h)
      obtain ⟨v, hv, hvn⟩ := wideLeftShift_one (w := wideMultiply sa (sb <<< 8)) (by omega)
      rw [if_neg hbit, hv]
      refine packProduct_spec hsign hpeInt (by omega) (by omega) (by omega) ?_
      have hexp : ea + eb - 127 - 1 = (ea + eb - 151) + 23 := by omega
      rw [habs, hvn, hprod, hexp, zpow_add₀ two_ne_zero]
      push_cast
      norm_num
      ring
  obtain ⟨z, r, hz, hp, hr⟩ := hround
  exact ⟨z, hz, hp.rounded hr⟩

/-- Two operands that need no early return need no normalization. -/
theorem renormalize_of_not_exceptional (h : ¬ exceptional a b) :
    renormalize a = some ⟨0#16, a &&& significandMask⟩ ∧
      renormalize b = some ⟨0#16, b &&& significandMask⟩ ∧
        (Finite a ∧ ¬ IsZero a) ∧ Finite b ∧ ¬ IsZero b := by
  obtain ⟨ha, hb⟩ := not_or.1 h
  obtain ⟨hna, hfa⟩ := (normal_iff a).1 ha
  obtain ⟨hnb, hfb⟩ := (normal_iff b).1 hb
  refine ⟨renormalize_of_normal hna, renormalize_of_normal hnb, ⟨hfa, fun h => ?_⟩, hfb,
    fun h => ?_⟩
  · rw [IsZero] at h
    omega
  · rw [IsZero] at h
    omega

/-- What the early returns give, and where there is none. -/
theorem mulSpecial_spec (a b : Rep) :
    (∃ z, mulSpecial a b = some z ∧
      Result (IsNaN a ∨ IsNaN b ∨ IsInf a ∧ IsZero b ∨ IsZero a ∧ IsInf b) (IsInf a ∨ IsInf b)
        (value a * value b) (a.msb ^^ b.msb) z) ∨
    mulSpecial a b = none ∧ (Finite a ∧ ¬ IsZero a) ∧ Finite b ∧ ¬ IsZero b := by
  have hsign := sign_xor_toNat a b
  have hinf : ∀ c : Rep, c &&& absMask = infRep →
      IsInf (c &&& absMask ||| (a ^^^ b) &&& signBit) ∧
        (c &&& absMask ||| (a ^^^ b) &&& signBit).msb = (a.msb ^^ b.msb) := by
    intro c hc
    rw [hc]
    exact isInf_or_sign hsign
  simp only [mulSpecial, infRep_lt_iff, Ne, abs_eq_zero_iff]
  by_cases hna : IsNaN a
  · exact .inl ⟨_, if_pos hna, .of_nan (.inl hna) (isQuietNaN_or hna)⟩
  by_cases hnb : IsNaN b
  · exact .inl ⟨_, by rw [if_neg hna, if_pos hnb], .of_nan (.inr (.inl hnb)) (isQuietNaN_or hnb)⟩
  rw [if_neg hna, if_neg hnb]
  by_cases hia : IsInf a
  · rw [if_pos ((abs_eq_infRep_iff a).2 hia)]
    refine .inl ⟨_, rfl, ?_⟩
    by_cases hzb : IsZero b
    · rw [if_neg (not_not.2 hzb)]
      exact .of_nan (.inr (.inr (.inl ⟨hia, hzb⟩))) isQuietNaN_qnanRep
    · rw [if_pos hzb]
      refine .of_inf ?_ (.inl hia) (hinf a ((abs_eq_infRep_iff a).2 hia))
      rintro (h | h | h | h)
      exacts [hna h, hnb h, hzb h.2, hia.not_isZero h.1]
  have hfa : Finite a := ((not_isNaN_iff a).1 hna).resolve_left hia
  rw [if_neg (fun h => hia ((abs_eq_infRep_iff a).1 h))]
  by_cases hib : IsInf b
  · rw [if_pos ((abs_eq_infRep_iff b).2 hib)]
    refine .inl ⟨_, rfl, ?_⟩
    by_cases hza : IsZero a
    · rw [if_neg (not_not.2 hza)]
      exact .of_nan (.inr (.inr (.inr ⟨hza, hib⟩))) isQuietNaN_qnanRep
    · rw [if_pos hza]
      refine .of_inf ?_ (.inr hib) (hinf b ((abs_eq_infRep_iff b).2 hib))
      rintro (h | h | h | h)
      exacts [hna h, hnb h, hia h.1, hza h.1]
  have hfb : Finite b := ((not_isNaN_iff b).1 hnb).resolve_left hib
  have hvalid : ¬ (IsNaN a ∨ IsNaN b ∨ IsInf a ∧ IsZero b ∨ IsZero a ∧ IsInf b) := by
    rintro (h | h | h | h)
    exacts [hna h, hnb h, hia h.1, hib h.2]
  have hfin : ¬ (IsInf a ∨ IsInf b) := not_or.2 ⟨hia, hib⟩
  rw [if_neg (fun h => hib ((abs_eq_infRep_iff b).1 h))]
  by_cases hza : IsZero a
  · refine .inl ⟨_, if_pos hza, .of_rounded hvalid hfin ?_⟩
    rw [value_eq_zero hza, zero_mul]
    exact rounded_zero hsign
  by_cases hzb : IsZero b
  · refine .inl ⟨_, by rw [if_neg hza, if_pos hzb], .of_rounded hvalid hfin ?_⟩
    rw [value_eq_zero hzb, mul_zero]
    exact rounded_zero hsign
  · exact .inr ⟨by rw [if_neg hza, if_neg hzb], ⟨hfa, hza⟩, hfb, hzb⟩

/-- Every product is the IEEE one: with a NaN or `0 * inf` a quiet NaN, else the
exact product rounded to the nearest, ties to even. -/
theorem mulsf3_result (a b : Rep) :
    ∃ z, mulsf3 a b = some z ∧
      Result (IsNaN a ∨ IsNaN b ∨ IsInf a ∧ IsZero b ∨ IsZero a ∧ IsInf b) (IsInf a ∨ IsInf b)
        (value a * value b) (a.msb ^^ b.msb) z := by
  have hfinite : (Finite a ∧ ¬ IsZero a) ∧ Finite b ∧ ¬ IsZero b →
      ∃ x y, renormalize a = some x ∧ renormalize b = some y ∧
        ∃ z, mulFinite a b x y = some z ∧
          Result (IsNaN a ∨ IsNaN b ∨ IsInf a ∧ IsZero b ∨ IsZero a ∧ IsInf b) (IsInf a ∨ IsInf b)
            (value a * value b) (a.msb ^^ b.msb) z := by
    rintro ⟨⟨hfa, hza⟩, hfb, hzb⟩
    obtain ⟨x, hx, hxa⟩ := renormalize_spec hza hfa
    obtain ⟨y, hy, hyb⟩ := renormalize_spec hzb hfb
    obtain ⟨z, hz, hr⟩ := mulFinite_spec hxa hyb
    refine ⟨x, y, hx, hy, z, hz, .of_rounded ?_ ?_ hr⟩
    · rintro (h | h | h | h)
      exacts [hfa.not_isNaN h, hfb.not_isNaN h, hzb h.2, hza h.1]
    · rintro (h | h)
      exacts [hfa.not_isInf h, hfb.not_isInf h]
  unfold mulsf3
  by_cases hex : exceptional a b
  · rw [if_pos hex]
    rcases mulSpecial_spec a b with ⟨z, hz, hr⟩ | ⟨hnone, hfin⟩
    · exact ⟨z, by rw [hz]; rfl, hr⟩
    · obtain ⟨x, y, hx, hy, z, hz, hr⟩ := hfinite hfin
      refine ⟨z, ?_, hr⟩
      rw [hnone, hx, hy]
      exact hz
  · rw [if_neg hex]
    obtain ⟨hx, hy, hfa, hfb⟩ := renormalize_of_not_exceptional hex
    obtain ⟨x, y, hx', hy', hz⟩ := hfinite ⟨hfa, hfb⟩
    rw [hx, Option.some.injEq] at hx'
    rw [hy, Option.some.injEq] at hy'
    rw [hx', hy']
    exact hz

end Product

end LlvmTms9900.Softfloat
