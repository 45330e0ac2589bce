import LlvmTms9900.Softfloat.Laws

/-!
# Conversions to and from 32-bit integers

floatsisf.c, floatunsisf.c, fp_fixint_impl.inc and fp_fixuint_impl.inc of
libtms9900/builtins/softfloat.
-/

namespace LlvmTms9900.Softfloat
open LlvmTms9900.Arith
open LlvmTms9900.Isa (Word)
open LlvmTms9900.Builtins.Udivmoddi4 (clzsi shl shr shl_of_lt shr_of_lt)

section Model

/-- The number with the magnitude `aAbs`, which is not zero. -/
def floatAbs (aAbs : BitVec 32) : Option Rep := do
  let exponent := 31#16 - (← clzsi aAbs)
  let result ← if exponent.sle 23#16 then (do
      let shift := 23#16 - exponent
      return (← shl aAbs shift) ^^^ implicitBit)
    else (do
      let shift := exponent - 23#16
      let result := (← shr aAbs shift) ^^^ implicitBit
      return roundNearest signBit (← shl aAbs (32#16 - shift)) result)
  return result + ((exponent + exponentBias).signExtend 32 <<< 23)

/-- `__floatunsisf` -/
def floatunsisf (a : BitVec 32) : Option Rep := if a = 0#32 then some 0#32 else floatAbs a

/-- `__floatsisf` -/
def floatsisf (a : BitVec 32) : Option Rep := do
  if a = 0#32 then return 0#32
  let sign := if a.slt 0#32 then signBit else 0#32
  let aAbs := if a.slt 0#32 then -a else a
  return (← floatAbs aAbs) ||| sign

/-- The exponent of a number as an `int`. -/
def fixExponent (a : Rep) : Word := (((a &&& absMask) >>> 23) - 127#32).setWidth 16

/-- The integer part of the magnitude, reduced to 32 bits. -/
def fixShift (a : Rep) : Option (BitVec 32) :=
  let significand := ((a &&& absMask) &&& significandMask) ||| implicitBit
  let exponent := fixExponent a
  if exponent.slt 23#16 then shr significand (23#16 - exponent)
  else shl significand (exponent - 23#16)

/-- `__fixsfsi` -/
def fixsfsi (a : Rep) : Option (BitVec 32) := do
  let fixintMax := ~~~0#32 / 2#32
  let fixintMin := -fixintMax - 1#32
  let sign := if a &&& signBit ≠ 0#32 then -1#32 else 1#32
  if (fixExponent a).slt 0#16 then return 0#32
  if 32#16 ≤ fixExponent a then return if sign = 1#32 then fixintMax else fixintMin
  return sign * (← fixShift a)

/-- `__fixunssfsi` -/
def fixunssfsi (a : Rep) : Option (BitVec 32) := do
  let sign := if a &&& signBit ≠ 0#32 then -1#16 else 1#16
  if sign = -1#16 ∨ (fixExponent a).slt 0#16 then return 0#32
  if 32#16 ≤ fixExponent a then return ~~~0#32
  fixShift a

end Model

section FromInteger
variable {a : BitVec 32}

theorem roundUp_congr {half rest k l : ℕ} (h : k % 2 = l % 2) :
    roundUp half rest k = roundUp half rest l := by
  unfold roundUp
  rw [h]

/-- The exponent of an integer from its leading zeros. -/
theorem clz_exponent (ha : a ≠ 0#32) :
    ∃ c, ∃ e : ℕ, clzsi a = some c ∧ (31#16 - c).toNat = e ∧ e < 32 ∧ 2 ^ e ≤ a.toNat ∧
      a.toNat < 2 ^ (e + 1) := by
  obtain ⟨c, hc, hclz, hlow, hhigh⟩ := Builtins.Udivmoddi4.clzsi_spec ha
  refine ⟨BitVec.ofNat 16 c, 31 - c, hclz, ?_, by omega, hlow, ?_⟩
  · rw [BitVec.toNat_sub, BitVec.toNat_ofNat]
    change (2 ^ 16 - c % 2 ^ 16 + 31) % 2 ^ 16 = 31 - c
    omega
  · have hsucc : 31 - c + 1 = 32 - c := by omega
    rw [hsucc]
    exact hhigh

theorem exponentPart_toNat {E : Word} {e : ℕ} (hE : E.toNat = e) (he : e < 32) :
    ((E + exponentBias).signExtend 32 <<< 23).toNat = (e + 127) * 2 ^ 23 := by
  have hbias : exponentBias.toNat = 127 := rfl
  have hsum : (E + exponentBias).toNat = e + 127 := by
    rw [BitVec.toNat_add, hE, hbias]
    omega
  have hmsb : (E + exponentBias).msb = false := by
    rw [BitVec.msb_eq_decide]
    exact decide_eq_false (by omega)
  rw [Builtins.Udivmoddi4.shl_toNat (by norm_num), BitVec.signExtend_eq_setWidth_of_msb_false hmsb,
    BitVec.toNat_setWidth, hsum]
  omega

/-- An integer of at most 24 bits is exact. -/
theorem floatAbs_exact {e : ℕ} {sig : Rep} {E : Word} (hE : E.toNat = e) (he : e ≤ 23)
    (hlow : 2 ^ e ≤ a.toNat) (hhigh : a.toNat < 2 ^ (e + 1))
    (hsig : sig.toNat = a.toNat * 2 ^ (23 - e)) :
    ∃ r, Packed false r ((sig ^^^ implicitBit) + ((E + exponentBias).signExtend 32 <<< 23)) ∧
      NearestEven grid infCode ((a.toNat : ℚ) * 2 ^ 149) r := by
  have hlo : 2 ^ 23 ≤ sig.toNat := by
    have hpow : 2 ^ 23 = 2 ^ e * 2 ^ (23 - e) := by
      rw [← pow_add]
      congr 1
      omega
    rw [hsig, hpow]
    exact Nat.mul_le_mul_right _ hlow
  have hhi : sig.toNat < 2 ^ 24 := by
    have hpow : 2 ^ 24 = 2 ^ (e + 1) * 2 ^ (23 - e) := by
      rw [← pow_add]
      congr 1
      omega
    rw [hsig, hpow]
    exact Nat.mul_lt_mul_of_pos_right hhigh (Nat.two_pow_pos _)
  have hxor := xor_implicitBit_toNat hlo hhi
  have hp : Packed false (sig.toNat - 2 ^ 23) (sig ^^^ implicitBit) :=
    ⟨by omega, by rw [hxor, if_neg Bool.false_ne_true, Nat.zero_add]⟩
  have hadd := hp.add (exponentPart_toNat hE (by omega)) (by omega)
  have hk : sig.toNat - 2 ^ 23 + (e + 127) * 2 ^ 23 = (e + 126) * 2 ^ 23 + sig.toNat := by omega
  rw [hk] at hadd
  refine ⟨_, hadd, ?_⟩
  have hgrid : grid ((e + 126) * 2 ^ 23 + sig.toNat) = (a.toNat : ℚ) * 2 ^ 149 := by
    have hexp : 149 = 23 - e + (e + 126) := by omega
    rw [grid, mag_binade hhi.le (.inl hlo), hsig]
    push_cast
    rw [mul_assoc, ← pow_add, ← hexp]
  rw [← hgrid]
  exact NearestEven.exact grid_strictMono (by rw [infCode]; omega)

/-- A longer one loses bits and is rounded. -/
theorem floatAbs_inexact {s : ℕ} {E : Word} (hE : E.toNat = s + 23) (hs1 : 1 ≤ s) (hs : s ≤ 8)
    (hlow : 2 ^ (s + 23) ≤ a.toNat) (hhigh : a.toNat < 2 ^ (s + 24)) :
    ∃ r, Packed false r (roundNearest signBit (a <<< (32 - s)) ((a >>> s) ^^^ implicitBit) +
        ((E + exponentBias).signExtend 32 <<< 23)) ∧
      NearestEven grid infCode ((a.toNat : ℚ) * 2 ^ 149) r := by
  have hshr : (a >>> s).toNat = a.toNat / 2 ^ s := Builtins.Udivmoddi4.shr_toNat a s
  have hlo : 2 ^ 23 ≤ a.toNat / 2 ^ s := by
    rw [Nat.le_div_iff_mul_le (Nat.two_pow_pos s), ← pow_add, Nat.add_comm]
    exact hlow
  have hhi : a.toNat / 2 ^ s < 2 ^ 24 := by
    rw [Nat.div_lt_iff_lt_mul (Nat.two_pow_pos s), ← pow_add, Nat.add_comm]
    exact hhigh
  have hshl : (a <<< (32 - s)).toNat = a.toNat % 2 ^ s * 2 ^ (32 - s) := by
    rw [Builtins.Udivmoddi4.shl_toNat (by omega), Nat.sub_sub_self (by omega)]
  have hhalf : signBit.toNat = 2 ^ 31 := rfl
  have hp : Packed false (a.toNat / 2 ^ s - 2 ^ 23) ((a >>> s) ^^^ implicitBit) := by
    refine ⟨by omega, ?_⟩
    rw [xor_implicitBit_toNat (by omega) (by omega), hshr, if_neg Bool.false_ne_true, Nat.zero_add]
  have hround : Packed false (a.toNat / 2 ^ s - 2 ^ 23 +
      roundUp signBit.toNat (a <<< (32 - s)).toNat (a.toNat / 2 ^ s - 2 ^ 23))
      (roundNearest signBit (a <<< (32 - s)) ((a >>> s) ^^^ implicitBit)) :=
    hp.roundNearest (by omega)
  have hle : roundUp signBit.toNat (a <<< (32 - s)).toNat (a.toNat / 2 ^ s - 2 ^ 23) ≤ 1 := by
    unfold roundUp
    split
    · exact le_rfl
    · split <;> omega
  have hadd := hround.add (exponentPart_toNat hE (by omega)) (by omega)
  -- the kept and the lost bits as the two words of a product
  have hpow : 2 ^ 32 = 2 ^ s * 2 ^ (32 - s) := by
    rw [← pow_add]
    congr 1
    omega
  have hdiv : a.toNat * 2 ^ (32 - s) / 2 ^ (31 + 1) = a.toNat / 2 ^ s := by
    rw [hpow]
    exact Nat.mul_div_mul_right _ _ (Nat.two_pow_pos _)
  have hmod : a.toNat * 2 ^ (32 - s) % 2 ^ (31 + 1) = (a <<< (32 - s)).toNat := by
    rw [hpow, Nat.mul_mod_mul_right, hshl]
  have hx : (a.toNat : ℚ) * 2 ^ 149 * 2 ^ (31 + 1) =
      ((a.toNat * 2 ^ (32 - s) : ℕ) : ℚ) * 2 ^ (s + 149) := by
    have hexp : 149 + (31 + 1) = 32 - s + (s + 149) := by omega
    push_cast
    rw [mul_assoc, mul_assoc, ← pow_add, ← pow_add, hexp]
  have hloc := located_of_sameSide (K := ℚ) (p := 23) hx (SameSide.refl 31 _)
    (by rw [hdiv]; exact hhi) (.inl (by rw [hdiv]; exact hlo))
  rw [hdiv, hmod] at hloc
  have hnear := hloc.nearest grid_strictMono (N := infCode) (by rw [infCode]; omega)
  have hpar : roundUp signBit.toNat (a <<< (32 - s)).toNat (a.toNat / 2 ^ s - 2 ^ 23) =
      roundUp (2 ^ 31) (a <<< (32 - s)).toNat ((s + 149) * 2 ^ 23 + a.toNat / 2 ^ s) :=
    roundUp_congr (by omega)
  refine ⟨_, hadd, ?_⟩
  rw [hpar] at hle ⊢
  have hk : a.toNat / 2 ^ s - 2 ^ 23 +
      roundUp (2 ^ 31) (a <<< (32 - s)).toNat ((s + 149) * 2 ^ 23 + a.toNat / 2 ^ s) +
      (s + 23 + 127) * 2 ^ 23 = (s + 149) * 2 ^ 23 + a.toNat / 2 ^ s +
      roundUp (2 ^ 31) (a <<< (32 - s)).toNat ((s + 149) * 2 ^ 23 + a.toNat / 2 ^ s) := by
    omega
  rw [hk]
  exact hnear

/-- The magnitude of an integer is rounded. -/
theorem floatAbs_spec (ha : a ≠ 0#32) :
    ∃ z r, floatAbs a = some z ∧ Packed false r z ∧
      NearestEven grid infCode ((a.toNat : ℚ) * 2 ^ 149) r := by
  obtain ⟨c, e, hc, hE, he, hlow, hhigh⟩ := clz_exponent ha
  have hint : (31#16 - c).toInt = e := toInt_of_small hE (by omega)
  have hsle : (31#16 - c).sle 23#16 = decide (e ≤ 23) := by
    rw [BitVec.sle_eq_decide, hint]
    change decide ((e : ℤ) ≤ 23) = _
    rw [decide_eq_decide]
    omega
  by_cases h23 : e ≤ 23
  · have hshift : (23#16 - (31#16 - c)).toNat = 23 - e := by
      rw [BitVec.toNat_sub, hE]
      change (2 ^ 16 - e + 23) % 2 ^ 16 = 23 - e
      omega
    have hsig : (a <<< (23 - e)).toNat = a.toNat * 2 ^ (23 - e) := by
      have hlt : a.toNat * 2 ^ (23 - e) < 2 ^ 24 := by
        have hpow : 2 ^ 24 = 2 ^ (e + 1) * 2 ^ (23 - e) := by
          rw [← pow_add]
          congr 1
          omega
        rw [hpow]
        exact Nat.mul_lt_mul_of_pos_right hhigh (Nat.two_pow_pos _)
      rw [BitVec.toNat_shiftLeft, Nat.shiftLeft_eq]
      exact Nat.mod_eq_of_lt (by omega)
    obtain ⟨r, hp, hr⟩ := floatAbs_exact hE h23 hlow hhigh hsig
    refine ⟨_, r, ?_, hp, hr⟩
    rw [floatAbs, hc]
    simp only [Option.bind_eq_bind, Option.bind_some, hsle, decide_eq_true h23, if_true,
      shl_of_lt (by omega : (23#16 - (31#16 - c)).toNat < 32), hshift, Option.pure_def]
  · obtain ⟨s, rfl⟩ : ∃ s, e = s + 23 := ⟨e - 23, by omega⟩
    have hshift : (31#16 - c - 23#16).toNat = s := by
      rw [BitVec.toNat_sub, hE]
      change (2 ^ 16 - 23 + (s + 23)) % 2 ^ 16 = s
      omega
    have hcount : (32#16 - (31#16 - c - 23#16)).toNat = 32 - s := by
      rw [BitVec.toNat_sub, hshift]
      change (2 ^ 16 - s + 32) % 2 ^ 16 = 32 - s
      omega
    obtain ⟨r, hp, hr⟩ := floatAbs_inexact hE (by omega) (by omega) hlow hhigh
    refine ⟨_, r, ?_, hp, hr⟩
    rw [floatAbs, hc]
    simp only [Option.bind_eq_bind, Option.bind_some, hsle, decide_eq_false h23,
      Bool.false_eq_true, if_false,
      shl_of_lt (by omega : (32#16 - (31#16 - c - 23#16)).toNat < 32), hcount,
      shr_of_lt (by omega : (31#16 - c - 23#16).toNat < 32), hshift, Option.pure_def]

theorem floatunsisf_spec (a : BitVec 32) :
    ∃ z, floatunsisf a = some z ∧ Rounded a.toNat false z := by
  by_cases ha : a = 0#32
  · refine ⟨0#32, if_pos ha, ?_⟩
    rw [ha]
    exact rounded_zero rfl
  · obtain ⟨z, r, hz, hp, hr⟩ := floatAbs_spec ha
    refine ⟨z, by rw [floatunsisf, if_neg ha, hz], hp.rounded ?_⟩
    rwa [abs_of_nonneg (Nat.cast_nonneg _)]

theorem floatsisf_spec (a : BitVec 32) :
    ∃ z, floatsisf a = some z ∧ Rounded a.toInt (decide (a.toInt < 0)) z := by
  by_cases ha : a = 0#32
  · refine ⟨0#32, by rw [floatsisf, if_pos ha]; rfl, ?_⟩
    rw [ha]
    exact rounded_zero rfl
  obtain ⟨b, hb⟩ : ∃ b, b = if a.slt 0#32 then -a else a := ⟨_, rfl⟩
  have hslt : a.slt 0#32 = decide (a.toInt < 0) := by
    rw [BitVec.slt_eq_decide]
    rfl
  rw [hslt] at hb
  have hneg : (-a).toNat = 2 ^ 32 - a.toNat := by
    have hlt := a.isLt
    have hne : a.toNat ≠ 0 := fun h => ha (BitVec.eq_of_toNat_eq h)
    rw [BitVec.toNat_neg]
    exact Nat.mod_eq_of_lt (by omega)
  have hlt := a.isLt
  have hint := BitVec.toInt_eq_toNat_cond a
  have hbn : (b.toNat : ℤ) = |a.toInt| := by
    rw [hb]
    by_cases h0 : a.toInt < 0
    · rw [decide_eq_true h0, if_pos rfl, hneg, abs_of_neg h0]
      split at hint <;> omega
    · rw [decide_eq_false h0, if_neg Bool.false_ne_true, abs_of_nonneg (not_lt.1 h0)]
      split at hint <;> omega
  have hbne : b ≠ 0#32 := by
    rintro rfl
    have h0 : a.toInt = 0 := abs_eq_zero.1 hbn.symm
    exact ha (BitVec.eq_of_toInt_eq (by rw [h0]; rfl))
  obtain ⟨z, r, hz, hp, hr⟩ := floatAbs_spec hbne
  have hzn : z.toNat = r := by rw [hp.toNat, if_neg Bool.false_ne_true, Nat.zero_add]
  have hsign : (if a.slt 0#32 then signBit else 0#32).toNat =
      if decide (a.toInt < 0) then 2 ^ 31 else 0 := by
    rw [hslt]
    split <;> rfl
  have hpacked := Packed.or (by rw [hzn]; exact hp.lt) hsign
  refine ⟨z ||| if a.slt 0#32 then signBit else 0#32, ?_, hpacked.rounded ?_⟩
  · have hb' : (if a.slt 0#32 then -a else a) = b := by rw [hb, hslt]
    rw [floatsisf, if_neg ha]
    simp only [hb', hz, Option.bind_eq_bind, Option.bind_some, Option.pure_def]
  · have habs : |(a.toInt : ℚ)| = (b.toNat : ℚ) := by
      rw [← Int.cast_abs, ← hbn]
      norm_cast
    rw [habs, hzn]
    exact hr

end FromInteger

section ToInteger
variable {a : Rep}

/-- The integer part of the magnitude. -/
def integerPart (a : Rep) : ℕ := mag 23 (code a) / 2 ^ 149

/-- A number without its fraction. -/
def truncate (x : ℚ) : ℤ := if x < 0 then ⌈x⌉ else ⌊x⌋

theorem floor_abs_value (a : Rep) : ⌊|value a|⌋ = integerPart a := by
  have hcast : units a / 2 ^ 149 = ((mag 23 (code a) : ℕ) : ℚ) / ((2 ^ 149 : ℕ) : ℚ) := by
    rw [units]
    push_cast
    rfl
  rw [abs_value, hcast, integerPart, ← Nat.floor_div_eq_div (K := ℚ),
    ← Int.natCast_floor_eq_floor (by positivity)]

theorem truncate_value (a : Rep) :
    truncate (value a) = if a.msb then -(integerPart a : ℤ) else integerPart a := by
  rw [← floor_abs_value, truncate]
  by_cases hz : IsZero a
  · rw [value_eq_zero hz, abs_zero, if_neg (lt_irrefl _), Int.floor_zero]
    split <;> rfl
  · have hneg := decide_value_neg hz
    by_cases h : value a < 0
    · rw [decide_eq_true h] at hneg
      rw [if_pos h, ← hneg, if_pos rfl, abs_of_neg h, Int.floor_neg, neg_neg]
    · rw [decide_eq_false h] at hneg
      rw [if_neg h, ← hneg, if_neg Bool.false_ne_true, abs_of_nonneg (not_lt.1 h)]

theorem fixExponent_toInt (a : Rep) :
    (fixExponent a).toInt = ((code a / 2 ^ 23 : ℕ) : ℤ) - 127 := by
  have hcode : code a < 2 ^ 31 := (packed_self a).lt
  have hshr : ((a &&& absMask) >>> 23).toNat = code a / 2 ^ 23 := Builtins.Udivmoddi4.shr_toNat _ 23
  have hbias : (127#32).toNat = 127 := rfl
  have hnat : (fixExponent a).toNat = (2 ^ 32 - 127 + code a / 2 ^ 23) % 2 ^ 32 % 2 ^ 16 := by
    rw [fixExponent, BitVec.toNat_setWidth, BitVec.toNat_sub, hshr, hbias]
  rw [BitVec.toInt_eq_toNat_cond, hnat]
  split <;> omega

theorem mag_field (hn : 2 ^ 23 ≤ code a) :
    mag 23 (code a) = (2 ^ 23 + code a % 2 ^ 23) * 2 ^ (code a / 2 ^ 23 - 1) :=
  if_neg (by omega)

theorem integerPart_small (h : code a / 2 ^ 23 < 127) : integerPart a = 0 := by
  have hmono : mag 23 (code a) < mag 23 (126 * 2 ^ 23 + 2 ^ 23) :=
    mag_strictMono 23 (by omega)
  rw [mag_binade (by norm_num) (.inl le_rfl), ← pow_add] at hmono
  exact Nat.div_eq_of_lt hmono

theorem integerPart_large (h : 159 ≤ code a / 2 ^ 23) : 2 ^ 32 ≤ integerPart a := by
  have hmono : mag 23 (158 * 2 ^ 23 + 2 ^ 23) ≤ mag 23 (code a) :=
    (mag_strictMono 23).monotone (by omega)
  rw [mag_binade (by norm_num) (.inl le_rfl), ← pow_add] at hmono
  rw [integerPart, Nat.le_div_iff_mul_le (by positivity), ← pow_add]
  exact hmono

/-- The shift of the significand gives the integer part. -/
theorem fixShift_spec (hlo : 127 ≤ code a / 2 ^ 23) (hhi : code a / 2 ^ 23 < 159) :
    ∃ z, fixShift a = some z ∧ z.toNat = integerPart a := by
  have hint := fixExponent_toInt a
  obtain ⟨E, hE⟩ : ∃ E, code a / 2 ^ 23 = 127 + E := ⟨code a / 2 ^ 23 - 127, by omega⟩
  rw [hE] at hint
  have hnat : (fixExponent a).toNat = E := by
    rw [BitVec.toInt_eq_toNat_cond] at hint
    split at hint <;> omega
  have habs : (a &&& absMask).toNat = code a := rfl
  have hfrac : ((a &&& absMask) &&& significandMask).toNat = code a % 2 ^ 23 := by
    rw [fraction_toNat, habs]
  have hsig : (((a &&& absMask) &&& significandMask) ||| implicitBit).toNat =
      2 ^ 23 + code a % 2 ^ 23 := by
    rw [or_implicitBit_toNat (by omega), hfrac]
  have hpart : integerPart a = (2 ^ 23 + code a % 2 ^ 23) * 2 ^ (E + 126) / 2 ^ 149 := by
    have hexp : 127 + E - 1 = E + 126 := by omega
    rw [integerPart, mag_field (by omega), hE, hexp]
  have hslt : (fixExponent a).slt 23#16 = decide (E < 23) := by
    rw [BitVec.slt_eq_decide, toInt_of_small hnat (by omega)]
    change decide ((E : ℤ) < 23) = _
    rw [decide_eq_decide]
    omega
  unfold fixShift
  simp only [hslt]
  by_cases h23 : E < 23
  · have hcount : (23#16 - fixExponent a).toNat = 23 - E := by
      rw [BitVec.toNat_sub, hnat]
      change (2 ^ 16 - E + 23) % 2 ^ 16 = 23 - E
      omega
    rw [decide_eq_true h23, if_pos rfl, shr_of_lt (by omega), hcount]
    refine ⟨_, rfl, ?_⟩
    have hexp : 149 = 23 - E + (E + 126) := by omega
    rw [Builtins.Udivmoddi4.shr_toNat, hsig, hpart, hexp, pow_add 2 (23 - E),
      Nat.mul_div_mul_right _ _ (Nat.two_pow_pos _)]
  · have hcount : (fixExponent a - 23#16).toNat = E - 23 := by
      rw [BitVec.toNat_sub, hnat]
      change (2 ^ 16 - 23 + E) % 2 ^ 16 = E - 23
      omega
    rw [decide_eq_false h23, if_neg Bool.false_ne_true, shl_of_lt (by omega), hcount]
    refine ⟨_, rfl, ?_⟩
    have hexp : E + 126 = E - 23 + 149 := by omega
    rw [BitVec.toNat_shiftLeft, Nat.shiftLeft_eq, hsig, hpart, hexp, pow_add 2 (E - 23),
      ← Nat.mul_assoc, Nat.mul_div_cancel _ (by positivity)]
    refine Nat.mod_eq_of_lt ?_
    calc (2 ^ 23 + code a % 2 ^ 23) * 2 ^ (E - 23) < 2 ^ 24 * 2 ^ (E - 23) :=
          Nat.mul_lt_mul_of_pos_right (by omega) (Nat.two_pow_pos _)
      _ ≤ 2 ^ 24 * 2 ^ 8 := Nat.mul_le_mul_left _ (Nat.pow_le_pow_right (by norm_num) (by omega))
      _ = 2 ^ 32 := by norm_num

/-- The tests on the exponent, and what is returned where they do not apply. -/
theorem fix_cases (a : Rep) :
    (fixExponent a).slt 0#16 = decide (code a / 2 ^ 23 < 127) ∧
      (127 ≤ code a / 2 ^ 23 → (32#16 ≤ fixExponent a ↔ 159 ≤ code a / 2 ^ 23)) := by
  have hint := fixExponent_toInt a
  have hcode : code a < 2 ^ 31 := (packed_self a).lt
  constructor
  · rw [BitVec.slt_eq_decide, hint]
    change decide (_ < (0 : ℤ)) = _
    rw [decide_eq_decide]
    omega
  · intro h
    rw [BitVec.le_def]
    change 32 ≤ _ ↔ _
    rw [BitVec.toInt_eq_toNat_cond] at hint
    split at hint <;> omega

/-- A number fits in 32 bits. -/
theorem fits_iff (a : Rep) : Finite a ∧ |value a| < 2 ^ 32 ↔ code a / 2 ^ 23 < 159 := by
  have hfl : |value a| < 2 ^ 32 ↔ integerPart a < 2 ^ 32 := by
    have h := floor_abs_value a
    have hlt : |value a| < ((2 ^ 32 : ℤ) : ℚ) ↔ ⌊|value a|⌋ < 2 ^ 32 := Int.floor_lt.symm
    rw [h, Int.cast_pow, Int.cast_ofNat] at hlt
    rw [hlt]
    omega
  rw [hfl, Finite, infCode]
  constructor
  · rintro ⟨-, h⟩
    by_contra hcon
    have hlarge := integerPart_large (a := a) (by omega)
    omega
  · intro h
    refine ⟨by omega, ?_⟩
    by_cases h127 : code a / 2 ^ 23 < 127
    · rw [integerPart_small h127]
      norm_num
    · obtain ⟨z, -, hz⟩ := fixShift_spec (a := a) (by omega) h
      have hlt := z.isLt
      omega

theorem fixsfsi_spec (a : Rep) :
    ∃ z, fixsfsi a = some z ∧
      z = if Finite a ∧ |value a| < 2 ^ 32 then BitVec.ofInt 32 (truncate (value a))
        else if a.msb then BitVec.intMin 32 else BitVec.intMax 32 := by
  obtain ⟨hslt, hle⟩ := fix_cases a
  have hsign := sign_ne_zero_iff (and_signBit_toNat a)
  unfold fixsfsi
  simp only [hsign, hslt, fits_iff]
  by_cases h127 : code a / 2 ^ 23 < 127
  · have hfit : code a / 2 ^ 23 < 159 := by omega
    rw [decide_eq_true h127, if_pos rfl, if_pos hfit, truncate_value, integerPart_small h127]
    exact ⟨_, rfl, by split <;> rfl⟩
  have h127' : 127 ≤ code a / 2 ^ 23 := by omega
  rw [decide_eq_false h127, if_neg Bool.false_ne_true]
  by_cases hfit : code a / 2 ^ 23 < 159
  · obtain ⟨z, hz, hzn⟩ := fixShift_spec h127' hfit
    have hof : BitVec.ofInt 32 (integerPart a) = z := by
      rw [← hzn, BitVec.ofInt_natCast, BitVec.ofNat_toNat, BitVec.setWidth_eq]
    rw [if_neg fun h => hfit.not_ge ((hle h127').1 h), if_pos hfit, truncate_value, hz]
    refine ⟨_, rfl, ?_⟩
    cases a.msb
    · simp only [Bool.false_eq_true, if_false]
      rw [hof, BitVec.one_mul]
    · simp only [if_true]
      rw [BitVec.ofInt_neg, hof, BitVec.neg_mul, BitVec.one_mul]
  · rw [if_pos ((hle h127').2 (not_lt.1 hfit)), if_neg hfit]
    refine ⟨_, rfl, ?_⟩
    cases a.msb <;> rfl

theorem fixunssfsi_spec (a : Rep) :
    ∃ z, fixunssfsi a = some z ∧
      z = if a.msb then 0#32
        else if Finite a ∧ |value a| < 2 ^ 32 then BitVec.ofInt 32 (truncate (value a))
        else BitVec.allOnes 32 := by
  obtain ⟨hslt, hle⟩ := fix_cases a
  have hsign := sign_ne_zero_iff (and_signBit_toNat a)
  have hval : (if a.msb = true then -1#16 else 1#16) = -1#16 ↔ a.msb = true := by
    cases a.msb <;> decide
  unfold fixunssfsi
  simp only [hsign, hslt, fits_iff, hval, decide_eq_true_eq]
  by_cases hm : a.msb = true
  · rw [if_pos (.inl hm), if_pos hm]
    exact ⟨_, rfl, rfl⟩
  rw [if_neg hm]
  by_cases h127 : code a / 2 ^ 23 < 127
  · have hfit : code a / 2 ^ 23 < 159 := by omega
    rw [if_pos (.inr h127), if_pos hfit, truncate_value, integerPart_small h127]
    exact ⟨_, rfl, by split <;> rfl⟩
  have h127' : 127 ≤ code a / 2 ^ 23 := by omega
  rw [if_neg (not_or.2 ⟨hm, h127⟩)]
  by_cases hfit : code a / 2 ^ 23 < 159
  · obtain ⟨z, hz, hzn⟩ := fixShift_spec h127' hfit
    rw [if_neg fun h => hfit.not_ge ((hle h127').1 h), if_pos hfit, truncate_value, if_neg hm, hz,
      ← hzn, BitVec.ofInt_natCast, BitVec.ofNat_toNat, BitVec.setWidth_eq]
    exact ⟨z, rfl, rfl⟩
  · rw [if_pos ((hle h127').2 (not_lt.1 hfit)), if_neg hfit]
    exact ⟨_, rfl, rfl⟩

end ToInteger

section RoundTrip
variable {s : Bool} {z : Rep} {m : ℤ}

theorem truncate_intCast (m : ℤ) : truncate m = m := by
  unfold truncate
  split
  · exact Int.ceil_intCast m
  · exact Int.floor_intCast m

/-- The code of a power of two that is an integer. -/
theorem grid_two_pow (k : ℕ) : grid ((k + 126) * 2 ^ 23 + 2 ^ 23) = 2 ^ k * 2 ^ 149 := by
  have hexp : 23 + (k + 126) = k + 149 := by omega
  rw [grid, mag_binade (by norm_num) (.inl le_rfl), ← pow_add, hexp, Nat.cast_pow, Nat.cast_ofNat,
    pow_add]

theorem Rounded.code_le {x : ℚ} (h : Rounded x s z) {k : ℕ} (hk : k < 128) (hx : |x| ≤ 2 ^ k) :
    code z ≤ (k + 126) * 2 ^ 23 + 2 ^ 23 := by
  have hle : |x| * 2 ^ 149 ≤ grid ((k + 126) * 2 ^ 23 + 2 ^ 23) := by
    rw [grid_two_pow]
    exact mul_le_mul_of_nonneg_right hx (by positivity)
  exact h.nearest.mono grid_strictMono
    (NearestEven.exact grid_strictMono (by rw [infCode]; omega)) hle

theorem Rounded.le_two_pow (h : Rounded m s z) {k : ℕ} (hk : k < 128) (hm : |m| ≤ 2 ^ k) :
    code z ≤ (k + 126) * 2 ^ 23 + 2 ^ 23 :=
  h.code_le hk (by exact_mod_cast hm)

theorem Rounded.le_code {x : ℚ} (h : Rounded x s z) {k : ℕ} (hk : k < 128) (hx : 2 ^ k ≤ |x|) :
    (k + 126) * 2 ^ 23 + 2 ^ 23 ≤ code z := by
  have hle : grid ((k + 126) * 2 ^ 23 + 2 ^ 23) ≤ |x| * 2 ^ 149 := by
    rw [grid_two_pow]
    exact mul_le_mul_of_nonneg_right hx (by positivity)
  exact (NearestEven.exact grid_strictMono (by rw [infCode]; omega)).mono grid_strictMono
    h.nearest hle

theorem Rounded.two_pow_le (h : Rounded m s z) {k : ℕ} (hk : k < 128) (hm : 2 ^ k ≤ |m|) :
    (k + 126) * 2 ^ 23 + 2 ^ 23 ≤ code z :=
  h.le_code hk (by exact_mod_cast hm)

/-- An integer of at most 24 bits is a number of the format. -/
theorem Rounded.exact_of_small (h : Rounded m s z) (hs : m ≠ 0 → s = decide (m < 0))
    (hm : |m| ≤ 2 ^ 24) : value z = m := by
  obtain ⟨n, hn⟩ : ∃ n : ℕ, |m| = n := ⟨m.natAbs, Int.abs_eq_natAbs m⟩
  have hn24 : n ≤ 2 ^ 24 := by omega
  obtain ⟨k, hk⟩ := exists_code (p := 23) (e := 149) hn24
  have habs : |(m : ℚ)| * 2 ^ 149 = grid k := by
    rw [grid, hk, ← Int.cast_abs, hn]
    push_cast
    rfl
  have hkinf : k ≤ infCode := by
    rw [← grid_strictMono.le_iff_le, ← habs, grid_infCode, ← Int.cast_abs, hn]
    have hn' : (n : ℚ) ≤ 2 ^ 24 := by exact_mod_cast hn24
    push_cast
    linarith
  have hnear := h.nearest
  rw [habs] at hnear
  rw [value_eq_iff, hnear.eq_of_exact grid_strictMono hkinf, habs]
  intro h0
  have hm0 : m ≠ 0 := by exact_mod_cast h0
  rw [h.sign, hs hm0, decide_eq_decide]
  norm_cast

/-- A rounded integer is an integer. -/
theorem Rounded.truncate_eq (h : Rounded m s z) (hs : m ≠ 0 → s = decide (m < 0)) :
    (truncate (value z) : ℚ) = value z := by
  by_cases hm : |m| ≤ 2 ^ 24
  · rw [h.exact_of_small hs hm, truncate_intCast]
  · have hcode := h.two_pow_le (k := 24) (by norm_num) (by omega)
    have hdvd : 2 ^ 149 ∣ mag 23 (code z) := by
      rw [mag_field (by omega)]
      exact (pow_dvd_pow 2 (by omega)).mul_left _
    have hpart : (integerPart z : ℚ) = units z / 2 ^ 149 := by
      rw [integerPart, Nat.cast_div hdvd (by positivity), units]
      push_cast
      rfl
    rw [truncate_value, value, mul_div_assoc, ← hpart]
    cases z.msb <;> simp

/-- `__floatsisf` and `__floatunsisf` round the integer. -/
theorem from_integer_correct (n : BitVec 32) :
    (∃ z, floatsisf n = some z ∧ Rounded n.toInt (decide (n.toInt < 0)) z) ∧
      ∃ z, floatunsisf n = some z ∧ Rounded n.toNat false z :=
  ⟨floatsisf_spec n, floatunsisf_spec n⟩

/-- `__fixsfsi` and `__fixunssfsi` truncate toward zero where the magnitude is below
`2 ^ 32`, reduced to 32 bits where the type is too small, and saturate above it;
the unsigned one gives 0 for all negative numbers. -/
theorem to_integer_correct (a : Rep) :
    (∃ z, fixsfsi a = some z ∧
      z = if Finite a ∧ |value a| < 2 ^ 32 then BitVec.ofInt 32 (truncate (value a))
        else if a.msb then BitVec.intMin 32 else BitVec.intMax 32) ∧
      ∃ z, fixunssfsi a = some z ∧
        z = if a.msb then 0#32
          else if Finite a ∧ |value a| < 2 ^ 32 then BitVec.ofInt 32 (truncate (value a))
          else BitVec.allOnes 32 :=
  ⟨fixsfsi_spec a, fixunssfsi_spec a⟩

theorem signed_round_trip (n : BitVec 32) :
    ∃ z, floatsisf n = some z ∧ (fixsfsi z = some n ↔ value z = n.toInt) := by
  obtain ⟨z, hz, hr⟩ := floatsisf_spec n
  have hlo := BitVec.le_toInt n
  have hhi := BitVec.toInt_lt (x := n)
  have hcode := hr.le_two_pow (k := 31) (by norm_num) (by rw [abs_le]; omega)
  obtain ⟨w, hw, hwv⟩ := fixsfsi_spec z
  have htr := hr.truncate_eq fun _ => rfl
  rw [if_pos ((fits_iff z).2 (by omega))] at hwv
  refine ⟨z, hz, ?_⟩
  rw [hw, Option.some.injEq, ← htr, Int.cast_inj, hwv]
  constructor
  · intro h
    have hn := congrArg BitVec.toInt h
    rw [BitVec.toInt_ofInt, truncate_value] at hn
    have hpart : integerPart z ≤ 2 ^ 31 := by
      have hmono : mag 23 (code z) ≤ mag 23 ((31 + 126) * 2 ^ 23 + 2 ^ 23) :=
        (mag_strictMono 23).monotone hcode
      rw [mag_binade (by norm_num) (.inl le_rfl)] at hmono
      exact Nat.div_le_of_le_mul (by norm_num at hmono ⊢; omega)
    rw [truncate_value]
    have hsign := hr.sign
    cases hm : z.msb
    · rw [hm, eq_comm, decide_eq_false_iff_not] at hsign
      rw [hm, if_neg Bool.false_ne_true] at hn
      rw [if_neg Bool.false_ne_true]
      rw [Int.bmod_def] at hn
      split at hn <;> omega
    · rw [hm, if_pos rfl] at hn
      rw [if_pos rfl]
      rw [Int.bmod_def] at hn
      split at hn <;> omega
  · intro h
    rw [h, BitVec.ofInt_toInt]

theorem unsigned_round_trip (n : BitVec 32) :
    ∃ z, floatunsisf n = some z ∧
      (fixunssfsi z = some n ↔ value z = n.toNat ∨ n = BitVec.allOnes 32) := by
  obtain ⟨z, hz, hr⟩ := floatunsisf_spec n
  have hlt := n.isLt
  have hr' : Rounded ((n.toNat : ℤ) : ℚ) false z := by exact_mod_cast hr
  have hcode := hr'.le_two_pow (k := 32) (by norm_num) (by
    rw [abs_of_nonneg (by positivity)]
    omega)
  have hfin : Finite z := by rw [Finite, infCode]; omega
  obtain ⟨w, hw, hwv⟩ := fixunssfsi_spec z
  have htr := hr'.truncate_eq fun _ => (decide_eq_false (by omega)).symm
  have hones : n = BitVec.allOnes 32 → z = 0x4F800000#32 := by
    intro h
    have hval : floatunsisf (BitVec.allOnes 32) = some 0x4F800000#32 := by decide
    rw [h, hval] at hz
    exact (Option.some.inj hz).symm
  refine ⟨z, hz, ?_⟩
  rw [hr.sign, if_neg Bool.false_ne_true] at hwv
  rw [hw, Option.some.injEq, hwv]
  by_cases hfit : Finite z ∧ |value z| < 2 ^ 32
  · have hne : n ≠ BitVec.allOnes 32 := by
      intro h
      rw [hones h, fits_iff] at hfit
      exact absurd hfit (by decide)
    have htv : truncate (value z) = (integerPart z : ℤ) := by
      rw [truncate_value, hr.sign, if_neg Bool.false_ne_true]
    have hpart : integerPart z < 2 ^ 32 := by
      have hfl := Int.floor_lt.2 (show |value z| < ((2 ^ 32 : ℤ) : ℚ) by push_cast; exact hfit.2)
      rw [floor_abs_value] at hfl
      omega
    have hval : value z = (integerPart z : ℚ) := by
      rw [← htr, htv, Int.cast_natCast]
    rw [if_pos hfit, or_iff_left hne, htv, hval, BitVec.ofInt_natCast]
    constructor
    · intro h
      have hn := congrArg BitVec.toNat h
      rw [BitVec.toNat_ofNat, Nat.mod_eq_of_lt hpart] at hn
      rw [hn]
    · intro h
      have hn : integerPart z = n.toNat := by exact_mod_cast h
      rw [hn, BitVec.ofNat_toNat, BitVec.setWidth_eq]
  · rw [if_neg hfit, eq_comm, or_iff_right]
    intro h
    refine hfit ⟨hfin, ?_⟩
    rw [h, abs_of_nonneg (Nat.cast_nonneg _)]
    exact_mod_cast hlt

/-- An integer survives the way to a `float` and back where the `float` is exactly it;
of the others only the largest unsigned one does, by saturation. -/
theorem integer_round_trip (n : BitVec 32) :
    (∃ z, floatsisf n = some z ∧ (fixsfsi z = some n ↔ value z = n.toInt)) ∧
      ∃ z, floatunsisf n = some z ∧
        (fixunssfsi z = some n ↔ value z = n.toNat ∨ n = BitVec.allOnes 32) :=
  ⟨signed_round_trip n, unsigned_round_trip n⟩

end RoundTrip

end LlvmTms9900.Softfloat
