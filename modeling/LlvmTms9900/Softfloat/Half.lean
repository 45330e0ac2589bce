import LlvmTms9900.Softfloat.Add

/-!
# The half format (fp_trunc_impl.inc, fp_extend_impl.inc)

A half has 10 bits of fraction and 5 of exponent; its magnitudes are in units of
`2 ^ -24`. The branches for formats with exponents of one size are left out: the sizes
are constants and differ.
-/

namespace LlvmTms9900.Softfloat
open LlvmTms9900.Arith
open LlvmTms9900.Isa (Word)
open LlvmTms9900.Builtins.Udivmoddi4 (shl shr shl_of_lt shr_of_lt)

abbrev Half := BitVec 16

structure HalfFields where
  exp : Half
  sigFrac : Half

/-- The lost bits rounded to nearest, a carry moved into the exponent. -/
def roundHalf (dstExp : Half) (significand : Rep) : HalfFields :=
  let dstSigFrac : Half := (significand >>> 13).setWidth 16
  let roundBits := significand &&& 0x1FFF#32
  let dstSigFrac :=
    if 0x1000#32 < roundBits then dstSigFrac + 1#16
    else if roundBits = 0x1000#32 then dstSigFrac + (dstSigFrac &&& 1#16)
    else dstSigFrac
  if 1024#16 ≤ dstSigFrac then ⟨dstExp + 1#16, dstSigFrac ^^^ 1024#16⟩ else ⟨dstExp, dstSigFrac⟩

/-- The right shift with sticky, and the fields of what is left. -/
def denormalizeHalf (significand : Rep) (shift : Word) : Option HalfFields :=
  if 23 < shift.toInt then some ⟨0#16, 0#16⟩
  else if shift = 0#16 then some (roundHalf 0#16 significand)
  else do
    let sticky := bit ((← shl significand (32#16 - shift)) != 0#32)
    return roundHalf 0#16 ((← shr significand shift) ||| sticky)

def halfFields (srcExp srcSigFrac : Rep) : Option HalfFields :=
  let dstExpCandidate : Word := srcExp.setWidth 16 - 127#16 + 15#16
  if 1 ≤ dstExpCandidate.toInt ∧ dstExpCandidate.toInt < 31 then
    some (roundHalf dstExpCandidate srcSigFrac)
  else if srcExp = 255#32 ∧ srcSigFrac ≠ 0#32 then
    some ⟨31#16, 512#16 ||| ((srcSigFrac &&& 0x3FFFFF#32) >>> 13 &&& 511#32).setWidth 16⟩
  else if 143 ≤ (srcExp.setWidth 16 : Word).toInt then some ⟨31#16, 0#16⟩
  else
    let shift : Word := (112#32 - srcExp).setWidth 16
    if srcExp ≠ 0#32 then denormalizeHalf (srcSigFrac ||| implicitBit) (shift + 1#16)
    else denormalizeHalf srcSigFrac shift

/-- `construct_dst_rep` -/
def constructHalf (sign : Half) (z : HalfFields) : Half :=
  sign <<< (15 : ℕ) ||| z.exp <<< (10 : ℕ) ||| z.sigFrac

def truncsfhf2 (a : Rep) : Option Half :=
  (halfFields ((a &&& infRep) >>> 23) (a &&& significandMask)).map
    (constructHalf (((a &&& signBit) >>> 31).setWidth 16))

def halfCode (z : Half) : ℕ := (z &&& 0x7FFF#16).toNat

def halfInfCode : ℕ := 31 * 2 ^ 10

/-- The magnitudes of the half format. -/
def halfGrid (k : ℕ) : ℚ := mag 10 k

section Round
variable {dstExp : Half} {significand : Rep}

theorem roundHalf_spec (hE : dstExp.toNat < 31) (hS : significand.toNat < 2 ^ 23) :
    (roundHalf dstExp significand).exp.toNat * 2 ^ 10 +
        (roundHalf dstExp significand).sigFrac.toNat =
      dstExp.toNat * 2 ^ 10 + significand.toNat / 2 ^ 13 +
        roundUp (2 ^ 12) (significand.toNat % 2 ^ 13) (significand.toNat / 2 ^ 13) ∧
      (roundHalf dstExp significand).sigFrac.toNat < 2 ^ 10 := by
  obtain ⟨f, hf⟩ : ∃ f : Half, f = (significand >>> 13).setWidth 16 := ⟨_, rfl⟩
  obtain ⟨r, hr⟩ : ∃ r : Rep, r = significand &&& 0x1FFF#32 := ⟨_, rfl⟩
  have hfval : f.toNat = significand.toNat / 2 ^ 13 := by
    rw [hf, BitVec.toNat_setWidth, Builtins.Udivmoddi4.shr_toNat, Nat.mod_eq_of_lt (by omega)]
  have hrval : r.toNat = significand.toNat % 2 ^ 13 := by
    have hmask : (0x1FFF#32).toNat = 2 ^ 13 - 1 := rfl
    rw [hr, BitVec.toNat_and, hmask, Nat.and_two_pow_sub_one_eq_mod]
  have hflt : f.toNat < 2 ^ 10 := by omega
  rw [← hfval, ← hrval]
  -- the fraction with what rounding adds
  obtain ⟨g, hg⟩ : ∃ g : Half, g = if 0x1000#32 < r then f + 1#16
      else if r = 0x1000#32 then f + (f &&& 1#16) else f := ⟨_, rfl⟩
  have hgval : g.toNat = f.toNat + roundUp (2 ^ 12) r.toNat f.toNat := by
    have hone : (f &&& 1#16).toNat = f.toNat % 2 := by
      have hmask : (1#16).toNat = 2 ^ 1 - 1 := rfl
      rw [BitVec.toNat_and, hmask, Nat.and_two_pow_sub_one_eq_mod, pow_one]
    have hlt : 0x1000#32 < r ↔ 2 ^ 12 < r.toNat := BitVec.lt_def
    have heq : r = 0x1000#32 ↔ r.toNat = 2 ^ 12 := BitVec.toNat_inj.symm
    rw [hg, roundUp]
    simp only [hlt, heq]
    split_ifs
    · rw [BitVec.toNat_add]
      change (f.toNat + 1) % 2 ^ 16 = _
      omega
    · rw [BitVec.toNat_add, hone]
      omega
    · rfl
  have hup : roundUp (2 ^ 12) r.toNat f.toNat ≤ 1 := by
    unfold roundUp
    split_ifs <;> omega
  have hround : roundHalf dstExp significand =
      if 1024#16 ≤ g then ⟨dstExp + 1#16, g ^^^ 1024#16⟩ else ⟨dstExp, g⟩ := by
    rw [hg, hf, hr]
    rfl
  have hle : 1024#16 ≤ g ↔ 2 ^ 10 ≤ g.toNat := BitVec.le_def
  rw [hround]
  by_cases hcarry : 1024#16 ≤ g
  · have hgeq : g.toNat = 2 ^ 10 := by
      have h := hle.1 hcarry
      omega
    have hzero : (g ^^^ 1024#16).toNat = 0 := by
      rw [BitVec.toNat_xor, hgeq]
      rfl
    have hexp : (dstExp + 1#16).toNat = dstExp.toNat + 1 := by
      rw [BitVec.toNat_add]
      change (dstExp.toNat + 1) % 2 ^ 16 = _
      omega
    rw [if_pos hcarry]
    change (dstExp + 1#16).toNat * 2 ^ 10 + (g ^^^ 1024#16).toNat = _ ∧
      (g ^^^ 1024#16).toNat < 2 ^ 10
    rw [hzero, hexp]
    omega
  · rw [if_neg hcarry]
    change dstExp.toNat * 2 ^ 10 + g.toNat = _ ∧ g.toNat < 2 ^ 10
    have hlow : g.toNat < 2 ^ 10 := by
      by_contra hcon
      exact hcarry (hle.2 (by omega))
    omega

theorem constructHalf_spec {sign : Half} {s : Bool} {z : HalfFields}
    (hs : sign.toNat = if s then 1 else 0) (hexp : z.exp.toNat < 2 ^ 5)
    (hfrac : z.sigFrac.toNat < 2 ^ 10) :
    (constructHalf sign z).msb = s ∧
      halfCode (constructHalf sign z) = z.exp.toNat * 2 ^ 10 + z.sigFrac.toNat := by
  have hval : (constructHalf sign z).toNat =
      sign.toNat * 2 ^ 15 + (z.exp.toNat * 2 ^ 10 + z.sigFrac.toNat) := by
    have hsign : sign.toNat < 2 := by
      rw [hs]
      split <;> omega
    have hlow := Nat.two_pow_add_eq_or_of_lt hfrac z.exp.toNat
    have hhigh := Nat.two_pow_add_eq_or_of_lt
      (show z.exp.toNat * 2 ^ 10 + z.sigFrac.toNat < 2 ^ 15 by omega) sign.toNat
    rw [constructHalf, BitVec.or_assoc, BitVec.toNat_or, BitVec.toNat_or, BitVec.toNat_shiftLeft,
      BitVec.toNat_shiftLeft, Nat.shiftLeft_eq, Nat.shiftLeft_eq,
      Nat.mod_eq_of_lt (by omega), Nat.mod_eq_of_lt (by omega), Nat.mul_comm z.exp.toNat, ← hlow,
      Nat.mul_comm (2 ^ 10), Nat.mul_comm sign.toNat, ← hhigh]
  have hcode : halfCode (constructHalf sign z) = (constructHalf sign z).toNat % 2 ^ 15 := by
    have hmask : (0x7FFF#16).toNat = 2 ^ 15 - 1 := rfl
    rw [halfCode, BitVec.toNat_and, hmask, Nat.and_two_pow_sub_one_eq_mod]
  rw [hcode, BitVec.msb_eq_decide, hval, hs]
  cases s
  · rw [if_neg Bool.false_ne_true]
    exact ⟨decide_eq_false (by omega), by omega⟩
  · rw [if_pos rfl]
    exact ⟨decide_eq_true (by omega), by omega⟩

theorem sameSide_rounds {x y : ℚ} {e G : ℕ} {z : HalfFields} (hx : x * 2 ^ 13 = y * 2 ^ e)
    (hy : SameSide 12 y G) (hG : G < 2 ^ 24) (hn : 2 ^ 23 ≤ G ∨ e = 0) (he : e < 30)
    (hz : z.exp.toNat * 2 ^ 10 + z.sigFrac.toNat = e * 2 ^ 10 + G / 2 ^ 13 +
      roundUp (2 ^ 12) (G % 2 ^ 13) (G / 2 ^ 13)) :
    NearestEven halfGrid halfInfCode x (z.exp.toNat * 2 ^ 10 + z.sigFrac.toNat) := by
  have hloc := located_of_sameSide (K := ℚ) (p := 10) hx hy (by omega)
    (hn.imp (fun h => by omega) id)
  have hpar : roundUp (2 ^ 12) (G % 2 ^ 13) (e * 2 ^ 10 + G / 2 ^ 13) =
      roundUp (2 ^ 12) (G % 2 ^ 13) (G / 2 ^ 13) := by
    unfold roundUp
    split_ifs <;> omega
  rw [hz, ← hpar]
  refine hloc.nearest (cast_mag_strictMono 10) ?_
  rw [halfInfCode]
  omega

end Round

section Truncate
variable {a : Rep}

theorem srcExp_toNat (a : Rep) : ((a &&& infRep) >>> 23).toNat = code a / 2 ^ 23 := by
  have hmask : infRep >>> 23 = BitVec.ofNat 32 (2 ^ 8 - 1) := by decide
  have hlt := a.isLt
  rw [BitVec.ushiftRight_and_distrib, hmask, BitVec.toNat_and, BitVec.toNat_ofNat,
    Nat.mod_eq_of_lt (by norm_num), Nat.and_two_pow_sub_one_eq_mod,
    Builtins.Udivmoddi4.shr_toNat, code_eq]
  omega

theorem srcSign_toNat (a : Rep) :
    (((a &&& signBit) >>> 31).setWidth 16 : Half).toNat = if a.msb then 1 else 0 := by
  rw [BitVec.toNat_setWidth, Builtins.Udivmoddi4.shr_toNat, and_signBit_toNat]
  split <;> norm_num

/-- The units of the two formats. -/
theorem half_scale (a : Rep) : |value a| * 2 ^ 24 * 2 ^ 13 = units a / 2 ^ 112 := by
  rw [abs_value]
  ring

theorem srcExp_toInt (hE : code a / 2 ^ 23 ≤ 255) :
    (((a &&& infRep) >>> 23).setWidth 16 : Word).toInt = (code a / 2 ^ 23 : ℕ) := by
  have hval : (((a &&& infRep) >>> 23).setWidth 16 : Word).toNat = code a / 2 ^ 23 := by
    rw [BitVec.toNat_setWidth, srcExp_toNat, Nat.mod_eq_of_lt (by omega)]
  rw [BitVec.toInt_eq_toNat_of_lt (by rw [hval]; omega), hval]

theorem candidate_toInt (hE : code a / 2 ^ 23 ≤ 255) :
    (((a &&& infRep) >>> 23).setWidth 16 - 127#16 + 15#16 : Word).toInt =
      (code a / 2 ^ 23 : ℕ) - 112 := by
  have hsub := toInt_sub_of_small (srcExp_toInt hE) (show (127#16).toInt = 127 from rfl)
    (by omega) (by omega)
  rw [toInt_add_of_small hsub (show (15#16).toInt = 15 from rfl) (by omega) (by omega)]
  omega

theorem denormalizeHalf_spec {significand : Rep} {shift : Word} {d : ℕ} {x : ℚ}
    (hd : shift.toNat = d) (hpos : 1 ≤ d) (hd112 : d ≤ 112) (hS : significand.toNat < 2 ^ 24)
    (hx : x * 2 ^ 13 = significand.toNat / 2 ^ d) :
    ∃ z, denormalizeHalf significand shift = some z ∧ z.exp.toNat < 2 ^ 5 ∧
      z.sigFrac.toNat < 2 ^ 10 ∧
      NearestEven halfGrid halfInfCode x (z.exp.toNat * 2 ^ 10 + z.sigFrac.toNat) := by
  have hint : shift.toInt = d := by
    rw [BitVec.toInt_eq_toNat_of_lt (by omega), hd]
  by_cases hfar : 23 < shift.toInt
  · refine ⟨⟨0#16, 0#16⟩, if_pos hfar, by decide, by decide, ?_⟩
    refine NearestEven.underflow ?_
    have hgrid0 : halfGrid 0 = 0 := by rw [halfGrid, mag_zero, Nat.cast_zero]
    have hgrid1 : halfGrid 1 = 1 := by rw [halfGrid, mag_of_le (by norm_num), Nat.cast_one]
    have hpow : (2 : ℚ) ^ 24 ≤ 2 ^ d := pow_le_pow_right₀ (by norm_num) (by omega)
    have hsig : (significand.toNat : ℚ) < 2 ^ 24 := by exact_mod_cast hS
    have hone : (significand.toNat : ℚ) / 2 ^ d ≤ 1 :=
      (div_le_one (by positivity)).2 (hsig.le.trans hpow)
    rw [hgrid0, hgrid1, zero_add]
    linarith
  · have hne : shift ≠ 0#16 := by
      rintro rfl
      rw [← hd] at hpos
      exact absurd hpos (by decide)
    have hsub : (32#16 - shift).toNat = 32 - d := by
      rw [BitVec.toNat_sub, hd]
      change (2 ^ 16 - d + 32) % 2 ^ 16 = 32 - d
      omega
    have hjam := shr_or_bit_toNat significand (show d ≤ 32 by omega)
    obtain ⟨v, hv⟩ : ∃ v, v = significand >>> d ||| bit (significand <<< (32 - d) != 0#32) :=
      ⟨_, rfl⟩
    have hvlt : v.toNat < 2 ^ 23 := by
      have hdiv : significand.toNat / 2 ^ d ≤ significand.toNat / 2 ^ 1 :=
        Nat.div_le_div_left (Nat.pow_le_pow_right (by norm_num) hpos) (by norm_num)
      rw [hv, hjam, jam_eq]
      split_ifs <;> omega
    have hspec := @roundHalf_spec 0#16 v (by decide) hvlt
    have hzero : (0#16).toNat = 0 := rfl
    rw [hzero] at hspec
    obtain ⟨hz, hfrac⟩ := hspec
    have hup : roundUp (2 ^ 12) (v.toNat % 2 ^ 13) (v.toNat / 2 ^ 13) ≤ 1 := by
      unfold roundUp
      split_ifs <;> omega
    refine ⟨roundHalf 0#16 v, ?_, by omega, hfrac, ?_⟩
    · rw [denormalizeHalf, if_neg hfar, if_neg hne, shl_of_lt (by omega), shr_of_lt (by omega),
        hsub, hd, hv]
      rfl
    · have hside : SameSide 12 ((significand.toNat : ℚ) / 2 ^ d) (v.toNat : ℚ) := by
        rw [hv, hjam]
        exact (SameSide.jam d _).mono (by norm_num)
      exact sameSide_rounds (by rw [pow_zero, mul_one]; exact hx) hside (by omega) (.inr rfl)
        (by norm_num) hz

theorem halfFields_normal {e : ℕ} (he : code a / 2 ^ 23 = e + 113) (hlt : e < 30) :
    ∃ z, halfFields ((a &&& infRep) >>> 23) (a &&& significandMask) = some z ∧
      z.exp.toNat < 2 ^ 5 ∧ z.sigFrac.toNat < 2 ^ 10 ∧
      NearestEven halfGrid halfInfCode (|value a| * 2 ^ 24)
        (z.exp.toNat * 2 ^ 10 + z.sigFrac.toNat) := by
  obtain ⟨f, hf⟩ : ∃ f, f = a.toNat % 2 ^ 23 := ⟨_, rfl⟩
  have hcand := candidate_toInt (a := a) (by omega)
  obtain ⟨c, hc⟩ : ∃ c : Word, c = ((a &&& infRep) >>> 23).setWidth 16 - 127#16 + 15#16 := ⟨_, rfl⟩
  rw [← hc, he] at hcand
  have hcval : c.toNat = e + 1 := by
    have h := BitVec.toInt_eq_toNat_cond c
    split at h <;> omega
  have hfrac := fraction_toNat a
  rw [← hf] at hfrac
  have hflt : f < 2 ^ 23 := by omega
  obtain ⟨hz, hlow⟩ := @roundHalf_spec c (a &&& significandMask) (by omega) (by omega)
  rw [hfrac, hcval] at hz
  have hup : roundUp (2 ^ 12) (f % 2 ^ 13) (f / 2 ^ 13) ≤ 1 := by
    unfold roundUp
    split_ifs <;> omega
  refine ⟨roundHalf c (a &&& significandMask), ?_, by omega, hlow, ?_⟩
  · rw [halfFields, ← hc]
    exact if_pos ⟨by omega, by omega⟩
  · refine sameSide_rounds (e := e) (G := 2 ^ 23 + f) (y := ((2 ^ 23 + f : ℕ) : ℚ)) ?_
      (SameSide.refl 12 _) (by omega) (.inl (by omega)) hlt ?_
    · have hzpow : (((e + 113 : ℕ) : ℤ) - 1) = ((e + 112 : ℕ) : ℤ) := by
        push_cast
        ring
      rw [half_scale, units_normal (by omega), he, hzpow, zpow_natCast, pow_add, ← hf]
      field_simp
    · rw [hz]
      have hpar : roundUp (2 ^ 12) ((2 ^ 23 + f) % 2 ^ 13) ((2 ^ 23 + f) / 2 ^ 13) =
          roundUp (2 ^ 12) (f % 2 ^ 13) (f / 2 ^ 13) := by
        unfold roundUp
        split_ifs <;> omega
      have hdiv : (2 ^ 23 + f) / 2 ^ 13 = 2 ^ 10 + f / 2 ^ 13 := by omega
      rw [hpar, hdiv]
      ring

theorem halfFields_overflow (hE : 143 ≤ code a / 2 ^ 23) (hfin : Finite a) :
    halfFields ((a &&& infRep) >>> 23) (a &&& significandMask) = some ⟨31#16, 0#16⟩ ∧
      NearestEven halfGrid halfInfCode (|value a| * 2 ^ 24) halfInfCode := by
  have h255 : code a < 255 * 2 ^ 23 := hfin
  have hcand := candidate_toInt (a := a) (by omega)
  have hexp := srcExp_toInt (a := a) (by omega)
  have hne : (a &&& infRep) >>> 23 ≠ 255#32 := by
    intro h
    have hval := srcExp_toNat a
    rw [h] at hval
    change 255 = _ at hval
    omega
  constructor
  · rw [halfFields, if_neg (by omega), if_neg fun h => hne h.1, if_pos (by omega)]
  · refine NearestEven.overflow (cast_mag_strictMono 10) ?_
    have hgrid : halfGrid halfInfCode = 2 ^ 40 := by
      have h := mag_binade (p := 10) (e := 30) (s := 2 ^ 10) (by norm_num) (.inl le_rfl)
      have hcode : halfInfCode = 30 * 2 ^ 10 + 2 ^ 10 := rfl
      rw [halfGrid, hcode, h]
      norm_num
    have hmono : mag 23 (142 * 2 ^ 23 + 2 ^ 23) ≤ mag 23 (code a) :=
      (mag_strictMono 23).monotone (by omega)
    rw [mag_binade (by norm_num) (.inl le_rfl), ← pow_add] at hmono
    have hunits : (2 : ℚ) ^ 165 ≤ units a := by
      rw [units]
      exact_mod_cast hmono
    change halfGrid halfInfCode ≤ _
    rw [hgrid, abs_value, div_mul_eq_mul_div, le_div_iff₀ (by positivity)]
    calc (2 : ℚ) ^ 40 * 2 ^ 149 = 2 ^ 165 * 2 ^ 24 := by norm_num
      _ ≤ units a * 2 ^ 24 := mul_le_mul_of_nonneg_right hunits (by positivity)

theorem halfFields_small (hE : code a / 2 ^ 23 < 113) :
    ∃ z, halfFields ((a &&& infRep) >>> 23) (a &&& significandMask) = some z ∧
      z.exp.toNat < 2 ^ 5 ∧ z.sigFrac.toNat < 2 ^ 10 ∧
      NearestEven halfGrid halfInfCode (|value a| * 2 ^ 24)
        (z.exp.toNat * 2 ^ 10 + z.sigFrac.toNat) := by
  obtain ⟨E, he⟩ : ∃ E, E = code a / 2 ^ 23 := ⟨_, rfl⟩
  have hcand := candidate_toInt (a := a) (by omega)
  have hexp := srcExp_toInt (a := a) (by omega)
  have hval := srcExp_toNat a
  have hfrac := fraction_toNat a
  have hscale := half_scale a
  obtain ⟨srcExp, hs⟩ : ∃ srcExp, srcExp = (a &&& infRep) >>> 23 := ⟨_, rfl⟩
  rw [← hs, ← he] at hcand hexp hval
  rw [← he] at hE
  have hne : srcExp ≠ 255#32 := by
    rintro rfl
    change 255 = E at hval
    omega
  have hshift : ((112#32 - srcExp).setWidth 16 : Word).toNat = 112 - E := by
    rw [BitVec.toNat_setWidth, BitVec.toNat_sub, hval]
    change (2 ^ 32 - E + 112) % 2 ^ 32 % 2 ^ 16 = _
    omega
  rw [← hs, halfFields]
  simp only []
  rw [if_neg (by omega), if_neg fun h => hne h.1, if_neg (by omega)]
  by_cases hzero : srcExp ≠ 0#32
  · have hpos : 1 ≤ E := by
      by_contra hcon
      refine hzero (BitVec.eq_of_toNat_eq (hval.trans ?_))
      change E = 0
      omega
    rw [if_pos hzero]
    have hsig := or_implicitBit_toNat (s := a &&& significandMask) (by omega)
    refine denormalizeHalf_spec (d := 113 - E) ?_ (by omega) (by omega) (by rw [hsig]; omega) ?_
    · rw [BitVec.toNat_add, hshift]
      change (112 - E + 1) % 2 ^ 16 = _
      omega
    · have hzpow : ((E : ℤ) - 1) = ((E - 1 : ℕ) : ℤ) := by omega
      have hsplit : (2 : ℚ) ^ 112 = 2 ^ (E - 1) * 2 ^ (113 - E) := by
        rw [← pow_add]
        congr 1
        omega
      rw [hscale, units_normal (by omega), ← he, hzpow, zpow_natCast, hsig, hfrac, hsplit,
        mul_comm ((2 : ℚ) ^ (E - 1)), mul_div_mul_right _ _ (by positivity)]
  · have hE0 : E = 0 := by
      rw [not_not] at hzero
      rw [← hval, hzero]
      rfl
    rw [if_neg hzero]
    refine denormalizeHalf_spec (d := 112) (by rw [hshift, hE0]) (by norm_num) le_rfl (by omega) ?_
    rw [hscale, units, mag_of_le (by omega), hfrac]
    have hcode : code a = a.toNat % 2 ^ 23 := by
      have h := code_eq a
      omega
    rw [hcode]

theorem halfFields_spec (hfin : Finite a) :
    ∃ z, halfFields ((a &&& infRep) >>> 23) (a &&& significandMask) = some z ∧
      z.exp.toNat < 2 ^ 5 ∧ z.sigFrac.toNat < 2 ^ 10 ∧
      NearestEven halfGrid halfInfCode (|value a| * 2 ^ 24)
        (z.exp.toNat * 2 ^ 10 + z.sigFrac.toNat) := by
  rcases Nat.lt_or_ge (code a / 2 ^ 23) 113 with hsmall | hE
  · exact halfFields_small hsmall
  rcases Nat.lt_or_ge (code a / 2 ^ 23) 143 with hin | hover
  · exact halfFields_normal (e := code a / 2 ^ 23 - 113) (by omega) (by omega)
  · obtain ⟨hz, hnear⟩ := halfFields_overflow hover hfin
    exact ⟨_, hz, by decide, by decide, hnear⟩

theorem truncsfhf2_finite (hfin : Finite a) :
    ∃ z, truncsfhf2 a = some z ∧ z.msb = a.msb ∧
      NearestEven halfGrid halfInfCode (|value a| * 2 ^ 24) (halfCode z) := by
  obtain ⟨z, hz, hexp, hfrac, hnear⟩ := halfFields_spec hfin
  obtain ⟨hsign, hcode⟩ := constructHalf_spec (srcSign_toNat a) hexp hfrac
  refine ⟨_, by rw [truncsfhf2, hz, Option.map_some], hsign, ?_⟩
  rw [hcode]
  exact hnear

/-! ### Infinities and NaNs -/

theorem halfFields_special (h : ¬ Finite a) :
    halfFields ((a &&& infRep) >>> 23) (a &&& significandMask) =
      if IsNaN a then
        some ⟨31#16, 512#16 |||
          ((a &&& significandMask &&& 0x3FFFFF#32) >>> 13 &&& 511#32).setWidth 16⟩
      else some ⟨31#16, 0#16⟩ := by
  have hlt := (packed_self a).lt
  have hcode : 255 * 2 ^ 23 ≤ code a := not_lt.1 h
  have hE : code a / 2 ^ 23 = 255 := by omega
  have hcand := candidate_toInt (a := a) (by omega)
  have hexpInt := srcExp_toInt (a := a) (by omega)
  have hexp : (a &&& infRep) >>> 23 = 255#32 :=
    BitVec.eq_of_toNat_eq ((srcExp_toNat a).trans hE)
  have hfrac : a &&& significandMask ≠ 0#32 ↔ IsNaN a := by
    have hval := fraction_toNat a
    have hmod := code_eq a
    rw [Ne, ← BitVec.toNat_inj, hval, IsNaN, infCode]
    change ¬ a.toNat % 2 ^ 23 = 0 ↔ _
    omega
  rw [halfFields]
  simp only []
  rw [if_neg (by omega)]
  by_cases hnan : IsNaN a
  · rw [if_pos ⟨hexp, hfrac.2 hnan⟩, if_pos hnan]
  · rw [if_neg fun hc => hnan (hfrac.1 hc.2), if_neg hnan, if_pos (by omega)]

theorem quietFields_toNat (a : Rep) :
    (512#16 ||| ((a &&& significandMask &&& 0x3FFFFF#32) >>> 13 &&& 511#32).setWidth 16 :
      Half).toNat = 2 ^ 9 + code a % 2 ^ 22 / 2 ^ 13 := by
  have hmask : (0x3FFFFF#32).toNat = 2 ^ 22 - 1 := rfl
  have hmask' : (511#32).toNat = 2 ^ 9 - 1 := rfl
  have hcode := code_eq a
  have hpay : (((a &&& significandMask &&& 0x3FFFFF#32) >>> 13 &&& 511#32).setWidth 16 :
      Half).toNat = code a % 2 ^ 22 / 2 ^ 13 := by
    rw [BitVec.toNat_setWidth, BitVec.toNat_and, hmask', Nat.and_two_pow_sub_one_eq_mod,
      Builtins.Udivmoddi4.shr_toNat, BitVec.toNat_and, hmask, Nat.and_two_pow_sub_one_eq_mod,
      fraction_toNat]
    omega
  have hor := Nat.two_pow_add_eq_or_of_lt (show code a % 2 ^ 22 / 2 ^ 13 < 2 ^ 9 by omega) 1
  rw [Nat.mul_one] at hor
  rw [BitVec.toNat_or, hpay, hor]
  rfl

theorem truncsfhf2_result (a : Rep) :
    ∃ z, truncsfhf2 a = some z ∧ z.msb = a.msb ∧
      (Finite a → NearestEven halfGrid halfInfCode (|value a| * 2 ^ 24) (halfCode z)) ∧
      (IsInf a → halfCode z = halfInfCode) ∧
      (IsNaN a → halfCode z = halfInfCode + 2 ^ 9 + code a % 2 ^ 22 / 2 ^ 13) := by
  by_cases hfin : Finite a
  · obtain ⟨z, hz, hsign, hnear⟩ := truncsfhf2_finite hfin
    exact ⟨z, hz, hsign, fun _ => hnear, fun h => absurd h hfin.not_isInf,
      fun h => absurd h hfin.not_isNaN⟩
  have hfields := halfFields_special hfin
  by_cases hnan : IsNaN a
  · rw [if_pos hnan] at hfields
    have hquiet := quietFields_toNat a
    obtain ⟨hsign, hcode⟩ := constructHalf_spec (z := ⟨31#16, 512#16 |||
      ((a &&& significandMask &&& 0x3FFFFF#32) >>> 13 &&& 511#32).setWidth 16⟩)
      (srcSign_toNat a) (show (31#16).toNat < 2 ^ 5 by decide) (by rw [hquiet]; omega)
    refine ⟨_, by rw [truncsfhf2, hfields, Option.map_some], hsign, fun h => absurd h hfin,
      fun h => absurd hnan h.not_isNaN, fun _ => ?_⟩
    rw [hcode, hquiet, halfInfCode, Nat.add_assoc]
    rfl
  · rw [if_neg hnan] at hfields
    obtain ⟨hsign, hcode⟩ := constructHalf_spec (z := ⟨31#16, 0#16⟩) (srcSign_toNat a) (by decide)
      (by decide)
    exact ⟨_, by rw [truncsfhf2, hfields, Option.map_some], hsign, fun h => absurd h hfin,
      fun _ => hcode, fun h => absurd h hnan⟩

/-- Every float becomes the half that is nearest to it, a tie going to the even
one, through subnormals and overflow; an infinity stays one, and a NaN becomes a
quiet NaN with the upper part of its payload. -/
theorem truncation_correct (a : Rep) :
    ∃ z, truncsfhf2 a = some z ∧ z.msb = a.msb ∧
      (Finite a → NearestEven halfGrid halfInfCode (|value a| * 2 ^ 24) (halfCode z)) ∧
      (IsInf a → halfCode z = halfInfCode) ∧
      (IsNaN a → halfCode z = halfInfCode + 2 ^ 9 + code a % 2 ^ 22 / 2 ^ 13) :=
  truncsfhf2_result a

end Truncate

/-! ### Back to single precision (fp_extend_impl.inc, extendhfsf2.c) -/

/-- `__builtin_clz` of an `unsigned int`, which has 16 bits here, less 16. -/
def srcRepClz (a : Half) : Option Word :=
  if a = 0#16 then none else some (BitVec.ofNat 16 (15 - Nat.log2 a.toNat) - 16#16)

def extendFields (srcExp srcSigFrac : Half) : Option (Rep × Rep) :=
  if 1#16 ≤ srcExp ∧ srcExp < 31#16 then
    some (srcExp.setWidth 32 + 112#32, srcSigFrac.setWidth 32 <<< (13 : ℕ))
  else if srcExp = 31#16 then some (255#32, srcSigFrac.setWidth 32 <<< (13 : ℕ))
  else if srcSigFrac ≠ 0#16 then do
    let scale := (← srcRepClz srcSigFrac) - 6#16 + 1#16
    let dstSigFrac ← shl (srcSigFrac.setWidth 32) (13#16 + scale)
    return ((127#16 - 15#16 - scale + 1#16).signExtend 32, dstSigFrac ^^^ implicitBit)
  else some (0#32, 0#32)

/-- `construct_dst_rep` -/
def constructRep (sign e f : Rep) : Rep := sign <<< (31 : ℕ) ||| e <<< (23 : ℕ) ||| f

def extendhfsf2 (a : Half) : Option Rep :=
  (extendFields ((a &&& 0x7C00#16) >>> 10) (a &&& 0x3FF#16)).map fun z =>
    constructRep (((a &&& 0x8000#16) >>> 15).setWidth 32) z.1 z.2

/-- The number that a finite half stands for. -/
def halfValue (z : Half) : ℚ := (if z.msb then -1 else 1) * halfGrid (halfCode z) / 2 ^ 24

def HalfSubnormal (z : Half) : Prop := 0 < halfCode z ∧ halfCode z < 2 ^ 10

section Extend
variable {h : Half}

theorem halfCode_eq (h : Half) : halfCode h = h.toNat % 2 ^ 15 := by
  have hmask : (0x7FFF#16).toNat = 2 ^ 15 - 1 := rfl
  rw [halfCode, BitVec.toNat_and, hmask, Nat.and_two_pow_sub_one_eq_mod]

theorem halfExp_toNat (h : Half) : ((h &&& 0x7C00#16) >>> 10).toNat = halfCode h / 2 ^ 10 := by
  have hmask : 0x7C00#16 >>> 10 = BitVec.ofNat 16 (2 ^ 5 - 1) := by decide
  rw [BitVec.ushiftRight_and_distrib, hmask, BitVec.toNat_and, BitVec.toNat_ofNat,
    Nat.mod_eq_of_lt (by norm_num), Nat.and_two_pow_sub_one_eq_mod, BitVec.toNat_ushiftRight,
    Nat.shiftRight_eq_div_pow, halfCode_eq]
  omega

theorem halfFrac_toNat (h : Half) : (h &&& 0x3FF#16).toNat = halfCode h % 2 ^ 10 := by
  have hmask : (0x3FF#16).toNat = 2 ^ 10 - 1 := rfl
  rw [BitVec.toNat_and, hmask, Nat.and_two_pow_sub_one_eq_mod, halfCode_eq]
  omega

theorem halfSign_toNat (h : Half) :
    (((h &&& 0x8000#16) >>> 15).setWidth 32 : Rep).toNat = if h.msb then 1 else 0 := by
  have hlt := h.isLt
  have hmask : 0x8000#16 >>> 15 = BitVec.ofNat 16 (2 ^ 1 - 1) := by decide
  have hval : (((h &&& 0x8000#16) >>> 15).setWidth 32 : Rep).toNat = h.toNat / 2 ^ 15 := by
    have hone : (BitVec.ofNat 16 (2 ^ 1 - 1)).toNat = 2 ^ 1 - 1 := rfl
    rw [BitVec.ushiftRight_and_distrib, hmask, BitVec.toNat_setWidth, BitVec.toNat_and, hone,
      Nat.and_two_pow_sub_one_eq_mod, BitVec.toNat_ushiftRight, Nat.shiftRight_eq_div_pow]
    omega
  rw [hval, BitVec.msb_eq_decide]
  by_cases hs : 2 ^ 15 ≤ h.toNat
  · rw [decide_eq_true hs, if_pos rfl]
    omega
  · rw [decide_eq_false hs, if_neg Bool.false_ne_true]
    omega

/-- The three fields put together. -/
theorem constructRep_packed {sign e f : Rep} {s : Bool} (hs : sign.toNat = if s then 1 else 0)
    (he : e.toNat < 2 ^ 8) (hf : f.toNat < 2 ^ 23) :
    Packed s (e.toNat * 2 ^ 23 + f.toNat) (constructRep sign e f) := by
  have hsign : sign.toNat < 2 := by
    rw [hs]
    split <;> omega
  have hlow := Nat.two_pow_add_eq_or_of_lt hf e.toNat
  have hhigh := Nat.two_pow_add_eq_or_of_lt
    (show e.toNat * 2 ^ 23 + f.toNat < 2 ^ 31 by omega) sign.toNat
  refine ⟨by omega, ?_⟩
  rw [constructRep, BitVec.or_assoc, BitVec.toNat_or, BitVec.toNat_or, BitVec.toNat_shiftLeft,
    BitVec.toNat_shiftLeft, Nat.shiftLeft_eq, Nat.shiftLeft_eq, Nat.mod_eq_of_lt (by omega),
    Nat.mod_eq_of_lt (by omega), Nat.mul_comm e.toNat, ← hlow, Nat.mul_comm (2 ^ 23),
    Nat.mul_comm sign.toNat, ← hhigh, hs]
  split <;> omega

/-- The fields of a half that is not subnormal. -/
theorem extendFields_of_not_subnormal (hs : ¬ HalfSubnormal h) :
    ∃ e f, extendFields ((h &&& 0x7C00#16) >>> 10) (h &&& 0x3FF#16) = some (e, f) ∧
      e.toNat = (if halfCode h = 0 then 0 else if halfCode h < halfInfCode then
        halfCode h / 2 ^ 10 + 112 else 255) ∧ f.toNat = halfCode h % 2 ^ 10 * 2 ^ 13 := by
  have hexp := halfExp_toNat h
  have hfrac := halfFrac_toNat h
  have hlt : halfCode h < 2 ^ 15 := by
    rw [halfCode_eq]
    omega
  obtain ⟨x, hx⟩ : ∃ x, x = (h &&& 0x7C00#16) >>> 10 := ⟨_, rfl⟩
  obtain ⟨f, hf⟩ : ∃ f, f = h &&& 0x3FF#16 := ⟨_, rfl⟩
  rw [← hx] at hexp ⊢
  rw [← hf] at hfrac ⊢
  have hshift : (f.setWidth 32 <<< (13 : ℕ) : Rep).toNat = halfCode h % 2 ^ 10 * 2 ^ 13 := by
    rw [BitVec.toNat_shiftLeft, BitVec.toNat_setWidth, hfrac, Nat.shiftLeft_eq]
    omega
  have hone : 1#16 ≤ x ↔ 1 ≤ x.toNat := BitVec.le_def
  have hinf : x < 31#16 ↔ x.toNat < 31 := BitVec.lt_def
  rw [extendFields]
  by_cases hnormal : 1#16 ≤ x ∧ x < 31#16
  · have h1 := hone.1 hnormal.1
    have h2 := hinf.1 hnormal.2
    refine ⟨_, _, if_pos hnormal, ?_, hshift⟩
    have hadd : (x.setWidth 32 + 112#32 : Rep).toNat = halfCode h / 2 ^ 10 + 112 := by
      rw [BitVec.toNat_add, BitVec.toNat_setWidth, hexp]
      change (halfCode h / 2 ^ 10 % 2 ^ 32 + 112) % 2 ^ 32 = _
      omega
    rw [hadd, if_neg (by omega), if_pos (by rw [halfInfCode]; omega)]
  rw [if_neg hnormal]
  by_cases htop : x = 31#16
  · have h31 : x.toNat = 31 := by rw [htop]; rfl
    refine ⟨_, _, if_pos htop, ?_, hshift⟩
    rw [if_neg (by omega), if_neg (by rw [halfInfCode]; omega)]
    rfl
  · have hx31 : x.toNat ≠ 31 := fun he => htop (BitVec.eq_of_toNat_eq he)
    have hx0 : x.toNat = 0 := by
      by_contra hne
      exact hnormal ⟨hone.2 (by omega), hinf.2 (by omega)⟩
    have hzero : halfCode h = 0 := by
      by_contra hne
      exact hs ⟨by omega, by omega⟩
    have hf0 : f = 0#16 := BitVec.eq_of_toNat_eq (by rw [hfrac, hzero]; rfl)
    rw [if_neg htop, if_neg (not_not.2 hf0), hzero, if_pos rfl]
    exact ⟨_, _, rfl, rfl, rfl⟩

theorem extendhfsf2_packed (hs : ¬ HalfSubnormal h) :
    ∃ z, extendhfsf2 h = some z ∧
      Packed h.msb ((if halfCode h = 0 then 0 else if halfCode h < halfInfCode then
        halfCode h / 2 ^ 10 + 112 else 255) * 2 ^ 23 + halfCode h % 2 ^ 10 * 2 ^ 13) z := by
  obtain ⟨e, f, hfields, he, hf⟩ := extendFields_of_not_subnormal hs
  have hpacked := constructRep_packed (halfSign_toNat h) (e := e) (f := f)
    (by rw [he, halfInfCode]; split_ifs <;> omega) (by rw [hf]; omega)
  rw [he, hf] at hpacked
  exact ⟨_, by rw [extendhfsf2, hfields, Option.map_some], hpacked⟩

/-- Away from the subnormals a half is a float. -/
theorem extendhfsf2_finite (hs : ¬ HalfSubnormal h) (hfin : halfCode h < halfInfCode) :
    ∃ z, extendhfsf2 h = some z ∧ z.msb = h.msb ∧ Finite z ∧ value z = halfValue h := by
  obtain ⟨z, hz, hp⟩ := extendhfsf2_packed hs
  have hcode := hp.code
  refine ⟨z, hz, hp.msb, ?_, ?_⟩
  · rw [Finite, hcode, infCode]
    by_cases hzero : halfCode h = 0
    · rw [if_pos hzero]
      omega
    · rw [if_neg hzero, if_pos hfin]
      rw [halfInfCode] at hfin
      omega
  · rw [value, halfValue, hp.msb]
    rcases Nat.eq_zero_or_pos (halfCode h) with hzero | hpos
    · have hc0 : code z = 0 := by simp [hcode, hzero]
      rw [units, hc0, hzero, halfGrid, mag_zero, mag_zero]
      simp
    · have hE : 1 ≤ halfCode h / 2 ^ 10 := by
        by_contra hcon
        exact hs ⟨hpos, by omega⟩
      rw [if_neg hpos.ne', if_pos hfin] at hcode
      obtain ⟨E, he⟩ : ∃ E, halfCode h / 2 ^ 10 = E + 1 := ⟨halfCode h / 2 ^ 10 - 1, by omega⟩
      obtain ⟨F, hF⟩ : ∃ F, halfCode h % 2 ^ 10 = F := ⟨_, rfl⟩
      have hFlt : F < 2 ^ 10 := by omega
      rw [he, hF] at hcode
      have hbin := mag_binade (p := 23) (e := E + 112) (s := (2 ^ 10 + F) * 2 ^ 13) (by omega)
        (.inl (by omega))
      have hhalf := mag_binade (p := 10) (e := E) (s := 2 ^ 10 + F) (by omega) (.inl (by omega))
      have hcz : code z = (E + 112) * 2 ^ 23 + (2 ^ 10 + F) * 2 ^ 13 := by
        rw [hcode]
        ring
      have hch : halfCode h = E * 2 ^ 10 + (2 ^ 10 + F) := by omega
      rw [units, hcz, hbin, halfGrid, hch, hhalf]
      push_cast
      rw [pow_add]
      ring

/-- The infinities and NaNs keep their fractions. -/
theorem extendhfsf2_special (hspecial : halfInfCode ≤ halfCode h) :
    ∃ z, extendhfsf2 h = some z ∧ z.msb = h.msb ∧
      code z = infCode + (halfCode h - halfInfCode) * 2 ^ 13 := by
  have hlt : halfCode h < 2 ^ 15 := by
    rw [halfCode_eq]
    omega
  have hs : ¬ HalfSubnormal h := fun hs => by
    have := hs.2
    rw [halfInfCode] at hspecial
    omega
  obtain ⟨z, hz, hp⟩ := extendhfsf2_packed hs
  refine ⟨z, hz, hp.msb, ?_⟩
  rw [halfInfCode] at hspecial
  rw [hp.code, if_neg (by omega), if_neg (by rw [halfInfCode]; omega), infCode, halfInfCode]
  omega

/-! ### Subnormals, where clz counts 16 bits -/

/-- The exponent a subnormal is given, 16 above its own. -/
theorem subnormal_exp {l : ℕ} (hl : l < 10) :
    ((127#16 - 15#16 - (BitVec.ofNat 16 (15 - l) - 16#16 - 6#16 + 1#16) + 1#16).signExtend 32 :
      Rep).toNat = 119 + l := by
  interval_cases l <;> decide

/-- The shift of its fraction, which is out of range from the bit 8 on. -/
theorem subnormal_shift {l : ℕ} (hl : l < 10) :
    (13#16 + (BitVec.ofNat 16 (15 - l) - 16#16 - 6#16 + 1#16)).toNat =
      if l < 8 then 7 - l else 65543 - l := by
  interval_cases l <;> rfl

theorem constructRep_code_ge (sign f : Rep) {e : Rep} (he : e.toNat < 2 ^ 8) :
    e.toNat * 2 ^ 23 ≤ code (constructRep sign e f) := by
  have hmask : absMask.toNat = 2 ^ 31 - 1 := rfl
  have hexp : ((e <<< (23 : ℕ)) &&& absMask).toNat = e.toNat * 2 ^ 23 := by
    rw [BitVec.toNat_and, hmask, Nat.and_two_pow_sub_one_eq_mod, BitVec.toNat_shiftLeft,
      Nat.shiftLeft_eq]
    omega
  rw [code, constructRep, BitVec.and_or_distrib_right, BitVec.and_or_distrib_right,
    BitVec.toNat_or, BitVec.toNat_or, hexp]
  exact Nat.right_le_or.trans Nat.left_le_or

theorem abs_value_ge {z : Rep} (hz : 119 * 2 ^ 23 ≤ code z) : 1 / 2 ^ 8 ≤ |value z| := by
  have hmono : mag 23 (118 * 2 ^ 23 + 2 ^ 23) ≤ mag 23 (code z) :=
    (mag_strictMono 23).monotone (le_trans (by norm_num) hz)
  rw [mag_binade (by norm_num) (.inl le_rfl), ← pow_add] at hmono
  have hunits : (2 : ℚ) ^ 141 ≤ units z := by
    rw [units]
    exact_mod_cast hmono
  rw [abs_value, le_div_iff₀ (by positivity)]
  exact le_trans (by norm_num) hunits

theorem abs_halfValue_lt (hlow : halfCode h < 2 ^ 10) : |halfValue h| < 1 / 2 ^ 14 := by
  have hC : (halfCode h : ℚ) < 2 ^ 10 := by exact_mod_cast hlow
  have hgrid : halfGrid (halfCode h) = halfCode h := by rw [halfGrid, mag_of_le (by omega)]
  have hnonneg : (0 : ℚ) ≤ halfCode h := Nat.cast_nonneg _
  have hsign : |(if h.msb then -1 else 1 : ℚ)| = 1 := by split <;> norm_num
  rw [halfValue, hgrid, abs_div, abs_mul, hsign, abs_of_nonneg hnonneg, one_mul,
    abs_of_pos (by positivity), div_lt_iff₀ (by positivity)]
  exact hC.trans_le (by norm_num)

theorem constructRep_finite {sign e f : Rep} (he : e.toNat < 2 ^ 7) (hf : f.toNat < 2 ^ 24) :
    Finite (constructRep sign e f) := by
  have hexp : (e <<< (23 : ℕ)).toNat < 2 ^ 30 := by
    rw [BitVec.toNat_shiftLeft, Nat.shiftLeft_eq]
    omega
  have hmask : absMask.toNat = 2 ^ 31 - 1 := rfl
  have hsign : (sign <<< (31 : ℕ)).toNat % 2 ^ 31 = 0 := by
    rw [BitVec.toNat_shiftLeft, Nat.shiftLeft_eq]
    omega
  have hcode : code (constructRep sign e f) = (e <<< (23 : ℕ) ||| f).toNat % 2 ^ 31 := by
    rw [code, constructRep, BitVec.or_assoc, BitVec.toNat_and, hmask,
      Nat.and_two_pow_sub_one_eq_mod, BitVec.toNat_or, Nat.or_mod_two_pow, hsign, Nat.zero_or]
  have hor : (e <<< (23 : ℕ) ||| f).toNat < 2 ^ 30 := by
    rw [BitVec.toNat_or]
    exact Nat.or_lt_two_pow hexp (by omega)
  rw [Finite, hcode, infCode]
  omega

/-- A subnormal from 2^-16 on has no result, and one below gets at least 2^-8. -/
theorem extendhfsf2_subnormal (hs : HalfSubnormal h) :
    (2 ^ 8 ≤ halfCode h → extendhfsf2 h = none) ∧
      (halfCode h < 2 ^ 8 → ∃ z, extendhfsf2 h = some z ∧ Finite z ∧ 1 / 2 ^ 8 ≤ |value z|) := by
  obtain ⟨hpos, hlow⟩ := hs
  obtain ⟨f, hf⟩ : ∃ f, f = h &&& 0x3FF#16 := ⟨_, rfl⟩
  have hx : (h &&& 0x7C00#16) >>> 10 = 0#16 :=
    BitVec.eq_of_toNat_eq ((halfExp_toNat h).trans (Nat.div_eq_of_lt hlow))
  have hfval : f.toNat = halfCode h := by
    rw [hf, halfFrac_toNat, Nat.mod_eq_of_lt hlow]
  have hf0 : f ≠ 0#16 := by
    rintro rfl
    rw [← hfval] at hpos
    exact absurd hpos (by decide)
  have hlog : Nat.log2 f.toNat < 10 := by
    rw [Nat.log2_lt (by omega), hfval]
    exact hlow
  have height : Nat.log2 f.toNat < 8 ↔ halfCode h < 2 ^ 8 := by
    rw [Nat.log2_lt (by omega), hfval]
  have hshift := subnormal_shift hlog
  have hexp := subnormal_exp hlog
  rw [extendhfsf2, hx, ← hf, extendFields, if_neg (by decide), if_neg (by decide), if_pos hf0,
    srcRepClz, if_neg hf0]
  constructor
  · intro hlarge
    rw [if_neg fun hl => absurd (height.1 hl) (not_lt.2 hlarge)] at hshift
    have hnone : shl (f.setWidth 32)
        (13#16 + (BitVec.ofNat 16 (15 - Nat.log2 f.toNat) - 16#16 - 6#16 + 1#16)) = none :=
      if_neg (by omega)
    simp only [Option.bind_eq_bind, Option.bind_some, hnone, Option.bind_none, Option.map_none]
  · intro hsmall
    rw [if_pos (height.2 hsmall)] at hshift
    have hsome := shl_of_lt (x := f.setWidth 32)
      (n := 13#16 + (BitVec.ofNat 16 (15 - Nat.log2 f.toNat) - 16#16 - 6#16 + 1#16)) (by omega)
    simp only [Option.bind_eq_bind, Option.bind_some, hsome, Option.map_some, Option.pure_def]
    refine ⟨_, rfl, ?_, abs_value_ge (le_trans (Nat.mul_le_mul_right _ (by omega))
      (constructRep_code_ge _ _ (by omega)))⟩
    refine constructRep_finite (by omega) ?_
    have hone : implicitBit.toNat = 2 ^ 23 := rfl
    have hlt : (f.setWidth 32 <<< (7 - Nat.log2 f.toNat) : Rep).toNat < 2 ^ 24 := by
      rw [BitVec.toNat_shiftLeft, BitVec.toNat_setWidth, Nat.shiftLeft_eq]
      refine (Nat.mod_le _ _).trans_lt ((Nat.mul_le_mul (Nat.mod_le _ _)
        (Nat.pow_le_pow_right (by norm_num) (Nat.sub_le 7 _))).trans_lt ?_)
      omega
    rw [hshift, BitVec.toNat_xor, hone]
    exact Nat.xor_lt_two_pow hlt (by norm_num)

/-- A half that is not subnormal becomes the float of the same sign with its value,
or the infinity or NaN with its fraction. No subnormal gets its value, as clz counts
the bits of a 16-bit int: from 2^-16 on the shift is out of range, and below it the
result is at least 2^-8. -/
theorem extension_correct (h : Half) :
    (HalfSubnormal h → |halfValue h| < 1 / 2 ^ 14 ∧
      (2 ^ 8 ≤ halfCode h → extendhfsf2 h = none) ∧
      (halfCode h < 2 ^ 8 → ∃ z, extendhfsf2 h = some z ∧ Finite z ∧ 1 / 2 ^ 8 ≤ |value z| ∧
        value z ≠ halfValue h)) ∧
      (¬ HalfSubnormal h → ∃ z, extendhfsf2 h = some z ∧ z.msb = h.msb ∧
        (halfCode h < halfInfCode → Finite z ∧ value z = halfValue h) ∧
        (halfInfCode ≤ halfCode h →
          code z = infCode + (halfCode h - halfInfCode) * 2 ^ 13)) := by
  refine ⟨fun hs => ?_, fun hs => ?_⟩
  · obtain ⟨hnone, hsome⟩ := extendhfsf2_subnormal hs
    have hlt := abs_halfValue_lt hs.2
    refine ⟨hlt, hnone, fun hsmall => ?_⟩
    obtain ⟨z, hz, hfin, hge⟩ := hsome hsmall
    refine ⟨z, hz, hfin, hge, fun heq => ?_⟩
    rw [heq] at hge
    exact absurd (hge.trans_lt hlt) (by norm_num)
  rcases Nat.lt_or_ge (halfCode h) halfInfCode with hfin | hspecial
  · obtain ⟨z, hz, hsign, hf, hv⟩ := extendhfsf2_finite hs hfin
    exact ⟨z, hz, hsign, fun _ => ⟨hf, hv⟩, fun hge => absurd hfin (not_lt.2 hge)⟩
  · obtain ⟨z, hz, hsign, hc⟩ := extendhfsf2_special hspecial
    exact ⟨z, hz, hsign, fun hlt => absurd hspecial (not_le.2 hlt), fun _ => hc⟩

/-! ### There and back -/

theorem half_ext {v w : Half} (hs : v.msb = w.msb) (hc : halfCode v = halfCode w) : v = w := by
  have hval : ∀ z : Half, z.toNat = (if z.msb then 2 ^ 15 else 0) + halfCode z := by
    intro z
    have hlt := z.isLt
    rw [halfCode_eq, BitVec.msb_eq_decide]
    by_cases hz : 2 ^ 15 ≤ z.toNat
    · rw [decide_eq_true hz, if_pos rfl]
      omega
    · rw [decide_eq_false hz, if_neg Bool.false_ne_true]
      omega
  apply BitVec.eq_of_toNat_eq
  rw [hval, hval, hs, hc]

theorem abs_halfValue (h : Half) : |halfValue h| * 2 ^ 24 = halfGrid (halfCode h) := by
  have hnonneg : 0 ≤ halfGrid (halfCode h) := Nat.cast_nonneg _
  have hsign : |(if h.msb then -1 else 1 : ℚ)| = 1 := by split <;> norm_num
  rw [halfValue, abs_div, abs_mul, hsign, abs_of_nonneg hnonneg, one_mul,
    abs_of_pos (show (0 : ℚ) < 2 ^ 24 by positivity), div_mul_cancel₀ _ (by positivity)]

/-- A half that is not subnormal survives the two conversions, a NaN as a quiet one. -/
theorem half_round_trip (h : Half) (hs : ¬ HalfSubnormal h) :
    ∃ z w, extendhfsf2 h = some z ∧ truncsfhf2 z = some w ∧
      (halfCode h ≤ halfInfCode → w = h) ∧
      (halfInfCode < halfCode h → w.msb = h.msb ∧
        halfCode w = halfInfCode + 2 ^ 9 + halfCode h % 2 ^ 9) := by
  rcases Nat.lt_or_ge (halfCode h) halfInfCode with hfin | hspecial
  · obtain ⟨z, hz, hsign, hf, hv⟩ := extendhfsf2_finite hs hfin
    obtain ⟨w, hw, hwsign, hnear⟩ := truncsfhf2_finite hf
    rw [hv, abs_halfValue] at hnear
    have hcode := hnear.eq_of_exact (cast_mag_strictMono 10) hfin.le
    exact ⟨z, w, hz, hw, fun _ => half_ext (hwsign.trans hsign) hcode,
      fun hlt => absurd hfin (not_lt.2 hlt.le)⟩
  · obtain ⟨z, hz, hsign, hc⟩ := extendhfsf2_special hspecial
    obtain ⟨w, hw, hwsign, -, hinf, hnan⟩ := truncsfhf2_result z
    refine ⟨z, w, hz, hw, fun hle => ?_, fun hlt => ⟨hwsign.trans hsign, ?_⟩⟩
    · have heq := le_antisymm hle hspecial
      have hzinf : IsInf z := by rw [IsInf, hc, heq, Nat.sub_self, Nat.zero_mul, Nat.add_zero]
      exact half_ext (hwsign.trans hsign) ((hinf hzinf).trans heq.symm)
    · have hcode := halfCode_eq h
      rw [halfInfCode] at hc hlt ⊢
      rw [infCode] at hc
      have hznan : IsNaN z := by
        rw [IsNaN, infCode, hc]
        omega
      rw [hnan hznan, hc, halfInfCode]
      omega

theorem half_round_trip_one :
    ∃ z w, extendhfsf2 0x3C00#16 = some z ∧ truncsfhf2 z = some w ∧ w = 0x3C00#16 := by
  obtain ⟨z, w, hz, hw, hsame, -⟩ := half_round_trip 0x3C00#16 fun hs => absurd hs.2 (by decide)
  exact ⟨z, w, hz, hw, hsame (by decide)⟩

end Extend

end LlvmTms9900.Softfloat
