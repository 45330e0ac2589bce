import LlvmTms9900.Softfloat.Format

/-!
# Addition (libtms9900/builtins/softfloat/fp_add_impl.inc)

The smaller significand is shifted to the exponent of the larger one, with three
more bits of which the last is sticky. The rounding mode is what
`__fe_getround` returns; whether `__fe_raise_inexact` is called is returned with
the result.
-/

namespace LlvmTms9900.Softfloat
open LlvmTms9900.Arith
open LlvmTms9900.Isa (Word)
open LlvmTms9900.Builtins.Udivmoddi4 (clzsi shl shr shl_of_lt shr_of_lt)

section Model

/-- `CRT_FE_ROUND_MODE` -/
inductive RoundMode where
  | toNearest | downward | upward | towardZero
  deriving DecidableEq, Repr

structure Sum where
  rep : Rep
  inexact : Bool
  deriving DecidableEq, Repr

/-- The early returns of `__addXf3__`. -/
def addSpecial (a b : Rep) : Option Rep :=
  let aAbs := a &&& absMask
  let bAbs := b &&& absMask
  if infRep < aAbs then some (a ||| quietBit)
  else if infRep < bAbs then some (b ||| quietBit)
  else if aAbs = infRep then some (if a ^^^ b = signBit then qnanRep else a)
  else if bAbs = infRep then some b
  else if aAbs = 0#32 then some (if bAbs = 0#32 then a &&& b else b)
  else if bAbs = 0#32 then some a
  else none

/-- The exponent and the significand; a subnormal is normalized. -/
def unpack (a : Rep) : Option Operand :=
  if exponentField a = 0#16 then normalize (a &&& significandMask)
  else some ⟨exponentField a, a &&& significandMask⟩

/-- The shift of the smaller significand. -/
def alignSignificand (bSignificand : Rep) (align : Word) : Option Rep := do
  if align = 0#16 then return bSignificand
  if align < 32#16 then
    let sticky := bit ((← shl bSignificand (32#16 - align)) != 0#32)
    return (← shr bSignificand align) ||| sticky
  return 1#32

/-- The carry of an addition. -/
def carrySum (s : Operand) : Operand :=
  if s.significand &&& (implicitBit <<< 4) ≠ 0#32 then
    let sticky := s.significand &&& 1#32
    ⟨s.exponent + 1#16, (s.significand >>> 1) ||| sticky⟩
  else s

/-- The cancellation of a subtraction. -/
def cancelDifference (s : Operand) : Option Operand := do
  if s.significand < implicitBit <<< 3 then
    let shift := (← clzsi s.significand) - (← clzsi (implicitBit <<< 3))
    return ⟨s.exponent - shift, ← shl s.significand shift⟩
  return s

/-- The final rounding, by the value of `__fe_getround`. -/
def roundSum (mode : RoundMode) (resultSign roundGuardSticky result : Rep) : Rep :=
  match mode with
  | .toNearest => roundNearest 4#32 roundGuardSticky result
  | .downward => if resultSign ≠ 0#32 ∧ roundGuardSticky ≠ 0#32 then result + 1#32 else result
  | .upward => if resultSign = 0#32 ∧ roundGuardSticky ≠ 0#32 then result + 1#32 else result
  | .towardZero => result

/-- From the test for overflow on. -/
def packSum (mode : RoundMode) (resultSign : Rep) (s : Operand) : Option Sum := do
  if maxExponent.sle s.exponent then return ⟨infRep ||| resultSign, false⟩
  let s ← if s.exponent.sle 0#16 then (do
      let shift := 1#16 - s.exponent
      let sticky := bit ((← shl s.significand (32#16 - shift)) != 0#32)
      return ⟨0#16, (← shr s.significand shift) ||| sticky⟩)
    else some s
  let roundGuardSticky := s.significand &&& 7#32
  let result := (s.significand >>> 3) &&& significandMask
  let result := result ||| (s.exponent.signExtend 32 <<< 23) ||| resultSign
  return ⟨roundSum mode resultSign roundGuardSticky result, roundGuardSticky != 0#32⟩

/-- The sum of two numbers that are not zero, the larger one first. -/
def addFinite (mode : RoundMode) (aRep bRep : Rep) : Option Sum := do
  let a ← unpack aRep
  let b ← unpack bRep
  let resultSign := aRep &&& signBit
  let aSignificand := (a.significand ||| implicitBit) <<< 3
  let bSignificand ← alignSignificand ((b.significand ||| implicitBit) <<< 3)
    (a.exponent - b.exponent)
  if (aRep ^^^ bRep) &&& signBit ≠ 0#32 then
    if aSignificand - bSignificand = 0#32 then return ⟨0#32, false⟩
    packSum mode resultSign (← cancelDifference ⟨a.exponent, aSignificand - bSignificand⟩)
  else packSum mode resultSign (carrySum ⟨a.exponent, aSignificand + bSignificand⟩)

/-- `__addsf3` -/
def addsf3 (mode : RoundMode) (a b : Rep) : Option Sum :=
  let aAbs := a &&& absMask
  let bAbs := b &&& absMask
  let sum := if aAbs < bAbs then addFinite mode b a else addFinite mode a b
  if infRep - 1#32 ≤ aAbs - 1#32 ∨ infRep - 1#32 ≤ bAbs - 1#32 then
    (addSpecial a b).elim sum fun z => some ⟨z, false⟩
  else sum

/-- `__negsf2` -/
def negsf2 (a : Rep) : Rep := a ^^^ signBit

/-- `__subsf3` -/
def subsf3 (mode : RoundMode) (a b : Rep) : Option Sum := addsf3 mode a (b ^^^ signBit)

end Model

section Rounding

/-- How a mode rounds a magnitude with the sign `s`. -/
def RoundedBy (mode : RoundMode) (s : Bool) (x : ℚ) (r : ℕ) : Prop :=
  match mode with
  | .toNearest => NearestEven grid infCode x r
  | .downward => if s then RoundUp grid infCode x r else RoundDown grid infCode x r
  | .upward => if s then RoundDown grid infCode x r else RoundUp grid infCode x r
  | .towardZero => RoundDown grid infCode x r

theorem roundedBy_of_infCode_le {x : ℚ} (mode : RoundMode) (s : Bool) (h : grid infCode ≤ x) :
    RoundedBy mode s x infCode := by
  have hdown : RoundDown grid infCode x infCode := ⟨le_rfl, h, fun hlt => absurd hlt (lt_irrefl _)⟩
  have hup : RoundUp grid infCode x infCode :=
    ⟨le_rfl, fun k hk => lt_of_lt_of_le (grid_strictMono (by omega)) h,
      fun hlt => absurd hlt (lt_irrefl _)⟩
  cases mode <;> cases s
  exacts [NearestEven.overflow grid_strictMono h, NearestEven.overflow grid_strictMono h,
    hdown, hup, hup, hdown, hdown, hdown]

theorem sign_ne_zero_iff {sign : Rep} {s : Bool} (hs : sign.toNat = if s then 2 ^ 31 else 0) :
    sign ≠ 0#32 ↔ s = true := by
  cases s
  · have h0 : sign = 0#32 := BitVec.eq_of_toNat_eq hs
    simp [h0]
  · have h0 : sign ≠ 0#32 := by
      rintro rfl
      simp at hs
    simp [h0]

/-- The last step rounds in every mode and notices an inexact result. -/
theorem roundSum_spec (mode : RoundMode) {sign rest result : Rep} {s : Bool} {k : ℕ} {x : ℚ}
    (hs : sign.toNat = if s then 2 ^ 31 else 0) (hp : Packed s k result) (hk : k < infCode)
    (hloc : Located grid x k 4 rest.toNat) :
    ∃ r, Packed s r (roundSum mode sign rest result) ∧ RoundedBy mode s x r ∧
      (rest ≠ 0#32 ↔ grid r ≠ x) := by
  have hk31 : k + 1 < 2 ^ 31 := by
    rw [infCode] at hk
    omega
  have hrest : rest = 0#32 ↔ rest.toNat = 0 :=
    ⟨fun h => by rw [h]; rfl, fun h => BitVec.eq_of_toNat_eq h⟩
  obtain ⟨d, hd⟩ : ∃ d, d = if rest.toNat = 0 then 0 else 1 := ⟨_, rfl⟩
  have hd0 : rest = 0#32 → d = 0 := fun h => hd.trans (if_pos (hrest.1 h))
  have hup : ∀ (c : Prop) [Decidable c], (c ↔ rest ≠ 0#32) →
      Packed s (k + d) (if c then result + 1#32 else result) := by
    intro c _ hc
    by_cases h0 : rest = 0#32
    · rw [if_neg fun h => hc.1 h h0, hd0 h0]
      exact hp
    · rw [if_pos (hc.2 h0), hd, if_neg fun h => h0 (hrest.2 h)]
      exact hp.add rfl hk31
  -- a result other than `k` is above the exact number
  have hflag : ∀ d, d ≤ 1 → (rest = 0#32 → d = 0) → (rest ≠ 0#32 ↔ grid (k + d) ≠ x) := by
    intro d hd h0
    rw [ne_eq, ne_eq, not_iff_not]
    constructor
    · intro h
      rw [h0 h]
      exact (hloc.exact.2 (hrest.1 h)).symm
    · intro h
      obtain rfl | rfl : d = 0 ∨ d = 1 := by omega
      · exact hrest.2 (hloc.exact.1 h.symm)
      · exact absurd h hloc.lt.ne'
  have hflag1 := hflag d (by rw [hd]; split <;> omega) hd0
  cases mode with
  | toNearest =>
    refine ⟨_, hp.roundNearest hk31, hloc.nearest grid_strictMono hk, hflag _ ?_ fun h => ?_⟩
    · unfold roundUp
      split
      · exact le_rfl
      · split <;> omega
    · rw [h]
      rfl
  | downward =>
    cases s with
    | false =>
      have hcond : ¬ (sign ≠ 0#32 ∧ rest ≠ 0#32) := fun h =>
        absurd ((sign_ne_zero_iff hs).1 h.1) Bool.false_ne_true
      refine ⟨k, ?_, hloc.down hk, hflag 0 (by omega) fun _ => rfl⟩
      rw [roundSum, if_neg hcond]
      exact hp
    | true =>
      have hs1 : sign ≠ 0#32 := (sign_ne_zero_iff hs).2 rfl
      exact ⟨k + d, hup _ (and_iff_right hs1), hd ▸ hloc.up grid_strictMono hk, hflag1⟩
  | upward =>
    cases s with
    | false =>
      have hsign : sign = 0#32 := not_not.1 fun h =>
        absurd ((sign_ne_zero_iff hs).1 h) Bool.false_ne_true
      exact ⟨k + d, hup _ (and_iff_right hsign), hd ▸ hloc.up grid_strictMono hk, hflag1⟩
    | true =>
      refine ⟨k, ?_, hloc.down hk, hflag 0 (by omega) fun _ => rfl⟩
      rw [roundSum, if_neg fun h => (sign_ne_zero_iff hs).2 rfl h.1]
      exact hp
  | towardZero => exact ⟨k, hp, hloc.down hk, hflag 0 (by omega) fun _ => rfl⟩

end Rounding

section Pack

/-- The operand stands for the magnitude `x` as far as the rounding asks. -/
structure SumOf (x : ℚ) (s : Operand) : Prop where
  low : 2 ^ 26 ≤ s.significand.toNat
  high : s.significand.toNat < 2 ^ 27
  units : ∃ y : ℚ, SameSide 2 y s.significand.toNat ∧ x * 8 = y * (2 : ℚ) ^ (s.exponent.toInt - 1)

variable {x : ℚ} {s : Operand} {sign : Rep} {n : Bool}

theorem packSum_overflow (mode : RoundMode) (hx : SumOf x s)
    (hs : sign.toNat = if n then 2 ^ 31 else 0) (hover : 255 ≤ s.exponent.toInt) :
    ∃ z r, packSum mode sign s = some z ∧ Packed n r z.rep ∧ RoundedBy mode n x r ∧
      (Finite z.rep → (z.inexact = true ↔ grid r ≠ x)) := by
  have hp : Packed n infCode (infRep ||| sign) :=
    infRep_toNat ▸ Packed.or (by rw [infRep_toNat]; decide) hs
  refine ⟨⟨infRep ||| sign, false⟩, infCode, ?_, hp, roundedBy_of_infCode_le mode n ?_, ?_⟩
  · rw [packSum, sle_maxExponent rfl, decide_eq_true hover]
    rfl
  · obtain ⟨y, hy, hxy⟩ := hx.units
    have hlow : (2 : ℚ) ^ 26 ≤ y := by
      have h := (hy.ge (2 ^ 24)).2 (by
        push_cast
        have hlow := hx.low
        exact_mod_cast (by omega : 2 ^ 24 * 2 ^ 2 ≤ s.significand.toNat))
      push_cast at h
      linarith
    have hpow : (2 : ℚ) ^ (254 : ℕ) ≤ 2 ^ (s.exponent.toInt - 1) := by
      rw [← zpow_natCast]
      exact zpow_le_zpow_right₀ (by norm_num) (by push_cast; omega)
    have hmul : (2 : ℚ) ^ 26 * 2 ^ (254 : ℕ) ≤ x * 8 := by
      rw [hxy]
      exact mul_le_mul hlow hpow (by positivity) (by linarith [show (0 : ℚ) < 2 ^ 26 by norm_num])
    rw [grid_infCode]
    have hsplit : (2 : ℚ) ^ 26 * 2 ^ (254 : ℕ) = 2 ^ 23 * 2 ^ 254 * 8 := by norm_num
    rw [hsplit] at hmul
    exact le_of_mul_le_mul_right hmul (by norm_num)
  · intro hf
    exact absurd hf (by rw [Finite, hp.code]; exact lt_irrefl _)

/-- The exponent is in its field and the significand is rounded. -/
theorem packSum_located (mode : RoundMode) {e : ℤ} {E : Word} {sig : Rep} {y : ℚ} (he : E.toInt = e)
    (h0 : 0 ≤ e) (h254 : e ≤ 254) (hs : sign.toNat = if n then 2 ^ 31 else 0)
    (hsig : sig.toNat < 2 ^ 27) (hy : SameSide 2 y sig.toNat) (hxy : x * 8 = y * 2 ^ (e - 1).toNat)
    (hn : 1 ≤ e ∧ 2 ^ 26 ≤ sig.toNat ∨ e = 0 ∧ sig.toNat < 2 ^ 26) :
    ∃ r, Packed n r (roundSum mode sign (sig &&& 7#32)
        ((sig >>> 3) &&& significandMask ||| (E.signExtend 32 <<< 23) ||| sign)) ∧
      RoundedBy mode n x r ∧ (sig &&& 7#32 ≠ 0#32 ↔ grid r ≠ x) := by
  have hrest : (sig &&& 7#32).toNat = sig.toNat % 2 ^ 3 := by
    have hmask : (7#32).toNat = 2 ^ 3 - 1 := rfl
    rw [BitVec.toNat_and, hmask, Nat.and_two_pow_sub_one_eq_mod]
  have hshr : (sig >>> 3).toNat = sig.toNat / 2 ^ 3 := Builtins.Udivmoddi4.shr_toNat sig 3
  have hins : ((sig >>> 3) &&& significandMask ||| (E.signExtend 32 <<< 23)).toNat =
      (e - 1).toNat * 2 ^ 23 + sig.toNat / 2 ^ 3 := by
    rw [insertExponent_toNat he h0 h254, hshr]
    omega
  have hloc := located_of_sameSide (K := ℚ) (p := 23) (e := (e - 1).toNat) (h := 2) (x := x)
    (y := y) (G := sig.toNat) (by rw [← hxy]; norm_num) hy (by omega) (by omega)
  rw [← hins, ← hrest] at hloc
  exact roundSum_spec mode hs (Packed.or (by omega) hs) (by rw [hins, infCode]; omega) hloc

theorem packSum_normal (mode : RoundMode) (hx : SumOf x s)
    (hs : sign.toNat = if n then 2 ^ 31 else 0) (h1 : 1 ≤ s.exponent.toInt)
    (h254 : s.exponent.toInt ≤ 254) :
    ∃ z r, packSum mode sign s = some z ∧ Packed n r z.rep ∧ RoundedBy mode n x r ∧
      (Finite z.rep → (z.inexact = true ↔ grid r ≠ x)) := by
  obtain ⟨y, hy, hxy⟩ := hx.units
  obtain ⟨k, hk⟩ : ∃ k : ℕ, s.exponent.toInt - 1 = k := ⟨(s.exponent.toInt - 1).toNat, by omega⟩
  obtain ⟨r, hp, hr, hflag⟩ := packSum_located mode (E := s.exponent) rfl (by omega) h254 hs hx.high
    hy (by rw [hxy, hk, zpow_natCast, Int.toNat_natCast]) (.inl ⟨h1, hx.low⟩)
  refine ⟨⟨_, s.significand &&& 7#32 != 0#32⟩, r, ?_, hp, hr, fun _ => bne_iff_ne.trans hflag⟩
  rw [packSum, sle_maxExponent rfl, sle_zero rfl, decide_eq_false (by omega),
    decide_eq_false (by omega)]
  rfl

theorem packSum_subnormal (mode : RoundMode) (hx : SumOf x s)
    (hs : sign.toNat = if n then 2 ^ 31 else 0) (hlow : -22 ≤ s.exponent.toInt)
    (hsub : s.exponent.toInt ≤ 0) :
    ∃ z r, packSum mode sign s = some z ∧ Packed n r z.rep ∧ RoundedBy mode n x r ∧
      (Finite z.rep → (z.inexact = true ↔ grid r ≠ x)) := by
  obtain ⟨y, hy, hxy⟩ := hx.units
  obtain ⟨k, hk⟩ : ∃ k : ℕ, 1 - s.exponent.toInt = k := ⟨(1 - s.exponent.toInt).toNat, by omega⟩
  have hshift : (1#16 - s.exponent).toNat = k := by
    have hint := toInt_sub_of_small (x := 1#16) (y := s.exponent) (i := 1) rfl rfl (by omega)
      (by omega)
    rw [BitVec.toInt_eq_toNat_cond] at hint
    split at hint <;> omega
  have hcount : (32#16 - (1#16 - s.exponent)).toNat = 32 - k := by
    rw [BitVec.toNat_sub, hshift]
    change (2 ^ 16 - k + 32) % 2 ^ 16 = 32 - k
    omega
  obtain ⟨sig, hsig⟩ : ∃ sig, sig = s.significand >>> k |||
      bit (s.significand <<< (32 - k) != 0#32) := ⟨_, rfl⟩
  have hjam : sig.toNat = jam k s.significand.toNat := by
    rw [hsig, shr_or_bit_toNat _ (by omega)]
  have hsig26 : sig.toNat < 2 ^ 26 := by
    have hhigh := hx.high
    have hdiv : s.significand.toNat / 2 ^ k ≤ s.significand.toNat / 2 ^ 1 :=
      Nat.div_le_div_left (Nat.pow_le_pow_right (by norm_num) (by omega)) (by norm_num)
    rw [hjam, jam_eq]
    split <;> omega
  have hside : SameSide 1 (y / 2 ^ k) (sig.toNat : ℚ) := by
    rw [hjam]
    exact (hy.mono (by omega : 2 ≤ 1 + k)).divide.trans (SameSide.jam k _)
  have hxy' : x * 8 = y / 2 ^ k * 2 ^ ((0 : ℤ) - 1).toNat := by
    have hexp : s.exponent.toInt - 1 = -(k : ℤ) := by omega
    have hzero : ((0 : ℤ) - 1).toNat = 0 := rfl
    rw [hxy, hexp, zpow_neg, zpow_natCast, div_eq_mul_inv, hzero, pow_zero, mul_one]
  obtain ⟨r, hp, hr, hflag⟩ := packSum_located mode (E := 0#16) (e := 0) rfl le_rfl (by norm_num) hs
    (by omega) (hside.mono (by norm_num)) hxy' (.inr ⟨rfl, hsig26⟩)
  refine ⟨⟨_, sig &&& 7#32 != 0#32⟩, r, ?_, hp, hr, fun _ => bne_iff_ne.trans hflag⟩
  rw [packSum, sle_maxExponent rfl, sle_zero rfl, decide_eq_false (by omega),
    decide_eq_true hsub]
  simp only [Bool.false_eq_true, if_false, if_true, shl_of_lt (by omega : (32#16 - (1#16 -
    s.exponent)).toNat < 32), shr_of_lt (by omega : (1#16 - s.exponent).toNat < 32), hshift, hcount,
    Option.bind_eq_bind, Option.bind_some, Option.pure_def, ← hsig]
  rfl

/-- The tail of the addition rounds the sum. -/
theorem packSum_spec (mode : RoundMode) (hx : SumOf x s)
    (hs : sign.toNat = if n then 2 ^ 31 else 0) (hlow : -22 ≤ s.exponent.toInt) :
    ∃ z r, packSum mode sign s = some z ∧ Packed n r z.rep ∧ RoundedBy mode n x r ∧
      (Finite z.rep → (z.inexact = true ↔ grid r ≠ x)) := by
  rcases le_or_gt 255 s.exponent.toInt with hover | hover
  · exact packSum_overflow mode hx hs hover
  rcases le_or_gt s.exponent.toInt 0 with hsub | hsub
  · exact packSum_subnormal mode hx hs hlow hsub
  · exact packSum_normal mode hx hs hsub (by omega)

end Pack

section Steps
variable {a b : Rep} {x y : ℚ} {s : Operand}

theorem unpack_spec (h0 : ¬ IsZero a) (hf : Finite a) :
    ∃ o, unpack a = some o ∧ Unpacked a (o.significand ||| implicitBit) o.exponent := by
  obtain ⟨o, ho, hu⟩ := renormalize_spec h0 hf
  have hfield := exponentField_toNat a
  have hcode : code a < 2 ^ 31 := (packed_self a).lt
  by_cases hn : code a < 2 ^ 23
  · have hz : exponentField a = 0#16 := by
      apply BitVec.eq_of_toNat_eq
      rw [hfield, Nat.div_eq_of_lt hn]
      rfl
    refine ⟨o, ?_, ?_⟩
    · rw [unpack, if_pos hz, ← ho, renormalize, if_pos ((abs_lt_implicitBit_iff a).2 hn)]
    · rwa [hz, BitVec.zero_add] at hu
  · have hnz : exponentField a ≠ 0#16 := by
      intro hz
      rw [hz] at hfield
      change 0 = _ at hfield
      omega
    rw [renormalize_of_normal (by omega), Option.some.injEq] at ho
    refine ⟨⟨exponentField a, a &&& significandMask⟩, by rw [unpack, if_neg hnz], ?_⟩
    rw [← ho] at hu
    change Unpacked a _ (exponentField a + 0#16) at hu
    rwa [BitVec.add_zero] at hu

/-- The aligned significand has the sides of the exact one, and is exact where no
bit is lost. -/
theorem alignSignificand_spec {B : Rep} {align : Word} {d : ℕ} (hd : align.toNat = d)
    (hpos : 0 < B.toNat) (hB : B.toNat < 2 ^ 27) :
    ∃ v, alignSignificand B align = some v ∧
      SameSide 1 ((B.toNat : ℚ) / 2 ^ d) (v.toNat : ℚ) ∧
      (2 ^ d ∣ B.toNat → (B.toNat : ℚ) / 2 ^ d = v.toNat) := by
  unfold alignSignificand
  by_cases h0 : align = 0#16
  · obtain rfl : d = 0 := by rw [← hd, h0]; rfl
    refine ⟨B, by rw [if_pos h0]; rfl, ?_, ?_⟩
    · rw [pow_zero, div_one]
      exact SameSide.refl 1 _
    · intro _
      rw [pow_zero, div_one]
  have hd0 : d ≠ 0 := fun h => h0 (BitVec.eq_of_toNat_eq (hd.trans h))
  rw [if_neg h0]
  by_cases hlt : align < 32#16
  · have hd32 : d < 32 := by
      rw [BitVec.lt_def, hd] at hlt
      exact hlt
    have hsub : (32#16 - align).toNat = 32 - d := by
      rw [BitVec.toNat_sub, hd]
      change (2 ^ 16 - d + 32) % 2 ^ 16 = 32 - d
      omega
    have hjam := shr_or_bit_toNat B hd32.le
    refine ⟨B >>> d ||| bit (B <<< (32 - d) != 0#32), ?_, ?_, ?_⟩
    · rw [if_pos hlt, shl_of_lt (by omega), shr_of_lt (by omega), hsub, hd]
      rfl
    · rw [hjam]
      exact SameSide.jam d _
    · intro hdvd
      rw [hjam, jam_eq, if_pos (Nat.mod_eq_zero_of_dvd hdvd), Nat.cast_div hdvd (by positivity)]
      push_cast
      rfl
  · have hd32 : 32 ≤ d := by
      rw [BitVec.lt_def, hd] at hlt
      exact not_lt.1 hlt
    have hpow : 2 ^ 32 ≤ 2 ^ d := Nat.pow_le_pow_right (by norm_num) hd32
    have hpow' : (B.toNat : ℚ) < 2 ^ d := by exact_mod_cast lt_of_lt_of_le hB (by omega)
    refine ⟨1#32, by rw [if_neg hlt]; rfl, ?_, fun hdvd => ?_⟩
    · have hBpos : (0 : ℚ) < B.toNat := by exact_mod_cast hpos
      have hlt1 : (B.toNat : ℚ) / 2 ^ d < 1 := (div_lt_one (by positivity)).2 hpow'
      refine SameSide.of_between (a := 0) ?_ ?_ ?_ ?_
      · push_cast
        rw [zero_mul]
        positivity
      · push_cast
        linarith
      · norm_num
      · norm_num
    · have := Nat.le_of_dvd hpos hdvd
      omega

theorem carrySum_spec (hlo : 2 ^ 26 ≤ s.significand.toNat) (hhi : s.significand.toNat < 2 ^ 28)
    (hy : SameSide 1 y s.significand.toNat) (he : s.exponent.toInt ≤ 254)
    (he' : -22 ≤ s.exponent.toInt) (hx : x * 8 = y * (2 : ℚ) ^ (s.exponent.toInt - 1)) :
    SumOf x (carrySum s) ∧ -22 ≤ (carrySum s).exponent.toInt := by
  have hmask : (implicitBit <<< 4).toNat = 2 ^ 27 := rfl
  have hset := and_two_pow_ne_zero hmask hhi
  unfold carrySum
  by_cases hc : s.significand &&& (implicitBit <<< 4) ≠ 0#32
  · have h27 := hset.1 hc
    have hone : (s.significand &&& 1#32).toNat = s.significand.toNat % 2 := by
      have h1 : (1#32).toNat = 2 ^ 1 - 1 := rfl
      rw [BitVec.toNat_and, h1, Nat.and_two_pow_sub_one_eq_mod, pow_one]
    have hjam : ((s.significand >>> 1) ||| (s.significand &&& 1#32)).toNat =
        jam 1 s.significand.toNat := by
      rw [BitVec.toNat_or, hone, Builtins.Udivmoddi4.shr_toNat, jam, pow_one]
      congr 1
      split <;> omega
    have hexp : (s.exponent + 1#16).toInt = s.exponent.toInt + 1 :=
      toInt_add_of_small rfl rfl (by omega) (by omega)
    have hbound : 2 ^ 26 ≤ jam 1 s.significand.toNat ∧ jam 1 s.significand.toNat < 2 ^ 27 := by
      rw [jam_eq]
      split <;> omega
    rw [if_pos hc]
    refine ⟨⟨by rw [hjam]; exact hbound.1, by rw [hjam]; exact hbound.2, y / 2 ^ 1, ?_, ?_⟩,
      by rw [hexp]; omega⟩
    · rw [hjam]
      exact ((hy.mono (by norm_num : 1 ≤ 1 + 1)).divide.trans (SameSide.jam 1 _)).mono (by norm_num)
    · rw [hexp, hx]
      have hsucc : s.exponent.toInt + 1 - 1 = s.exponent.toInt - 1 + 1 := by omega
      rw [hsucc, zpow_add_one₀ two_ne_zero]
      ring
  · have h27 : ¬ 2 ^ 27 ≤ s.significand.toNat := fun h => hc (hset.2 h)
    rw [if_neg hc]
    exact ⟨⟨hlo, by omega, y, hy.mono (by norm_num), hx⟩, he'⟩

/-- A difference below `2 ^ 25` is exact, so that the shift loses nothing. -/
theorem cancelDifference_spec (hpos : 0 < s.significand.toNat) (hhi : s.significand.toNat < 2 ^ 27)
    (hy : SameSide 1 y s.significand.toNat)
    (hexact : s.significand.toNat < 2 ^ 25 → y = s.significand.toNat)
    (he : s.exponent.toInt ≤ 254) (he' : -22 ≤ s.exponent.toInt)
    (hx : x * 8 = y * (2 : ℚ) ^ (s.exponent.toInt - 1)) (hx1 : 1 ≤ x) :
    ∃ t, cancelDifference s = some t ∧ SumOf x t ∧ -22 ≤ t.exponent.toInt := by
  have hmask : (implicitBit <<< 3).toNat = 2 ^ 26 := rfl
  unfold cancelDifference
  by_cases hc : s.significand < implicitBit <<< 3
  · have h26 : s.significand.toNat < 2 ^ 26 := by rwa [BitVec.lt_def, hmask] at hc
    obtain ⟨c, d, n, hclz, hclz', hn, hn1, hn26, hshl, hlo, hup⟩ :=
      clz_shift hmask (by norm_num) hpos h26
    have hexp : (s.exponent - (c - d)).toInt = s.exponent.toInt - n :=
      toInt_sub_of_small rfl (toInt_of_small hn (by omega)) (by omega) (by omega)
    have hside : SameSide 2 (y * 2 ^ n) ((s.significand <<< n).toNat : ℚ) := by
      rw [hshl, Nat.cast_mul, Nat.cast_pow, Nat.cast_ofNat]
      by_cases h1 : n = 1
      · rw [h1]
        exact hy.scale 1
      · have h25 : s.significand.toNat < 2 ^ 25 := by
          have h4 : 2 ^ 2 ≤ 2 ^ n := Nat.pow_le_pow_right (by norm_num) (by omega)
          have hle : s.significand.toNat * 2 ^ 2 ≤ s.significand.toNat * 2 ^ n :=
            Nat.mul_le_mul_left _ h4
          omega
        rw [hexact h25]
        exact SameSide.refl 2 _
    have hscale : x * 8 = y * 2 ^ n * (2 : ℚ) ^ (s.exponent.toInt - n - 1) := by
      have hsplit : s.exponent.toInt - 1 = n + (s.exponent.toInt - n - 1) := by omega
      rw [hx, hsplit, zpow_add₀ two_ne_zero, zpow_natCast, mul_assoc]
    have hlow : -22 ≤ s.exponent.toInt - n := by
      by_contra hcon
      have hlt : y * 2 ^ n < 2 ^ 27 := by
        have h := (hside.lt (2 ^ 25)).2 (by
          push_cast
          exact_mod_cast (by omega : (s.significand <<< n).toNat < 2 ^ 25 * 2 ^ 2))
        push_cast at h
        linarith
      have hpow : (2 : ℚ) ^ (s.exponent.toInt - n - 1) ≤ 2 ^ (-24 : ℤ) :=
        zpow_le_zpow_right₀ (by norm_num) (by omega)
      have hmul : x * 8 < 2 ^ 27 * 2 ^ (-24 : ℤ) := by
        rw [hscale]
        exact mul_lt_mul hlt hpow (by positivity) (by positivity)
      norm_num at hmul
      linarith
    refine ⟨⟨s.exponent - (c - d), s.significand <<< n⟩, ?_, ⟨hlo, hup, y * 2 ^ n, hside, ?_⟩, ?_⟩
    · rw [if_pos hc, hclz, hclz']
      simp only [Option.bind_eq_bind, Option.bind_some]
      rw [shl_of_lt (by omega), hn]
      rfl
    · rw [hexp]
      exact hscale
    · rw [hexp]
      exact hlow
  · have h26 : ¬ s.significand.toNat < 2 ^ 26 := by rwa [BitVec.lt_def, hmask] at hc
    rw [if_neg hc]
    exact ⟨s, rfl, ⟨by omega, hhi, y, hy.mono (by norm_num), hx⟩, he'⟩

end Steps

end LlvmTms9900.Softfloat
