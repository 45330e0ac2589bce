import LlvmTms9900.Arith.BinaryGrid
import LlvmTms9900.Builtins.Udivmoddi4Words

/-!
# The single format (libtms9900/builtins/softfloat/fp_lib.h)

A `float` is its representation. `int` has 16 bits on this target; a shift by 32
or more and `clz` of zero have no result. Magnitudes are in units of the least
subnormal, `2 ^ -149`.
-/

namespace LlvmTms9900.Softfloat
open LlvmTms9900.Arith
open LlvmTms9900.Isa (Word)
open LlvmTms9900.Builtins.Udivmoddi4 (clzsi shl shr hi32 lo32)

abbrev Rep := BitVec 32

section Constants

def exponentBias : Word := 127#16
def maxExponent : Word := 255#16
def implicitBit : Rep := 1#32 <<< 23
def significandMask : Rep := implicitBit - 1#32
def signBit : Rep := 1#32 <<< 31
def absMask : Rep := signBit - 1#32
def infRep : Rep := absMask ^^^ significandMask
def quietBit : Rep := implicitBit >>> 1
def qnanRep : Rep := infRep ||| quietBit

/-- `rep >> significandBits & maxExponent` as an `int`. -/
def exponentField (a : Rep) : Word := (a >>> 23).setWidth 16 &&& maxExponent

def bit (p : Bool) : Rep := if p then 1#32 else 0#32

/-- The final rounding: `rest` are the lost bits, `half` is half a unit. -/
def roundNearest (half rest result : Rep) : Rep :=
  let result := if half < rest then result + 1#32 else result
  if rest = half then result + (result &&& 1#32) else result

end Constants

section Operands

/-- A significand and what the exponent field misses. -/
structure Operand where
  exponent : Word
  significand : Rep
  deriving DecidableEq, Repr

/-- `normalize` -/
def normalize (significand : Rep) : Option Operand := do
  let shift := (← clzsi significand) - (← clzsi implicitBit)
  return ⟨1#16 - shift, ← shl significand shift⟩

/-- An operand that is a subnormal is normalized. -/
def renormalize (a : Rep) : Option Operand :=
  if a &&& absMask < implicitBit then normalize (a &&& significandMask)
  else some ⟨0#16, a &&& significandMask⟩

end Operands

section Value

/-- The exponent and the fraction as one number. -/
def code (a : Rep) : ℕ := (a &&& absMask).toNat

def infCode : ℕ := 255 * 2 ^ 23

def IsNaN (a : Rep) : Prop := infCode < code a
def IsQuietNaN (a : Rep) : Prop := IsNaN a ∧ a &&& quietBit ≠ 0#32
def IsInf (a : Rep) : Prop := code a = infCode
def IsZero (a : Rep) : Prop := code a = 0
def Finite (a : Rep) : Prop := code a < infCode

instance (a : Rep) : Decidable (IsNaN a) := inferInstanceAs (Decidable (_ < _))
instance (a : Rep) : Decidable (IsQuietNaN a) := inferInstanceAs (Decidable (_ ∧ _))
instance (a : Rep) : Decidable (IsInf a) := inferInstanceAs (Decidable (_ = _))
instance (a : Rep) : Decidable (IsZero a) := inferInstanceAs (Decidable (_ = _))
instance (a : Rep) : Decidable (Finite a) := inferInstanceAs (Decidable (_ < _))

/-- The magnitude of a finite number in units of the least one. -/
def units (a : Rep) : ℚ := mag 23 (code a)

/-- The number that a finite representation stands for. -/
def value (a : Rep) : ℚ := (if a.msb then -1 else 1) * units a / 2 ^ 149

/-- The magnitudes of the single format. -/
def grid (k : ℕ) : ℚ := mag 23 k

/-- `z` is the number nearest to `x`, or an infinity where `x` is too large; `s`
is its sign. -/
structure Rounded (x : ℚ) (s : Bool) (z : Rep) : Prop where
  nearest : NearestEven grid infCode (|x| * 2 ^ 149) (code z)
  sign : z.msb = s

/-- The result of an operation: a NaN where it is not defined, an infinity where
it is one, else the exact number rounded. -/
structure Result (invalid infinite : Prop) (x : ℚ) (s : Bool) (z : Rep) : Prop where
  nan : invalid → IsQuietNaN z
  inf : ¬ invalid → infinite → IsInf z ∧ z.msb = s
  rounded : ¬ invalid → ¬ infinite → Rounded x s z

end Value

section Results
variable {invalid infinite : Prop} {x : ℚ} {s : Bool} {z : Rep}

theorem Result.of_nan (h : invalid) (hz : IsQuietNaN z) : Result invalid infinite x s z :=
  ⟨fun _ => hz, fun hn => absurd h hn, fun hn => absurd h hn⟩

theorem Result.of_inf (hn : ¬ invalid) (h : infinite) (hz : IsInf z ∧ z.msb = s) :
    Result invalid infinite x s z :=
  ⟨fun hi => absurd hi hn, fun _ _ => hz, fun _ hi => absurd h hi⟩

theorem Result.of_rounded (hn : ¬ invalid) (hi : ¬ infinite) (hz : Rounded x s z) :
    Result invalid infinite x s z :=
  ⟨fun h => absurd h hn, fun _ h => absurd h hi, fun _ _ => hz⟩

theorem not_isNaN_iff (a : Rep) : ¬ IsNaN a ↔ IsInf a ∨ Finite a := by
  unfold IsNaN IsInf Finite
  omega

theorem IsInf.not_isNaN {a : Rep} (h : IsInf a) : ¬ IsNaN a := by
  unfold IsNaN IsInf at *
  omega

theorem IsInf.not_isZero {a : Rep} (h : IsInf a) : ¬ IsZero a := by
  unfold IsZero IsInf infCode at *
  omega

theorem Finite.not_isNaN {a : Rep} (h : Finite a) : ¬ IsNaN a := by
  unfold IsNaN Finite at *
  omega

theorem Finite.not_isInf {a : Rep} (h : Finite a) : ¬ IsInf a := by
  unfold IsInf Finite at *
  omega

end Results

section Masks

theorem grid_strictMono : StrictMono grid := cast_mag_strictMono 23

theorem grid_zero : grid 0 = 0 := by rw [grid, mag_zero, Nat.cast_zero]

theorem code_eq (a : Rep) : code a = a.toNat % 2 ^ 31 := by
  have hmask : absMask.toNat = 2 ^ 31 - 1 := rfl
  rw [code, BitVec.toNat_and, hmask, Nat.and_two_pow_sub_one_eq_mod]

theorem fraction_toNat (a : Rep) : (a &&& significandMask).toNat = a.toNat % 2 ^ 23 := by
  have hmask : significandMask.toNat = 2 ^ 23 - 1 := rfl
  rw [BitVec.toNat_and, hmask, Nat.and_two_pow_sub_one_eq_mod]

theorem exponentField_toNat (a : Rep) : (exponentField a).toNat = code a / 2 ^ 23 := by
  have hmask : maxExponent.toNat = 2 ^ 8 - 1 := rfl
  have h := a.isLt
  rw [exponentField, BitVec.toNat_and, hmask, Nat.and_two_pow_sub_one_eq_mod,
    BitVec.toNat_setWidth, BitVec.toNat_ushiftRight, Nat.shiftRight_eq_div_pow, code_eq]
  omega

theorem msb_eq (a : Rep) : a.msb = decide (2 ^ 31 ≤ a.toNat) := BitVec.msb_eq_decide a

theorem toNat_eq (a : Rep) : a.toNat = (if a.msb then 2 ^ 31 else 0) + code a := by
  have h := a.isLt
  rw [code_eq, msb_eq]
  by_cases hs : 2 ^ 31 ≤ a.toNat
  · rw [decide_eq_true hs, if_pos rfl]
    omega
  · rw [decide_eq_false hs, if_neg Bool.false_ne_true]
    omega

theorem and_signBit_toNat (a : Rep) : (a &&& signBit).toNat = if a.msb then 2 ^ 31 else 0 := by
  have hmask : signBit.toNat = 2 ^ 31 := rfl
  have h := a.isLt
  rw [BitVec.toNat_and, hmask, Nat.and_two_pow, msb_eq, Nat.testBit_eq_decide_div_mod_eq]
  by_cases hs : 2 ^ 31 ≤ a.toNat
  · have hdiv : a.toNat / 2 ^ 31 % 2 = 1 := by omega
    rw [hdiv, decide_eq_true hs]
    rfl
  · have hdiv : a.toNat / 2 ^ 31 % 2 = 0 := by omega
    rw [hdiv, decide_eq_false hs]
    rfl

/-- The sign bit of an exclusive or is the sign of a product. -/
theorem sign_xor_toNat (a b : Rep) :
    ((a ^^^ b) &&& signBit).toNat = if a.msb ^^ b.msb then 2 ^ 31 else 0 := by
  rw [and_signBit_toNat, BitVec.msb_xor]

theorem infRep_toNat : infRep.toNat = infCode := rfl

theorem infRep_lt_iff (a : Rep) : infRep < a &&& absMask ↔ IsNaN a := BitVec.lt_def

theorem abs_eq_infRep_iff (a : Rep) : a &&& absMask = infRep ↔ IsInf a :=
  BitVec.toNat_inj.symm

theorem abs_eq_zero_iff (a : Rep) : a &&& absMask = 0#32 ↔ IsZero a :=
  BitVec.toNat_inj.symm

theorem abs_lt_implicitBit_iff (a : Rep) : a &&& absMask < implicitBit ↔ code a < 2 ^ 23 :=
  BitVec.lt_def

theorem isQuietNaN_or {a : Rep} (h : IsNaN a) : IsQuietNaN (a ||| quietBit) := by
  constructor
  · have hle : code a ≤ code (a ||| quietBit) := by
      rw [code, code, BitVec.and_or_distrib_right, BitVec.toNat_or]
      exact Nat.left_le_or
    exact lt_of_lt_of_le h hle
  · have hq : (a ||| quietBit) &&& quietBit = quietBit := by
      rw [BitVec.and_or_distrib_right]
      apply BitVec.eq_of_getLsbD_eq
      intro i hi
      simp only [BitVec.getLsbD_or, BitVec.getLsbD_and, Bool.and_self]
      cases a.getLsbD i <;> cases quietBit.getLsbD i <;> rfl
    rw [hq]
    decide

theorem isQuietNaN_qnanRep : IsQuietNaN qnanRep := by decide

/-- The test of the top bit of a bounded number. -/
theorem and_two_pow_ne_zero {x m : Rep} {i : ℕ} (hm : m.toNat = 2 ^ i)
    (hx : x.toNat < 2 ^ (i + 1)) : x &&& m ≠ 0#32 ↔ 2 ^ i ≤ x.toNat := by
  have hzero : x &&& m = 0#32 ↔ (x &&& m).toNat = 0 :=
    ⟨fun h => by rw [h]; rfl, fun h => BitVec.eq_of_toNat_eq h⟩
  have hpow : 2 ^ (i + 1) = 2 ^ i + 2 ^ i := by omega
  rw [Ne, hzero, BitVec.toNat_and, hm, Nat.and_two_pow, Nat.testBit_eq_decide_div_mod_eq]
  by_cases h : 2 ^ i ≤ x.toNat
  · have hdiv : x.toNat / 2 ^ i = 1 := Nat.div_eq_of_lt_le (by omega) (by omega)
    rw [hdiv]
    exact iff_of_true (by simp) h
  · rw [Nat.div_eq_of_lt (by omega)]
    exact iff_of_false (by simp) h

theorem xor_two_pow {m i : ℕ} (hm : m < 2 ^ i) : m ^^^ 2 ^ i = m + 2 ^ i := by
  have hadd := Nat.two_pow_add_eq_or_of_lt hm 1
  rw [Nat.mul_one] at hadd
  rw [Nat.add_comm, hadd]
  apply Nat.eq_of_testBit_eq
  intro j
  rw [Nat.testBit_xor, Nat.testBit_or, Nat.testBit_two_pow]
  by_cases hj : i = j
  · subst hj
    rw [Nat.testBit_lt_two_pow hm]
    simp
  · simp [hj]

theorem add_xor_two_pow {m i : ℕ} (hm : m < 2 ^ i) : (m + 2 ^ i) ^^^ 2 ^ i = m := by
  rw [← xor_two_pow hm, Nat.xor_assoc, Nat.xor_self, Nat.xor_zero]

/-- The implicit bit taken off. -/
theorem xor_implicitBit_toNat {s : Rep} (hlo : 2 ^ 23 ≤ s.toNat) (hhi : s.toNat < 2 ^ 24) :
    (s ^^^ implicitBit).toNat = s.toNat - 2 ^ 23 := by
  obtain ⟨t, ht⟩ : ∃ t, s.toNat = t + 2 ^ 23 := ⟨s.toNat - 2 ^ 23, by omega⟩
  have himp : implicitBit.toNat = 2 ^ 23 := rfl
  rw [BitVec.toNat_xor, himp, ht, add_xor_two_pow (by omega)]
  omega

/-- A sign and a magnitude. -/
structure Packed (s : Bool) (r : ℕ) (z : Rep) : Prop where
  lt : r < 2 ^ 31
  toNat : z.toNat = (if s then 2 ^ 31 else 0) + r

theorem Packed.code {s : Bool} {r : ℕ} {z : Rep} (h : Packed s r z) : code z = r := by
  have hlt := h.lt
  rw [code_eq, h.toNat]
  cases s
  · simp only [Bool.false_eq_true, if_false]
    omega
  · simp only [if_true]
    omega

theorem Packed.msb {s : Bool} {r : ℕ} {z : Rep} (h : Packed s r z) : z.msb = s := by
  have hlt := h.lt
  rw [msb_eq, h.toNat]
  cases s
  · exact decide_eq_false (by simp only [Bool.false_eq_true, if_false]; omega)
  · exact decide_eq_true (by simp only [if_true]; omega)

theorem packed_self (a : Rep) : Packed a.msb (Softfloat.code a) a := by
  refine ⟨?_, toNat_eq a⟩
  rw [code_eq]
  omega

theorem Packed.or {m sign : Rep} {s : Bool} (hm : m.toNat < 2 ^ 31)
    (hs : sign.toNat = if s then 2 ^ 31 else 0) : Packed s m.toNat (m ||| sign) := by
  refine ⟨hm, ?_⟩
  rw [BitVec.toNat_or, hs, Nat.or_comm]
  cases s
  · simp
  · have h := Nat.two_pow_add_eq_or_of_lt hm 1
    rw [Nat.mul_one] at h
    rw [if_pos rfl, h]

theorem Packed.add {s : Bool} {r n : ℕ} {z d : Rep} (h : Packed s r z) (hd : d.toNat = n)
    (hlt : r + n < 2 ^ 31) : Packed s (r + n) (z + d) := by
  refine ⟨hlt, ?_⟩
  rw [BitVec.toNat_add, h.toNat, hd]
  cases s
  · rw [if_neg Bool.false_ne_true]
    omega
  · rw [if_pos rfl]
    omega

theorem Packed.and_one {s : Bool} {r : ℕ} {z : Rep} (h : Packed s r z) :
    (z &&& 1#32).toNat = r % 2 := by
  have hmask : (1#32).toNat = 2 ^ 1 - 1 := rfl
  rw [BitVec.toNat_and, hmask, Nat.and_two_pow_sub_one_eq_mod, h.toNat]
  cases s
  · rw [if_neg Bool.false_ne_true, Nat.zero_add, pow_one]
  · rw [if_pos rfl]
    omega

/-- A carry out of the fraction goes into the exponent. -/
theorem Packed.roundNearest {s : Bool} {r : ℕ} {z half rest : Rep} (h : Packed s r z)
    (hr : r + 1 < 2 ^ 31) :
    Packed s (r + roundUp half.toNat rest.toNat r) (Softfloat.roundNearest half rest z) := by
  unfold Softfloat.roundNearest roundUp
  have hiff : half < rest ↔ half.toNat < rest.toNat := BitVec.lt_def
  by_cases hlt : half < rest
  · have hne : rest ≠ half := by
      rintro rfl
      exact lt_irrefl _ (hiff.1 hlt)
    rw [if_pos hlt, if_pos (hiff.1 hlt), if_neg hne]
    exact h.add rfl hr
  · rw [if_neg hlt, if_neg (fun h => hlt (hiff.2 h))]
    by_cases heq : rest = half
    · rw [if_pos heq, if_pos (congrArg BitVec.toNat heq)]
      exact h.add h.and_one (by omega)
    · rw [if_neg heq, if_neg fun he => heq (BitVec.eq_of_toNat_eq he)]
      exact h

theorem Packed.isInf {s : Bool} {z : Rep} (h : Packed s infCode z) : IsInf z ∧ z.msb = s :=
  ⟨h.code, h.msb⟩

theorem isInf_or_sign {sign : Rep} {s : Bool} (hs : sign.toNat = if s then 2 ^ 31 else 0) :
    IsInf (infRep ||| sign) ∧ (infRep ||| sign).msb = s := by
  have hp := Packed.or (m := infRep) (by rw [infRep_toNat]; decide) hs
  rw [infRep_toNat] at hp
  exact hp.isInf

theorem Packed.rounded {x : ℚ} {s : Bool} {r : ℕ} {z : Rep} (h : Packed s r z)
    (hr : NearestEven grid infCode (|x| * 2 ^ 149) r) : Rounded x s z :=
  ⟨h.code.symm ▸ hr, h.msb⟩

/-- The bits that a right shift loses come out of a left shift. -/
theorem shl_ne_zero_iff {x : Rep} {k : ℕ} (hk : k ≤ 32) :
    x <<< (32 - k) ≠ 0#32 ↔ x.toNat % 2 ^ k ≠ 0 := by
  have hval := Builtins.Udivmoddi4.shl_toNat (i := 32 - k) (by omega) x
  rw [Nat.sub_sub_self hk] at hval
  have hzero : x <<< (32 - k) = 0#32 ↔ (x <<< (32 - k)).toNat = 0 :=
    ⟨fun h => by rw [h]; rfl, fun h => BitVec.eq_of_toNat_eq h⟩
  rw [Ne, hzero, hval, Nat.mul_eq_zero, or_iff_left (Nat.two_pow_pos _).ne']

theorem sticky_eq (x : Rep) {k : ℕ} (hk : k ≤ 32) :
    (if (x <<< (32 - k) != 0#32) then 1 else 0) = if x.toNat % 2 ^ k = 0 then 0 else 1 := by
  have hiff := shl_ne_zero_iff (x := x) hk
  by_cases h : x.toNat % 2 ^ k = 0
  · have hz : x <<< (32 - k) = 0#32 := not_not.1 fun hne => hiff.1 hne h
    rw [hz, if_pos h]
    rfl
  · rw [if_neg h, if_pos (bne_iff_ne.2 (hiff.2 h))]

theorem toNat_or_bit (x : Rep) (p : Bool) :
    (x ||| bit p).toNat = x.toNat ||| if p then 1 else 0 := by
  rw [BitVec.toNat_or]
  cases p <;> rfl

/-- A word shifted right; the last bit keeps what is lost. -/
theorem shr_or_bit_toNat (x : Rep) {k : ℕ} (hk : k ≤ 32) :
    (x >>> k ||| bit (x <<< (32 - k) != 0#32)).toNat = jam k x.toNat := by
  rw [toNat_or_bit, sticky_eq x hk, Builtins.Udivmoddi4.shr_toNat, jam]

theorem units_eq_zero_iff (a : Rep) : units a = 0 ↔ IsZero a := by
  have h := (mag_strictMono 23).injective.eq_iff (a := code a) (b := 0)
  rw [mag_zero] at h
  rw [units, Nat.cast_eq_zero, h, IsZero]

theorem units_nonneg (a : Rep) : 0 ≤ units a := Nat.cast_nonneg _

theorem units_pos {a : Rep} (h : ¬ IsZero a) : 0 < units a :=
  lt_of_le_of_ne (units_nonneg a) fun he => h ((units_eq_zero_iff a).1 he.symm)

theorem units_le_iff {a b : Rep} : units a ≤ units b ↔ code a ≤ code b := by
  rw [units, units, Nat.cast_le, (mag_strictMono 23).le_iff_le]

theorem abs_value (a : Rep) : |value a| = units a / 2 ^ 149 := by
  rw [value, abs_div, abs_mul, abs_of_nonneg (units_nonneg a)]
  split <;> norm_num

theorem value_eq_zero {a : Rep} (h : IsZero a) : value a = 0 := by
  rw [value, (units_eq_zero_iff a).2 h, mul_zero, zero_div]

theorem rounded_zero {sign : Rep} {s : Bool} (hs : sign.toNat = if s then 2 ^ 31 else 0) :
    Rounded 0 s sign := by
  have hp : Packed s 0 sign := ⟨by norm_num, by rw [hs]; rfl⟩
  refine hp.rounded ?_
  have h := NearestEven.exact grid_strictMono (Nat.zero_le infCode)
  rwa [grid_zero, ← zero_mul ((2 : ℚ) ^ 149), ← abs_zero] at h

theorem grid_infCode : grid infCode = 2 ^ 23 * 2 ^ 254 := by
  have h := mag_binade (p := 23) (e := 254) (s := 2 ^ 23) (by norm_num) (.inl le_rfl)
  have hcode : infCode = 254 * 2 ^ 23 + 2 ^ 23 := by decide
  rw [grid, hcode, h]
  norm_num

end Masks

section Unpack

theorem toInt_add_of_small {x y : Word} {i j : ℤ} (hx : x.toInt = i) (hy : y.toInt = j)
    (hlo : -2 ^ 15 ≤ i + j) (hhi : i + j < 2 ^ 15) : (x + y).toInt = i + j := by
  rw [BitVec.toInt_add, hx, hy]
  exact Int.bmod_eq_of_le (by omega) (by omega)

theorem toInt_sub_of_small {x y : Word} {i j : ℤ} (hx : x.toInt = i) (hy : y.toInt = j)
    (hlo : -2 ^ 15 ≤ i - j) (hhi : i - j < 2 ^ 15) : (x - y).toInt = i - j := by
  rw [BitVec.toInt_sub, hx, hy]
  exact Int.bmod_eq_of_le (by omega) (by omega)

theorem toInt_of_small {x : Word} {n : ℕ} (hx : x.toNat = n) (hn : n < 2 ^ 15) :
    x.toInt = n := by
  rw [BitVec.toInt_eq_toNat_of_lt (by omega), hx]

/-- The significand with its implicit bit and the exponent of a number that is not zero. -/
structure Unpacked (a sig : Rep) (exponent : Word) : Prop where
  low : 2 ^ 23 ≤ sig.toNat
  high : sig.toNat < 2 ^ 24
  exponentLow : -22 ≤ exponent.toInt
  exponentHigh : exponent.toInt ≤ 254
  units : Softfloat.units a = (sig.toNat : ℚ) * (2 : ℚ) ^ (exponent.toInt - 1)

/-- The counts of leading zeros of a number and of the bit `2 ^ i` give the shift
that brings the top bit of the number there. -/
theorem clz_shift {s m : Rep} {i : ℕ} (hm : m.toNat = 2 ^ i) (hi : i < 31) (hpos : 0 < s.toNat)
    (hlt : s.toNat < 2 ^ i) :
    ∃ c d, ∃ n : ℕ, clzsi s = some c ∧ clzsi m = some d ∧ (c - d).toNat = n ∧ 1 ≤ n ∧ n ≤ i ∧
      (s <<< n).toNat = s.toNat * 2 ^ n ∧ 2 ^ i ≤ (s <<< n).toNat ∧
      (s <<< n).toNat < 2 ^ (i + 1) := by
  have hne : s ≠ 0#32 := by
    rintro rfl
    exact absurd hpos (lt_irrefl 0)
  have hne' : m ≠ 0#32 := by
    rintro rfl
    exact absurd hm (Nat.two_pow_pos i).ne
  obtain ⟨c, hc, hclz, hlow, hhigh⟩ := Builtins.Udivmoddi4.clzsi_spec hne
  obtain ⟨d, hd, hclz', hlow', hhigh'⟩ := Builtins.Udivmoddi4.clzsi_spec hne'
  rw [hm] at hlow' hhigh'
  have h1 : 31 - d ≤ i := (Nat.pow_le_pow_iff_right (by norm_num)).1 hlow'
  have h2 : i < 32 - d := (Nat.pow_lt_pow_iff_right (by norm_num)).1 hhigh'
  have h3 : 31 - c < i := (Nat.pow_lt_pow_iff_right (by norm_num)).1 (hlow.trans_lt hlt)
  obtain ⟨n, hn⟩ : ∃ n, c = d + n := ⟨c - d, by omega⟩
  have hup : s.toNat * 2 ^ n < 2 ^ (i + 1) := by
    have hpow : 2 ^ (i + 1) = 2 ^ (32 - c) * 2 ^ n := by
      rw [← pow_add]
      congr 1
      omega
    rw [hpow]
    exact Nat.mul_lt_mul_of_pos_right hhigh (Nat.two_pow_pos n)
  have hdown : 2 ^ i ≤ s.toNat * 2 ^ n := by
    have hpow : 2 ^ i = 2 ^ (31 - c) * 2 ^ n := by
      rw [← pow_add]
      congr 1
      omega
    rw [hpow]
    exact Nat.mul_le_mul_right _ hlow
  have hshl : (s <<< n).toNat = s.toNat * 2 ^ n := by
    have hle : 2 ^ (i + 1) ≤ 2 ^ 32 := Nat.pow_le_pow_right (by norm_num) (by omega)
    rw [BitVec.toNat_shiftLeft, Nat.shiftLeft_eq]
    exact Nat.mod_eq_of_lt (by omega)
  refine ⟨BitVec.ofNat 16 c, BitVec.ofNat 16 d, n, hclz, hclz', ?_, by omega, by omega, hshl,
    hshl ▸ hdown, hshl ▸ hup⟩
  rw [BitVec.toNat_sub, BitVec.toNat_ofNat, BitVec.toNat_ofNat]
  omega

/-- A subnormal is shifted up to the implicit bit. -/
theorem normalize_spec {s : Rep} (hpos : 0 < s.toNat) (hlt : s.toNat < 2 ^ 23) :
    ∃ o, ∃ n : ℕ, normalize s = some o ∧ 1 ≤ n ∧ n ≤ 23 ∧ o.exponent.toInt = 1 - (n : ℤ) ∧
      o.significand.toNat = s.toNat * 2 ^ n ∧ 2 ^ 23 ≤ o.significand.toNat ∧
      o.significand.toNat < 2 ^ 24 := by
  obtain ⟨c, d, n, hc, hd, hn, hn1, hn23, hshl, hlo, hhi⟩ :=
    clz_shift (m := implicitBit) rfl (by norm_num) hpos hlt
  refine ⟨⟨1#16 - (c - d), s <<< n⟩, n, ?_, hn1, hn23, ?_, hshl, hlo, hhi⟩
  · rw [normalize, hc, hd]
    simp only [Option.bind_eq_bind, Option.bind_some]
    rw [Builtins.Udivmoddi4.shl_of_lt (by omega), hn]
    rfl
  · exact toInt_sub_of_small (x := 1#16) (i := 1) rfl (toInt_of_small hn (by omega)) (by omega)
      (by omega)

theorem or_implicitBit_toNat {s : Rep} (h : s.toNat < 2 ^ 23) :
    (s ||| implicitBit).toNat = 2 ^ 23 + s.toNat := by
  have hor := Nat.two_pow_add_eq_or_of_lt h 1
  have hmask : implicitBit.toNat = 2 ^ 23 := rfl
  rw [Nat.mul_one] at hor
  rw [BitVec.toNat_or, hmask, Nat.or_comm, hor]

theorem or_implicitBit_of_set {s : Rep} (hlo : 2 ^ 23 ≤ s.toNat) (hhi : s.toNat < 2 ^ 24) :
    s ||| implicitBit = s := by
  apply BitVec.eq_of_toNat_eq
  obtain ⟨t, ht⟩ : ∃ t, s.toNat = 2 ^ 23 + t := ⟨s.toNat - 2 ^ 23, by omega⟩
  have hor := Nat.two_pow_add_eq_or_of_lt (i := 23) (b := t) (by omega) 1
  rw [Nat.mul_one] at hor
  have hmask : implicitBit.toNat = 2 ^ 23 := rfl
  rw [BitVec.toNat_or, hmask, ht, hor, Nat.or_comm, ← Nat.or_assoc, Nat.or_self]

theorem units_normal {a : Rep} (hn : 2 ^ 23 ≤ code a) :
    units a = ((2 ^ 23 + a.toNat % 2 ^ 23 : ℕ) : ℚ) * 2 ^ (((code a / 2 ^ 23 : ℕ) : ℤ) - 1) := by
  have hq : 1 ≤ code a / 2 ^ 23 := by omega
  have hmod : code a % 2 ^ 23 = a.toNat % 2 ^ 23 := by
    rw [code_eq]
    omega
  rw [units, mag, if_neg (by omega), hmod]
  push_cast
  rw [← zpow_natCast]
  congr 2
  omega

/-- The exponent field tells a normal number. -/
theorem normal_iff (a : Rep) :
    ¬ maxExponent - 1#16 ≤ exponentField a - 1#16 ↔ 2 ^ 23 ≤ code a ∧ Finite a := by
  have hfield := exponentField_toNat a
  have hcode : code a < 2 ^ 31 := (packed_self a).lt
  have hmax : (maxExponent - 1#16).toNat = 254 := rfl
  have hone : (1#16).toNat = 1 := rfl
  rw [BitVec.le_def, hmax, BitVec.toNat_sub, hone, hfield, Finite, infCode]
  omega

theorem renormalize_of_normal {a : Rep} (h : 2 ^ 23 ≤ code a) :
    renormalize a = some ⟨0#16, a &&& significandMask⟩ :=
  if_neg fun hlt => absurd ((abs_lt_implicitBit_iff a).1 hlt) (by omega)

/-- Every finite number other than zero is unpacked. -/
theorem renormalize_spec {a : Rep} (h0 : ¬ IsZero a) (hf : Finite a) :
    ∃ o, renormalize a = some o ∧
      Unpacked a (o.significand ||| implicitBit) (exponentField a + o.exponent) := by
  have hfield := exponentField_toNat a
  unfold IsZero at h0
  unfold Finite infCode at hf
  have hfrac := fraction_toNat a
  by_cases hn : code a < 2 ^ 23
  · have hfc : a.toNat % 2 ^ 23 = code a := by
      rw [code_eq] at hn ⊢
      omega
    obtain ⟨o, n, ho, hn1, hn23, he, hs, hlo, hhi⟩ :=
      normalize_spec (s := a &&& significandMask) (by omega) (by omega)
    have hsum : (exponentField a + o.exponent).toInt = 1 - (n : ℤ) := by
      have h := toInt_add_of_small (toInt_of_small hfield (by omega)) he (by omega) (by omega)
      rw [h]
      omega
    refine ⟨o, by rw [renormalize, if_pos ((abs_lt_implicitBit_iff a).2 hn), ho], ?_⟩
    rw [or_implicitBit_of_set (by omega) (by omega)]
    refine ⟨by omega, by omega, by omega, by omega, ?_⟩
    rw [hsum, hs, hfrac, hfc, units, mag_of_le (by omega)]
    push_cast
    rw [mul_assoc, ← zpow_natCast, ← zpow_add₀ two_ne_zero]
    simp
  · have hsum : (exponentField a + 0#16).toInt = (code a / 2 ^ 23 : ℕ) := by
      rw [BitVec.add_zero]
      exact toInt_of_small hfield (by omega)
    have hsig := or_implicitBit_toNat (s := a &&& significandMask) (by omega)
    refine ⟨⟨0#16, a &&& significandMask⟩, renormalize_of_normal (by omega), ?_⟩
    change Unpacked a (a &&& significandMask ||| implicitBit) (exponentField a + 0#16)
    refine ⟨by omega, by omega, by omega, by omega, ?_⟩
    rw [hsum, hsig, hfrac]
    exact units_normal (by omega)

end Unpack

section Exponent
variable {e : ℤ} {pe : Word}

theorem sle_maxExponent (he : pe.toInt = e) : maxExponent.sle pe = decide (255 ≤ e) := by
  rw [BitVec.sle_eq_decide, he]
  rfl

theorem sle_zero (he : pe.toInt = e) : pe.sle 0#16 = decide (e ≤ 0) := by
  rw [BitVec.sle_eq_decide, he]
  rfl

/-- The exponent in its field, the implicit bit of the significand taken off. -/
theorem insertExponent_toNat {sig : Rep} (he : pe.toInt = e) (hlo : 0 ≤ e) (hhi : e ≤ 254) :
    ((sig &&& significandMask) ||| (pe.signExtend 32 <<< 23)).toNat =
      e.toNat * 2 ^ 23 + sig.toNat % 2 ^ 23 := by
  have hlt := pe.isLt
  have hpe : pe.toNat = e.toNat := by
    rw [BitVec.toInt_eq_toNat_cond] at he
    split at he <;> omega
  have hmsb : pe.msb = false := by
    rw [BitVec.msb_eq_decide]
    exact decide_eq_false (by omega)
  have hfrac := fraction_toNat sig
  rw [BitVec.or_comm, Builtins.Udivmoddi4.shl_or_toNat (by norm_num) _ (by omega),
    BitVec.signExtend_eq_setWidth_of_msb_false hmsb, BitVec.toNat_setWidth, hfrac, hpe]
  omega

end Exponent

end LlvmTms9900.Softfloat
