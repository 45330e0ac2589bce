import LlvmTms9900.Arith.RestoringDivision
import LlvmTms9900.Builtins.Udivmoddi4

/-!
# The word operations of the 64-bit division

What the checked shifts, the bit counts and the halves of a 64-bit value are
as numbers.
-/

namespace LlvmTms9900.Builtins.Udivmoddi4
open LlvmTms9900.Isa (Word)

/-- The value of a pair of words. -/
def value (hi lo : Long) : ℕ := hi.toNat * 2 ^ 32 + lo.toNat

theorem hi32_toNat (x : LongLong) : (hi32 x).toNat = x.toNat / 2 ^ 32 := by
  have h := x.isLt
  simp only [hi32, BitVec.toNat_setWidth, BitVec.toNat_ushiftRight, Nat.shiftRight_eq_div_pow]
  omega

theorem lo32_toNat (x : LongLong) : (lo32 x).toNat = x.toNat % 2 ^ 32 := by
  simp only [lo32, BitVec.toNat_setWidth]

theorem value_halves (x : LongLong) : value (hi32 x) (lo32 x) = x.toNat := by
  rw [value, hi32_toNat, lo32_toNat]
  omega

theorem setWidth_toNat (x : Long) : (x.setWidth 64).toNat = x.toNat := by
  have h := x.isLt
  rw [BitVec.toNat_setWidth]
  omega

theorem make64_toNat (hi lo : Long) : (make64 hi lo).toNat = value hi lo := by
  have h1 := hi.isLt
  have h2 := lo.isLt
  have hshift : (hi.setWidth 64 <<< 32).toNat = hi.toNat <<< 32 := by
    rw [BitVec.toNat_shiftLeft, setWidth_toNat, Nat.shiftLeft_eq]
    omega
  rw [make64, BitVec.toNat_or, hshift, setWidth_toNat,
    ← Nat.shiftLeft_add_eq_or_of_lt h2, Nat.shiftLeft_eq, value]

/-- A word shifted left by `i`, with other bits in the place it leaves. -/
theorem shl_or_toNat {i : ℕ} (hi : i ≤ 32) (x : Long) {y : Long} (hy : y.toNat < 2 ^ i) :
    (x <<< i ||| y).toNat = x.toNat % 2 ^ (32 - i) * 2 ^ i + y.toNat := by
  have h32 : 2 ^ 32 = 2 ^ (32 - i) * 2 ^ i := by rw [← pow_add, Nat.sub_add_cancel hi]
  have hshift : (x <<< i).toNat = (x.toNat % 2 ^ (32 - i)) <<< i := by
    rw [BitVec.toNat_shiftLeft, Nat.shiftLeft_eq, Nat.shiftLeft_eq, h32, Nat.mul_mod_mul_right]
  rw [BitVec.toNat_or, hshift, ← Nat.shiftLeft_add_eq_or_of_lt hy, Nat.shiftLeft_eq]

theorem shl_toNat {i : ℕ} (hi : i ≤ 32) (x : Long) :
    (x <<< i).toNat = x.toNat % 2 ^ (32 - i) * 2 ^ i := by
  have h := shl_or_toNat hi x (y := 0#32) (by simp)
  simpa using h

theorem shr_toNat (x : Long) (i : ℕ) : (x >>> i).toNat = x.toNat / 2 ^ i := by
  rw [BitVec.toNat_ushiftRight, Nat.shiftRight_eq_div_pow]

section Shifts
variable {w : ℕ} {x : Long} {n : BitVec w}

@[simp] theorem shl_of_lt (h : n.toNat < 32) : shl x n = some (x <<< n.toNat) := if_pos h
@[simp] theorem shr_of_lt (h : n.toNat < 32) : shr x n = some (x >>> n.toNat) := if_pos h

end Shifts

/-- The leading zeros of a word bound it from both sides. -/
theorem clzsi_spec {a : Long} (ha : a ≠ 0#32) :
    ∃ c, c < 32 ∧ clzsi a = some (BitVec.ofNat 16 c) ∧ 2 ^ (31 - c) ≤ a.toNat ∧
      a.toNat < 2 ^ (32 - c) := by
  have hlt : a.clz.toNat < 32 := by
    have h := BitVec.clz_lt_iff_ne_zero.2 ha
    rw [BitVec.lt_def] at h
    simpa using h
  refine ⟨a.clz.toNat, hlt, by rw [clzsi, if_neg ha], ?_, ?_⟩
  · exact BitVec.two_pow_sub_clz_le_toNat_of_ne_zero (by norm_num) ha
  · exact BitVec.toNat_lt_two_pow_sub_clz

/-- `a & (a - 1) == 0` says that `a` is a power of two. -/
theorem power_of_two {a : Long} (ha : a ≠ 0#32) (h : a &&& (a - 1#32) = 0#32) :
    ∃ k, k < 32 ∧ a.toNat = 2 ^ k := by
  have hpos : a.toNat ≠ 0 := by bv_omega
  have hlt := a.isLt
  have hsub : (a - 1#32).toNat = a.toNat - 1 := by bv_omega
  have hle : 2 ^ Nat.log2 a.toNat ≤ a.toNat := Nat.log2_self_le hpos
  have hup : a.toNat < 2 ^ (Nat.log2 a.toNat + 1) := Nat.lt_log2_self
  have hk : Nat.log2 a.toNat < 32 := (Nat.log2_lt hpos).2 hlt
  refine ⟨Nat.log2 a.toNat, hk, ?_⟩
  by_contra hne
  -- otherwise the top bits of `a` and of `a - 1` are the same
  have htop : ∀ v, 2 ^ Nat.log2 a.toNat ≤ v → v < 2 ^ (Nat.log2 a.toNat + 1) →
      v.testBit (Nat.log2 a.toNat) = true := by
    intro v h1 h2
    have hdiv : v / 2 ^ Nat.log2 a.toNat = 1 := by
      rw [pow_succ] at h2
      exact Nat.div_eq_of_lt_le (by omega) (by omega)
    rw [Nat.testBit_eq_decide_div_mod_eq, hdiv]
    rfl
  have hbit : (a &&& (a - 1#32)).toNat.testBit (Nat.log2 a.toNat) = true := by
    rw [BitVec.toNat_and, Nat.testBit_and, hsub, htop _ hle hup,
      htop _ (by omega) (by omega), Bool.and_self]
  rw [h] at hbit
  simp at hbit

theorem ctzsi_power {a : Long} {k : ℕ} (ha : a.toNat = 2 ^ k) :
    ctzsi a = some (BitVec.ofNat 16 k) := by
  have hne : a ≠ 0#32 := by
    intro h
    have hpos : 0 < 2 ^ k := by positivity
    rw [h, BitVec.toNat_ofNat, Nat.zero_mod] at ha
    omega
  have hbit : a.getLsbD a.ctz.toNat = true := BitVec.getLsbD_true_ctz_of_ne_zero hne
  rw [BitVec.getLsbD, ha, Nat.testBit_two_pow] at hbit
  rw [ctzsi, if_neg hne, ← of_decide_eq_true hbit]

/-- `x & (2^k - 1)`. -/
theorem mask_toNat {a x : Long} {k : ℕ} (ha : a.toNat = 2 ^ k) :
    (x &&& (a - 1#32)).toNat = x.toNat % 2 ^ k := by
  have hpos : 0 < 2 ^ k := by positivity
  have hsub : (a - 1#32).toNat = 2 ^ k - 1 := by bv_omega
  rw [BitVec.toNat_and, hsub, Nat.and_two_pow_sub_one_eq_mod]

def Loop.rem (s : Loop) : ℕ := value s.r_hi s.r_lo
def Loop.quo (s : Loop) : ℕ := value s.q_hi s.q_lo

theorem carry_word (x : Long) : (x >>> 31).toNat < 2 ^ 1 := by
  have h := x.isLt
  rw [shr_toNat]
  omega

/-- Two words shifted left by one, with a bit coming in. -/
theorem value_shift (hi lo c : Long) (hc : c.toNat < 2 ^ 1) :
    value (hi <<< 1 ||| lo >>> 31) (lo <<< 1 ||| c) = 2 * value hi lo % 2 ^ 64 + c.toNat := by
  have h1 := hi.isLt
  have h2 := lo.isLt
  rw [value, value, shl_or_toNat (by norm_num) hi (carry_word lo), shl_or_toNat (by norm_num) lo hc,
    shr_toNat]
  omega

theorem value_top (hi lo : Long) : value hi lo / 2 ^ 63 = (hi >>> 31).toNat := by
  have h2 := lo.isLt
  rw [shr_toNat, value]
  omega

/-- The comparison by words. -/
theorem value_le_iff (r_hi r_lo d_hi d_lo : Long) :
    (d_hi < r_hi ∨ r_hi = d_hi ∧ d_lo ≤ r_lo) ↔ value d_hi d_lo ≤ value r_hi r_lo := by
  have h1 := r_hi.isLt
  have h2 := r_lo.isLt
  have h3 := d_hi.isLt
  have h4 := d_lo.isLt
  unfold value
  rw [BitVec.lt_def, BitVec.le_def, ← BitVec.toNat_inj]
  omega

/-- The subtraction with a borrow between the words. -/
theorem value_sub (r_hi r_lo d_hi d_lo : Long) (h : value d_hi d_lo ≤ value r_hi r_lo) :
    value (r_hi - d_hi - (if r_lo < r_lo - d_lo then 1#32 else 0#32)) (r_lo - d_lo) =
      value r_hi r_lo - value d_hi d_lo := by
  have h1 := r_hi.isLt
  have h2 := r_lo.isLt
  have h3 := d_hi.isLt
  have h4 := d_lo.isLt
  have hlo : r_lo < r_lo - d_lo ↔ r_lo.toNat < d_lo.toNat := by
    rw [BitVec.lt_def, BitVec.toNat_sub]
    omega
  unfold value at *
  rw [BitVec.toNat_sub, BitVec.toNat_sub, BitVec.toNat_sub]
  by_cases hb : r_lo.toNat < d_lo.toNat
  · rw [if_pos (hlo.2 hb)]
    simp only [BitVec.toNat_ofNat]
    omega
  · rw [if_neg fun hn => hb (hlo.1 hn)]
    simp only [BitVec.toNat_ofNat]
    omega

/-- The iteration with its shifts carried out. -/
theorem body_eq (d_hi d_lo : Long) (s : Loop) :
    body d_hi d_lo s =
      if d_hi < (s.r_hi <<< 1 ||| s.r_lo >>> 31) ∨
          (s.r_hi <<< 1 ||| s.r_lo >>> 31) = d_hi ∧ d_lo ≤ (s.r_lo <<< 1 ||| s.q_hi >>> 31) then
        some ⟨(s.r_hi <<< 1 ||| s.r_lo >>> 31) - d_hi -
            (if (s.r_lo <<< 1 ||| s.q_hi >>> 31) < (s.r_lo <<< 1 ||| s.q_hi >>> 31) - d_lo then 1#32
              else 0#32),
          (s.r_lo <<< 1 ||| s.q_hi >>> 31) - d_lo, s.q_hi <<< 1 ||| s.q_lo >>> 31,
          s.q_lo <<< 1 ||| s.carry, 1#32⟩
      else
        some ⟨s.r_hi <<< 1 ||| s.r_lo >>> 31, s.r_lo <<< 1 ||| s.q_hi >>> 31,
          s.q_hi <<< 1 ||| s.q_lo >>> 31, s.q_lo <<< 1 ||| s.carry, 0#32⟩ := rfl

/-- One iteration as arithmetic on the 64-bit values. -/
theorem body_value (d_hi d_lo : Long) {s : Loop} (hc : s.carry.toNat < 2)
    (hlost : 2 * s.rem + s.quo / 2 ^ 63 < 2 ^ 64) :
    ∃ t, body d_hi d_lo s = some t ∧
      t.rem = (if 2 * s.rem + s.quo / 2 ^ 63 < value d_hi d_lo then 2 * s.rem + s.quo / 2 ^ 63
        else 2 * s.rem + s.quo / 2 ^ 63 - value d_hi d_lo) ∧
      t.quo = 2 * s.quo % 2 ^ 64 + s.carry.toNat ∧
      t.carry.toNat = if 2 * s.rem + s.quo / 2 ^ 63 < value d_hi d_lo then 0 else 1 := by
  have hrem := value_shift s.r_hi s.r_lo (s.q_hi >>> 31) (carry_word s.q_hi)
  have hquo := value_shift s.q_hi s.q_lo s.carry hc
  have htrial : value (s.r_hi <<< 1 ||| s.r_lo >>> 31) (s.r_lo <<< 1 ||| s.q_hi >>> 31) =
      2 * s.rem + s.quo / 2 ^ 63 := by
    rw [hrem, Loop.quo, value_top, Loop.rem]
    rw [Loop.rem, Loop.quo, value_top] at hlost
    omega
  have hle := value_le_iff (s.r_hi <<< 1 ||| s.r_lo >>> 31) (s.r_lo <<< 1 ||| s.q_hi >>> 31)
    d_hi d_lo
  rw [htrial] at hle
  rw [body_eq]
  by_cases hlt : 2 * s.rem + s.quo / 2 ^ 63 < value d_hi d_lo
  · rw [if_neg (mt hle.1 (Nat.not_le_of_lt hlt))]
    simp only [if_pos hlt]
    exact ⟨_, rfl, htrial, hquo, rfl⟩
  · have hsub := value_sub (s.r_hi <<< 1 ||| s.r_lo >>> 31) (s.r_lo <<< 1 ||| s.q_hi >>> 31)
      d_hi d_lo (by rw [htrial]; exact Nat.le_of_not_lt hlt)
    rw [htrial] at hsub
    rw [if_pos (hle.2 (Nat.le_of_not_lt hlt))]
    simp only [if_neg hlt]
    exact ⟨_, rfl, hsub, hquo, rfl⟩

/-! ## The routine behind the count (libtms9900/builtins/softfloat/clzsi2.c) -/

/-- `t = ((x & mask) == 0) * k; x >>= k - t; r += t;` on `x` and `r`. -/
def clzStep (k : ℕ) (mask : Long) (s : Long × Long) : Long × Long :=
  let t := if s.1 &&& mask = 0#32 then k else 0
  (s.1 >>> (k - t), s.2 + BitVec.ofNat 32 t)

/-- `__clzsi2`. -/
def clzsi2 (a : Long) : Long :=
  let (x, r) := clzStep 2 0xC#32 (clzStep 4 0xF0#32 (clzStep 8 0xFF00#32
    (clzStep 16 0xFFFF0000#32 (a, 0#32))))
  r + ((2#32 - x) &&& if x &&& 2#32 = 0#32 then -1#32 else 0#32)

/-- `x` holds the top bits of `a` behind the `r` zeros counted, in `w` bits. -/
structure Counted (a : Long) (w : ℕ) (s : Long × Long) : Prop where
  room : s.2.toNat + w ≤ 32
  top : s.1.toNat = a.toNat / 2 ^ (32 - w - s.2.toNat)
  lt : s.1.toNat < 2 ^ w
  pos : 0 < s.1.toNat

theorem and_high_eq_zero_iff {x k : ℕ} (hx : x < 2 ^ (2 * k)) :
    x &&& (2 ^ k - 1) <<< k = 0 ↔ x < 2 ^ k := by
  constructor
  · intro h
    have hhigh : x / 2 ^ k < 2 ^ k := by
      rw [Nat.div_lt_iff_lt_mul (by positivity), ← pow_add, ← two_mul]
      exact hx
    have hshift : (x &&& (2 ^ k - 1) <<< k) >>> k = x / 2 ^ k := by
      rw [Nat.shiftRight_and_distrib, Nat.shiftLeft_shiftRight, Nat.shiftRight_eq_div_pow,
        Nat.and_two_pow_sub_one_eq_mod, Nat.mod_eq_of_lt hhigh]
    rw [h, Nat.zero_shiftRight] at hshift
    exact Nat.lt_of_div_eq_zero (by positivity) hshift.symm
  · intro h
    apply Nat.eq_of_testBit_eq
    intro i
    rw [Nat.testBit_and, Nat.testBit_shiftLeft, Nat.zero_testBit]
    rcases Nat.lt_or_ge i k with hi | hi
    · rw [decide_eq_false (Nat.not_le.2 hi), Bool.false_and, Bool.and_false]
    · rw [Nat.testBit_lt_two_pow (h.trans_le (Nat.pow_le_pow_right (by norm_num) hi)),
        Bool.false_and]

theorem Counted.step {a : Long} {k : ℕ} {s : Long × Long} (h : Counted a (2 * k) s) (mask : Long)
    (hmask : mask.toNat = (2 ^ k - 1) <<< k) :
    Counted a k (clzStep k mask s) := by
  obtain ⟨hroom, htop, hlt, hpos⟩ := h
  have hzero : s.1 &&& mask = 0#32 ↔ s.1.toNat < 2 ^ k := by
    rw [← and_high_eq_zero_iff hlt, ← hmask, ← BitVec.toNat_and, ← BitVec.toNat_inj]
    rfl
  by_cases hx : s.1.toNat < 2 ^ k
  · have hstep : clzStep k mask s = (s.1, s.2 + BitVec.ofNat 32 k) := by
      simp [clzStep, hzero.2 hx]
    have hr : (s.2 + BitVec.ofNat 32 k).toNat = s.2.toNat + k := by
      rw [BitVec.toNat_add, BitVec.toNat_ofNat]
      omega
    rw [hstep]
    refine ⟨by rw [hr]; omega, ?_, hx, hpos⟩
    rw [htop, hr]
    congr 2
    omega
  · have hstep : clzStep k mask s = (s.1 >>> k, s.2) := by
      simp [clzStep, mt hzero.1 hx]
    have hshift : (s.1 >>> k).toNat = s.1.toNat / 2 ^ k := shr_toNat s.1 k
    rw [hstep]
    refine ⟨show s.2.toNat + k ≤ 32 by omega, ?_, ?_, ?_⟩
    · rw [hshift, htop, Nat.div_div_eq_div_mul, ← pow_add]
      congr 2
      show 32 - 2 * k - s.2.toNat + k = 32 - k - s.2.toNat
      omega
    · rw [hshift, Nat.div_lt_iff_lt_mul (by positivity), ← pow_add, ← two_mul]
      exact hlt
    · rw [hshift]
      exact Nat.div_pos (Nat.not_lt.1 hx) (by positivity)

/-- The bounds of `clzsi_spec` leave one count. -/
theorem clz_unique {n c d : ℕ} (hc : c < 32) (hd : d < 32) (h1 : 2 ^ (31 - c) ≤ n)
    (h2 : n < 2 ^ (32 - c)) (h3 : 2 ^ (31 - d) ≤ n) (h4 : n < 2 ^ (32 - d)) : c = d := by
  have hcd := (Nat.pow_lt_pow_iff_right (by norm_num : 1 < 2)).1 (h1.trans_lt h4)
  have hdc := (Nat.pow_lt_pow_iff_right (by norm_num : 1 < 2)).1 (h3.trans_lt h2)
  omega

/-- The last two bits. -/
theorem Counted.finish {a x r : Long} (h : Counted a 2 (x, r)) :
    ∃ c, c < 32 ∧ r + ((2#32 - x) &&& if x &&& 2#32 = 0#32 then -1#32 else 0#32) =
      BitVec.ofNat 32 c ∧ 2 ^ (31 - c) ≤ a.toNat ∧ a.toNat < 2 ^ (32 - c) := by
  obtain ⟨hroom, htop, hlt, hpos⟩ := h
  simp only at hroom htop hlt hpos
  have hbase : 0 < 2 ^ (32 - 2 - r.toNat) := by positivity
  have htwo : 2 ^ (31 - r.toNat) = 2 * 2 ^ (32 - 2 - r.toNat) := by
    rw [← pow_succ']
    congr 1
    omega
  have hfour : 2 ^ (32 - r.toNat) = 2 * 2 ^ (31 - r.toNat) := by
    rw [← pow_succ']
    congr 1
    omega
  have hle : x.toNat * 2 ^ (32 - 2 - r.toNat) ≤ a.toNat := by
    rw [htop]
    exact Nat.div_mul_le_self _ _
  have hgt : a.toNat < (x.toNat + 1) * 2 ^ (32 - 2 - r.toNat) := by
    rw [htop, Nat.add_mul, Nat.one_mul]
    exact Nat.lt_div_mul_add hbase
  by_cases hone : x.toNat = 1
  · have hx : x = 1#32 := BitVec.eq_of_toNat_eq hone
    rw [hone] at hle hgt
    refine ⟨r.toNat + 1, by omega, ?_, ?_, ?_⟩
    · rw [hx, BitVec.ofNat_add, BitVec.ofNat_toNat, BitVec.setWidth_eq]
      rfl
    · rw [show 31 - (r.toNat + 1) = 32 - 2 - r.toNat by omega]
      omega
    · rw [show 32 - (r.toNat + 1) = 31 - r.toNat by omega]
      omega
  · have hx : x = 2#32 ∨ x = 3#32 := by bv_omega
    have hmask : (2#32 - x) &&& (if x &&& 2#32 = 0#32 then -1#32 else 0#32) = 0#32 := by
      rcases hx with rfl | rfl <;> rfl
    have hcases : x.toNat = 2 ∨ x.toNat = 3 := by
      rcases hx with rfl | rfl
      · exact .inl rfl
      · exact .inr rfl
    refine ⟨r.toNat, by omega, ?_, ?_, ?_⟩
    · rw [hmask, BitVec.add_zero, BitVec.ofNat_toNat, BitVec.setWidth_eq]
    · rcases hcases with he | he <;> rw [he] at hle <;> omega
    · rcases hcases with he | he <;> rw [he] at hgt <;> omega

/-- `__clzsi2` counts the leading zeros. -/
theorem clzsi2_eq {a : Long} (ha : a ≠ 0#32) : clzsi a = some ((clzsi2 a).setWidth 16) := by
  have hpos : 0 < a.toNat := Nat.pos_of_ne_zero fun h => ha (BitVec.eq_of_toNat_eq h)
  have hstart : Counted a 32 (a, 0#32) := ⟨by simp, by simp, a.isLt, hpos⟩
  have h16 : Counted a 16 _ := hstart.step 0xFFFF0000#32 rfl
  have h8 : Counted a 8 _ := h16.step 0xFF00#32 rfl
  have h4 : Counted a 4 _ := h8.step 0xF0#32 rfl
  have h2 : Counted a 2 _ := h4.step 0xC#32 rfl
  obtain ⟨c, hc, hval, hlow, hhigh⟩ := h2.finish
  obtain ⟨d, hd, hclz, hlow', hhigh'⟩ := clzsi_spec ha
  obtain rfl := clz_unique hc hd hlow hhigh hlow' hhigh'
  have hr : clzsi2 a = BitVec.ofNat 32 c := hval
  rw [hclz, hr, BitVec.setWidth_ofNat_of_le (by norm_num)]

end LlvmTms9900.Builtins.Udivmoddi4
