import LlvmTms9900.Builtins.Udivmoddi4Words

/-!
# What the 64-bit division returns

Every special case either answers at once or enters the loop with a count
between 1 and 63, the dividend above and below that bit in `r` and `q`, and a
remainder that is still smaller than the divisor. From there each iteration is
a round of restoring division whose quotient bit is shifted in one round late.
-/

namespace LlvmTms9900.Builtins.Udivmoddi4
open LlvmTms9900.Isa (Word)
open LlvmTms9900.Arith

/-- The words hold the state after `k` rounds. -/
def Holds (d n k : ℕ) (s : Loop) : Prop := DelayedInv 64 d n k s.rem s.quo s.carry.toNat

section Loop
variable {d_hi d_lo : Long} {n k : ℕ} {s : Loop}

theorem Holds.carry_lt {d : ℕ} (h : Holds d n k s) : s.carry.toNat < 2 := by
  rw [h.carry]
  exact Nat.mod_lt _ (by norm_num)

theorem Holds.body (hd : 0 < value d_hi d_lo) (hk : k < 64) (hn : n < 2 ^ 64)
    (h : Holds (value d_hi d_lo) n k s) :
    ∃ t, Udivmoddi4.body d_hi d_lo s = some t ∧ Holds (value d_hi d_lo) n (k + 1) t := by
  obtain ⟨hlost, hnext⟩ := DelayedInv.succ hd hk hn h
  obtain ⟨t, hb, hr, hq, hc⟩ := body_value d_hi d_lo h.carry_lt hlost
  refine ⟨t, hb, ?_⟩
  rw [Holds, hr, hq, hc]
  exact hnext

/-- `j` iterations, by induction on `j`. -/
theorem Holds.loop (hd : 0 < value d_hi d_lo) (hn : n < 2 ^ 64) (j : ℕ) (hj : k + j ≤ 64)
    (h : Holds (value d_hi d_lo) n k s) :
    ∃ t, Udivmoddi4.loop d_hi d_lo j s = some t ∧ Holds (value d_hi d_lo) n (k + j) t := by
  induction j generalizing k s with
  | zero => exact ⟨s, rfl, h⟩
  | succ j ih =>
    obtain ⟨t, hb, ht⟩ := h.body hd (by omega) hn
    obtain ⟨u, hl, hu⟩ := ih (by omega) ht
    refine ⟨u, ?_, by rwa [show k + (j + 1) = k + 1 + j by omega]⟩
    rw [Udivmoddi4.loop, hb]
    exact hl

end Loop

/-- The loop is entered with count `sr`, the dividend split at that bit, and
nothing to subtract yet. -/
structure Enters (n d : ℕ) (sr : Word) (s : Loop) : Prop where
  pos : 1 ≤ sr.toNat
  lt : sr.toNat ≤ 63
  rem : s.rem = n / 2 ^ sr.toNat
  quo : s.quo = n % 2 ^ sr.toNat * 2 ^ (64 - sr.toNat)
  carry : s.carry = 0#32
  small : n / 2 ^ sr.toNat < d

/-- What the code in front of the loop has to achieve. -/
def StartRight (n d : ℕ) : Start → Prop
  | .done q r => q.toNat = n / d ∧ r.toNat = n % d
  | .loop sr s => Enters n d sr s

theorem Enters.holds {n d : ℕ} {sr : Word} {s : Loop} (h : Enters n d sr s) :
    Holds d n (64 - sr.toNat) s := by
  have hle := h.lt
  rw [Holds, h.rem, h.quo, h.carry]
  exact delayedInv_start (by omega) h.small

section Cases
variable {n_hi n_lo d_hi d_lo : Long} {d : ℕ} {sr : Word}

/-- The dividend split at a bit of its low word. -/
theorem split_low (n_hi n_lo : Long) {i : ℕ} (h1 : 1 ≤ i) (h31 : i ≤ 31) :
    value (n_hi >>> i) (n_hi <<< (32 - i) ||| n_lo >>> i) = value n_hi n_lo / 2 ^ i ∧
      value (n_lo <<< (32 - i)) 0#32 = value n_hi n_lo % 2 ^ i * 2 ^ (64 - i) := by
  have hlo := n_lo.isLt
  have h32 : 2 ^ 32 = 2 ^ (32 - i) * 2 ^ i := by rw [← pow_add, Nat.sub_add_cancel (by omega)]
  have h64 : 2 ^ (64 - i) = 2 ^ (32 - i) * 2 ^ 32 := by rw [← pow_add, show 32 - i + 32 = 64 - i by omega]
  have hii : 32 - (32 - i) = i := by omega
  have hpos : 0 < 2 ^ i := by positivity
  have hlow : (n_lo >>> i).toNat < 2 ^ (32 - i) := by
    rw [shr_toNat, Nat.div_lt_iff_lt_mul hpos, ← h32]
    exact hlo
  constructor
  · have hdm := Nat.div_add_mod n_hi.toNat (2 ^ i)
    have hquo : (n_hi.toNat * 2 ^ 32 + n_lo.toNat) / 2 ^ i =
        n_lo.toNat / 2 ^ i + n_hi.toNat * 2 ^ (32 - i) := by
      rw [h32, ← Nat.mul_assoc, Nat.add_comm, Nat.add_mul_div_right _ _ hpos]
    rw [value, shl_or_toNat (by omega) _ hlow, shr_toNat, shr_toNat, hii, value, hquo]
    calc n_hi.toNat / 2 ^ i * 2 ^ 32 + (n_hi.toNat % 2 ^ i * 2 ^ (32 - i) + n_lo.toNat / 2 ^ i)
        = n_lo.toNat / 2 ^ i +
            (2 ^ i * (n_hi.toNat / 2 ^ i) + n_hi.toNat % 2 ^ i) * 2 ^ (32 - i) := by
          rw [h32]
          ring
      _ = n_lo.toNat / 2 ^ i + n_hi.toNat * 2 ^ (32 - i) := by rw [hdm]
  · have hmod : (n_hi.toNat * 2 ^ 32 + n_lo.toNat) % 2 ^ i = n_lo.toNat % 2 ^ i := by
      rw [h32, ← Nat.mul_assoc, Nat.add_comm, Nat.add_mul_mod_self_right]
    rw [value, shl_toNat (by omega), hii, value, hmod, h64, BitVec.toNat_ofNat, Nat.zero_mod,
      Nat.add_zero, Nat.mul_assoc]

/-- The dividend split at a bit of its high word. -/
theorem split_high (n_hi n_lo : Long) {i : ℕ} (h1 : 1 ≤ i) (h31 : i ≤ 31) :
    value 0#32 (n_hi >>> i) = value n_hi n_lo / 2 ^ (32 + i) ∧
      value (n_hi <<< (32 - i) ||| n_lo >>> i) (n_lo <<< (32 - i)) =
        value n_hi n_lo % 2 ^ (32 + i) * 2 ^ (64 - (32 + i)) := by
  have hlo := n_lo.isLt
  have h32 : 2 ^ 32 = 2 ^ (32 - i) * 2 ^ i := by rw [← pow_add, Nat.sub_add_cancel (by omega)]
  have hii : 32 - (32 - i) = i := by omega
  have hi64 : 64 - (32 + i) = 32 - i := by omega
  have hlow : (n_lo >>> i).toNat < 2 ^ (32 - i) := by
    rw [shr_toNat, Nat.div_lt_iff_lt_mul (by positivity), ← h32]
    exact hlo
  have hdm := Nat.div_add_mod n_lo.toNat (2 ^ i)
  have hdiv : (n_hi.toNat * 2 ^ 32 + n_lo.toNat) / 2 ^ 32 = n_hi.toNat := by omega
  have hmod : (n_hi.toNat * 2 ^ 32 + n_lo.toNat) % 2 ^ 32 = n_lo.toNat := by omega
  constructor
  · rw [value, value, shr_toNat, BitVec.toNat_ofNat, Nat.zero_mod, Nat.zero_mul, Nat.zero_add,
      pow_add, ← Nat.div_div_eq_div_mul, hdiv]
  · rw [value, value, shl_or_toNat (by omega) _ hlow, shl_toNat (by omega), shr_toNat, hii, hi64,
      pow_add, Nat.mod_mul, hdiv, hmod]
    calc (n_hi.toNat % 2 ^ i * 2 ^ (32 - i) + n_lo.toNat / 2 ^ i) * 2 ^ 32 +
          n_lo.toNat % 2 ^ i * 2 ^ (32 - i)
        = ((2 ^ i * (n_lo.toNat / 2 ^ i) + n_lo.toNat % 2 ^ i) +
            2 ^ 32 * (n_hi.toNat % 2 ^ i)) * 2 ^ (32 - i) := by
          rw [h32]
          ring
      _ = (n_lo.toNat + 2 ^ 32 * (n_hi.toNat % 2 ^ i)) * 2 ^ (32 - i) := by rw [hdm]

/-- The dividend split between its words. -/
theorem split_middle (n_hi n_lo : Long) :
    value 0#32 n_hi = value n_hi n_lo / 2 ^ 32 ∧
      value n_lo 0#32 = value n_hi n_lo % 2 ^ 32 * 2 ^ (64 - 32) := by
  have hlo := n_lo.isLt
  simp only [value, BitVec.toNat_ofNat]
  omega

theorem startLow_right (h1 : 1 ≤ sr.toNat) (h31 : sr.toNat ≤ 31)
    (hsmall : value n_hi n_lo / 2 ^ sr.toNat < d) :
    ∃ st, startLow n_hi n_lo sr = some st ∧ StartRight (value n_hi n_lo) d st := by
  have hsub : (32#16 - sr).toNat = 32 - sr.toNat := by bv_omega
  obtain ⟨hrem, hquo⟩ := split_low n_hi n_lo h1 h31
  refine ⟨.loop sr ⟨n_hi >>> sr.toNat, n_hi <<< (32 - sr.toNat) ||| n_lo >>> sr.toNat,
    n_lo <<< (32 - sr.toNat), 0#32, 0#32⟩, ?_, h1, by omega, hrem, hquo, rfl, hsmall⟩
  rw [startLow, shl_of_lt (by omega), shr_of_lt (by omega), shl_of_lt (by omega),
    shr_of_lt (by omega), hsub]
  rfl

theorem startMiddle_right (hsr : sr = 32#16) (hsmall : value n_hi n_lo / 2 ^ 32 < d) :
    StartRight (value n_hi n_lo) d (.loop sr ⟨0#32, n_hi, n_lo, 0#32, 0#32⟩) := by
  subst hsr
  obtain ⟨hrem, hquo⟩ := split_middle n_hi n_lo
  exact ⟨by decide, by decide, hrem, hquo, rfl, hsmall⟩

/-- A dividend and a divisor with bounds from their leading zeros. -/
theorem quotient_small {n d sr : ℕ} (cn cd : ℕ) (hn : n < 2 ^ (64 - cn)) (hd : 2 ^ (63 - cd) ≤ d)
    (hcd : cd ≤ 63) (hcn : cn ≤ 64) (hsr : sr + cn = cd + 1) : n / 2 ^ sr < d := by
  rw [Nat.div_lt_iff_lt_mul (by positivity)]
  calc n < 2 ^ (64 - cn) := hn
    _ = 2 ^ (63 - cd) * 2 ^ sr := by rw [← pow_add, show 63 - cd + sr = 64 - cn by omega]
    _ ≤ d * 2 ^ sr := Nat.mul_le_mul_right _ hd

theorem value_lt_of_hi {c : ℕ} (hc : c < 32) (h : n_hi.toNat < 2 ^ (32 - c)) :
    value n_hi n_lo < 2 ^ (64 - c) := by
  have hlo := n_lo.isLt
  have h64 : 2 ^ (64 - c) = 2 ^ (32 - c) * 2 ^ 32 := by
    rw [← pow_add, show 32 - c + 32 = 64 - c by omega]
  rw [h64, value]
  omega

theorem le_value_of_hi {c : ℕ} (hc : c < 32) (h : 2 ^ (31 - c) ≤ d_hi.toNat) :
    2 ^ (63 - c) ≤ value d_hi d_lo := by
  have h63 : 2 ^ (63 - c) = 2 ^ (31 - c) * 2 ^ 32 := by
    rw [← pow_add, show 31 - c + 32 = 63 - c by omega]
  rw [h63, value]
  omega

/-- With fewer leading zeros the divisor is greater. -/
theorem value_lt_of_clz {cn cd : ℕ} (hcn : cn < 32) (hlt : cd < cn)
    (hn : n_hi.toNat < 2 ^ (32 - cn)) (hd : 2 ^ (31 - cd) ≤ d_hi.toNat) :
    value n_hi n_lo < value d_hi d_lo := by
  have hlo := n_lo.isLt
  have hpow : 2 ^ (32 - cn) ≤ 2 ^ (31 - cd) := Nat.pow_le_pow_right (by norm_num) (by omega)
  unfold value
  omega

/-- A divisor above the dividend. -/
theorem done_zero_right {a : LongLong} (h : a.toNat < d) :
    StartRight a.toNat d (.done 0#64 a) :=
  ⟨(Nat.div_eq_of_lt h).symm, (Nat.mod_eq_of_lt h).symm⟩

/-- A word with 31 leading zeros is a power of two. -/
theorem clz_of_not_power {a : Long} {c : ℕ} (h0 : a ≠ 0#32) (h : a &&& (a - 1#32) ≠ 0#32)
    (hlt : a.toNat < 2 ^ (32 - c)) : c ≤ 30 := by
  by_contra hc
  have hle : 2 ^ (32 - c) ≤ 2 ^ 1 := Nat.pow_le_pow_right (by norm_num) (by omega)
  have hone : a = 1#32 := by bv_omega
  rw [hone] at h
  exact h (by decide)

theorem div_high (n_hi n_lo d_hi : Long) :
    value n_hi n_lo / value d_hi 0#32 = n_hi.toNat / d_hi.toNat ∧
      value n_hi n_lo % value d_hi 0#32 = n_hi.toNat % d_hi.toNat * 2 ^ 32 + n_lo.toNat := by
  have hlo := n_lo.isLt
  have hd : value d_hi 0#32 = 2 ^ 32 * d_hi.toNat := by
    rw [value, BitVec.toNat_ofNat, Nat.zero_mod, Nat.add_zero, Nat.mul_comm]
  have hdiv : value n_hi n_lo / 2 ^ 32 = n_hi.toNat := by unfold value; omega
  have hmod : value n_hi n_lo % 2 ^ 32 = n_lo.toNat := by unfold value; omega
  constructor
  · rw [hd, ← Nat.div_div_eq_div_mul, hdiv]
  · rw [hd, Nat.mod_mul, hdiv, hmod]
    ring

end Cases

section Start
variable {a : LongLong} {n_hi n_lo d_hi d_lo : Long}

/-- `d_lo == 0`. -/
theorem startLoZero_right (ha : a.toNat = value n_hi n_lo) (hn : n_hi ≠ 0#32)
    (hd : d_hi ≠ 0#32) :
    ∃ st, startLoZero a n_hi n_lo d_hi 0#32 = some st ∧
      StartRight (value n_hi n_lo) (value d_hi 0#32) st := by
  have hdiv := div_high n_hi n_lo d_hi
  rw [startLoZero, if_neg hd]
  by_cases hlo : n_lo = 0#32
  · rw [if_pos hlo]
    refine ⟨.done ((n_hi / d_hi).setWidth 64) (make64 (n_hi % d_hi) 0#32), ?_, ?_, ?_⟩
    · rw [modulo, quot, if_neg hd, if_neg hd]
      rfl
    · rw [setWidth_toNat, BitVec.toNat_udiv, hdiv.1]
    · rw [make64_toNat, value, BitVec.toNat_umod, hdiv.2, hlo]
  · rw [if_neg hlo]
    by_cases hp : d_hi &&& (d_hi - 1#32) = 0#32
    · obtain ⟨k, hk, hdk⟩ := power_of_two hd hp
      have hkw : (BitVec.ofNat 16 k).toNat = k := by
        rw [BitVec.toNat_ofNat]
        omega
      rw [if_pos hp, ctzsi_power hdk]
      refine ⟨.done ((n_hi >>> k).setWidth 64) (make64 (n_hi &&& (d_hi - 1#32)) n_lo), ?_, ?_, ?_⟩
      · rw [Option.pure_def, Option.bind_eq_bind, Option.bind_some, shr_of_lt (by omega), hkw]
        rfl
      · rw [setWidth_toNat, shr_toNat, hdiv.1, hdk]
      · rw [make64_toNat, value, mask_toNat hdk, hdiv.2, hdk]
    · obtain ⟨cd, hcd, hclzd, hdle, hdlt⟩ := clzsi_spec hd
      obtain ⟨cn, hcn, hclzn, hnle, hnlt⟩ := clzsi_spec hn
      have h30 := clz_of_not_power hd hp hdlt
      rw [if_neg hp, hclzd, hclzn]
      change ∃ st, (if 30#16 < BitVec.ofNat 16 cd - BitVec.ofNat 16 cn then some (.done 0#64 a)
        else startLow n_hi n_lo (BitVec.ofNat 16 cd - BitVec.ofNat 16 cn + 1#16)) = some st ∧ _
      rcases Nat.lt_or_ge cd cn with hlt | hle
      · rw [if_pos (by bv_omega), ← ha]
        refine ⟨_, rfl, done_zero_right ?_⟩
        rw [ha]
        exact value_lt_of_clz hcn hlt hnlt hdle
      · have hsr : (BitVec.ofNat 16 cd - BitVec.ofNat 16 cn + 1#16).toNat = cd - cn + 1 := by bv_omega
        rw [if_neg (by bv_omega)]
        refine startLow_right (by omega) (by omega) ?_
        rw [hsr]
        exact quotient_small cn cd (value_lt_of_hi hcn hnlt) (le_value_of_hi hcd hdle) (by omega) (by omega)
          (by omega)

/-- `d_lo != 0` and `d_hi == 0`. -/
theorem startHiZero_right (ha : a.toNat = value n_hi n_lo) (hn : n_hi ≠ 0#32)
    (hd : d_lo ≠ 0#32) :
    ∃ st, startHiZero a n_hi n_lo d_lo = some st ∧
      StartRight (value n_hi n_lo) d_lo.toNat st := by
  have hnlo := n_lo.isLt
  rw [startHiZero]
  by_cases hp : d_lo &&& (d_lo - 1#32) = 0#32
  · obtain ⟨k, hk, hdk⟩ := power_of_two hd hp
    have hmod : value n_hi n_lo % 2 ^ k = n_lo.toNat % 2 ^ k := by
      have h32 : 2 ^ 32 = 2 ^ (32 - k) * 2 ^ k := by rw [← pow_add, Nat.sub_add_cancel (by omega)]
      rw [value, h32, ← Nat.mul_assoc, Nat.add_comm, Nat.add_mul_mod_self_right]
    have hrem : ((n_lo &&& (d_lo - 1#32)).setWidth 64).toNat = value n_hi n_lo % d_lo.toNat := by
      rw [setWidth_toNat, mask_toNat hdk, hdk, hmod]
    rw [if_pos hp]
    by_cases hone : d_lo = 1#32
    · refine ⟨.done a ((n_lo &&& (d_lo - 1#32)).setWidth 64), by rw [if_pos hone]; rfl, ?_, hrem⟩
      rw [ha, hone]
      exact (Nat.div_one _).symm
    · have hk1 : 1 ≤ k := by
        by_contra hz
        obtain rfl : k = 0 := by omega
        exact hone (BitVec.eq_of_toNat_eq hdk)
      have hkw : (BitVec.ofNat 16 k).toNat = k := by
        rw [BitVec.toNat_ofNat]
        omega
      have hsub : (32#16 - BitVec.ofNat 16 k).toNat = 32 - k := by bv_omega
      obtain ⟨hquo, -⟩ := split_low n_hi n_lo hk1 (by omega)
      refine ⟨.done (make64 (n_hi >>> k) (n_hi <<< (32 - k) ||| n_lo >>> k))
        ((n_lo &&& (d_lo - 1#32)).setWidth 64), ?_, ?_, hrem⟩
      · rw [if_neg hone, ctzsi_power hdk, Option.bind_eq_bind, Option.bind_some,
          shr_of_lt (by omega), shr_of_lt (by omega), shl_of_lt (by omega), hkw, hsub]
        rfl
      · rw [make64_toNat, hquo, hdk]
  · obtain ⟨cd, hcd, hclzd, hdle, hdlt⟩ := clzsi_spec hd
    obtain ⟨cn, hcn, hclzn, hnle, hnlt⟩ := clzsi_spec hn
    have h30 := clz_of_not_power hd hp hdlt
    have hsmall : value n_hi n_lo / 2 ^ (33 + cd - cn) < d_lo.toNat := by
      refine quotient_small cn (cd + 32) (value_lt_of_hi hcn hnlt) ?_ (by omega) (by omega)
        (by omega)
      rwa [show 63 - (cd + 32) = 31 - cd by omega]
    have hsr : (1#16 + 32#16 + BitVec.ofNat 16 cd - BitVec.ofNat 16 cn).toNat = 33 + cd - cn := by
      bv_omega
    rw [if_neg hp, hclzd, hclzn, Option.bind_eq_bind, Option.bind_some, Option.bind_some]
    generalize 1#16 + 32#16 + BitVec.ofNat 16 cd - BitVec.ofNat 16 cn = sr at hsr ⊢
    rw [← hsr] at hsmall
    by_cases hmid : sr = 32#16
    · rw [if_pos hmid]
      refine ⟨_, rfl, startMiddle_right hmid ?_⟩
      rw [hmid] at hsmall
      exact hsmall
    · rw [if_neg hmid]
      by_cases hlow : sr < 32#16
      · rw [if_pos hlow]
        exact startLow_right (by omega) (by bv_omega) hsmall
      · rw [if_neg hlow]
        have hge : 33 ≤ sr.toNat := by bv_omega
        obtain ⟨i, hi⟩ : ∃ i, sr.toNat = 32 + i := ⟨sr.toNat - 32, by omega⟩
        have h64 : (64#16 - sr).toNat = 32 - i := by bv_omega
        have hs32 : (sr - 32#16).toNat = i := by bv_omega
        obtain ⟨hrem, hquo⟩ := split_high n_hi n_lo (i := i) (by omega) (by omega)
        refine ⟨.loop sr ⟨0#32, n_hi >>> i, n_hi <<< (32 - i) ||| n_lo >>> i, n_lo <<< (32 - i),
          0#32⟩, ?_, by omega, by omega, ?_, ?_, rfl, hsmall⟩
        · rw [shl_of_lt (by omega), shl_of_lt (by omega), shr_of_lt (by omega),
            shr_of_lt (by omega), h64, hs32]
          rfl
        · rw [hi]
          exact hrem
        · rw [hi]
          exact hquo

/-- `d_lo != 0` and `d_hi != 0`. -/
theorem startFull_right (ha : a.toNat = value n_hi n_lo) (hn : n_hi ≠ 0#32)
    (hd : d_hi ≠ 0#32) :
    ∃ st, startFull a n_hi n_lo d_hi = some st ∧
      StartRight (value n_hi n_lo) (value d_hi d_lo) st := by
  obtain ⟨cd, hcd, hclzd, hdle, hdlt⟩ := clzsi_spec hd
  obtain ⟨cn, hcn, hclzn, hnle, hnlt⟩ := clzsi_spec hn
  rw [startFull, hclzd, hclzn, Option.bind_eq_bind, Option.bind_some, Option.bind_some]
  rcases Nat.lt_or_ge cd cn with hlt | hle
  · rw [if_pos (by bv_omega), ← ha]
    refine ⟨_, rfl, done_zero_right ?_⟩
    rw [ha]
    exact value_lt_of_clz hcn hlt hnlt hdle
  · have hsr : (BitVec.ofNat 16 cd - BitVec.ofNat 16 cn + 1#16).toNat = cd - cn + 1 := by bv_omega
    have hsmall : value n_hi n_lo / 2 ^ (cd - cn + 1) < value d_hi d_lo :=
      quotient_small cn cd (value_lt_of_hi hcn hnlt) (le_value_of_hi hcd hdle) (by omega) (by omega)
        (by omega)
    rw [if_neg (by bv_omega)]
    generalize BitVec.ofNat 16 cd - BitVec.ofNat 16 cn + 1#16 = sr at hsr ⊢
    rw [← hsr] at hsmall
    by_cases hmid : sr = 32#16
    · rw [if_pos hmid]
      refine ⟨_, rfl, startMiddle_right hmid ?_⟩
      rw [hmid] at hsmall
      exact hsmall
    · rw [if_neg hmid]
      exact startLow_right (by omega) (by bv_omega) hsmall

/-- The code in front of the loop, for every dividend and nonzero divisor. -/
theorem start_right (a b : LongLong) (hb : b ≠ 0#64) :
    ∃ st, start a b = some st ∧ StartRight a.toNat b.toNat st := by
  have ha := value_halves a
  have hbv := value_halves b
  have hlo := (lo32 a).isLt
  rw [← ha, ← hbv, start]
  by_cases hn : hi32 a = 0#32
  · rw [if_pos hn]
    by_cases hd : hi32 b = 0#32
    · have hdlo : lo32 b ≠ 0#32 := by
        intro h0
        rw [hd, h0] at hbv
        exact hb (BitVec.eq_of_toNat_eq hbv.symm)
      rw [if_pos hd, modulo, quot, if_neg hdlo, if_neg hdlo]
      refine ⟨_, rfl, ?_, ?_⟩
      · rw [setWidth_toNat, BitVec.toNat_udiv, hn, hd, value, value]
        simp
      · rw [setWidth_toNat, BitVec.toNat_umod, hn, hd, value, value]
        simp
    · have hlt : value (hi32 a) (lo32 a) < value (hi32 b) (lo32 b) := by
        have hne : (hi32 b).toNat ≠ 0 := by bv_omega
        rw [hn, value, value, BitVec.toNat_ofNat]
        omega
      rw [if_neg hd]
      refine ⟨_, rfl, ?_, ?_⟩
      · rw [Nat.div_eq_of_lt hlt]
        rfl
      · rw [Nat.mod_eq_of_lt hlt, setWidth_toNat, hn, value]
        simp
  · rw [if_neg hn]
    by_cases hdlo : lo32 b = 0#32
    · have hd : hi32 b ≠ 0#32 := by
        intro h0
        rw [h0, hdlo] at hbv
        exact hb (BitVec.eq_of_toNat_eq hbv.symm)
      rw [if_pos hdlo, hdlo]
      exact startLoZero_right ha.symm hn hd
    · rw [if_neg hdlo]
      by_cases hd : hi32 b = 0#32
      · have hv : value (hi32 b) (lo32 b) = (lo32 b).toNat := by
          rw [hd, value]
          simp
        rw [if_pos hd, hv]
        exact startHiZero_right ha.symm hn hdlo
      · rw [if_neg hd]
        exact startFull_right ha.symm hn hd

end Start

section Divide
variable (a b : LongLong)

theorem value_pos {b : LongLong} (hb : b ≠ 0#64) : 0 < value (hi32 b) (lo32 b) := by
  rw [value_halves]
  bv_omega

/-- The loop from its entry to its end, every iteration keeping all bits. -/
theorem Enters.run {a b : LongLong} {sr : Word} {s : Loop} (hb : b ≠ 0#64)
    (h : Enters a.toNat b.toNat sr s) (j : ℕ) (hj : j ≤ sr.toNat) :
    ∃ t, loop (hi32 b) (lo32 b) j s = some t ∧ Holds b.toNat a.toNat (64 - sr.toNat + j) t := by
  have hle := h.lt
  have hd := value_pos hb
  have hx := h.holds
  rw [← value_halves b] at hx
  have hrun := hx.loop hd a.isLt j (by omega)
  rwa [value_halves] at hrun

/-- The last quotient bit shifted in. -/
theorem Holds.result {n d : ℕ} {s : Loop} (hn : n < 2 ^ 64) (h : Holds d n 64 s) :
    value (s.q_hi <<< 1 ||| s.q_lo >>> 31) (s.q_lo <<< 1 ||| s.carry) = n / d ∧
      value s.r_hi s.r_lo = n % d := by
  obtain ⟨hr, hq⟩ := h.finish
  have hlt : n / d < 2 ^ 64 := (Nat.div_le_self _ _).trans_lt hn
  refine ⟨?_, hr⟩
  rw [value_shift _ _ _ h.carry_lt, ← Loop.quo, Nat.mod_eq_of_lt (by omega), hq]

theorem udivmoddi4_value (mem : Objects) (rem : Word) (hb : b ≠ 0#64) :
    udivmoddi4 mem a b rem = some (a / b, store mem rem (a % b)) := by
  obtain ⟨st, hst, hright⟩ := start_right a b hb
  cases st with
  | done q r =>
    have hq : q = a / b := BitVec.eq_of_toNat_eq hright.1
    have hr : r = a % b := BitVec.eq_of_toNat_eq hright.2
    rw [udivmoddi4, hst, hq, hr]
    rfl
  | loop sr s =>
    have hent : Enters a.toNat b.toNat sr s := hright
    have hle := hent.lt
    obtain ⟨t, hl, ht⟩ := hent.run hb sr.toNat le_rfl
    rw [show 64 - sr.toNat + sr.toNat = 64 by omega] at ht
    obtain ⟨hq, hr⟩ := ht.result a.isLt
    have hquo : make64 (t.q_hi <<< 1 ||| t.q_lo >>> 31) (t.q_lo <<< 1 ||| t.carry) = a / b :=
      BitVec.eq_of_toNat_eq ((make64_toNat _ _).trans hq)
    have hrem : make64 t.r_hi t.r_lo = a % b :=
      BitVec.eq_of_toNat_eq ((make64_toNat _ _).trans hr)
    rw [udivmoddi4, hst, ← hquo, ← hrem]
    simp [hl]

/-- `__udivmoddi4` divides, whether or not it is given a place for the
remainder, and so do the two functions that call it. -/
theorem udivmoddi4_divides (mem : Objects) (a b : LongLong) (rem : Word) (hb : b ≠ 0#64) :
    ∃ q r : LongLong, a.toNat = q.toNat * b.toNat + r.toNat ∧ r.toNat < b.toNat ∧
      udivmoddi4 mem a b rem = some (q, if rem = 0#16 then mem else Function.update mem rem r) ∧
      (∀ sr s, start a b = some (.loop sr s) → 1 ≤ sr.toNat ∧ sr.toNat ≤ 63 ∧
        ∀ j < sr.toNat, ∃ t, loop (hi32 b) (lo32 b) j s = some t ∧
          2 * t.rem + t.quo / 2 ^ 63 < 2 ^ 64) ∧
      udivdi3 mem a b = some (q, mem) ∧
      ∀ slot, slot ≠ 0#16 → umoddi3 mem slot a b = some (r, Function.update mem slot r) := by
  have hpos : 0 < b.toNat := by bv_omega
  refine ⟨a / b, a % b, ?_, Nat.mod_lt _ hpos, udivmoddi4_value a b mem rem hb, ?_,
    udivmoddi4_value a b mem 0#16 hb, ?_⟩
  · rw [BitVec.toNat_udiv, BitVec.toNat_umod, Nat.mul_comm]
    exact (Nat.div_add_mod _ _).symm
  · intro sr s hst
    obtain ⟨st, hst', hright⟩ := start_right a b hb
    rw [hst, Option.some.injEq] at hst'
    subst hst'
    have hent : Enters a.toNat b.toNat sr s := hright
    have hle := hent.lt
    refine ⟨hent.pos, hle, fun j hj => ?_⟩
    obtain ⟨t, hl, ht⟩ := hent.run hb j (by omega)
    exact ⟨t, hl, (DelayedInv.succ hpos (by omega) a.isLt ht).1⟩
  · intro slot hslot
    rw [umoddi3, udivmoddi4_value a b mem slot hb, store, if_neg hslot]
    simp

/-- A divisor of two words: the loop runs 4 times. -/
theorem udivmoddi4_two_words :
    ∃ q r : LongLong, udivmoddi4 (fun _ => 0#64) 0xFEDCBA9876543210#64 0x123456789ABCDEF0#64 2#16 =
      some (q, Function.update (fun _ => 0#64) 2#16 r) ∧ q = 14#64 := by
  obtain ⟨q, r, hq, hr, hval, -⟩ := udivmoddi4_divides (fun _ => 0#64) 0xFEDCBA9876543210#64
    0x123456789ABCDEF0#64 2#16 (by decide)
  rw [if_neg (by decide)] at hval
  refine ⟨q, r, hval, ?_⟩
  bv_omega

end Divide

end LlvmTms9900.Builtins.Udivmoddi4
