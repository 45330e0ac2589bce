import LlvmTms9900.Arith.RestoringDivision

/-!
# Division with a misplaced carry

`runtime/tms9900_rt.asm` doubles a two-word value by shifting the low word,
adding its carry to the high word and shifting the high word afterwards, so
that the carry lands one bit too high. What 32 rounds of division with this
doubling compute, and exactly when that is the quotient and the remainder.
-/

namespace LlvmTms9900.Runtime
open LlvmTms9900.Arith

/-- `SLA lo`, `JNC`, `INC hi`, `SLA hi` on the value `hi:lo`. -/
def doubled (v : ℕ) : ℕ := (2 * v + 65536 * (v / 32768 % 2)) % 2 ^ 32

/-- Dividend, quotient and remainder during the rounds. -/
@[ext]
structure Division where
  num : ℕ
  quo : ℕ
  rem : ℕ
  deriving DecidableEq, Repr

/-- The remainder with the next bit of the dividend. -/
def Division.trial (x : Division) : ℕ := doubled x.rem + x.num / 2 ^ 31

def legacyRound (d : ℕ) (x : Division) : Division :=
  if x.trial < d then ⟨2 * x.num % 2 ^ 32, doubled x.quo, x.trial⟩
  else ⟨2 * x.num % 2 ^ 32, doubled x.quo + 1, x.trial - d⟩

/-- No partial remainder of the long division has its bit 15 set. -/
def NoCrossing (n d k : ℕ) : Prop := ∀ j < k, n / 2 ^ (32 - j) % d / 32768 % 2 = 0

/-- The quotient fits one word and no partial remainder has bit 15 set. -/
def LegacyExact (n d : ℕ) : Prop := n / d < 65536 ∧ NoCrossing n d 32

instance (n d k : ℕ) : Decidable (NoCrossing n d k) := Nat.decidableBallLT k _
instance (n d : ℕ) : Decidable (LegacyExact n d) := instDecidableAnd

/-- After `k` rounds, `m` being the quotient bits decided so far and `e` what
the misplaced carries of the remainder add up to. -/
structure LegacyInv (n d k m e : ℕ) (x : Division) : Prop where
  num : x.num = n % 2 ^ (32 - k) * 2 ^ k
  quo : x.quo = m / 65536 * 2 % 65536 * 65536 + m % 65536
  half : 2 ≤ d → 2 * m < 2 ^ k
  ident : (m * d + x.rem) % 2 ^ 32 = (n / 2 ^ (32 - k) + e) % 2 ^ 32
  clean : e = 0 ↔ NoCrossing n d k
  exact : e = 0 → m = n / 2 ^ (32 - k) / d ∧ x.rem = n / 2 ^ (32 - k) % d
  bound : e = 0 ∨ 16 ≤ k ∧ e + 65536 ≤ 2 ^ k

variable {n d k m e : ℕ} {x : Division}

theorem legacyInv_zero (hn : n < 2 ^ 32) : LegacyInv n d 0 0 0 ⟨n, 0, 0⟩ := by
  have h0 : n / 2 ^ (32 - 0) = 0 := Nat.div_eq_of_lt hn
  refine ⟨?_, rfl, fun _ => by norm_num, ?_, ?_, fun _ => ?_, .inl rfl⟩
  · rw [pow_zero, Nat.mul_one, Nat.mod_eq_of_lt hn]
  · rw [h0]
    simp
  · exact ⟨fun _ j hj => absurd hj (Nat.not_lt_zero j), fun _ => rfl⟩
  · rw [h0, Nat.zero_div, Nat.zero_mod]
    exact ⟨rfl, rfl⟩

/-- The bit the dividend brings in. -/
theorem num_top_bit (hk : k < 32) (h : x.num = n % 2 ^ (32 - k) * 2 ^ k) :
    n / 2 ^ (32 - (k + 1)) = 2 * (n / 2 ^ (32 - k)) + x.num / 2 ^ 31 ∧ x.num / 2 ^ 31 < 2 := by
  obtain ⟨j, hj⟩ : ∃ j, 32 = k + 1 + j := ⟨32 - (k + 1), by omega⟩
  have h1 : 32 - k = j + 1 := by omega
  have h2 : 32 - (k + 1) = j := by omega
  have h31 : 2 ^ 31 = 2 ^ j * 2 ^ k := by rw [← pow_add, show j + k = 31 by omega]
  have hbit : x.num / 2 ^ 31 = n % 2 ^ (j + 1) / 2 ^ j := by
    rw [h, h1, h31, Nat.mul_div_mul_right _ _ (by positivity)]
  rw [h1, h2, hbit]
  refine ⟨top_bits_succ n j, ?_⟩
  rw [Nat.div_lt_iff_lt_mul (by positivity), ← pow_succ']
  exact Nat.mod_lt _ (by positivity)

theorem num_double (hk : k < 32) (h : x.num = n % 2 ^ (32 - k) * 2 ^ k) :
    2 * x.num % 2 ^ 32 = n % 2 ^ (32 - (k + 1)) * 2 ^ (k + 1) := by
  obtain ⟨j, hj⟩ : ∃ j, 32 = k + 1 + j := ⟨32 - (k + 1), by omega⟩
  have h1 : 32 - k = j + 1 := by omega
  have h2 : 32 - (k + 1) = j := by omega
  have h32 : 2 ^ 32 = 2 ^ j * 2 ^ (k + 1) := by rw [← pow_add, show j + (k + 1) = 32 by omega]
  have hexp : 2 * x.num = n % 2 ^ (j + 1) * 2 ^ (k + 1) := by
    rw [h, h1, pow_succ]
    ring
  rw [hexp, h2, h32, Nat.mul_mod_mul_right, Nat.mod_mod_of_dvd _ (pow_dvd_pow 2 (Nat.le_succ j))]

/-- The partial remainders are short. -/
theorem partial_lt (hn : n < 2 ^ 32) (hk : k ≤ 32) : n / 2 ^ (32 - k) < 2 ^ k := by
  rw [Nat.div_lt_iff_lt_mul (by positivity), ← pow_add]
  rwa [show k + (32 - k) = 32 by omega]

/-- Doubling without a crossing bit is doubling. -/
theorem doubled_of_clear {v : ℕ} (hv : v < 2 ^ 31) (hc : v / 32768 % 2 = 0) :
    doubled v = 2 * v := by
  unfold doubled
  rw [hc]
  omega

theorem noCrossing_succ :
    NoCrossing n d (k + 1) ↔ NoCrossing n d k ∧ n / 2 ^ (32 - k) % d / 32768 % 2 = 0 := by
  constructor
  · exact fun h => ⟨fun j hj => h j (by omega), h k (by omega)⟩
  · rintro ⟨h1, h2⟩ j hj
    rcases Nat.lt_succ_iff_lt_or_eq.1 hj with h | rfl
    · exact h1 j h
    · exact h2

/-- The quotient register: its high word holds twice the quotient's. -/
theorem doubled_quo {q m b : ℕ} (hb : b < 2)
    (h : q = m / 65536 * 2 % 65536 * 65536 + m % 65536) :
    doubled q + b = (2 * m + b) / 65536 * 2 % 65536 * 65536 + (2 * m + b) % 65536 := by
  unfold doubled
  omega

theorem trial_ident (hk : k < 32) (h : LegacyInv n d k m e x) :
    (2 * (m * d) + x.trial) % 2 ^ 32 =
      (n / 2 ^ (32 - (k + 1)) + (2 * e + 65536 * (x.rem / 32768 % 2))) % 2 ^ 32 := by
  have hbit := num_top_bit hk h.num
  have hid := h.ident
  unfold Division.trial doubled
  omega

/-- The errors so far and the next one. -/
theorem error_clean (h : LegacyInv n d k m e x) :
    2 * e + 65536 * (x.rem / 32768 % 2) = 0 ↔ NoCrossing n d (k + 1) := by
  rw [noCrossing_succ, ← h.clean]
  constructor
  · intro hz
    have he : e = 0 := by omega
    rw [← (h.exact he).2]
    exact ⟨he, by omega⟩
  · rintro ⟨he, hc⟩
    rw [← (h.exact he).2] at hc
    omega

theorem error_bound (hn : n < 2 ^ 32) (hk : k < 32) (h : LegacyInv n d k m e x) :
    2 * e + 65536 * (x.rem / 32768 % 2) = 0 ∨
      16 ≤ k + 1 ∧ 2 * e + 65536 * (x.rem / 32768 % 2) + 65536 ≤ 2 ^ (k + 1) := by
  have hpow : 2 ^ (k + 1) = 2 * 2 ^ k := pow_succ' 2 k
  rcases h.bound with he | ⟨h16, hb⟩
  · have hrem : x.rem ≤ n / 2 ^ (32 - k) := by
      rw [(h.exact he).2]
      exact Nat.mod_le _ _
    have hlt := partial_lt hn (Nat.le_of_lt hk)
    by_cases hc : x.rem / 32768 % 2 = 0
    · exact .inl (by omega)
    · -- a partial remainder with bit 15 set has at least 16 bits
      have h16 : 16 ≤ k := by
        by_contra hlt16
        have hle : 2 ^ k ≤ 2 ^ 15 := Nat.pow_le_pow_right (by norm_num) (by omega)
        omega
      have hle : 2 ^ 16 ≤ 2 ^ k := Nat.pow_le_pow_right (by norm_num) h16
      exact .inr (by omega)
  · exact .inr (by omega)

/-- As long as nothing crossed, the trial value continues the long division. -/
theorem trial_exact (hn : n < 2 ^ 32) (hk : k < 32) (h : LegacyInv n d k m e x)
    (hz : 2 * e + 65536 * (x.rem / 32768 % 2) = 0) :
    x.trial + d * (2 * m) = n / 2 ^ (32 - (k + 1)) ∧ (0 < d → x.trial < 2 * d) := by
  have he : e = 0 := by omega
  have hc : x.rem / 32768 % 2 = 0 := by omega
  obtain ⟨hm, hr⟩ := h.exact he
  have hbit := num_top_bit hk h.num
  have hle : x.rem ≤ n / 2 ^ (32 - k) := by
    rw [hr]
    exact Nat.mod_le _ _
  have hlt := partial_lt hn (Nat.le_of_lt hk)
  have h31 : 2 ^ k ≤ 2 ^ 31 := Nat.pow_le_pow_right (by norm_num) (by omega)
  have hdm := Nat.div_add_mod (n / 2 ^ (32 - k)) d
  rw [← hm, ← hr] at hdm
  rw [Division.trial, doubled_of_clear (by omega) hc, Nat.mul_left_comm]
  refine ⟨by omega, fun hd => ?_⟩
  have hrd : x.rem < d := by
    rw [hr]
    exact Nat.mod_lt _ hd
  omega

theorem trial_first (hn : n < 2 ^ 32) (h : LegacyInv n d 0 m e x) : x.trial < 2 := by
  have hbit := num_top_bit (by norm_num) h.num
  have he : e = 0 := h.bound.resolve_right (by omega)
  have h0 : n / 2 ^ (32 - 0) = 0 := Nat.div_eq_of_lt hn
  have hrem := (h.exact he).2
  rw [h0, Nat.zero_mod] at hrem
  rw [Division.trial, hrem, show doubled 0 = 0 from rfl, Nat.zero_add]
  exact hbit.2

/-- One round, the quotient bit being clear or set. -/
theorem LegacyInv.succ (hn : n < 2 ^ 32) (hd : 0 < d) (hk : k < 32) (h : LegacyInv n d k m e x) :
    ∃ m' e', LegacyInv n d (k + 1) m' e' (legacyRound d x) := by
  have hid := trial_ident hk h
  have hpow : 2 ^ (k + 1) = 2 * 2 ^ k := pow_succ' 2 k
  by_cases hc : x.trial < d
  · refine ⟨2 * m, 2 * e + 65536 * (x.rem / 32768 % 2), ?_⟩
    simp only [legacyRound, if_pos hc]
    refine ⟨num_double hk h.num, doubled_quo (b := 0) (by norm_num) h.quo, ?_, ?_,
      error_clean h, ?_, error_bound hn hk h⟩
    · intro h2
      have hh := h.half h2
      omega
    · rw [Nat.mul_assoc]
      exact hid
    · intro hz
      have hex := (trial_exact hn hk h hz).1
      have hdm := (Nat.div_mod_unique hd).2 ⟨hex, hc⟩
      exact ⟨hdm.1.symm, hdm.2.symm⟩
  · refine ⟨2 * m + 1, 2 * e + 65536 * (x.rem / 32768 % 2), ?_⟩
    simp only [legacyRound, if_neg hc]
    refine ⟨num_double hk h.num, doubled_quo (b := 1) (by norm_num) h.quo, ?_, ?_,
      error_clean h, ?_, error_bound hn hk h⟩
    · intro h2
      have hh := h.half h2
      have hpos : 0 < k := by
        by_contra hz
        obtain rfl : k = 0 := by omega
        exact hc ((trial_first hn h).trans_le h2)
      obtain ⟨j, rfl⟩ : ∃ j, k = j + 1 := ⟨k - 1, by omega⟩
      rw [pow_succ'] at hh hpow
      omega
    · have hexp : (2 * m + 1) * d + (x.trial - d) = 2 * (m * d) + x.trial := by
        rw [Nat.add_mul, Nat.one_mul, Nat.mul_assoc]
        omega
      rw [hexp]
      exact hid
    · intro hz
      obtain ⟨hex, hlt⟩ := trial_exact hn hk h hz
      have hlt := hlt hd
      have hex2 : x.trial - d + d * (2 * m + 1) = n / 2 ^ (32 - (k + 1)) := by
        rw [Nat.mul_add, Nat.mul_one]
        omega
      have hdm := (Nat.div_mod_unique hd).2 ⟨hex2, by omega⟩
      exact ⟨hdm.1.symm, hdm.2.symm⟩

theorem legacyInv_iterate (hn : n < 2 ^ 32) (hd : 0 < d) (k : ℕ) (hk : k ≤ 32) :
    ∃ m e, LegacyInv n d k m e ((legacyRound d)^[k] ⟨n, 0, 0⟩) := by
  induction k with
  | zero => exact ⟨0, 0, legacyInv_zero hn⟩
  | succ k ih =>
    obtain ⟨m, e, h⟩ := ih (by omega)
    rw [Function.iterate_succ_apply']
    exact h.succ hn hd (by omega)

/-- A divisor of at most 15 bits has no partial remainder with bit 15 set. -/
theorem divisor_of_crossing (hd : 0 < d) (h : ¬ NoCrossing n d k) : 32768 < d := by
  by_contra hle
  refine h fun j _ => ?_
  have hlt : n / 2 ^ (32 - j) % d < d := Nat.mod_lt _ hd
  omega

/-- With a quotient register that is right, the quotient fits one word. -/
theorem quotient_short (hn : n < 2 ^ 32) (hd : 0 < d) (h : LegacyInv n d 32 m e x)
    (hq : x.quo = n / d) : n / d < 65536 := by
  have hquo := h.quo
  by_cases he : e = 0
  · have hm : m = n / d := by
      rw [(h.exact he).1, Nat.sub_self, pow_zero, Nat.div_one]
    have hle : n / d ≤ n := Nat.div_le_self _ _
    omega
  · have hcross : ¬ NoCrossing n d 32 := fun hno => he (h.clean.2 hno)
    have h15 := divisor_of_crossing hd hcross
    have hlt : n / d < 2 ^ 17 := by
      rw [Nat.div_lt_iff_lt_mul hd]
      omega
    omega

/-- Quotient and remainder both come out right exactly without a crossing bit. -/
theorem legacy_right_iff (hn : n < 2 ^ 32) (hd : 0 < d) :
    ((legacyRound d)^[32] ⟨n, 0, 0⟩).quo = n / d ∧ ((legacyRound d)^[32] ⟨n, 0, 0⟩).rem = n % d ↔
      LegacyExact n d := by
  obtain ⟨m, e, h⟩ := legacyInv_iterate hn hd 32 le_rfl
  have hexact := h.exact
  have hident := h.ident
  rw [Nat.sub_self, pow_zero, Nat.div_one] at hexact hident
  constructor
  · rintro ⟨hq, hr⟩
    have hshort := quotient_short hn hd h hq
    refine ⟨hshort, h.clean.1 ?_⟩
    by_contra he
    have hcross : ¬ NoCrossing n d 32 := fun hno => he (h.clean.2 hno)
    have h15 := divisor_of_crossing hd hcross
    have hhalf := h.half (by omega)
    have hquo := h.quo
    have hm : m = n / d := by omega
    have hdm := Nat.div_add_mod n d
    have hbound := h.bound.resolve_left he
    -- the identity leaves the error a multiple of `2 ^ 32`, which it is too small to be
    rw [hm, hr, Nat.mul_comm, hdm] at hident
    omega
  · rintro ⟨hshort, hno⟩
    obtain ⟨hm, hr⟩ := hexact (h.clean.2 hno)
    refine ⟨?_, hr⟩
    rw [h.quo, hm]
    omega

end LlvmTms9900.Runtime
