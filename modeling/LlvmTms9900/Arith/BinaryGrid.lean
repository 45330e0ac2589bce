import LlvmTms9900.Arith.NearestEven
import LlvmTms9900.Arith.SameSide

/-!
# The grid of a binary format

The codes of the magnitudes of a format with `p` fraction bits are the exponent
field above the fraction. Their values, in units of the smallest one, grow with
the code. A significand `s` scaled by `2 ^ e` has the code `e * 2 ^ p + s`, also
where `s` carries into the next binade.
-/

namespace LlvmTms9900.Arith

section Magnitude

/-- The value of a code: with exponent field 0 the fraction, else with the
implicit bit and scaled. -/
def mag (p k : ℕ) : ℕ := if k < 2 ^ p then k else (2 ^ p + k % 2 ^ p) * 2 ^ (k / 2 ^ p - 1)

variable {p e s k : ℕ}

theorem mag_binade (hs : s ≤ 2 ^ (p + 1)) (h : 2 ^ p ≤ s ∨ e = 0) :
    mag p (e * 2 ^ p + s) = s * 2 ^ e := by
  have hpos : 0 < 2 ^ p := Nat.two_pow_pos p
  have hsucc : 2 ^ (p + 1) = 2 ^ p + 2 ^ p := by omega
  unfold mag
  by_cases hlow : s < 2 ^ p
  · obtain rfl : e = 0 := by omega
    rw [Nat.zero_mul, Nat.zero_add, if_pos hlow, pow_zero, Nat.mul_one]
  · obtain ⟨t, rfl⟩ : ∃ t, s = 2 ^ p + t := ⟨s - 2 ^ p, by omega⟩
    have hk : e * 2 ^ p + (2 ^ p + t) = t + (e + 1) * 2 ^ p := by ring
    have hge : ¬ t + (e + 1) * 2 ^ p < 2 ^ p := by
      have hle : 1 * 2 ^ p ≤ (e + 1) * 2 ^ p := Nat.mul_le_mul_right _ (by omega)
      omega
    rw [hk, if_neg hge, Nat.add_mul_mod_self_right, Nat.add_mul_div_right _ _ hpos]
    rcases Nat.lt_or_ge t (2 ^ p) with ht | ht
    · rw [Nat.mod_eq_of_lt ht, Nat.div_eq_of_lt ht, Nat.zero_add, Nat.add_sub_cancel]
    · obtain rfl : t = 2 ^ p := by omega
      rw [Nat.mod_self, Nat.div_self hpos, Nat.add_comm 1, Nat.add_sub_cancel, pow_succ]
      ring

/-- Every code is a significand and a scale. -/
theorem exists_binade (p k : ℕ) :
    ∃ e s, k = e * 2 ^ p + s ∧ s < 2 ^ (p + 1) ∧ (2 ^ p ≤ s ∨ e = 0) := by
  have hpos : 0 < 2 ^ p := Nat.two_pow_pos p
  have hsucc : 2 ^ (p + 1) = 2 ^ p + 2 ^ p := by omega
  rcases Nat.lt_or_ge k (2 ^ p) with hk | hk
  · exact ⟨0, k, by omega, by omega, .inr rfl⟩
  · have hq : 0 < k / 2 ^ p := Nat.div_pos hk hpos
    have hr : k % 2 ^ p < 2 ^ p := Nat.mod_lt _ hpos
    refine ⟨k / 2 ^ p - 1, 2 ^ p + k % 2 ^ p, ?_, by omega, .inl (by omega)⟩
    have hmul : (k / 2 ^ p - 1) * 2 ^ p + 2 ^ p = k / 2 ^ p * 2 ^ p := by
      rw [← Nat.succ_mul, Nat.succ_eq_add_one, Nat.sub_add_cancel hq]
    have hdiv := Nat.div_add_mod k (2 ^ p)
    rw [Nat.mul_comm] at hdiv
    omega

/-- The next code is one unit of the binade further. -/
theorem mag_binade_succ (hs : s < 2 ^ (p + 1)) (h : 2 ^ p ≤ s ∨ e = 0) :
    mag p (e * 2 ^ p + s + 1) = (s + 1) * 2 ^ e := by
  rw [Nat.add_assoc]
  exact mag_binade hs (h.imp (fun h => by omega) id)

theorem mag_lt_succ (p k : ℕ) : mag p k < mag p (k + 1) := by
  obtain ⟨e, s, rfl, hs, h⟩ := exists_binade p k
  rw [mag_binade hs.le h, mag_binade_succ hs h]
  exact Nat.mul_lt_mul_of_pos_right (Nat.lt_succ_self s) (Nat.two_pow_pos e)

/-- Two codes further is at least two units of the binade. -/
theorem mag_step (hs : s < 2 ^ (p + 1)) (h : 2 ^ p ≤ s ∨ e = 0) :
    (s + 2) * 2 ^ e ≤ mag p (e * 2 ^ p + s + 1 + 1) := by
  have hlt := mag_lt_succ p (e * 2 ^ p + s + 1)
  rcases Nat.lt_or_ge (s + 1) (2 ^ (p + 1)) with hlow | hhigh
  · have heq := mag_binade_succ (p := p) (e := e) hlow (h.imp (fun h => by omega) id)
    rw [← Nat.add_assoc] at heq
    exact heq.ge
  · have hpow : 2 ^ (p + 1) = 2 ^ p + 2 ^ p := by omega
    have hk : e * 2 ^ p + s + 1 = (e + 1) * 2 ^ p + 2 ^ p := by
      rw [Nat.succ_mul]
      omega
    have hpos := Nat.two_pow_pos p
    rw [hk, mag_binade_succ (by omega) (.inl le_rfl)]
    calc (s + 2) * 2 ^ e = (2 ^ p * 2 + 1) * 2 ^ e := by rw [show s + 2 = 2 ^ p * 2 + 1 by omega]
      _ ≤ (2 ^ p + 1) * 2 * 2 ^ e := Nat.mul_le_mul_right _ (by omega)
      _ = (2 ^ p + 1) * 2 ^ (e + 1) := by rw [pow_succ, Nat.mul_assoc, Nat.mul_comm 2]

theorem mag_strictMono (p : ℕ) : StrictMono (mag p) := strictMono_nat_of_lt_succ (mag_lt_succ p)

theorem mag_zero (p : ℕ) : mag p 0 = 0 := if_pos (Nat.two_pow_pos p)

/-- Where the magnitude is a code, the code is the magnitude. -/
theorem mag_of_le (hk : k ≤ 2 ^ (p + 1)) : mag p k = k := by
  have h := mag_binade (e := 0) hk (.inr rfl)
  rwa [Nat.zero_mul, Nat.zero_add, pow_zero, Nat.mul_one] at h

/-- A significand that is too small for its scale is the code of another one. -/
theorem exists_code (hs : s ≤ 2 ^ (p + 1)) : ∃ k, mag p k = s * 2 ^ e := by
  induction e generalizing s with
  | zero => exact ⟨s, by rw [mag_of_le hs, pow_zero, Nat.mul_one]⟩
  | succ e ih =>
    rcases Nat.lt_or_ge s (2 ^ p) with hlow | hlow
    · obtain ⟨k, hk⟩ := ih (s := s * 2) (by rw [pow_succ]; omega)
      exact ⟨k, by rw [hk, pow_succ, Nat.mul_assoc, Nat.mul_comm 2]⟩
    · exact ⟨_, mag_binade hs (.inl hlow)⟩

/-- The difference of two magnitudes within a factor of two is a magnitude. -/
theorem exists_code_sub {j k : ℕ} (hjk : j ≤ k) (hle : mag p k ≤ 2 * mag p j) :
    ∃ i, mag p i = mag p k - mag p j ∧ i ≤ j := by
  obtain ⟨e, s, rfl, hs, hse⟩ := exists_binade p j
  obtain ⟨f, t, rfl, ht, htf⟩ := exists_binade p k
  have hef : e ≤ f := by
    by_contra hcon
    have hs' : 2 ^ p ≤ s := hse.resolve_right (by omega)
    have hsucc : 2 ^ (p + 1) = 2 ^ p * 2 := pow_succ 2 p
    have hmul : (f + 1) * 2 ^ p ≤ e * 2 ^ p := Nat.mul_le_mul_right _ (by omega)
    rw [Nat.add_mul] at hmul
    omega
  rw [mag_binade hs.le hse, mag_binade ht.le htf] at *
  obtain ⟨d, rfl⟩ : ∃ d, f = e + d := ⟨f - e, by omega⟩
  have hdiff : t * 2 ^ (e + d) - s * 2 ^ e = (t * 2 ^ d - s) * 2 ^ e := by
    rw [Nat.sub_mul, Nat.mul_assoc, ← pow_add, Nat.add_comm d]
  have hcoef : t * 2 ^ d - s ≤ s := by
    have hpos : 0 < 2 ^ e := Nat.two_pow_pos e
    have hmul : (t * 2 ^ d - s) * 2 ^ e ≤ s * 2 ^ e := by
      rw [← hdiff]
      omega
    exact Nat.le_of_mul_le_mul_right hmul hpos
  obtain ⟨i, hi⟩ := exists_code (p := p) (e := e) (s := t * 2 ^ d - s) (by omega)
  refine ⟨i, by rw [hi, hdiff], ?_⟩
  rw [← (mag_strictMono p).le_iff_le, hi, mag_binade hs.le hse]
  exact Nat.mul_le_mul_right _ hcoef

end Magnitude

section Rounding
variable {K : Type*} [Field K] [LinearOrder K] [IsStrictOrderedRing K]
variable {p e : ℕ} {x y : K}

theorem cast_mag_strictMono (p : ℕ) : StrictMono fun k => (mag p k : K) :=
  fun _ _ h => Nat.cast_lt.2 (mag_strictMono p h)

/-- The lost bits and the last bit kept decide. A number on the same side of every
multiple of half a unit as `G` is where `G` is. -/
theorem located_of_sameSide {h G : ℕ} (hx : x * 2 ^ (h + 1) = y * 2 ^ e)
    (hy : SameSide h y G) (hs : G / 2 ^ (h + 1) < 2 ^ (p + 1))
    (hn : 2 ^ p ≤ G / 2 ^ (h + 1) ∨ e = 0) :
    Located (fun k => (mag p k : K)) x (e * 2 ^ p + G / 2 ^ (h + 1)) (2 ^ h) (G % 2 ^ (h + 1)) := by
  obtain ⟨s, hsG⟩ : ∃ s, s = G / 2 ^ (h + 1) := ⟨_, rfl⟩
  rw [← hsG] at hs hn ⊢
  have hdiv : s * 2 ^ (h + 1) + G % 2 ^ (h + 1) = G := by
    rw [hsG, Nat.mul_comm]
    exact Nat.div_add_mod G _
  have hmod : G % 2 ^ (h + 1) < 2 ^ (h + 1) := Nat.mod_lt _ (Nat.two_pow_pos _)
  have hpow : 2 ^ (h + 1) = 2 ^ h * 2 := pow_succ 2 h
  have hpe : (0 : K) < 2 ^ e := by positivity
  have hph : (0 : K) < 2 ^ (h + 1) := by positivity
  have hlow : (mag p (e * 2 ^ p + s) : K) = s * 2 ^ e := by
    rw [mag_binade hs.le hn]
    push_cast
    ring
  have hupp : (mag p (e * 2 ^ p + s + 1) : K) = (s + 1) * 2 ^ e := by
    rw [mag_binade_succ hs hn]
    push_cast
    ring
  -- `x` against the codes and their midpoint is `y` against multiples of `2 ^ h`.
  have hscale : ∀ c d : K, c * 2 ^ (h + 1) = d * 2 ^ h →
      (c * 2 ^ e ≤ x ↔ d * 2 ^ h ≤ y) ∧ (x ≤ c * 2 ^ e ↔ y ≤ d * 2 ^ h) := by
    intro c d hcd
    have hc : c * 2 ^ e * 2 ^ (h + 1) = d * 2 ^ h * 2 ^ e := by
      rw [mul_right_comm, hcd]
    constructor
    · rw [← mul_le_mul_iff_left₀ hph, hx, hc, mul_le_mul_iff_left₀ hpe]
    · rw [← mul_le_mul_iff_left₀ hph, hx, hc, mul_le_mul_iff_left₀ hpe]
  have hleast := hscale s ((2 * s : ℕ) : ℤ) (by push_cast; ring)
  have hge := hleast.1.trans (hy.ge _)
  have hle := hleast.2.trans (hy.le _)
  have hnext := (hscale (s + 1) ((2 * s + 2 : ℕ) : ℤ) (by push_cast; ring)).1.trans (hy.ge _)
  have hmid := hscale ((s : K) + 1 / 2) ((2 * s + 1 : ℕ) : ℤ) (by push_cast; ring)
  have hmge := hmid.1.trans (hy.ge _)
  have hmle := hmid.2.trans (hy.le _)
  have hsum : (mag p (e * 2 ^ p + s) : K) + mag p (e * 2 ^ p + s + 1) =
      2 * (((s : K) + 1 / 2) * 2 ^ e) := by
    rw [hlow, hupp]
    ring
  have hcast : ∀ c : ℕ, (((c : ℕ) : ℤ) : K) * 2 ^ h = ((c * 2 ^ h : ℕ) : K) := by
    intro c
    push_cast
    rfl
  rw [hcast, Nat.cast_le] at hge hle hnext hmge hmle
  have hr0 : 2 * s * 2 ^ h = s * (2 ^ h * 2) := by ring
  have hr1 : (2 * s + 1) * 2 ^ h = s * (2 ^ h * 2) + 2 ^ h := by ring
  have hr2 : (2 * s + 2) * 2 ^ h = s * (2 ^ h * 2) + 2 ^ h * 2 := by ring
  rw [hr0] at hge hle
  rw [hr1] at hmge hmle
  rw [hr2] at hnext
  rw [hpow] at hdiv hmod ⊢
  constructor
  · rw [hlow]
    exact hge.2 (by omega)
  · rw [hupp, ← not_le, hnext]
    omega
  · rw [hlow, le_antisymm_iff, hge, hle]
    omega
  · rw [hsum, mul_le_mul_iff_right₀ two_pos, hmge]
    omega
  · rw [hsum, mul_le_mul_iff_right₀ two_pos, hmle]
    omega

/-- A quotient rounded by its remainder. The significand `s` of the quotient may
also be one too small, where the remainder is less than one and a half divisors. -/
theorem nearestEven_of_quotient {s num den N : ℕ} (hden : 0 < den)
    (hx : x * den = num * 2 ^ e) (hlow : s * den ≤ num) (hup : 2 * num < (2 * s + 3) * den)
    (hs : s < 2 ^ (p + 1)) (hn : 2 ^ p ≤ s ∨ e = 0) (hN : e * 2 ^ p + s < N) :
    NearestEven (fun k => (mag p k : K)) N x
      (e * 2 ^ p + s + roundUp den (2 * (num - s * den)) (e * 2 ^ p + s)) := by
  obtain ⟨rest, hrest⟩ : ∃ rest, num = s * den + rest := ⟨num - s * den, by omega⟩
  have hsub : num - s * den = rest := by omega
  have hdenK : (0 : K) < den := by exact_mod_cast hden
  have hpe : (0 : K) < 2 ^ e := by positivity
  have hk : (mag p (e * 2 ^ p + s) : K) = s * 2 ^ e := by
    rw [mag_binade hs.le hn]
    push_cast
    rfl
  have hk1 : (mag p (e * 2 ^ p + s + 1) : K) = (s + 1) * 2 ^ e := by
    rw [mag_binade_succ hs hn]
    push_cast
    rfl
  -- `x` against a multiple of the scale is `num` against the multiple of `den`.
  have hge : ∀ c d : ℕ, (c : K) * 2 ^ e ≤ d * x ↔ c * den ≤ d * num := by
    intro c d
    rw [← mul_le_mul_iff_left₀ hdenK, mul_assoc (d : K), hx, mul_right_comm, ← mul_assoc (d : K),
      mul_le_mul_iff_left₀ hpe]
    exact_mod_cast Iff.rfl
  have hle : ∀ c d : ℕ, d * x ≤ (c : K) * 2 ^ e ↔ d * num ≤ c * den := by
    intro c d
    rw [← mul_le_mul_iff_left₀ hdenK, mul_assoc (d : K), hx, mul_right_comm (c : K),
      ← mul_assoc (d : K), mul_le_mul_iff_left₀ hpe]
    exact_mod_cast Iff.rfl
  have hge0 := hge s 1
  have hge1 := hge (s + 1) 1
  have hle0 := hle s 1
  have hgem := hge (2 * s + 1) 2
  have hlem := hle (2 * s + 1) 2
  push_cast at hge0 hge1 hle0 hgem hlem
  rw [one_mul, one_mul] at hge0 hge1 hle0
  have hsum : (s : K) * 2 ^ e + (s + 1) * 2 ^ e = (2 * s + 1) * 2 ^ e := by ring
  have h1 : (s + 1) * den = s * den + den := Nat.succ_mul s den
  have h2 : (2 * s + 1) * den = 2 * (s * den) + den := by ring
  have h3 : (2 * s + 3) * den = 2 * (s * den) + 3 * den := by ring
  rw [hsub]
  by_cases hfloor : num < (s + 1) * den
  · refine Located.nearest (cast_mag_strictMono p) ?_ hN
    constructor
    · rw [hk]
      exact hge0.2 hlow
    · rw [hk1, ← not_le, hge1, not_le]
      exact hfloor
    · rw [hk, le_antisymm_iff, hge0, hle0]
      omega
    · rw [hk, hk1, hsum, hgem]
      omega
    · rw [hk, hk1, hsum, hlem]
      omega
  · have hround : roundUp den (2 * rest) (e * 2 ^ p + s) = 1 := if_pos (by omega)
    have hlt : 2 * x < (2 * s + 3) * 2 ^ e := by
      have h := hge (2 * s + 3) 2
      push_cast at h
      rw [← not_le, h, not_le]
      exact hup
    have hk2 : ((s + 2 : ℕ) : K) * 2 ^ e ≤ mag p (e * 2 ^ p + s + 1 + 1) := by
      have hstep := mag_step (p := p) (e := e) hs hn
      exact_mod_cast hstep
    push_cast at hk2
    rw [hround]
    have htop : 2 * x < (s + 1) * 2 ^ e + mag p (e * 2 ^ p + s + 1 + 1) := by
      have hthree : ((2 : K) * s + 3) * 2 ^ e = (s + 1) * 2 ^ e + (s + 2) * 2 ^ e := by ring
      linarith
    refine NearestEven.of_lower (cast_mag_strictMono p) hN ?_ ?_ fun he => absurd he ?_
    · rw [hk1]
      exact hge1.2 (by omega)
    · rw [hk1]
      exact htop.le
    · rw [hk1]
      exact htop.ne

/-- The next code is further by at most a unit and the part `2 ^ -p`. -/
theorem mag_gap (p k : ℕ) : (mag p (k + 1) : K) - mag p k ≤ mag p k / 2 ^ p + 1 := by
  obtain ⟨e, s, rfl, hs, hn⟩ := exists_binade p k
  have hpos : (0 : K) < 2 ^ p := by positivity
  rw [mag_binade_succ hs hn, mag_binade hs.le hn]
  push_cast
  rcases hn with hlow | rfl
  · have hsK : (2 : K) ^ p ≤ s := by exact_mod_cast hlow
    have hle : (2 : K) ^ e ≤ s * 2 ^ e / 2 ^ p := by
      rw [le_div_iff₀ hpos, mul_comm]
      exact mul_le_mul_of_nonneg_right hsK (by positivity)
    linarith
  · have hle : (0 : K) ≤ s * 2 ^ 0 / 2 ^ p := by positivity
    rw [pow_zero] at hle ⊢
    linarith

/-- The rounding error, relative in a binade and absolute below the first one. -/
theorem NearestEven.error {N r : ℕ} (h : NearestEven (fun k => (mag p k : K)) N x r) (hr : r < N)
    (hx : 0 ≤ x) : |x - mag p r| ≤ x / 2 ^ (p + 1) + 1 / 2 := by
  have hmono : ∀ c : K, c ≤ x → (c / 2 ^ p + 1) / 2 ≤ x / 2 ^ (p + 1) + 1 / 2 := by
    intro c hc
    have hle : c / 2 ^ p ≤ x / 2 ^ p := div_le_div_of_nonneg_right hc (by positivity)
    have hexp : x / 2 ^ (p + 1) = x / 2 ^ p / 2 := by rw [pow_succ, div_div]
    linarith
  rcases le_or_gt (mag p r : K) x with hle | hlt
  · have hup := (h.upper hr).1
    have hgap := mag_gap (K := K) p r
    rw [abs_of_nonneg (sub_nonneg.2 hle)]
    refine le_trans ?_ (hmono _ hle)
    linarith
  · cases r with
    | zero =>
      rw [mag_zero, Nat.cast_zero] at hlt
      exact absurd hx (not_le.2 hlt)
    | succ k =>
      have hlow := (h.lower k rfl).1
      have hgap := mag_gap (K := K) p k
      have hk : (mag p k : K) < mag p (k + 1) := by exact_mod_cast mag_lt_succ p k
      rw [abs_of_nonpos (sub_nonpos.2 hlt.le)]
      refine le_trans ?_ (hmono (mag p k) (by linarith))
      linarith

end Rounding
end LlvmTms9900.Arith
