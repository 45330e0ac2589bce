import Mathlib

/-!
# Rounding to a point of a grid

The points `g 0 < g 1 < …` are numbered, and a tie goes to the even number. The
last point `N` stands for everything above it, so that an overflow is a number
that rounds to `N`.
-/

namespace LlvmTms9900.Arith

section Grid
variable {K : Type*} [Field K] [LinearOrder K] [IsStrictOrderedRing K]

/-- `x` lies between the midpoints on the two sides of the point `r`. -/
structure NearestEven (g : ℕ → K) (N : ℕ) (x : K) (r : ℕ) : Prop where
  le : r ≤ N
  lower : ∀ k, k + 1 = r → g k + g r ≤ 2 * x ∧ (g k + g r = 2 * x → Even r)
  upper : r < N → 2 * x ≤ g r + g (r + 1) ∧ (2 * x = g r + g (r + 1) → Even r)

variable {g : ℕ → K} {N r s : ℕ} {x y : K}

/-- Of two points the later one needs a number that is larger, or a tie that
only one of them may take. -/
theorem NearestEven.not_lt (hg : StrictMono g) (hr : NearestEven g N x r)
    (hs : NearestEven g N y s) (hxy : x ≤ y) : ¬ s < r := by
  intro hlt
  obtain ⟨k, hk⟩ : ∃ k, r = k + 1 := ⟨r - 1, by omega⟩
  have hlow := hr.lower k hk.symm
  have hup := hs.upper (lt_of_lt_of_le hlt hr.le)
  have h1 : g s ≤ g k := hg.monotone (by omega)
  have h2 : g (s + 1) ≤ g r := hg.monotone (by omega)
  have heq1 : 2 * y = g s + g (s + 1) := by linarith
  have heq2 : g k + g r = 2 * x := by linarith
  have hsk : s = k := hg.injective (by linarith)
  have hes := hup.2 heq1
  have her := hlow.2 heq2
  rw [hk, Nat.even_add_one] at her
  exact her (hsk ▸ hes)

theorem NearestEven.mono (hg : StrictMono g) (hr : NearestEven g N x r)
    (hs : NearestEven g N y s) (hxy : x ≤ y) : r ≤ s :=
  Nat.le_of_not_lt (hr.not_lt hg hs hxy)

theorem NearestEven.unique (hg : StrictMono g) (hr : NearestEven g N x r)
    (hs : NearestEven g N x s) : r = s :=
  le_antisymm (hr.mono hg hs le_rfl) (hs.mono hg hr le_rfl)

theorem NearestEven.exact (hg : StrictMono g) (hr : r ≤ N) : NearestEven g N (g r) r := by
  refine ⟨hr, fun k hk => ?_, fun _ => ?_⟩
  · have hlt : g k < g r := hg (by omega)
    exact ⟨by linarith, fun he => by linarith⟩
  · have hlt : g r < g (r + 1) := hg (by omega)
    exact ⟨by linarith, fun he => by linarith⟩

/-- A number that is a point rounds to nothing else. -/
theorem NearestEven.eq_of_exact (hg : StrictMono g) (h : NearestEven g N (g r) s) (hr : r ≤ N) :
    s = r :=
  h.unique hg (NearestEven.exact hg hr)

/-- The last point takes all that is above it. -/
theorem NearestEven.overflow (hg : StrictMono g) (h : g N ≤ x) : NearestEven g N x N := by
  refine ⟨le_rfl, fun k hk => ?_, fun hlt => absurd hlt (lt_irrefl N)⟩
  have hlt : g k < g N := hg (by omega)
  exact ⟨by linarith, fun he => by linarith⟩

omit [IsStrictOrderedRing K] in
/-- Below the first midpoint everything rounds to the first point. -/
theorem NearestEven.underflow (h : 2 * x ≤ g 0 + g 1) : NearestEven g N x 0 :=
  ⟨Nat.zero_le N, fun k hk => by omega, fun _ => ⟨h, fun _ => Even.zero⟩⟩

/-- Between two neighbours the lower one is right up to the midpoint. -/
theorem NearestEven.of_lower (hg : StrictMono g) (hr : r ≤ N) (hle : g r ≤ x)
    (hmid : 2 * x ≤ g r + g (r + 1)) (htie : 2 * x = g r + g (r + 1) → Even r) :
    NearestEven g N x r := by
  refine ⟨hr, fun k hk => ?_, fun _ => ⟨hmid, htie⟩⟩
  have hlt : g k < g r := hg (by omega)
  exact ⟨by linarith, fun he => by linarith⟩

/-- … and the upper one from it on. -/
theorem NearestEven.of_upper (hg : StrictMono g) (hr : r < N) (hle : x ≤ g (r + 1))
    (hmid : g r + g (r + 1) ≤ 2 * x) (htie : g r + g (r + 1) = 2 * x → ¬ Even r) :
    NearestEven g N x (r + 1) := by
  refine ⟨hr, fun k hk => ?_, fun _ => ?_⟩
  · obtain rfl : k = r := by omega
    exact ⟨hmid, fun he => Nat.even_add_one.2 (htie he)⟩
  · have hlt : g (r + 1) < g (r + 1 + 1) := hg (by omega)
    exact ⟨by linarith, fun he => by linarith⟩

/-- The last point that is not above `x`. -/
structure RoundDown (g : ℕ → K) (N : ℕ) (x : K) (r : ℕ) : Prop where
  le : r ≤ N
  ge : g r ≤ x
  lt : r < N → x < g (r + 1)

/-- The first point that is not below `x`. -/
structure RoundUp (g : ℕ → K) (N : ℕ) (x : K) (r : ℕ) : Prop where
  le : r ≤ N
  gt : ∀ k, k + 1 = r → g k < x
  ge : r < N → x ≤ g r

/-- What rounding adds to the number `k` for the lost bits `rest`, whose half is `half`. -/
def roundUp (half rest k : ℕ) : ℕ := if half < rest then 1 else if rest = half then k % 2 else 0

/-- `x` is at or after the point `k`, before the next one; `rest` says how far it
is, and `half` is the midpoint. -/
structure Located (g : ℕ → K) (x : K) (k half rest : ℕ) : Prop where
  ge : g k ≤ x
  lt : x < g (k + 1)
  exact : x = g k ↔ rest = 0
  ge_mid : g k + g (k + 1) ≤ 2 * x ↔ half ≤ rest
  le_mid : 2 * x ≤ g k + g (k + 1) ↔ rest ≤ half

section Located
variable {k half rest : ℕ}

theorem Located.nearest (hg : StrictMono g) (h : Located g x k half rest) (hN : k < N) :
    NearestEven g N x (k + roundUp half rest k) := by
  unfold roundUp
  split
  next hlt =>
    refine NearestEven.of_upper hg hN h.lt.le (h.ge_mid.2 hlt.le) fun he => ?_
    have hle := h.le_mid.1 he.ge
    omega
  next hnlt =>
    split
    next heq =>
      rcases Nat.mod_two_eq_zero_or_one k with hpar | hpar
      · rw [hpar]
        exact NearestEven.of_lower hg hN.le h.ge (h.le_mid.2 heq.le) fun _ => Nat.even_iff.2 hpar
      · rw [hpar]
        refine NearestEven.of_upper hg hN h.lt.le (h.ge_mid.2 heq.ge) fun _ => ?_
        rw [Nat.even_iff, hpar]
        exact one_ne_zero
    next hne =>
      refine NearestEven.of_lower hg hN.le h.ge (h.le_mid.2 (by omega)) fun he => ?_
      have hge := h.ge_mid.1 he.ge
      omega

omit [IsStrictOrderedRing K] in
theorem Located.down (h : Located g x k half rest) (hN : k < N) : RoundDown g N x k :=
  ⟨hN.le, h.ge, fun _ => h.lt⟩

omit [IsStrictOrderedRing K] in
theorem Located.up (hg : StrictMono g) (h : Located g x k half rest) (hN : k < N) :
    RoundUp g N x (k + if rest = 0 then 0 else 1) := by
  split
  next h0 =>
    refine ⟨hN.le, fun j hj => ?_, fun _ => (h.exact.2 h0).le⟩
    exact lt_of_lt_of_le (hg (by omega)) h.ge
  next h0 =>
    refine ⟨hN, fun j hj => ?_, fun _ => h.lt.le⟩
    obtain rfl : j = k := by omega
    exact lt_of_le_of_ne h.ge fun he => h0 (h.exact.1 he.symm)

end Located

end Grid
end LlvmTms9900.Arith
