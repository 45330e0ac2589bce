import Mathlib

/-!
# Numbers on the same side of every multiple

A number that is only compared with multiples of `2 ^ n` may be replaced by any
other between the same two of them. A right shift that keeps a sticky bit is
such a replacement.
-/

namespace LlvmTms9900.Arith

section Side
variable {K : Type*} [Field K] [LinearOrder K]

/-- `x` and `y` are ordered alike against every multiple of `2 ^ n`. -/
structure SameSide (n : ℕ) (x y : K) : Prop where
  lt : ∀ m : ℤ, x < m * 2 ^ n ↔ y < m * 2 ^ n
  gt : ∀ m : ℤ, m * 2 ^ n < x ↔ m * 2 ^ n < y

variable {n k : ℕ} {x y z : K}

theorem SameSide.refl (n : ℕ) (x : K) : SameSide n x x :=
  ⟨fun _ => Iff.rfl, fun _ => Iff.rfl⟩

theorem SameSide.trans (h : SameSide n x y) (h' : SameSide n y z) : SameSide n x z :=
  ⟨fun m => (h.lt m).trans (h'.lt m), fun m => (h.gt m).trans (h'.gt m)⟩

theorem SameSide.le (h : SameSide n x y) (m : ℤ) : x ≤ m * 2 ^ n ↔ y ≤ m * 2 ^ n := by
  rw [← not_lt, h.gt, not_lt]

theorem SameSide.ge (h : SameSide n x y) (m : ℤ) : m * 2 ^ n ≤ x ↔ m * 2 ^ n ≤ y := by
  rw [← not_lt, h.lt, not_lt]

theorem SameSide.eq (h : SameSide n x y) (m : ℤ) : x = m * 2 ^ n ↔ y = m * 2 ^ n := by
  rw [le_antisymm_iff, le_antisymm_iff, h.le, h.ge]

/-- The multiples of a higher power are multiples. -/
theorem SameSide.mono (h : SameSide n x y) (hk : n ≤ k) : SameSide k x y := by
  have hpow : ∀ m : ℤ, (m : K) * 2 ^ k = ((m * 2 ^ (k - n) : ℤ) : K) * 2 ^ n := by
    intro m
    push_cast
    rw [mul_assoc, ← pow_add, Nat.sub_add_cancel hk]
  constructor
  · intro m
    rw [hpow]
    exact h.lt _
  · intro m
    rw [hpow]
    exact h.gt _

variable [IsStrictOrderedRing K]

theorem SameSide.scale (h : SameSide n x y) (k : ℕ) : SameSide (n + k) (x * 2 ^ k) (y * 2 ^ k) := by
  have hpos : (0 : K) < 2 ^ k := by positivity
  constructor
  · intro m
    rw [pow_add, ← mul_assoc, mul_lt_mul_iff_left₀ hpos, mul_lt_mul_iff_left₀ hpos]
    exact h.lt m
  · intro m
    rw [pow_add, ← mul_assoc, mul_lt_mul_iff_left₀ hpos, mul_lt_mul_iff_left₀ hpos]
    exact h.gt m

theorem SameSide.divide (h : SameSide (n + k) x y) : SameSide n (x / 2 ^ k) (y / 2 ^ k) := by
  have hpos : (0 : K) < 2 ^ k := by positivity
  constructor
  · intro m
    rw [div_lt_iff₀ hpos, div_lt_iff₀ hpos, mul_assoc, ← pow_add]
    exact h.lt m
  · intro m
    rw [lt_div_iff₀ hpos, lt_div_iff₀ hpos, mul_assoc, ← pow_add]
    exact h.gt m

theorem SameSide.neg (h : SameSide n x y) : SameSide n (-x) (-y) := by
  have hneg : ∀ m : ℤ, (m : K) * 2 ^ n = -((-m : ℤ) * 2 ^ n) := by
    intro m
    push_cast
    ring
  constructor
  · intro m
    rw [hneg, neg_lt_neg_iff, neg_lt_neg_iff]
    exact h.gt _
  · intro m
    rw [hneg, neg_lt_neg_iff, neg_lt_neg_iff]
    exact h.lt _

/-- A multiple can be added. -/
theorem SameSide.add (h : SameSide n x y) (a : ℤ) :
    SameSide n (a * 2 ^ n + x) (a * 2 ^ n + y) := by
  have hsub : ∀ m : ℤ, ((m - a : ℤ) : K) * 2 ^ n = m * 2 ^ n - a * 2 ^ n := by
    intro m
    push_cast
    ring
  constructor
  · intro m
    have hm := h.lt (m - a)
    rw [hsub, lt_sub_iff_add_lt', lt_sub_iff_add_lt'] at hm
    exact hm
  · intro m
    have hm := h.gt (m - a)
    rw [hsub, sub_lt_iff_lt_add', sub_lt_iff_lt_add'] at hm
    exact hm

theorem SameSide.sub (h : SameSide n x y) (a : ℤ) :
    SameSide n (a * 2 ^ n - x) (a * 2 ^ n - y) := by
  rw [sub_eq_add_neg, sub_eq_add_neg]
  exact h.neg.add a

/-- Between two neighbouring multiples all numbers are alike. -/
theorem SameSide.of_between {a : ℤ} (hx : a * 2 ^ n < x) (hx' : x < (a + 1) * 2 ^ n)
    (hy : a * 2 ^ n < y) (hy' : y < (a + 1) * 2 ^ n) : SameSide n x y := by
  have hpos : (0 : K) < 2 ^ n := by positivity
  have hup : ∀ m : ℤ, a + 1 ≤ m → ((a : K) + 1) * 2 ^ n ≤ m * 2 ^ n := by
    intro m hm
    have hle : ((a + 1 : ℤ) : K) ≤ m := by exact_mod_cast hm
    push_cast at hle
    exact mul_le_mul_of_nonneg_right hle hpos.le
  have hlow : ∀ m : ℤ, m ≤ a → (m : K) * 2 ^ n ≤ a * 2 ^ n := by
    intro m hm
    have hle : (m : K) ≤ a := by exact_mod_cast hm
    exact mul_le_mul_of_nonneg_right hle hpos.le
  constructor
  · intro m
    rcases le_or_gt m a with hm | hm
    · exact iff_of_false (not_lt.2 ((hlow m hm).trans hx.le)) (not_lt.2 ((hlow m hm).trans hy.le))
    · exact iff_of_true (hx'.trans_le (hup m hm)) (hy'.trans_le (hup m hm))
  · intro m
    rcases le_or_gt m a with hm | hm
    · exact iff_of_true ((hlow m hm).trans_lt hx) ((hlow m hm).trans_lt hy)
    · exact iff_of_false (not_lt.2 (hx'.le.trans (hup m hm)))
        (not_lt.2 (hy'.le.trans (hup m hm)))

end Side

section Sticky
variable {K : Type*} [Field K] [LinearOrder K] [IsStrictOrderedRing K]

/-- The right shift whose last bit also says whether a bit was lost. -/
def jam (k G : ℕ) : ℕ := G / 2 ^ k ||| if G % 2 ^ k = 0 then 0 else 1

theorem jam_eq (k G : ℕ) :
    jam k G = if G % 2 ^ k = 0 then G / 2 ^ k else G / 2 ^ k / 2 * 2 + 1 := by
  unfold jam
  split
  · exact Nat.or_zero _
  · apply Nat.eq_of_testBit_eq
    intro i
    cases i with
    | zero => simp
    | succ i =>
      have hdiv : (G / 2 ^ k / 2 * 2 + 1) / 2 = G / 2 ^ k / 2 := by omega
      rw [Nat.testBit_succ, Nat.testBit_succ, Nat.or_div_two, hdiv, Nat.or_zero]

theorem jam_le (k G : ℕ) : jam k G ≤ G / 2 ^ k + 1 := by
  rw [jam_eq]
  split <;> omega

/-- The sticky bit keeps the side of every even number. -/
theorem SameSide.jam (k G : ℕ) : SameSide 1 ((G : K) / 2 ^ k) (Arith.jam k G : ℕ) := by
  have hpos : (0 : K) < 2 ^ k := by positivity
  have hdiv : 2 ^ k * (G / 2 ^ k) + G % 2 ^ k = G := Nat.div_add_mod G _
  rw [jam_eq]
  split
  next h0 =>
    have hval : (G : K) / 2 ^ k = (G / 2 ^ k : ℕ) := by
      rw [div_eq_iff hpos.ne']
      rw [h0] at hdiv
      exact_mod_cast (by rw [Nat.mul_comm]; exact hdiv.symm : G = G / 2 ^ k * 2 ^ k)
    rw [hval]
    exact SameSide.refl 1 _
  next h0 =>
    have hlt : G % 2 ^ k < 2 ^ k := Nat.mod_lt _ (Nat.two_pow_pos k)
    obtain ⟨q, hq⟩ : ∃ q, q = G / 2 ^ k / 2 := ⟨_, rfl⟩
    rw [← hq]
    have hcomm := Nat.mul_comm (2 ^ k) (G / 2 ^ k)
    have hlow : q * 2 * 2 ^ k < G := by
      have hle : q * 2 * 2 ^ k ≤ G / 2 ^ k * 2 ^ k := Nat.mul_le_mul_right _ (by omega)
      omega
    have hup : G < (q + 1) * 2 * 2 ^ k := by
      have hle : (G / 2 ^ k + 1) * 2 ^ k ≤ (q + 1) * 2 * 2 ^ k :=
        Nat.mul_le_mul_right _ (by omega)
      have hsucc : (G / 2 ^ k + 1) * 2 ^ k = G / 2 ^ k * 2 ^ k + 2 ^ k := by ring
      omega
    refine SameSide.of_between (a := (q : ℤ)) ?_ ?_ ?_ ?_
    · rw [lt_div_iff₀ hpos]
      exact_mod_cast hlow
    · rw [div_lt_iff₀ hpos]
      exact_mod_cast hup
    · push_cast
      linarith
    · push_cast
      linarith

end Sticky
end LlvmTms9900.Arith
