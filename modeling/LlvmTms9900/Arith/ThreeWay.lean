import Mathlib

/-!
# Three-way comparison at the first difference

A comparison function with a signed result orders its arguments as their keys
are ordered. Two lists are compared at the first position where they differ;
where neither is a proper prefix of the other this is the lexicographic order.
-/

namespace LlvmTms9900.Arith

section Order
variable {α β : Type} [LinearOrder β]

/-- The sign of `cmp a b` says how `key a` and `key b` are ordered. -/
structure ThreeWay (cmp : α → α → ℤ) (key : α → β) : Prop where
  neg : ∀ a b, cmp a b < 0 ↔ key a < key b
  pos : ∀ a b, 0 < cmp a b ↔ key b < key a

variable {cmp : α → α → ℤ} {key : α → β}

theorem ThreeWay.nonpos (h : ThreeWay cmp key) (a b : α) : cmp a b ≤ 0 ↔ key a ≤ key b := by
  rw [← not_lt, h.pos, not_lt]

theorem ThreeWay.zero (h : ThreeWay cmp key) (a b : α) : cmp a b = 0 ↔ key a = key b := by
  have h1 := h.nonpos a b
  have h2 := h.neg a b
  constructor
  · intro he
    exact le_antisymm (h1.1 he.le) (not_lt.1 fun hlt => absurd (h2.2 hlt) (by omega))
  · intro he
    have hle := h1.2 he.le
    have hnlt : ¬ cmp a b < 0 := fun hlt => absurd (h2.1 hlt) he.not_lt
    omega

theorem ThreeWay.antisymm (h : ThreeWay cmp key) (a b : α) : cmp a b < 0 ↔ 0 < cmp b a := by
  rw [h.neg, h.pos]

theorem ThreeWay.trans (h : ThreeWay cmp key) {a b c : α} (hab : cmp a b ≤ 0) (hbc : cmp b c ≤ 0) :
    cmp a c ≤ 0 := by
  rw [h.nonpos] at hab hbc ⊢
  exact hab.trans hbc

/-- What a sort or a search tree asks of a comparison function. -/
structure Consistent (cmp : α → α → ℤ) : Prop where
  swap : ∀ a b, cmp a b < 0 ↔ 0 < cmp b a
  trans : ∀ a b c, cmp a b ≤ 0 → cmp b c ≤ 0 → cmp a c ≤ 0

theorem ThreeWay.consistent (h : ThreeWay cmp key) : Consistent cmp :=
  ⟨h.antisymm, fun _ _ _ => h.trans⟩

theorem ThreeWay.comp {γ : Type} (h : ThreeWay cmp key) (f : γ → α) :
    ThreeWay (fun a b => cmp (f a) (f b)) fun a => key (f a) :=
  ⟨fun a b => h.neg (f a) (f b), fun a b => h.pos (f a) (f b)⟩

end Order

section Lists
variable {α : Type} [DecidableEq α] (v : α → ℕ)

/-- The difference of the values at the first position where the lists differ. -/
def firstDiff : List α → List α → ℤ
  | a :: x, b :: y => if a = b then firstDiff x y else (v a : ℤ) - v b
  | _, _ => 0

/-- Neither list goes on where the other ends. -/
def Parted (x y : List α) : Prop := (x <+: y → x = y) ∧ (y <+: x → x = y)

omit [DecidableEq α] in
theorem Parted.symm {x y : List α} (h : Parted x y) : Parted y x :=
  ⟨fun hp => (h.2 hp).symm, fun hp => (h.1 hp).symm⟩

omit [DecidableEq α] in
theorem Parted.of_length_eq {x y : List α} (h : x.length = y.length) : Parted x y :=
  ⟨fun hp => hp.eq_of_length h, fun hp => (hp.eq_of_length h.symm).symm⟩

omit [DecidableEq α] in
theorem Parted.tail {a : α} {x y : List α} (h : Parted (a :: x) (a :: y)) : Parted x y := by
  constructor
  · intro hp
    exact (List.cons.inj (h.1 (List.cons_prefix_cons.2 ⟨rfl, hp⟩))).2
  · intro hp
    exact (List.cons.inj (h.2 (List.cons_prefix_cons.2 ⟨rfl, hp⟩))).2

variable {v}

theorem firstDiff_swap (x y : List α) : firstDiff v y x = -firstDiff v x y := by
  induction x generalizing y with
  | nil => cases y <;> rfl
  | cons a x ih =>
    cases y with
    | nil => rfl
    | cons b y =>
      rw [firstDiff, firstDiff]
      by_cases hab : a = b
      · rw [if_pos hab, if_pos hab.symm, ih]
      · rw [if_neg hab, if_neg (Ne.symm hab)]
        omega

theorem firstDiff_neg (hv : Function.Injective v) {x y : List α} (h : Parted x y) :
    firstDiff v x y < 0 ↔ x.map v < y.map v := by
  induction x generalizing y with
  | nil =>
    cases y with
    | nil => simp [firstDiff]
    | cons b y => exact absurd (h.1 List.nil_prefix) (by simp)
  | cons a x ih =>
    cases y with
    | nil => exact absurd (h.2 List.nil_prefix) (by simp)
    | cons b y =>
      rw [firstDiff, List.map_cons, List.map_cons, List.cons_lt_cons_iff]
      by_cases hab : a = b
      · subst hab
        rw [if_pos rfl, ih h.tail]
        simp
      · have hne : v a ≠ v b := fun he => hab (hv he)
        rw [if_neg hab]
        constructor
        · intro hlt
          exact .inl (by omega)
        · rintro (hlt | ⟨he, -⟩)
          · omega
          · exact absurd he hne

theorem firstDiff_pos (hv : Function.Injective v) {x y : List α} (h : Parted x y) :
    0 < firstDiff v x y ↔ y.map v < x.map v := by
  rw [← firstDiff_neg hv h.symm, firstDiff_swap]
  omega

end Lists
end LlvmTms9900.Arith
