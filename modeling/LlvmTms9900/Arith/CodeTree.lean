import Mathlib

/-!
# Binary code trees

A code tree has the symbols at its leaves; the path from the root to a leaf is
the code of its symbol. Trees that are built by joining two of the lightest
trees again and again cannot be deep: their weight is at least a Fibonacci
number of their height.
-/

namespace LlvmTms9900.Arith

inductive CodeTree (α : Type) where
  | leaf (a : α)
  | node (l r : CodeTree α)
  deriving DecidableEq, Repr

namespace CodeTree

variable {α : Type}

def leaves : CodeTree α → List α
  | leaf a => [a]
  | node l r => l.leaves ++ r.leaves

def height : CodeTree α → ℕ
  | leaf _ => 0
  | node l r => max l.height r.height + 1

/-- The symbols with their codes; `false` goes left. -/
def paths : CodeTree α → List (α × List Bool)
  | leaf a => [(a, [])]
  | node l r =>
    (l.paths.map fun x => (x.1, false :: x.2)) ++ (r.paths.map fun x => (x.1, true :: x.2))

theorem mem_paths_node {l r : CodeTree α} {a : α} {p : List Bool} :
    (a, p) ∈ (node l r).paths ↔
      (∃ q, p = false :: q ∧ (a, q) ∈ l.paths) ∨ ∃ q, p = true :: q ∧ (a, q) ∈ r.paths := by
  simp only [paths, List.mem_append, List.mem_map, Prod.mk.injEq, Prod.exists]
  constructor
  · rintro (⟨b, q, hq, rfl, rfl⟩ | ⟨b, q, hq, rfl, rfl⟩)
    · exact .inl ⟨q, rfl, hq⟩
    · exact .inr ⟨q, rfl, hq⟩
  · rintro (⟨q, rfl, hq⟩ | ⟨q, rfl, hq⟩)
    · exact .inl ⟨a, q, hq, rfl, rfl⟩
    · exact .inr ⟨a, q, hq, rfl, rfl⟩

theorem mem_leaves_iff (t : CodeTree α) (a : α) : a ∈ t.leaves ↔ ∃ p, (a, p) ∈ t.paths := by
  induction t with
  | leaf b => simp [leaves, paths]
  | node l r ihl ihr =>
    simp only [leaves, List.mem_append, ihl, ihr, mem_paths_node]
    constructor
    · rintro (⟨p, hp⟩ | ⟨p, hp⟩)
      · exact ⟨_, .inl ⟨p, rfl, hp⟩⟩
      · exact ⟨_, .inr ⟨p, rfl, hp⟩⟩
    · rintro ⟨p, ⟨q, -, hq⟩ | ⟨q, -, hq⟩⟩
      · exact .inl ⟨q, hq⟩
      · exact .inr ⟨q, hq⟩

theorem paths_fst (t : CodeTree α) : t.paths.map Prod.fst = t.leaves := by
  induction t with
  | leaf a => rfl
  | node l r ihl ihr =>
    rw [paths, leaves, List.map_append, List.map_map, List.map_map, ← ihl, ← ihr]
    rfl

/-- Only a tree that is one leaf has an empty path. -/
theorem leaves_of_empty_path {t : CodeTree α} {a : α} (h : (a, []) ∈ t.paths) :
    t.leaves = [a] := by
  cases t with
  | leaf b =>
    simp only [paths, List.mem_singleton, Prod.mk.injEq, and_true] at h
    rw [leaves, h]
  | node l r =>
    rcases mem_paths_node.1 h with ⟨q, hq, -⟩ | ⟨q, hq, -⟩
    · exact absurd hq.symm (List.cons_ne_nil _ q)
    · exact absurd hq.symm (List.cons_ne_nil _ q)

theorem path_length_le {t : CodeTree α} {a : α} {p : List Bool} (h : (a, p) ∈ t.paths) :
    p.length ≤ t.height := by
  induction t generalizing p with
  | leaf b =>
    simp only [paths, List.mem_singleton, Prod.mk.injEq] at h
    rw [h.2]
    exact Nat.zero_le _
  | node l r ihl ihr =>
    rcases mem_paths_node.1 h with ⟨q, rfl, hq⟩ | ⟨q, rfl, hq⟩
    · have hle := ihl hq
      simp only [List.length_cons, height]
      omega
    · have hle := ihr hq
      simp only [List.length_cons, height]
      omega

/-- No code is a proper prefix of another. -/
theorem prefix_free {t : CodeTree α} {a b : α} {p q : List Bool} (ha : (a, p) ∈ t.paths)
    (hb : (b, q) ∈ t.paths) (h : p <+: q) : a = b ∧ p = q := by
  induction t generalizing p q with
  | leaf c =>
    simp only [paths, List.mem_singleton, Prod.mk.injEq] at ha hb
    rw [ha.1, ha.2, hb.1, hb.2]
    exact ⟨rfl, rfl⟩
  | node l r ihl ihr =>
    rcases mem_paths_node.1 ha with ⟨p', rfl, hp⟩ | ⟨p', rfl, hp⟩ <;>
      rcases mem_paths_node.1 hb with ⟨q', rfl, hq⟩ | ⟨q', rfl, hq⟩ <;>
      rw [List.cons_prefix_cons] at h
    · obtain ⟨hab, hpq⟩ := ihl hp hq h.2
      exact ⟨hab, by rw [hpq]⟩
    · exact absurd h.1 Bool.false_ne_true
    · exact absurd h.1.symm Bool.false_ne_true
    · obtain ⟨hab, hpq⟩ := ihr hp hq h.2
      exact ⟨hab, by rw [hpq]⟩

/-- A symbol that labels one leaf has one code. -/
theorem path_unique {t : CodeTree α} (hnd : t.leaves.Nodup) {a : α} {p q : List Bool}
    (hp : (a, p) ∈ t.paths) (hq : (a, q) ∈ t.paths) : p = q := by
  induction t generalizing p q with
  | leaf c =>
    simp only [paths, List.mem_singleton, Prod.mk.injEq] at hp hq
    rw [hp.2, hq.2]
  | node l r ihl ihr =>
    simp only [leaves, List.nodup_append] at hnd
    rcases mem_paths_node.1 hp with ⟨p', rfl, hp'⟩ | ⟨p', rfl, hp'⟩ <;>
      rcases mem_paths_node.1 hq with ⟨q', rfl, hq'⟩ | ⟨q', rfl, hq'⟩
    · rw [ihl hnd.1 hp' hq']
    · exact absurd rfl (hnd.2.2 a ((mem_leaves_iff l a).2 ⟨_, hp'⟩) a
        ((mem_leaves_iff r a).2 ⟨_, hq'⟩))
    · exact absurd rfl (hnd.2.2 a ((mem_leaves_iff l a).2 ⟨_, hq'⟩) a
        ((mem_leaves_iff r a).2 ⟨_, hp'⟩))
    · rw [ihr hnd.2.1 hp' hq']

section Weight
variable (w : α → ℕ)

def weight : CodeTree α → ℕ
  | leaf a => w a
  | node l r => l.weight + r.weight

/-- The weight of the heavier child. -/
def heaviest : CodeTree α → ℕ
  | leaf _ => 0
  | node l r => max (l.weight w) (r.weight w)

/-- The tree and its heavier child weigh at least a Fibonacci number. -/
structure Tall (t : CodeTree α) : Prop where
  weight : Nat.fib (t.height + 2) ≤ t.weight w
  child : t.height ≠ 0 → Nat.fib (t.height + 1) ≤ t.heaviest w

variable {w}

theorem tall_leaf {a : α} (h : 1 ≤ w a) : Tall w (leaf a) := ⟨h, fun h0 => absurd rfl h0⟩

/-- Joining two trees of which each weighs as much as the children of the other. -/
theorem Tall.node {l r : CodeTree α} (hl : Tall w l) (hr : Tall w r)
    (hlr : l.heaviest w ≤ r.weight w) (hrl : r.heaviest w ≤ l.weight w) : Tall w (node l r) := by
  have key : ∀ {x y : CodeTree α}, Tall w x → Tall w y → x.heaviest w ≤ y.weight w →
      y.height ≤ x.height →
      Nat.fib (x.height + 3) ≤ x.weight w + y.weight w ∧ Nat.fib (x.height + 2) ≤ x.weight w := by
    intro x y hx hy hxy hle
    refine ⟨?_, hx.weight⟩
    have hfib : Nat.fib (x.height + 3) = Nat.fib (x.height + 1) + Nat.fib (x.height + 2) :=
      Nat.fib_add_two
    have hxw := hx.weight
    by_cases h0 : x.height = 0
    · have hyw := hy.weight
      rw [show y.height = 0 by omega] at hyw
      rw [h0] at hfib hxw ⊢
      simp only [Nat.zero_add, Nat.fib_two, Nat.fib_one] at hfib hxw hyw ⊢
      omega
    · have hchild := hx.child h0
      omega
  rcases Nat.le_total r.height l.height with hle | hle
  · obtain ⟨h3, h2⟩ := key hl hr hlr hle
    have hh : (CodeTree.node l r).height = l.height + 1 := by
      rw [height, Nat.max_eq_left hle]
    refine ⟨?_, fun _ => ?_⟩
    · rw [hh]
      exact h3
    · rw [hh]
      exact h2.trans (Nat.le_max_left _ _)
  · obtain ⟨h3, h2⟩ := key hr hl hrl hle
    have hh : (CodeTree.node l r).height = r.height + 1 := by
      rw [height, Nat.max_eq_right hle]
    refine ⟨?_, fun _ => ?_⟩
    · rw [hh, CodeTree.weight, Nat.add_comm (l.weight w)]
      exact h3
    · rw [hh]
      exact h2.trans (Nat.le_max_right _ _)

/-- A forest in which every tree weighs as much as the children of any other. -/
structure Merging {ι : Type} (w : α → ℕ) (act : Finset ι) (T : ι → CodeTree α) : Prop where
  tall : ∀ i ∈ act, Tall w (T i)
  apart : ∀ i ∈ act, ∀ j ∈ act, i ≠ j → (T i).heaviest w ≤ (T j).weight w

/-- Joining two of the lightest trees keeps the forest so. -/
theorem Merging.join {ι : Type} [DecidableEq ι] {act : Finset ι} {T : ι → CodeTree α}
    (h : Merging w act T) {i j n : ι} (hi : i ∈ act) (hj : j ∈ act) (hij : i ≠ j) (hn : n ∉ act)
    (hmin : ∀ k ∈ act, k ≠ i → k ≠ j →
      (T i).weight w ≤ (T k).weight w ∧ (T j).weight w ≤ (T k).weight w) :
    Merging w (insert n ((act.erase i).erase j))
      (Function.update T n (CodeTree.node (T i) (T j))) := by
  have hrest : ∀ k ∈ (act.erase i).erase j, k ∈ act ∧ k ≠ i ∧ k ≠ j ∧ k ≠ n := by
    intro k hk
    obtain ⟨hkj, hk⟩ := Finset.mem_erase.1 hk
    obtain ⟨hki, hk⟩ := Finset.mem_erase.1 hk
    exact ⟨hk, hki, hkj, fun he => hn (he ▸ hk)⟩
  constructor
  · intro k hk
    rcases Finset.mem_insert.1 hk with rfl | hk
    · rw [Function.update_self]
      exact (h.tall i hi).node (h.tall j hj) (h.apart i hi j hj hij) (h.apart j hj i hi hij.symm)
    · obtain ⟨hka, -, -, hkn⟩ := hrest k hk
      rw [Function.update_of_ne hkn]
      exact h.tall k hka
  · intro k hk m hm hkm
    rcases Finset.mem_insert.1 hk with hkn | hk1 <;> rcases Finset.mem_insert.1 hm with hmn | hm1
    · exact absurd (hkn.trans hmn.symm) hkm
    · obtain ⟨hma, hmi, hmj, hmn⟩ := hrest m hm1
      rw [hkn, Function.update_self, Function.update_of_ne hmn, heaviest]
      exact Nat.max_le.2 (hmin m hma hmi hmj)
    · obtain ⟨hka, hki, hkj, hkn⟩ := hrest k hk1
      rw [hmn, Function.update_self, Function.update_of_ne hkn, weight]
      exact (h.apart k hka i hi hki).trans (Nat.le_add_right _ _)
    · obtain ⟨hka, -, -, hkn⟩ := hrest k hk1
      obtain ⟨hma, -, -, hmn⟩ := hrest m hm1
      rw [Function.update_of_ne hkn, Function.update_of_ne hmn]
      exact h.apart k hka m hma hkm

/-- A sum with two of its terms taken out. -/
theorem sum_pair {ι M : Type} [DecidableEq ι] [AddCommMonoid M] (f : ι → M) {act : Finset ι}
    {i j : ι} (hi : i ∈ act) (hj : j ∈ act) (hij : i ≠ j) :
    ∑ k ∈ act, f k = f i + f j + ∑ k ∈ (act.erase i).erase j, f k := by
  have hj' : j ∈ act.erase i := Finset.mem_erase.2 ⟨hij.symm, hj⟩
  rw [← Finset.add_sum_erase act _ hi, ← Finset.add_sum_erase (act.erase i) _ hj', add_assoc]

/-- What adds up over the forest is unchanged by joining two trees. -/
theorem sum_join {ι M : Type} [DecidableEq ι] [AddCommMonoid M] (f : CodeTree α → M)
    (hf : ∀ l r, f (CodeTree.node l r) = f l + f r) {act : Finset ι} {T : ι → CodeTree α}
    {i j n : ι}
    (hi : i ∈ act) (hj : j ∈ act) (hij : i ≠ j) (hn : n ∉ act) :
    ∑ k ∈ insert n ((act.erase i).erase j),
        f (Function.update T n (CodeTree.node (T i) (T j)) k) = ∑ k ∈ act, f (T k) := by
  have hn' : n ∉ (act.erase i).erase j := fun h =>
    hn (Finset.mem_of_mem_erase (Finset.mem_of_mem_erase h))
  rw [Finset.sum_insert hn', Function.update_self, hf, sum_pair (fun k => f (T k)) hi hj hij]
  congr 1
  refine Finset.sum_congr rfl fun k hk => ?_
  rw [Function.update_of_ne]
  rintro rfl
  exact hn' hk

end Weight

end CodeTree

end LlvmTms9900.Arith
