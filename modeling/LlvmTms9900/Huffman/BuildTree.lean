import LlvmTms9900.Arith.PrefixCost
import LlvmTms9900.Huffman.LeastTwo

/-!
# The tree

The nodes not consumed are the roots of a forest whose leaves are the symbols.
Each pass of `build_tree` joins the two lightest trees; when one is left it has
every symbol, and it is not deep.
-/

namespace LlvmTms9900.Huffman

open LlvmTms9900.Arith
open LlvmTms9900.Arith.CodeTree (Frugal Merging Tall)

/-- The node that the bits of `w` lead to, 0 to the left; `none` when there is
no child on the way. -/
def descend (nodes : ℕ → HuffNode) : ℕ → List Bool → Option ℕ
  | i, [] => some i
  | i, b :: w =>
    let next := if b then (nodes i).right else (nodes i).left
    if next = 0xFF then none else descend nodes next w

section Rep
variable {nodes nodes' : ℕ → HuffNode} {n n' : ℕ}

/-- The nodes below `n` hold the tree at index `i`. -/
def Rep (nodes : ℕ → HuffNode) (n : ℕ) : CodeTree ℕ → ℕ → Prop
  | .leaf k, i => i = k ∧ i < n ∧ (nodes i).left = 0xFF ∧ (nodes i).right = 0xFF
  | .node l r, i => i < n ∧ Rep nodes n l (nodes i).left ∧ Rep nodes n r (nodes i).right

theorem Rep.lt {t : CodeTree ℕ} {i : ℕ} (h : Rep nodes n t i) : i < n := by
  cases t with
  | leaf k => exact h.2.1
  | node l r => exact h.1

/-- The links of the nodes below `n`, not their frequencies. -/
def SameLinks (nodes nodes' : ℕ → HuffNode) (n : ℕ) : Prop :=
  ∀ k < n, (nodes' k).left = (nodes k).left ∧ (nodes' k).right = (nodes k).right

theorem Rep.congr (hs : SameLinks nodes nodes' n) (hn : n ≤ n') {t : CodeTree ℕ} {i : ℕ}
    (h : Rep nodes n t i) : Rep nodes' n' t i := by
  induction t generalizing i with
  | leaf k =>
    obtain ⟨hik, hi, hl, hr⟩ := h
    exact ⟨hik, hi.trans_le hn, (hs i hi).1.trans hl, (hs i hi).2.trans hr⟩
  | node l r ihl ihr =>
    obtain ⟨hi, hl, hr⟩ := h
    refine ⟨hi.trans_le hn, ?_, ?_⟩
    · rw [(hs i hi).1]
      exact ihl hl
    · rw [(hs i hi).2]
      exact ihr hr

theorem Rep.descend_congr (hs : SameLinks nodes nodes' n) {w : List Bool} {t : CodeTree ℕ}
    {i : ℕ} (h : Rep nodes n t i) : descend nodes' i w = descend nodes i w := by
  induction w generalizing t i with
  | nil => rfl
  | cons b w ih =>
    obtain ⟨hsl, hsr⟩ := hs i h.lt
    simp only [descend, hsl, hsr]
    cases t with
    | leaf k =>
      obtain ⟨-, -, hl, hr⟩ := h
      rw [hl, hr, ite_self, if_pos rfl, if_pos rfl]
    | node l r =>
      obtain ⟨-, hl, hr⟩ := h
      cases b with
      | false => rw [if_neg Bool.false_ne_true, ih hl]
      | true => rw [if_pos rfl, ih hr]

/-- A descent does not leave the nodes in use. -/
theorem Rep.descend_lt {w : List Bool} {t : CodeTree ℕ} {i k : ℕ} (h : Rep nodes n t i)
    (hk : descend nodes i w = some k) : k < n := by
  induction w generalizing t i with
  | nil =>
    rw [descend, Option.some.injEq] at hk
    exact hk ▸ h.lt
  | cons b w ih =>
    rw [descend] at hk
    cases t with
    | leaf j =>
      obtain ⟨-, -, hl, hr⟩ := h
      rw [hl, hr, ite_self, if_pos rfl] at hk
      exact absurd hk.symm (Option.some_ne_none k)
    | node l r =>
      obtain ⟨-, hl, hr⟩ := h
      cases b with
      | false =>
        rw [if_neg Bool.false_ne_true] at hk
        by_cases hff : (nodes i).left = 0xFF
        · rw [if_pos hff] at hk
          exact absurd hk.symm (Option.some_ne_none k)
        · rw [if_neg hff] at hk
          exact ih hl hk
      | true =>
        rw [if_pos rfl] at hk
        by_cases hff : (nodes i).right = 0xFF
        · rw [if_pos hff] at hk
          exact absurd hk.symm (Option.some_ne_none k)
        · rw [if_neg hff] at hk
          exact ih hr hk

/-- The path of a leaf leads to it. -/
theorem Rep.descend_path (hn : n ≤ 0xFF) {t : CodeTree ℕ} {i k : ℕ} {p : List Bool}
    (h : Rep nodes n t i) (hp : (k, p) ∈ t.paths) : descend nodes i p = some k := by
  induction t generalizing i p with
  | leaf j =>
    simp only [CodeTree.paths, List.mem_singleton, Prod.mk.injEq] at hp
    rw [hp.1, hp.2, ← h.1, descend]
  | node l r ihl ihr =>
    obtain ⟨-, hl, hr⟩ := h
    have hlt := hl.lt
    have hrt := hr.lt
    rcases CodeTree.mem_paths_node.1 hp with ⟨q, rfl, hq⟩ | ⟨q, rfl, hq⟩
    · rw [descend, if_neg Bool.false_ne_true, if_neg (by omega)]
      exact ihl hl hq
    · rw [descend, if_pos rfl, if_neg (by omega)]
      exact ihr hr hq

/-- A node without children. -/
def IsLeaf (n : HuffNode) : Prop := n.left = 0xFF ∧ n.right = 0xFF

theorem Rep.isLeaf {t : CodeTree ℕ} {i k : ℕ} (h : Rep nodes n t i) (hk : k ∈ t.leaves) :
    IsLeaf (nodes k) := by
  induction t generalizing i with
  | leaf j =>
    obtain ⟨hij, -, hl, hr⟩ := h
    rw [CodeTree.leaves, List.mem_singleton] at hk
    rw [hk, ← hij]
    exact ⟨hl, hr⟩
  | node l r ihl ihr =>
    obtain ⟨-, hl, hr⟩ := h
    rcases List.mem_append.1 hk with hk | hk
    · exact ihl hl hk
    · exact ihr hr hk

/-- The nodes without children below the root are the leaves of the tree. -/
theorem Rep.mem_leaves {w : List Bool} (hn : n ≤ 0xFF) {t : CodeTree ℕ} {i k : ℕ}
    (h : Rep nodes n t i) (hk : descend nodes i w = some k) (hleaf : IsLeaf (nodes k)) :
    k ∈ t.leaves := by
  induction w generalizing t i with
  | nil =>
    rw [descend, Option.some.injEq] at hk
    subst hk
    cases t with
    | leaf j => exact List.mem_singleton.2 h.1
    | node l r =>
      have hlt := h.2.1.lt
      have hll := hleaf.1
      omega
  | cons b w ih =>
    cases t with
    | leaf j =>
      obtain ⟨-, -, hl, hr⟩ := h
      rw [descend] at hk
      rw [hl, hr, ite_self, if_pos rfl] at hk
      exact absurd hk.symm (Option.some_ne_none k)
    | node l r =>
      obtain ⟨-, hl, hr⟩ := h
      have hlt := hl.lt
      have hrt := hr.lt
      cases b with
      | false =>
        rw [descend, if_neg Bool.false_ne_true, if_neg (by omega)] at hk
        exact List.mem_append_left _ (ih hl hk)
      | true =>
        rw [descend, if_pos rfl, if_neg (by omega)] at hk
        exact List.mem_append_right _ (ih hr hk)

end Rep

section Merge
variable {nodes : ℕ → HuffNode} {total : ℕ} {m : Minima}

theorem merge_new (h1 : m.min1 < total) (h2 : m.min2 < total) :
    merge nodes total m total = ⟨(m.f1 + m.f2) % 65536, 0#8, m.min1, m.min2⟩ := by
  rw [merge, consume, Function.update_of_ne (Nat.ne_of_gt h2), consume,
    Function.update_of_ne (Nat.ne_of_gt h1), Function.update_self]

theorem merge_rest {k : ℕ} (hk : k ≠ total) (h1 : k ≠ m.min1) (h2 : k ≠ m.min2) :
    merge nodes total m k = nodes k := by
  rw [merge, consume, Function.update_of_ne h2, consume, Function.update_of_ne h1,
    Function.update_of_ne hk]

theorem merge_freq_used {k : ℕ} (h : k = m.min1 ∨ k = m.min2) :
    (merge nodes total m k).freq = 0xFFFF := by
  by_cases h2 : k = m.min2
  · rw [merge, consume, h2, Function.update_self]
  · rw [merge, consume, Function.update_of_ne h2, consume, h.resolve_right h2,
      Function.update_self]

/-- The old nodes keep all but their frequency. -/
theorem merge_old {k : ℕ} (hk : k ≠ total) :
    (merge nodes total m k).left = (nodes k).left ∧
      (merge nodes total m k).right = (nodes k).right ∧
      (merge nodes total m k).symbol = (nodes k).symbol := by
  have hconsume : ∀ (f : ℕ → HuffNode) (i : ℕ), (consume f i k).left = (f k).left ∧
      (consume f i k).right = (f k).right ∧ (consume f i k).symbol = (f k).symbol := by
    intro f i
    by_cases hki : k = i
    · rw [consume, hki, Function.update_self]
      exact ⟨rfl, rfl, rfl⟩
    · rw [consume, Function.update_of_ne hki]
      exact ⟨rfl, rfl, rfl⟩
  simp only [merge, hconsume, Function.update_of_ne hk, and_self]

theorem merge_sameLinks : SameLinks nodes (merge nodes total m) total :=
  fun _ hk => ⟨(merge_old (Nat.ne_of_lt hk)).1, (merge_old (Nat.ne_of_lt hk)).2.1⟩

end Merge

section Forest
variable {nsym W total : ℕ} {w : ℕ → ℕ} {nodes₀ nodes : ℕ → HuffNode} {act : Finset ℕ}
  {T : ℕ → CodeTree ℕ}

/-- The forest while the tree is built: `act` are the nodes not consumed and `T`
their trees; `nodes₀` is the table before. -/
structure Forest (nsym W : ℕ) (w : ℕ → ℕ) (nodes₀ : ℕ → HuffNode) (total : ℕ)
    (nodes : ℕ → HuffNode) (act : Finset ℕ) (T : ℕ → CodeTree ℕ) : Prop where
  lt : ∀ i ∈ act, i < total
  card : act.card + total = 2 * nsym
  ge : nsym ≤ total
  last : total - 1 ∈ act
  used : ∀ i < total, i ∉ act → (nodes i).freq = 0xFFFF
  freq : ∀ i ∈ act, (nodes i).freq = (T i).weight w
  rep : ∀ i ∈ act, Rep nodes total (T i) i
  leaves : ∑ i ∈ act, ((T i).leaves : Multiset ℕ) = Multiset.range nsym
  weight : ∑ i ∈ act, (T i).weight w = W
  merging : Merging w act T
  cover : ∀ k < total, ∃ i ∈ act, ∃ p, descend nodes i p = some k
  symbol : ∀ k < nsym, (nodes k).symbol = (nodes₀ k).symbol
  above : ∀ k, total ≤ k → nodes k = nodes₀ k

/-- Every symbol is a tree of its own. -/
theorem forest_start (hn : 1 ≤ nsym)
    (hleaf : ∀ k < nsym, (nodes k).freq = w k ∧ (nodes k).left = 0xFF ∧ (nodes k).right = 0xFF)
    (hw : ∀ k < nsym, 1 ≤ w k) (hW : ∑ k ∈ Finset.range nsym, w k = W) :
    Forest nsym W w nodes nsym nodes (Finset.range nsym) CodeTree.leaf := by
  refine ⟨fun i hi => Finset.mem_range.1 hi, ?_, le_rfl, ?_, ?_, ?_, ?_, ?_, hW, ?_, ?_,
    fun _ _ => rfl, fun _ _ => rfl⟩
  · rw [Finset.card_range]
    omega
  · rw [Finset.mem_range]
    omega
  · intro i hi hni
    exact absurd (Finset.mem_range.2 hi) hni
  · intro i hi
    exact (hleaf i (Finset.mem_range.1 hi)).1
  · intro i hi
    exact ⟨rfl, Finset.mem_range.1 hi, (hleaf i (Finset.mem_range.1 hi)).2⟩
  · have hsum : ∀ n, ∑ i ∈ Finset.range n, (([i] : List ℕ) : Multiset ℕ) = Multiset.range n := by
      intro n
      induction n with
      | zero => rfl
      | succ n ih =>
        rw [Finset.sum_range_succ, ih, Multiset.range_succ, Multiset.coe_singleton, add_comm]
        rfl
    exact hsum nsym
  · refine ⟨fun i hi => CodeTree.tall_leaf (hw i (Finset.mem_range.1 hi)), ?_⟩
    intro i _ j _ _
    exact Nat.zero_le _
  · intro k hk
    exact ⟨k, Finset.mem_range.2 hk, [], rfl⟩

/-- The trees weigh less than the mark of a consumed node. -/
theorem Forest.freq_le (h : Forest nsym W w nodes₀ total nodes act T) {i : ℕ} (hi : i ∈ act) :
    (nodes i).freq ≤ W := by
  rw [h.freq i hi, ← h.weight]
  exact Finset.single_le_sum (f := fun i => (T i).weight w) (fun _ _ => Nat.zero_le _) hi

/-- The search finds two trees, and no other tree is lighter. -/
theorem Forest.lightest (h : Forest nsym W w nodes₀ total nodes act T) (hW : W < 0xFFFF)
    (hcard : 2 ≤ act.card) : ∃ i ∈ act, ∃ j ∈ act, i ≠ j ∧
      findMins nodes total = ⟨i, j, (T i).weight w, (T j).weight w⟩ ∧
      ∀ k ∈ act, k ≠ i → k ≠ j →
        (T i).weight w ≤ (T k).weight w ∧ (T j).weight w ≤ (T k).weight w := by
  have hl := findMins_spec h.lt (fun i hi => (h.freq_le hi).trans_lt hW) h.used
  generalize findMins nodes total = m at hl
  have hne : act.Nonempty := Finset.card_pos.1 (by omega)
  obtain ⟨a, ha⟩ := hne
  have hf1 : m.f1 < 0xFFFF := ((hl.f1_le ha).trans (h.freq_le ha)).trans_lt hW
  obtain ⟨h1, hm1⟩ := hl.first_of_lt hf1
  obtain ⟨b, hb⟩ : (act.erase m.min1).Nonempty := by
    rw [← Finset.card_pos, Finset.card_erase_of_mem h1]
    omega
  obtain ⟨hb1, hba⟩ := Finset.mem_erase.1 hb
  have hf2 : m.f2 < 0xFFFF := ((hl.rest b hba hb1).trans (h.freq_le hba)).trans_lt hW
  obtain ⟨h2, hm2⟩ := hl.second_of_lt hf2
  obtain ⟨h21, h2a⟩ := Finset.mem_erase.1 h2
  rw [h.freq _ h1] at hm1
  rw [h.freq _ h2a] at hm2
  refine ⟨m.min1, h1, m.min2, h2a, h21.symm, ?_, fun k hk hk1 _ => ?_⟩
  · rw [← hm1, ← hm2]
  · rw [← hm1, ← hm2, ← h.freq k hk]
    exact ⟨hl.f1_le hk, hl.rest k hk hk1⟩

/-- Two of the lightest trees are joined. -/
theorem Forest.join (h : Forest nsym W w nodes₀ total nodes act T) (hW : W < 65536)
    (htotal : total < 0xFF) {i j : ℕ} (hi : i ∈ act) (hj : j ∈ act) (hij : i ≠ j)
    (hmin : ∀ k ∈ act, k ≠ i → k ≠ j →
      (T i).weight w ≤ (T k).weight w ∧ (T j).weight w ≤ (T k).weight w) :
    Forest nsym W w nodes₀ (total + 1)
      (merge nodes total ⟨i, j, (T i).weight w, (T j).weight w⟩)
      (insert total ((act.erase i).erase j))
      (Function.update T total (CodeTree.node (T i) (T j))) := by
  have hil := h.lt i hi
  have hjl := h.lt j hj
  have hnew : total ∉ act := fun hm => absurd (h.lt total hm) (Nat.lt_irrefl total)
  have hj' : j ∈ act.erase i := Finset.mem_erase.2 ⟨hij.symm, hj⟩
  have hrest : ∀ k ∈ (act.erase i).erase j, k ∈ act ∧ k ≠ i ∧ k ≠ j ∧ k ≠ total := by
    intro k hk
    obtain ⟨hkj, hk⟩ := Finset.mem_erase.1 hk
    obtain ⟨hki, hk⟩ := Finset.mem_erase.1 hk
    exact ⟨hk, hki, hkj, fun he => hnew (he ▸ hk)⟩
  have hsum : (T i).weight w + (T j).weight w ≤ W := by
    rw [← h.weight, ← Finset.add_sum_erase act _ hi, ← Finset.add_sum_erase (act.erase i) _ hj']
    omega
  set m : Minima := ⟨i, j, (T i).weight w, (T j).weight w⟩ with hm
  have hmn : merge nodes total m total = ⟨(T i).weight w + (T j).weight w, 0#8, i, j⟩ := by
    rw [merge_new hil hjl, hm]
    dsimp only
    rw [Nat.mod_eq_of_lt (by omega)]
  have hlinks : SameLinks nodes (merge nodes total m) total := merge_sameLinks
  have hrep : ∀ k ∈ act, Rep (merge nodes total m) (total + 1) (T k) k := fun k hk =>
    (h.rep k hk).congr hlinks (Nat.le_succ total)
  refine ⟨?_, ?_, ?_, ?_, ?_, ?_, ?_, ?_, ?_, h.merging.join hi hj hij hnew hmin, ?_, ?_, ?_⟩
  · intro k hk
    rcases Finset.mem_insert.1 hk with rfl | hk
    · exact Nat.lt_succ_self k
    · exact (h.lt k (hrest k hk).1).trans (Nat.lt_succ_self total)
  · have hc := h.card
    have hpos : 2 ≤ act.card := by
      rw [← Finset.card_erase_add_one hi, ← Finset.card_erase_add_one hj']
      omega
    rw [Finset.card_insert_of_notMem fun hk => (hrest total hk).2.2.2 rfl,
      Finset.card_erase_of_mem hj', Finset.card_erase_of_mem hi]
    omega
  · exact h.ge.trans (Nat.le_succ total)
  · rw [Nat.add_sub_cancel]
    exact Finset.mem_insert_self _ _
  · intro k hk hkn
    rw [Finset.mem_insert, not_or, Finset.mem_erase, Finset.mem_erase] at hkn
    by_cases hkm : k = i ∨ k = j
    · exact merge_freq_used hkm
    · rw [not_or] at hkm
      rw [merge_rest hkn.1 hkm.1 hkm.2]
      exact h.used k (by omega) fun hka => hkn.2 ⟨hkm.2, hkm.1, hka⟩
  · intro k hk
    rcases Finset.mem_insert.1 hk with rfl | hk
    · rw [hmn, Function.update_self]
      rfl
    · obtain ⟨hka, hki, hkj, hkt⟩ := hrest k hk
      rw [merge_rest hkt hki hkj, Function.update_of_ne hkt]
      exact h.freq k hka
  · intro k hk
    rcases Finset.mem_insert.1 hk with rfl | hk
    · rw [Function.update_self]
      refine ⟨Nat.lt_succ_self k, ?_, ?_⟩
      · rw [hmn]
        exact hrep i hi
      · rw [hmn]
        exact hrep j hj
    · obtain ⟨hka, -, -, hkt⟩ := hrest k hk
      rw [Function.update_of_ne hkt]
      exact hrep k hka
  · rw [← h.leaves]
    exact CodeTree.sum_join (fun t => ((t.leaves : List ℕ) : Multiset ℕ))
      (fun l r => by rw [CodeTree.leaves, Multiset.coe_add]) hi hj hij hnew
  · rw [← h.weight]
    exact CodeTree.sum_join (fun t => t.weight w) (fun _ _ => rfl) hi hj hij hnew
  · -- what a consumed tree covers is covered from the new node
    intro k hk
    rcases Nat.lt_succ_iff_lt_or_eq.1 hk with hk | rfl
    · obtain ⟨r, hr, p, hp⟩ := h.cover k hk
      rw [← (h.rep r hr).descend_congr hlinks] at hp
      by_cases hri : r = i
      · refine ⟨total, Finset.mem_insert_self _ _, false :: p, ?_⟩
        simp only [descend, hmn]
        rw [if_neg Bool.false_ne_true, if_neg (show i ≠ 0xFF by omega), ← hri]
        exact hp
      · by_cases hrj : r = j
        · refine ⟨total, Finset.mem_insert_self _ _, true :: p, ?_⟩
          simp only [descend, hmn, if_true]
          rw [if_neg (show j ≠ 0xFF by omega), ← hrj]
          exact hp
        · exact ⟨r, Finset.mem_insert_of_mem
            (Finset.mem_erase.2 ⟨hrj, Finset.mem_erase.2 ⟨hri, hr⟩⟩), p, hp⟩
    · exact ⟨k, Finset.mem_insert_self _ _, [], rfl⟩
  · intro k hk
    rw [(merge_old (Nat.ne_of_lt (hk.trans_le h.ge))).2.2]
    exact h.symbol k hk
  · intro k hk
    rw [merge_rest (show k ≠ total by omega) (show k ≠ i by omega) (show k ≠ j by omega)]
    exact h.above k (by omega)

end Forest

section Loop
variable {nsym W total : ℕ} {w : ℕ → ℕ} {nodes₀ nodes : ℕ → HuffNode} {act : Finset ℕ}
  {T : ℕ → CodeTree ℕ}

/-- `remaining` counts the trees; the loop ends when one is left. -/
theorem Forest.run (hn : nsym ≤ maxSymbols) (hW : W < 0xFFFF) (remaining : ℕ)
    (h : Forest nsym W w nodes₀ total nodes act T) (hf : Frugal (Finset.range nsym) w act T)
    (hcard : act.card = remaining + 1) :
    (buildLoop (remaining + 1) total nodes).1 = 2 * nsym - 1 ∧ ∃ act' T',
      Forest nsym W w nodes₀ (2 * nsym - 1) (buildLoop (remaining + 1) total nodes).2 act' T' ∧
        Frugal (Finset.range nsym) w act' T' ∧ act'.card = 1 := by
  induction remaining generalizing total nodes act T with
  | zero =>
    have hc := h.card
    have htotal : total = 2 * nsym - 1 := by omega
    refine ⟨htotal, act, T, ?_, hf, hcard⟩
    rw [← htotal]
    exact h
  | succ remaining ih =>
    have hn' : nsym ≤ 32 := hn
    have hc := h.card
    have htotal : total < 63 := by omega
    obtain ⟨i, hi, j, hj, hij, hfind, hmin⟩ := h.lightest hW (by omega)
    have hil := h.lt i hi
    have hjl := h.lt j hj
    have hjoin := h.join (by omega) (by omega) hi hj hij hmin
    have hcard' : (insert total ((act.erase i).erase j)).card = remaining + 1 := by
      have hc' := hjoin.card
      omega
    have hnew : total ∉ act := fun hm => absurd (h.lt total hm) (Nat.lt_irrefl total)
    obtain ⟨hfst, hrest⟩ := ih hjoin (hf.join hi hj hij hnew hmin) hcard'
    rw [buildLoop]
    simp only [hfind]
    rw [if_neg (by omega), if_neg (Nat.not_le.2 (show total < maxNodes from htotal)),
      Nat.mod_eq_of_lt (by omega)]
    exact ⟨hfst, hrest⟩

/-- The tree of all symbols in the node table. -/
structure Built (nsym W : ℕ) (w : ℕ → ℕ) (nodes₀ nodes : ℕ → HuffNode) (t : CodeTree ℕ) :
    Prop where
  rep : Rep nodes (2 * nsym - 1) t (2 * nsym - 2)
  leaves : (t.leaves : Multiset ℕ) = Multiset.range nsym
  weight : t.weight w = W
  tall : Tall w t
  cover : ∀ k < 2 * nsym - 1, ∃ p, descend nodes (2 * nsym - 2) p = some k
  symbol : ∀ k < nsym, (nodes k).symbol = (nodes₀ k).symbol
  above : ∀ k, 2 * nsym - 1 ≤ k → nodes k = nodes₀ k

/-- The tree that is left is the last node. -/
theorem Forest.root_eq (h : Forest nsym W w nodes₀ (2 * nsym - 1) nodes act T)
    (hcard : act.card = 1) : act = {2 * nsym - 2} := by
  obtain ⟨i, rfl⟩ := Finset.card_eq_one.1 hcard
  have hroot : 2 * nsym - 2 = i := Finset.mem_singleton.1 h.last
  rw [hroot]

theorem Forest.built (h : Forest nsym W w nodes₀ (2 * nsym - 1) nodes act T)
    (hcard : act.card = 1) : Built nsym W w nodes₀ nodes (T (2 * nsym - 2)) := by
  have hset := h.root_eq hcard
  have hi : 2 * nsym - 2 ∈ act := h.last
  have hleaves := h.leaves
  have hweight := h.weight
  rw [hset, Finset.sum_singleton] at hleaves hweight
  refine ⟨h.rep _ hi, hleaves, hweight, h.merging.tall _ hi, ?_, h.symbol, h.above⟩
  intro k hk
  obtain ⟨r, hr, p, hp⟩ := h.cover k hk
  rw [hset, Finset.mem_singleton] at hr
  rw [hr] at hp
  exact ⟨p, hp⟩

/-- `build_tree` over the leaves that `build_freq_table` made. -/
theorem buildTree_spec {g : Tables} (hn : 1 ≤ nsym) (hmax : nsym ≤ maxSymbols) (hW : W < 0xFFFF)
    (hleaf : ∀ k < nsym,
      (g.nodes k).freq = w k ∧ (g.nodes k).left = 0xFF ∧ (g.nodes k).right = 0xFF)
    (hw : ∀ k < nsym, 1 ≤ w k) (hsum : ∑ k ∈ Finset.range nsym, w k = W) :
    (buildTree g nsym).1 = 2 * nsym - 2 ∧
      (buildTree g nsym).2.symLookup = g.symLookup ∧
      ∃ t, Built nsym W w g.nodes (buildTree g nsym).2.nodes t ∧
        ∀ len, Kraft (Finset.range nsym) len → t.cost w ≤ lengthCost (Finset.range nsym) w len := by
  obtain ⟨remaining, rfl⟩ := Nat.exists_eq_add_of_le' hn
  have h := forest_start hn hleaf hw hsum
  obtain ⟨htotal, act, T, hend, hfrugal, hcard⟩ :=
    h.run hmax hW remaining (CodeTree.frugal_leaf _ w) (Finset.card_range _)
  have hmax' : remaining + 1 ≤ 32 := hmax
  have hroot := hend.root_eq hcard
  rw [hroot] at hfrugal
  refine ⟨?_, rfl, _, hend.built hcard, fun len => hfrugal.cost_le⟩
  rw [buildTree]
  dsimp only
  rw [htotal]
  omega

end Loop

end LlvmTms9900.Huffman
