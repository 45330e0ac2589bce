import LlvmTms9900.Huffman.Model

/-!
# The search for the two lightest nodes

One pass over the nodes in use keeps the two lowest frequencies. A consumed
node has frequency 0xFFFF, the value the minima start with, and is passed over.
-/

namespace LlvmTms9900.Huffman

variable {nodes : ℕ → HuffNode} {A : Finset ℕ} {m : Minima} {j : ℕ}

/-- The minima over the nodes of `A`; 0xFF and 0xFFFF where there is none. -/
structure LeastTwo (nodes : ℕ → HuffNode) (A : Finset ℕ) (m : Minima) : Prop where
  first : m.min1 ∈ A ∧ m.f1 = (nodes m.min1).freq ∨ A = ∅ ∧ m.min1 = 0xFF ∧ m.f1 = 0xFFFF
  second : m.min2 ∈ A.erase m.min1 ∧ m.f2 = (nodes m.min2).freq ∨
    A.erase m.min1 = ∅ ∧ m.min2 = 0xFF ∧ m.f2 = 0xFFFF
  le : m.f1 ≤ m.f2
  rest : ∀ k ∈ A, k ≠ m.min1 → m.f2 ≤ (nodes k).freq

theorem leastTwo_empty (nodes : ℕ → HuffNode) : LeastTwo nodes ∅ ⟨0xFF, 0xFF, 0xFFFF, 0xFFFF⟩ :=
  ⟨.inr ⟨rfl, rfl, rfl⟩, .inr ⟨rfl, rfl, rfl⟩, le_rfl,
    fun k hk => absurd hk (Finset.notMem_empty k)⟩

/-- Nothing weighs less than the first minimum. -/
theorem LeastTwo.f1_le (h : LeastTwo nodes A m) {k : ℕ} (hk : k ∈ A) :
    m.f1 ≤ (nodes k).freq := by
  by_cases hk1 : k = m.min1
  · rcases h.first with ⟨-, hf⟩ | ⟨hA, -⟩
    · rw [hk1, hf]
    · exact absurd (hA ▸ hk) (Finset.notMem_empty k)
  · exact h.le.trans (h.rest k hk hk1)

theorem LeastTwo.first_of_lt (h : LeastTwo nodes A m) (hf : m.f1 < 0xFFFF) :
    m.min1 ∈ A ∧ m.f1 = (nodes m.min1).freq := by
  rcases h.first with h1 | ⟨-, -, h1⟩
  · exact h1
  · omega

theorem LeastTwo.second_of_lt (h : LeastTwo nodes A m) (hf : m.f2 < 0xFFFF) :
    m.min2 ∈ A.erase m.min1 ∧ m.f2 = (nodes m.min2).freq := by
  rcases h.second with h2 | ⟨-, -, h2⟩
  · exact h2
  · omega

/-- A node that is lighter than all before it. -/
theorem LeastTwo.newFirst (h : LeastTwo nodes A m) (hj : j ∉ A) (hlt : (nodes j).freq < m.f1) :
    LeastTwo nodes (insert j A) ⟨j, m.min1, (nodes j).freq, m.f1⟩ := by
  refine ⟨.inl ⟨Finset.mem_insert_self j A, rfl⟩, ?_, hlt.le, ?_⟩
  · rw [Finset.erase_insert hj]
    exact h.first
  · intro k hk hkj
    exact h.f1_le ((Finset.mem_insert.1 hk).resolve_left hkj)

/-- A node between the two minima. -/
theorem LeastTwo.newSecond (h : LeastTwo nodes A m) (hj : j ∉ A) (hge : ¬ (nodes j).freq < m.f1)
    (hlt : (nodes j).freq < m.f2) (hf : (nodes j).freq < 0xFFFF) :
    LeastTwo nodes (insert j A) ⟨m.min1, j, m.f1, (nodes j).freq⟩ := by
  obtain ⟨h1, hf1⟩ := h.first_of_lt (by omega)
  have hne : j ≠ m.min1 := fun he => hj (he ▸ h1)
  refine ⟨.inl ⟨Finset.mem_insert_of_mem h1, hf1⟩,
    .inl ⟨Finset.mem_erase.2 ⟨hne, Finset.mem_insert_self j A⟩, rfl⟩, Nat.le_of_not_lt hge, ?_⟩
  intro k hk hk1
  rcases Finset.mem_insert.1 hk with rfl | hk
  · exact le_rfl
  · exact hlt.le.trans (h.rest k hk hk1)

/-- A node that is no lighter than the two minima. -/
theorem LeastTwo.keep (h : LeastTwo nodes A m) (hge : ¬ (nodes j).freq < m.f2)
    (hf : (nodes j).freq < 0xFFFF) : LeastTwo nodes (insert j A) m := by
  have hle := h.le
  obtain ⟨h1, hf1⟩ := h.first_of_lt (by omega)
  obtain ⟨h2, hf2⟩ := h.second_of_lt (by omega)
  refine ⟨.inl ⟨Finset.mem_insert_of_mem h1, hf1⟩,
    .inl ⟨Finset.erase_subset_erase _ (Finset.subset_insert j A) h2, hf2⟩, hle, ?_⟩
  intro k hk hk1
  rcases Finset.mem_insert.1 hk with rfl | hk
  · exact Nat.le_of_not_lt hge
  · exact h.rest k hk hk1

/-- One step of the search. -/
theorem LeastTwo.step (h : LeastTwo nodes A m) (hj : j ∉ A) (hf : (nodes j).freq < 0xFFFF) :
    LeastTwo nodes (insert j A) (minStep nodes m j) := by
  rw [minStep, if_neg (Nat.ne_of_lt hf)]
  by_cases h1 : (nodes j).freq < m.f1
  · rw [if_pos h1]
    exact h.newFirst hj h1
  · rw [if_neg h1]
    by_cases h2 : (nodes j).freq < m.f2
    · rw [if_pos h2]
      exact h.newSecond hj h1 h2 hf
    · rw [if_neg h2]
      exact h.keep h2 hf

/-- The whole search, when the nodes of `act` are those not consumed. -/
theorem findMins_spec {act : Finset ℕ} {total : ℕ} (hact : ∀ i ∈ act, i < total)
    (hfreq : ∀ i ∈ act, (nodes i).freq < 0xFFFF)
    (hused : ∀ i < total, i ∉ act → (nodes i).freq = 0xFFFF) :
    LeastTwo nodes act (findMins nodes total) := by
  have hrun : ∀ n, n ≤ total → LeastTwo nodes (act.filter (· < n))
      ((List.range n).foldl (minStep nodes) ⟨0xFF, 0xFF, 0xFFFF, 0xFFFF⟩) := by
    intro n
    induction n with
    | zero =>
      intro _
      rw [Finset.filter_false_of_mem fun i _ => Nat.not_lt_zero i]
      exact leastTwo_empty nodes
    | succ n ih =>
      intro hn
      have h := ih (by omega)
      rw [List.range_succ, List.foldl_append, List.foldl_cons, List.foldl_nil]
      by_cases hmem : n ∈ act
      · have hset : act.filter (· < n + 1) = insert n (act.filter (· < n)) := by
          ext k
          simp only [Finset.mem_filter, Finset.mem_insert]
          constructor
          · intro ⟨hk, hlt⟩
            rcases Nat.lt_succ_iff_lt_or_eq.1 hlt with hlt | heq
            · exact .inr ⟨hk, hlt⟩
            · exact .inl heq
          · rintro (rfl | ⟨hk, hlt⟩)
            · exact ⟨hmem, Nat.lt_succ_self k⟩
            · exact ⟨hk, hlt.trans (Nat.lt_succ_self n)⟩
        rw [hset]
        refine h.step (fun hk => ?_) (hfreq n hmem)
        exact absurd (Finset.mem_filter.1 hk).2 (Nat.lt_irrefl n)
      · have hset : act.filter (· < n + 1) = act.filter (· < n) := by
          refine Finset.filter_congr fun k hk => ?_
          have hne : k ≠ n := fun he => hmem (he ▸ hk)
          omega
        rw [hset, minStep, if_pos (hused n (by omega) hmem)]
        exact h
  have h := hrun total le_rfl
  rwa [Finset.filter_true_of_mem hact] at h

end LlvmTms9900.Huffman
