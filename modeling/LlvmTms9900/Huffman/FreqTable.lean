import LlvmTms9900.Huffman.Model

/-!
# The frequency table

`build_freq_table` numbers the byte values that occur in the data, in
increasing order, and makes a leaf for each.
-/

namespace LlvmTms9900.Huffman

variable {data L : List Byte}

theorem countFreq_eq (data : List Byte) (h : data.length < 65536) (x : Byte) :
    countFreq data x = data.count x := by
  induction data using List.reverseRecOn with
  | nil => rfl
  | append_singleton data y ih =>
    rw [List.length_append, List.length_singleton] at h
    have hy := ih (by omega)
    rw [countFreq, List.foldl_append, ← countFreq, List.foldl_cons, List.foldl_nil,
      List.count_append, ← hy]
    by_cases hxy : x = y
    · subst hxy
      have hle : data.count x ≤ data.length := List.count_le_length
      rw [Function.update_self, hy, List.count_singleton_self, Nat.mod_eq_of_lt (by omega)]
    · rw [Function.update_of_ne hxy, List.count_singleton, if_neg (by simpa using Ne.symm hxy),
        Nat.add_zero]

/-- The tables after the byte values below `j`, of which those in `L` occur. -/
structure Scanned (freq : Byte → ℕ) (j : ℕ) (L : List Byte) (s : ℕ × Tables) : Prop where
  length : L.length = s.1
  nodup : L.Nodup
  mem : ∀ x, x ∈ L ↔ x.toNat < j ∧ 0 < freq x
  node : ∀ k (hk : k < L.length), s.2.nodes k = ⟨freq L[k], L[k], 0xFF, 0xFF⟩
  lookup : ∀ k (hk : k < L.length), s.2.symLookup L[k] = k

section AddSymbol
variable {freq : Byte → ℕ} {j : ℕ} {s : ℕ × Tables}

theorem toNat_ofNat_byte (hj : j < 256) : (BitVec.ofNat 8 j).toNat = j := by
  rw [BitVec.toNat_ofNat]
  exact Nat.mod_eq_of_lt hj

/-- A byte value that occurs gets the next number. -/
theorem Scanned.add (h : Scanned freq j L s) (hj : j < 256)
    (hfreq : 0 < freq (BitVec.ofNat 8 j)) (hroom : L.length < maxSymbols) :
    Scanned freq (j + 1) (L ++ [BitVec.ofNat 8 j]) (addSymbol freq s j) := by
  have hx := toNat_ofNat_byte hj
  have hnew : BitVec.ofNat 8 j ∉ L := by
    intro hmem
    have hlt := ((h.mem _).1 hmem).1
    omega
  have hcond : 0 < freq (BitVec.ofNat 8 j) ∧ s.1 < maxSymbols := ⟨hfreq, h.length ▸ hroom⟩
  rw [addSymbol, if_pos hcond]
  refine ⟨?_, ?_, ?_, ?_, ?_⟩
  · rw [List.length_append, List.length_singleton, h.length]
  · rw [List.nodup_append]
    refine ⟨h.nodup, List.nodup_singleton _, ?_⟩
    intro a ha b hb hab
    rw [List.mem_singleton] at hb
    exact hnew (hb ▸ hab ▸ ha)
  · intro x
    rw [List.mem_append, h.mem, List.mem_singleton]
    constructor
    · rintro (⟨hlt, hf⟩ | rfl)
      · exact ⟨by omega, hf⟩
      · exact ⟨by omega, hfreq⟩
    · intro ⟨hlt, hf⟩
      rcases Nat.lt_succ_iff_lt_or_eq.1 hlt with hlt | heq
      · exact .inl ⟨hlt, hf⟩
      · exact .inr (BitVec.eq_of_toNat_eq (heq.trans hx.symm))
  · intro k hk
    dsimp only
    rw [List.length_append, List.length_singleton] at hk
    rcases Nat.lt_succ_iff_lt_or_eq.1 hk with hlt | heq
    · have hne : k ≠ s.1 := by
        rw [← h.length]
        omega
      rw [Function.update_of_ne hne, h.node k hlt, List.getElem_append_left hlt]
    · subst heq
      rw [← h.length, Function.update_self, List.getElem_concat_length rfl]
  · intro k hk
    dsimp only
    rw [List.length_append, List.length_singleton] at hk
    rcases Nat.lt_succ_iff_lt_or_eq.1 hk with hlt | heq
    · have hne : L[k] ≠ BitVec.ofNat 8 j := fun he => hnew (he ▸ List.getElem_mem hlt)
      rw [List.getElem_append_left hlt, Function.update_of_ne hne, h.lookup k hlt]
    · subst heq
      rw [List.getElem_concat_length rfl, Function.update_self, h.length]

theorem Scanned.skip (h : Scanned freq j L s) (hj : j < 256)
    (hfreq : ¬ 0 < freq (BitVec.ofNat 8 j)) : Scanned freq (j + 1) L (addSymbol freq s j) := by
  rw [addSymbol, if_neg fun hc => hfreq hc.1]
  refine ⟨h.length, h.nodup, fun x => ?_, h.node, h.lookup⟩
  rw [h.mem]
  refine ⟨fun ⟨hlt, hf⟩ => ⟨by omega, hf⟩, fun ⟨hlt, hf⟩ => ⟨?_, hf⟩⟩
  by_contra hge
  have hx : x = BitVec.ofNat 8 j :=
    BitVec.eq_of_toNat_eq (by rw [toNat_ofNat_byte hj]; omega)
  exact hfreq (hx ▸ hf)

end AddSymbol

/-- The byte values found so far are among those that occur. -/
theorem Scanned.length_le {freq : Byte → ℕ} {j : ℕ} {s : ℕ × Tables} (h : Scanned freq j L s)
    {occurs : Finset Byte} (hocc : ∀ x, x ∈ occurs ↔ 0 < freq x) : L.length ≤ occurs.card := by
  rw [← List.toFinset_card_of_nodup h.nodup]
  refine Finset.card_le_card fun x hx => ?_
  exact (hocc x).2 ((h.mem x).1 (List.mem_toFinset.1 hx)).2

/-- The scan of the byte values when there is room for all that occur. -/
theorem scanned_run {freq : Byte → ℕ} {occurs : Finset Byte}
    (hocc : ∀ x, x ∈ occurs ↔ 0 < freq x) (hroom : occurs.card ≤ maxSymbols) (g : Tables) :
    ∀ j, j ≤ 256 → ∃ L, Scanned freq j L ((List.range j).foldl (addSymbol freq) (0, g)) := by
  intro j
  induction j with
  | zero =>
    intro _
    exact ⟨[], rfl, List.nodup_nil, by simp, fun k hk => absurd hk (Nat.not_lt_zero k),
      fun k hk => absurd hk (Nat.not_lt_zero k)⟩
  | succ j ih =>
    intro hj
    obtain ⟨L, h⟩ := ih (by omega)
    rw [List.range_succ, List.foldl_append, List.foldl_cons, List.foldl_nil]
    by_cases hfreq : 0 < freq (BitVec.ofNat 8 j)
    · refine ⟨_, h.add (by omega) hfreq ?_⟩
      -- the new value occurs and is not in the list yet
      have hx : BitVec.ofNat 8 j ∉ L.toFinset := by
        rw [List.mem_toFinset, h.mem, toNat_ofNat_byte (by omega)]
        omega
      have hlt : L.toFinset ⊂ occurs := by
        refine Finset.ssubset_iff_subset_ne.2 ⟨fun x hx => ?_, fun he => ?_⟩
        · exact (hocc x).2 ((h.mem x).1 (List.mem_toFinset.1 hx)).2
        · exact hx (he ▸ (hocc _).2 hfreq)
      have hcard := Finset.card_lt_card hlt
      rw [List.toFinset_card_of_nodup h.nodup] at hcard
      omega
    · exact ⟨L, h.skip (by omega) hfreq⟩

/-- The tables after `build_freq_table`, `L` being the byte values in order. -/
structure SymbolTable (data L : List Byte) (g : Tables) : Prop where
  nodup : L.Nodup
  mem : ∀ x, x ∈ L ↔ x ∈ data
  node : ∀ k (hk : k < L.length), g.nodes k = ⟨data.count L[k], L[k], 0xFF, 0xFF⟩
  lookup : ∀ k (hk : k < L.length), g.symLookup L[k] = k

theorem SymbolTable.length {g : Tables} (h : SymbolTable data L g) :
    L.length = data.toFinset.card := by
  rw [← List.toFinset_card_of_nodup h.nodup]
  exact congrArg _ (Finset.ext fun x => by rw [List.mem_toFinset, List.mem_toFinset, h.mem])

/-- `build_freq_table` when there is room for the byte values of the data. -/
theorem buildFreqTable_spec (g : Tables) (hlen : data.length < 65536)
    (hcard : data.toFinset.card ≤ maxSymbols) :
    ∃ L, (buildFreqTable g data).1 = L.length ∧
      SymbolTable data L (buildFreqTable g data).2 := by
  have hfreq : countFreq data = fun x => data.count x := funext (countFreq_eq data hlen)
  have hocc : ∀ x, x ∈ data.toFinset ↔ 0 < countFreq data x := by
    intro x
    rw [hfreq, List.mem_toFinset, List.count_pos_iff]
  obtain ⟨L, h⟩ := scanned_run hocc hcard { g with symLookup := fun _ => 0xFF } 256 le_rfl
  refine ⟨L, h.length.symm, h.nodup, fun x => ?_, fun k hk => ?_, h.lookup⟩
  · rw [h.mem, ← hocc, List.mem_toFinset]
    exact and_iff_right x.isLt
  · exact (h.node k hk).trans (by rw [hfreq])

end LlvmTms9900.Huffman
