import LlvmTms9900.Huffman.RoundTrip

/-!
# The codes are the best

No uniquely decodable code writes the data in fewer bits than the codes of the
tree, and where those do not fit in the stream no other code does.
-/

namespace LlvmTms9900.Huffman

open LlvmTms9900.Arith
open InformationTheory (UniquelyDecodable kraft_mcmillan_inequality)

section Lengths
variable {data L : List Byte} {g g₁ : Tables} {W : ℕ} {w : ℕ → ℕ} {t : CodeTree ℕ}

/-- The lengths of the codes of the leaves. -/
def lengthOf (L : List Byte) (code : Byte → List Bool) (k : ℕ) : ℕ := (code (L.getD k 0#8)).length

/-- The bits of the data, symbol by symbol. -/
theorem SymbolTable.length_flatMap (h : SymbolTable data L g) (code : Byte → List Bool) :
    (data.flatMap code).length =
      lengthCost (Finset.range L.length) (fun k => (g.nodes k).freq) (lengthOf L code) := by
  have hset : L.toFinset = data.toFinset :=
    Finset.ext fun x => by rw [List.mem_toFinset, List.mem_toFinset, h.mem]
  calc (data.flatMap code).length
      = ∑ x ∈ data.toFinset, data.count x * (code x).length := by
        rw [List.length_flatMap, Finset.sum_list_map_count]
        rfl
    _ = (L.map fun x => data.count x * (code x).length).sum := by
        rw [← hset, List.sum_toFinset _ h.nodup]
    _ = ∑ k : Fin L.length, data.count L[k] * (code L[k]).length :=
        (Fin.sum_univ_fun_getElem L fun x => data.count x * (code x).length).symm
    _ = lengthCost (Finset.range L.length) (fun k => (g.nodes k).freq) (lengthOf L code) := by
        rw [lengthCost, Finset.sum_range]
        refine Finset.sum_congr rfl fun k _ => ?_
        rw [h.node k k.isLt, lengthOf, List.getD_eq_getElem _ _ k.isLt]
        rfl

/-- The lengths of a uniquely decodable code. -/
theorem SymbolTable.kraft (h : SymbolTable data L g) {code : Byte → List Bool}
    (hinj : ∀ x ∈ data, ∀ y ∈ data, code x = code y → x = y)
    (hud : UniquelyDecodable {p | ∃ x ∈ data, code x = p}) :
    Kraft (Finset.range L.length) (lengthOf L code) := by
  have hset : (((L.map code).toFinset : Finset (List Bool)) : Set (List Bool)) =
      {p | ∃ x ∈ data, code x = p} := by
    ext p
    simp only [List.coe_toFinset, List.mem_map, h.mem]
  have hnodup : (L.map code).Nodup := h.nodup.map_on fun x hx y hy =>
    hinj x ((h.mem x).1 hx) y ((h.mem y).1 hy)
  have hkraft := kraft_mcmillan_inequality (hset ▸ hud)
  rw [Fintype.card_bool, List.sum_toFinset _ hnodup, List.map_map] at hkraft
  rw [Kraft, Finset.sum_range, ← Rat.cast_le (K := ℝ)]
  refine Eq.trans_le ?_ (hkraft.trans_eq Rat.cast_one.symm)
  rw [← Fin.sum_univ_fun_getElem, Rat.cast_sum]
  refine Finset.sum_congr rfl fun k _ => ?_
  rw [lengthOf, List.getD_eq_getElem _ _ k.isLt]
  norm_num

/-- The bits that the codes of the tree need are its cost. -/
theorem cost_eq_bits (h : SymbolTable data L g)
    (hb : Built L.length W (fun k => (g.nodes k).freq) g.nodes g₁.nodes t)
    (hl : g₁.symLookup = g.symLookup) (hheight : t.height ≤ 16) :
    t.cost (fun k => (g.nodes k).freq) =
      (data.flatMap (bitsOf { g₁ with codes := codesOf t })).length := by
  set code := bitsOf { g₁ with codes := codesOf t } with hcode
  have hpath : ∀ x ∈ t.paths, x.2.length = lengthOf L code x.1 := by
    intro x hx
    have hk : x.1 < L.length := hb.mem_leaves.1 ((CodeTree.mem_leaves_iff t x.1).2 ⟨x.2, hx⟩)
    obtain ⟨k, -, -, hlook, hp⟩ :=
      bits_path h hb hl hheight ((h.mem _).1 (List.getElem_mem hk))
    rw [h.lookup x.1 hk] at hlook
    rw [← hlook] at hp
    rw [lengthOf, List.getD_eq_getElem _ _ hk, CodeTree.path_unique hb.nodup hx hp]
  calc t.cost (fun k => (g.nodes k).freq)
      = (t.paths.map fun x => (g.nodes x.1).freq * x.2.length).sum := CodeTree.cost_eq _ t
    _ = (t.paths.map fun x => (g.nodes x.1).freq * lengthOf L code x.1).sum :=
        congrArg List.sum (List.map_congr_left fun x hx => by rw [hpath x hx])
    _ = (t.leaves.map fun k => (g.nodes k).freq * lengthOf L code k).sum := by
        rw [← CodeTree.paths_fst, List.map_map]
        rfl
    _ = ((t.leaves : Multiset ℕ).map fun k => (g.nodes k).freq * lengthOf L code k).sum := by
        rw [Multiset.map_coe, Multiset.sum_coe]
    _ = (data.flatMap code).length := by
        rw [hb.leaves, h.length_flatMap]
        rfl

end Lengths

/-- The codec writes the data in the fewest bits of all uniquely decodable codes,
and it gives up only where no such code fits. -/
theorem huffman_optimal (g : Tables) (data : List Byte) (hlen : data.length ≤ 255)
    (hmin : 2 ≤ data.toFinset.card) (hmax : data.toFinset.card ≤ maxSymbols) :
    let nsym := (buildFreqTable g data).1
    let g₁ := (buildFreqTable g data).2
    let root := (buildTree g₁ nsym).1
    let g₂ := (buildTree g₁ nsym).2
    ∃ codes, (∀ fuel, maxCodeLen < fuel →
        generateCodes g₂ fuel root 0#16 1#16 0 (fun _ => ⟨0#16, 0⟩) = some codes) ∧
      let g₃ := { g₂ with codes := codes }
      ∀ code : Byte → List Bool, (∀ x ∈ data, ∀ y ∈ data, code x = code y → x = y) →
        UniquelyDecodable {p | ∃ x ∈ data, code x = p} →
        (data.flatMap (bitsOf g₃)).length ≤ (data.flatMap code).length ∧
        ∀ encoded : ℕ → Byte,
          let bits := (encodeData g₃ data encoded bitstreamCap).1
          bits ≤ (data.flatMap code).length ∧ (bits = 0 → 512 < (data.flatMap code).length) := by
  obtain ⟨L, hnsym, hsym⟩ := buildFreqTable_spec g (by omega) hmax
  have hL := hsym.length
  rw [← hL] at hmin hmax
  dsimp only
  rw [hnsym]
  generalize (buildFreqTable g data).2 = g₁ at hsym ⊢
  obtain ⟨hroot, hlook, t, hb, hbest⟩ := hsym.build hlen (by omega) hmax
  rw [hroot]
  generalize (buildTree g₁ L.length).2 = g₂ at hlook hb ⊢
  have hheight : t.height ≤ 11 := hb.height_le (hlen.trans_lt (by decide))
  have hgood := goodCodes hsym hb hlook hmin hmax (by omega)
  have hne : data ≠ [] := by
    rintro rfl
    rw [List.toFinset_nil, Finset.card_empty] at hL
    omega
  have hsi : ∀ x ∈ data, g₂.symLookup x < maxSymbols := by
    intro x hx
    obtain ⟨k, hk, -, hkx, -⟩ := bits_path hsym hb hlook (by omega) hx
    rw [hlook, hkx]
    exact hk.trans_le hmax
  refine ⟨codesOf t, fun fuel hfuel => ?_, fun code hinj hud => ?_⟩
  · have hfuel' : 16 < fuel := hfuel
    exact generateCodes_root hsym hb hlook hmax (by omega) (by omega)
  · have hle := hbest _ (hsym.kraft hinj hud)
    rw [cost_eq_bits hsym hb hlook (by omega), ← hsym.length_flatMap] at hle
    refine ⟨hle, fun encoded => ?_⟩
    obtain ⟨hzero, hfits⟩ := encodeData_cases hgood hne hsi encoded
    refine ⟨?_, fun h0 => (hzero.1 h0).trans_le hle⟩
    by_cases hfit : (data.flatMap (bitsOf { g₂ with codes := codesOf t })).length ≤ 512
    · exact (hfits hfit).1.trans_le hle
    · rw [hzero.2 (Nat.lt_of_not_le hfit)]
      exact Nat.zero_le _

/-- A code whose words have one length, not 0. -/
theorem uniquelyDecodable_of_length {S : Set (List Bool)} {n : ℕ}
    (h : ∀ p ∈ S, p.length = n + 1) : UniquelyDecodable S := by
  intro l
  induction l with
  | nil =>
    intro m _ hm he
    cases m with
    | nil => rfl
    | cons p m =>
      have hp := h p (hm p List.mem_cons_self)
      rw [List.flatten_nil, List.flatten_cons, eq_comm, List.append_eq_nil_iff] at he
      rw [he.1, List.length_nil] at hp
      omega
  | cons q l ih =>
    intro m hl hm he
    have hq := h q (hl q List.mem_cons_self)
    cases m with
    | nil =>
      rw [List.flatten_nil, List.flatten_cons, List.append_eq_nil_iff] at he
      rw [he.1, List.length_nil] at hq
      omega
    | cons p m =>
      have hp := h p (hm p List.mem_cons_self)
      rw [List.flatten_cons, List.flatten_cons] at he
      obtain ⟨hqp, hrest⟩ := List.append_inj he (hq.trans hp.symm)
      rw [hqp, ih m (fun r hr => hl r (List.mem_cons_of_mem q hr))
        (fun r hr => hm r (List.mem_cons_of_mem p hr)) hrest]

/-- The low five bits, which tell the letters apart. -/
def fiveBits (x : Byte) : List Bool := (List.range 5).map x.getLsbD

theorem huffman_optimal_letters :
    let nsym := (buildFreqTable zeroTables inputData).1
    let g₁ := (buildFreqTable zeroTables inputData).2
    let root := (buildTree g₁ nsym).1
    let g₂ := (buildTree g₁ nsym).2
    ∃ codes, generateCodes g₂ 17 root 0#16 1#16 0 (fun _ => ⟨0#16, 0⟩) = some codes ∧
      (encodeData { g₂ with codes := codes } inputData (fun _ => 0#8) bitstreamCap).1 ≤ 240 := by
  have hcard : inputData.toFinset.card = 19 := by decide +kernel
  obtain ⟨codes, hcodes, hbest⟩ := huffman_optimal zeroTables inputData (by decide)
    (by rw [hcard]; decide) (by rw [hcard]; decide)
  refine ⟨codes, hcodes 17 (by decide), ?_⟩
  have hinj : ∀ x ∈ inputData, ∀ y ∈ inputData, fiveBits x = fiveBits y → x = y := by
    decide +kernel
  have hud : UniquelyDecodable {p | ∃ x ∈ inputData, fiveBits x = p} :=
    uniquelyDecodable_of_length (n := 4) fun p ⟨x, _, hx⟩ => hx ▸ rfl
  have hlen : (inputData.flatMap fiveBits).length = 240 := by decide +kernel
  rw [← hlen]
  exact ((hbest fiveBits hinj hud).2 fun _ => 0#8).1

end LlvmTms9900.Huffman
