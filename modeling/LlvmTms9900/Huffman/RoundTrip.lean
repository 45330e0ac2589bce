import LlvmTms9900.Huffman.FreqTable
import LlvmTms9900.Huffman.Stream

/-!
# The round trip

The steps of `main` one after the other: the leaves and their weights, the tree,
the codes, and the stream written and read back.
-/

namespace LlvmTms9900.Huffman

open LlvmTms9900.Arith

/-- The nodes that `build_tree` uses: those that the root reaches, the symbols
being the ones without children. -/
structure UsesNodes (nodes₀ nodes : ℕ → HuffNode) (nsym root : ℕ) : Prop where
  root_eq : root + 1 = 2 * nsym - 1
  reached : ∀ k, (∃ p, descend nodes root p = some k) ↔ k < 2 * nsym - 1
  leaf : ∀ k < 2 * nsym - 1, IsLeaf (nodes k) ↔ k < nsym
  untouched : ∀ k, 2 * nsym - 1 ≤ k → nodes k = nodes₀ k

/-- The codes of the byte values of the data. -/
structure GoodCodes (g : Tables) (root : ℕ) (data : List Byte) : Prop where
  length : ∀ x ∈ data, 1 ≤ (g.codes (g.symLookup x)).len ∧
    (g.codes (g.symLookup x)).len ≤ maxCodeLen
  path : ∀ x ∈ data, Codes g.nodes root (bitsOf g x) x
  prefixFree : ∀ x ∈ data, ∀ y ∈ data, bitsOf g x <+: bitsOf g y → x = y

section Tree
variable {data L : List Byte} {g : Tables}

/-- The weights of the leaves add up to the length of the data. -/
theorem SymbolTable.sum_freq (h : SymbolTable data L g) :
    ∑ k ∈ Finset.range L.length, (g.nodes k).freq = data.length := by
  have hset : L.toFinset = data.toFinset :=
    Finset.ext fun x => by rw [List.mem_toFinset, List.mem_toFinset, h.mem]
  calc ∑ k ∈ Finset.range L.length, (g.nodes k).freq
      = ∑ k : Fin L.length, data.count L[k] := by
        rw [Finset.sum_range]
        exact Finset.sum_congr rfl fun k _ => by rw [h.node k k.isLt]; rfl
    _ = (L.map fun x => data.count x).sum := Fin.sum_univ_fun_getElem L fun x => data.count x
    _ = ∑ x ∈ data.toFinset, data.count x := by rw [← hset, List.sum_toFinset _ h.nodup]
    _ = data.length := List.sum_toFinset_count_eq_length data

theorem SymbolTable.build (h : SymbolTable data L g) (hlen : data.length ≤ 255)
    (hmin : 1 ≤ L.length) (hmax : L.length ≤ maxSymbols) :
    (buildTree g L.length).1 = 2 * L.length - 2 ∧
      (buildTree g L.length).2.symLookup = g.symLookup ∧
      ∃ t, Built L.length data.length (fun k => (g.nodes k).freq) g.nodes
          (buildTree g L.length).2.nodes t ∧
        ∀ len, Kraft (Finset.range L.length) len → t.cost (fun k => (g.nodes k).freq) ≤
          lengthCost (Finset.range L.length) (fun k => (g.nodes k).freq) len := by
  refine buildTree_spec hmin hmax (by omega) (fun k hk => ?_) (fun k hk => ?_) h.sum_freq
  · rw [h.node k hk]
    exact ⟨rfl, rfl, rfl⟩
  · rw [h.node k hk]
    exact List.count_pos_iff.2 ((h.mem _).1 (List.getElem_mem hk))

end Tree

section Built
variable {nsym W : ℕ} {w : ℕ → ℕ} {nodes₀ nodes : ℕ → HuffNode} {t : CodeTree ℕ}

theorem Built.mem_leaves (h : Built nsym W w nodes₀ nodes t) {k : ℕ} :
    k ∈ t.leaves ↔ k < nsym := by
  rw [← Multiset.mem_coe, h.leaves, Multiset.mem_range]

theorem Built.nodup (h : Built nsym W w nodes₀ nodes t) : t.leaves.Nodup := by
  rw [← Multiset.coe_nodup, h.leaves]
  exact Multiset.nodup_range nsym

theorem Built.usesNodes (h : Built nsym W w nodes₀ nodes t) (hn : 1 ≤ nsym)
    (hmax : nsym ≤ maxSymbols) : UsesNodes nodes₀ nodes nsym (2 * nsym - 2) := by
  have hmax' : nsym ≤ 32 := hmax
  refine ⟨by omega, fun k => ⟨fun ⟨p, hp⟩ => h.rep.descend_lt hp, h.cover k⟩, fun k hk => ?_,
    h.above⟩
  obtain ⟨p, hp⟩ := h.cover k hk
  rw [← h.mem_leaves]
  exact ⟨h.rep.mem_leaves (by omega) hp, h.rep.isLeaf⟩

/-- The height is bounded by the weight: `fib (height + 2) ≤ W`. -/
theorem Built.height_le (h : Built nsym W w nodes₀ nodes t) {n : ℕ} (hn : W < Nat.fib (n + 3)) :
    t.height ≤ n := by
  by_contra hgt
  have hfib : Nat.fib (n + 3) ≤ Nat.fib (t.height + 2) := Nat.fib_mono (by omega)
  have hw := h.tall.weight
  rw [h.weight] at hw
  omega

end Built

section Codes
variable {data L : List Byte} {g g₁ : Tables} {W : ℕ} {w : ℕ → ℕ} {t : CodeTree ℕ}

/-- The codes table that `generate_codes` makes from an empty one. -/
def codesOf (t : CodeTree ℕ) : ℕ → HuffCode :=
  t.paths.foldl (assign 0#16 1#16 0) fun _ => ⟨0#16, 0⟩

theorem generateCodes_root (h : SymbolTable data L g)
    (hb : Built L.length W w g.nodes g₁.nodes t) (hl : g₁.symLookup = g.symLookup)
    (hmax : L.length ≤ maxSymbols) {fuel : ℕ} (hfuel : t.height < fuel)
    (hheight : t.height < 256) :
    generateCodes g₁ fuel (2 * L.length - 2) 0#16 1#16 0 (fun _ => ⟨0#16, 0⟩) =
      some (codesOf t) := by
  have hmax' : L.length ≤ 32 := hmax
  refine generateCodes_eq (by omega) hb.rep (fun k hk => ?_) hfuel (by omega) _ _ _
  have hk' := hb.mem_leaves.1 hk
  rw [hb.symbol k hk', h.node k hk', hl]
  exact ⟨h.lookup k hk', hk'.trans_le hmax⟩

/-- A byte value of the data has the path of its leaf as its code. -/
theorem bits_path (h : SymbolTable data L g) (hb : Built L.length W w g.nodes g₁.nodes t)
    (hl : g₁.symLookup = g.symLookup) (hheight : t.height ≤ 16) {x : Byte} (hx : x ∈ data) :
    ∃ k, ∃ hk : k < L.length, L[k] = x ∧ g.symLookup x = k ∧
      (k, bitsOf { g₁ with codes := codesOf t } x) ∈ t.paths := by
  obtain ⟨k, hk, hkx⟩ := List.getElem_of_mem ((h.mem x).2 hx)
  obtain ⟨p, hp⟩ := (CodeTree.mem_leaves_iff t k).1 (hb.mem_leaves.2 hk)
  have hlook : g.symLookup x = k := hkx ▸ h.lookup k hk
  refine ⟨k, hk, hkx, hlook, ?_⟩
  have hcode : codesOf t k = ⟨codeWord p 0#16 1#16, 0 + p.length⟩ :=
    foldl_assign (by rw [CodeTree.paths_fst]; exact hb.nodup) hp _
  rw [bitsOf]
  dsimp only
  rw [hl, hlook, hcode, word_codeWord ((CodeTree.path_length_le hp).trans hheight)]
  exact hp

theorem goodCodes (h : SymbolTable data L g) (hb : Built L.length W w g.nodes g₁.nodes t)
    (hl : g₁.symLookup = g.symLookup) (hmin : 2 ≤ L.length) (hmax : L.length ≤ maxSymbols)
    (hheight : t.height ≤ 16) :
    GoodCodes { g₁ with codes := codesOf t } (2 * L.length - 2) data := by
  have hmax' : L.length ≤ 32 := hmax
  refine ⟨fun x hx => ?_, fun x hx => ?_, fun x hx y hy hpre => ?_⟩
  · obtain ⟨k, hk, -, -, hp⟩ := bits_path h hb hl hheight hx
    rw [← bitsOf_length]
    refine ⟨List.length_pos_iff.2 fun hnil => ?_, (CodeTree.path_length_le hp).trans hheight⟩
    rw [hnil] at hp
    have hcard := congrArg Multiset.card hb.leaves
    rw [CodeTree.leaves_of_empty_path hp, Multiset.card_range, Multiset.coe_card,
      List.length_singleton] at hcard
    omega
  · obtain ⟨k, hk, hkx, -, hp⟩ := bits_path h hb hl hheight hx
    refine ⟨k, hb.rep.descend_path (by omega) hp, hb.rep.isLeaf (hb.mem_leaves.2 hk), ?_⟩
    rw [← hkx, hb.symbol k hk, h.node k hk]
  · obtain ⟨k, hk, hkx, -, hp⟩ := bits_path h hb hl hheight hx
    obtain ⟨j, hj, hjy, -, hq⟩ := bits_path h hb hl hheight hy
    have hkj := (CodeTree.prefix_free hp hq hpre).1
    subst hkj
    exact hkx.symm.trans hjy

/-- No code is longer than the tree is high. -/
theorem bits_length_le (h : SymbolTable data L g) (hb : Built L.length W w g.nodes g₁.nodes t)
    (hl : g₁.symLookup = g.symLookup) {n : ℕ} (hn : n ≤ 16) (hheight : t.height ≤ n) :
    (data.flatMap (bitsOf { g₁ with codes := codesOf t })).length ≤ data.length * n := by
  rw [List.length_flatMap]
  refine (List.sum_le_card_nsmul _ n fun m hm => ?_).trans_eq ?_
  · obtain ⟨x, hx, rfl⟩ := List.mem_map.1 hm
    obtain ⟨k, -, -, -, hp⟩ := bits_path h hb hl (hheight.trans hn) hx
    exact (CodeTree.path_length_le hp).trans hheight
  · rw [List.length_map, smul_eq_mul]

end Codes

section RoundTrip
variable {g : Tables} {root : ℕ} {data : List Byte}

theorem bits_eq (g : Tables) (data : List Byte) : (data.flatMap (bitsOf g)).length =
    (data.map fun x => (g.codes (g.symLookup x)).len).sum := by
  rw [List.length_flatMap]
  exact congrArg List.sum (List.map_congr_left fun x _ => bitsOf_length g x)

/-- `encode_data` writes the codes or returns 0, as they fit in the stream or not. -/
theorem encodeData_cases (hg : GoodCodes g root data) (hne : data ≠ [])
    (hlook : ∀ x ∈ data, g.symLookup x < maxSymbols) (encoded : ℕ → Byte) :
    ((encodeData g data encoded bitstreamCap).1 = 0 ↔
        512 < (data.flatMap (bitsOf g)).length) ∧
      ((data.flatMap (bitsOf g)).length ≤ 512 →
        Wrote (data.flatMap (bitsOf g)) bitstreamCap
          (encodeData g data encoded bitstreamCap)) := by
  obtain ⟨hfits, hfull⟩ :=
    encodeData_spec (show bitstreamCap ≤ 0xFF by decide) data hlook encoded
  refine ⟨⟨fun h0 => ?_, hfull⟩, hfits⟩
  by_contra hle
  have hw := hfits (Nat.le_of_not_lt hle)
  -- the first symbol alone has a bit
  obtain ⟨x, rest, rfl⟩ := List.exists_cons_of_ne_nil hne
  have hx := (hg.length x List.mem_cons_self).1
  rw [← bitsOf_length] at hx
  have hpos := hw.1.symm.trans h0
  rw [List.flatMap_cons, List.length_append] at hpos
  omega

/-- `decode_data` reads back what `encode_data` wrote. -/
theorem decode_encode (hg : GoodCodes g root data) {enc : ℕ × (ℕ → Byte)}
    (hw : Wrote (data.flatMap (bitsOf g)) bitstreamCap enc)
    (hfit : (data.flatMap (bitsOf g)).length ≤ 512) (decoded : ℕ → Byte) :
    (decodeData g enc.2 enc.1 root decoded data.length).1 = data.length ∧
      ∀ i (hi : i < data.length),
        (decodeData g enc.2 enc.1 root decoded data.length).2 i = data[i] := by
  have hcode : ∀ x ∈ data, bitsOf g x ≠ [] ∧ Codes g.nodes root (bitsOf g x) x := fun x hx =>
    ⟨List.ne_nil_of_length_pos (bitsOf_length g x ▸ (hg.length x hx).1), hg.path x hx⟩
  have hbits : ∀ n < (data.flatMap (bitsOf g)).length,
      bitAt enc.2 n = (data.flatMap (bitsOf g)).getD n false := fun n hn =>
    hw.2 n (hn.trans_le hfit)
  have hstart : (data.flatMap (bitsOf g)).drop 0 = data.flatMap (bitsOf g) := List.drop_zero
  obtain ⟨out, hrun, -, hout⟩ := decodeLoop_spec hbits data hcode decoded hstart
  rw [Nat.zero_add] at hrun
  rw [decodeData, hw.1, hrun]
  exact ⟨rfl, fun i hi => by rw [← hout i hi, Nat.zero_add]⟩

end RoundTrip

/-- The whole codec on data with 2 to 32 byte values: the tree, the codes, and
the round trip unless the codes need more than the 512 bits of the stream. -/
theorem huffman_round_trip (g : Tables) (data : List Byte) (hlen : data.length ≤ 255)
    (hmin : 2 ≤ data.toFinset.card) (hmax : data.toFinset.card ≤ maxSymbols) :
    let nsym := (buildFreqTable g data).1
    let g₁ := (buildFreqTable g data).2
    let root := (buildTree g₁ nsym).1
    let g₂ := (buildTree g₁ nsym).2
    nsym = data.toFinset.card ∧ UsesNodes g₁.nodes g₂.nodes nsym root ∧
      ∃ codes, (∀ fuel, maxCodeLen < fuel →
          generateCodes g₂ fuel root 0#16 1#16 0 (fun _ => ⟨0#16, 0⟩) = some codes) ∧
        let g₃ := { g₂ with codes := codes }
        let bits := (data.map fun x => (codes (g₃.symLookup x)).len).sum
        GoodCodes g₃ root data ∧ (data.length ≤ 48 → bits ≤ 512) ∧
        ∀ encoded decoded : ℕ → Byte,
          let enc := encodeData g₃ data encoded bitstreamCap
          (enc.1 = 0 ↔ 512 < bits) ∧
            (bits ≤ 512 → enc.1 = bits ∧
              (decodeData g₃ enc.2 enc.1 root decoded data.length).1 = data.length ∧
              ∀ i (hi : i < data.length),
                (decodeData g₃ enc.2 enc.1 root decoded data.length).2 i = data[i]) := by
  obtain ⟨L, hnsym, hsym⟩ := buildFreqTable_spec g (by omega) hmax
  have hL := hsym.length
  rw [← hL] at hmin hmax ⊢
  dsimp only
  rw [hnsym]
  generalize (buildFreqTable g data).2 = g₁ at hsym ⊢
  obtain ⟨hroot, hlook, t, hb, -⟩ := hsym.build hlen (by omega) hmax
  rw [hroot]
  generalize (buildTree g₁ L.length).2 = g₂ at hlook hb ⊢
  have hheight : t.height ≤ 11 := hb.height_le (hlen.trans_lt (by decide))
  have hgood := goodCodes hsym hb hlook hmin hmax (by omega)
  have hne : data ≠ [] := by
    rintro rfl
    rw [List.toFinset_nil, Finset.card_empty] at hL
    omega
  have hsi : ∀ x ∈ data, g₂.symLookup x < maxSymbols := by
    intro x hx
    obtain ⟨k, hk, -, hkx, -⟩ := bits_path hsym hb hlook (by omega) hx
    rw [hlook, hkx]
    exact hk.trans_le hmax
  refine ⟨rfl, hb.usesNodes (by omega) hmax, codesOf t, fun fuel hfuel => ?_, ?_⟩
  · have hfuel' : 16 < fuel := hfuel
    exact generateCodes_root hsym hb hlook hmax (by omega) (by omega)
  · have hbits := bits_eq { g₂ with codes := codesOf t } data
    dsimp only at hbits
    rw [← hbits]
    refine ⟨hgood, fun h48 => ?_, fun encoded decoded => ?_⟩
    · have h7 : t.height ≤ 7 := hb.height_le (h48.trans_lt (by decide))
      have hle := bits_length_le hsym hb hlook (by omega) h7
      omega
    · obtain ⟨hzero, hfits⟩ := encodeData_cases hgood hne hsi encoded
      exact ⟨hzero, fun hfit => ⟨(hfits hfit).1, decode_encode hgood (hfits hfit) hfit decoded⟩⟩

/-- The data of the benchmark: 19 byte values, 48 bytes. -/
def inputData : List Byte :=
  ['a', 'b', 'c', 'd', 'a', 'e', 'f', 'g',
   'a', 'b', 'c', 'd', 'h', 'i', 'j', 'k',
   'a', 'b', 'c', 'e', 'f', 'l', 'm', 'n',
   'a', 'b', 'c', 'd', 'a', 'o', 'p', 'q',
   'a', 'b', 'c', 'd', 'e', 'f', 'g', 'r',
   'a', 'b', 'c', 'h', 'i', 'j', 'k', 's'].map fun c => BitVec.ofNat 8 c.toNat

/-- The tables before `main` runs. -/
def zeroTables : Tables := ⟨fun _ => ⟨0, 0#8, 0, 0⟩, fun _ => ⟨0#16, 0⟩, fun _ => 0#8, fun _ => 0⟩

theorem inputData_round_trip :
    let g₁ := (buildFreqTable zeroTables inputData).2
    let root := (buildTree g₁ 19).1
    let g₂ := (buildTree g₁ 19).2
    ∃ codes, generateCodes g₂ 17 root 0#16 1#16 0 (fun _ => ⟨0#16, 0⟩) = some codes ∧
      let g₃ := { g₂ with codes := codes }
      let enc := encodeData g₃ inputData (fun _ => 0#8) bitstreamCap
      let dec := decodeData g₃ enc.2 enc.1 root (fun _ => 0#8) 48
      dec.1 = 48 ∧ ∀ i (hi : i < inputData.length), dec.2 i = inputData[i] := by
  have hcard : inputData.toFinset.card = 19 := by decide +kernel
  obtain ⟨hn, -, codes, hcodes, -, h48, hrun⟩ := huffman_round_trip zeroTables inputData
    (by decide) (by rw [hcard]; decide) (by rw [hcard]; decide)
  rw [hcard] at hn
  rw [hn] at hcodes h48 hrun
  refine ⟨codes, hcodes 17 (by decide), ?_⟩
  exact ((hrun (fun _ => 0#8) fun _ => 0#8).2 (h48 (by decide))).2

end LlvmTms9900.Huffman
