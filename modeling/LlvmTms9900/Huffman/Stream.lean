import LlvmTms9900.Huffman.Codes

/-!
# The bit stream

The bytes of the stream hold the bits of the code words one after the other,
bit 0 of a byte first. `encode_data` writes them and `decode_data` walks the
tree along them.
-/

namespace LlvmTms9900.Huffman

/-- Bit `n` of the stream. -/
def bitAt (stream : ℕ → Byte) (n : ℕ) : Bool := (stream (n / 8)).getLsbD (n % 8)

theorem bitMasks_getD : ∀ k < 8, bitMasks.getD k 0#8 = BitVec.twoPow 8 k := by decide

/-- The test of one bit with a mask. -/
theorem and_twoPow_eq_zero {w : ℕ} (x : BitVec w) (i : ℕ) :
    x &&& BitVec.twoPow w i = 0#w ↔ x.getLsbD i = false := by
  rw [BitVec.and_twoPow]
  cases h : x.getLsbD i with
  | false => simp only [Bool.false_eq_true, if_false]
  | true =>
    have hi : i < w := BitVec.lt_of_getLsbD h
    have hne : BitVec.twoPow w i ≠ 0#w := by
      intro h0
      have hbit := congrArg (fun y => y.getLsbD i) h0
      rw [BitVec.getLsbD_twoPow, BitVec.getLsbD_zero] at hbit
      simp only [hi, decide_true, Bool.true_and] at hbit
      exact absurd hbit (by decide)
    simp only [if_true, hne, Bool.true_eq_false]

section Write
variable {S : List Bool} {out_cap : ℕ}

/-- The bits of `S` and no others are in the output. -/
def Wrote (S : List Bool) (out_cap : ℕ) (s : ℕ × (ℕ → Byte)) : Prop :=
  s.1 = S.length ∧ ∀ n < 8 * out_cap, bitAt s.2 n = S.getD n false

theorem bitAt_setBit (out : ℕ → Byte) (pos n : ℕ) :
    bitAt (Function.update out (pos / 8) (out (pos / 8) ||| bitMasks.getD (pos % 8) 0#8)) n =
      (bitAt out n || decide (n = pos)) := by
  rw [bitMasks_getD _ (Nat.mod_lt _ (by decide)), bitAt, bitAt]
  by_cases hq : n / 8 = pos / 8
  · rw [hq, Function.update_self, BitVec.getLsbD_or, BitVec.getLsbD_twoPow]
    congr 1
    rw [Bool.eq_iff_iff]
    simp only [Bool.and_eq_true, decide_eq_true_eq]
    omega
  · have hne : n ≠ pos := fun he => hq (he ▸ rfl)
    rw [Function.update_of_ne hq, decide_eq_false hne, Bool.or_false]

theorem getD_concat (S : List Bool) (b : Bool) (n : ℕ) :
    (S ++ [b]).getD n false = (S.getD n false || (decide (n = S.length) && b)) := by
  rcases Nat.lt_trichotomy n S.length with hlt | rfl | hgt
  · rw [List.getD_append _ _ _ _ hlt, decide_eq_false (Nat.ne_of_lt hlt), Bool.false_and,
      Bool.or_false]
  · rw [List.getD_append_right _ _ _ _ le_rfl, Nat.sub_self, List.getD_cons_zero,
      List.getD_eq_default _ _ le_rfl, decide_eq_true rfl, Bool.true_and, Bool.false_or]
  · rw [List.getD_append_right _ _ _ _ hgt.le, List.getD_eq_default _ _ hgt.le,
      List.getD_eq_default _ _ (by rw [List.length_singleton]; omega),
      decide_eq_false (Nat.ne_of_gt hgt), Bool.false_and, Bool.or_false]

/-- One more bit. -/
theorem Wrote.bit {pos : ℕ} {out : ℕ → Byte} (h : Wrote S out_cap (pos, out)) (hpos : pos < 65535)
    (b : Bool) : Wrote (S ++ [b]) out_cap ((pos + 1) % 65536,
      if b then Function.update out (pos / 8) (out (pos / 8) ||| bitMasks.getD (pos % 8) 0#8)
      else out) := by
  obtain ⟨hlen, hbits⟩ := h
  dsimp only at hlen hbits
  refine ⟨?_, fun n hn => ?_⟩
  · rw [List.length_append, List.length_singleton, ← hlen, Nat.mod_eq_of_lt (by omega)]
  · rw [getD_concat, ← hbits n hn, ← hlen]
    cases b with
    | false => rw [Bool.and_false, Bool.or_false, if_neg Bool.false_ne_true]
    | true => rw [Bool.and_true, if_pos rfl, bitAt_setBit]

/-- The bits of a code from bit `j` on, when they fit. -/
theorem writeCode_fits (hcap : out_cap ≤ 0xFF) (cbits : Bits) (b j : ℕ) {s : ℕ × (ℕ → Byte)}
    (h : Wrote S out_cap s) (hfit : S.length + b ≤ 8 * out_cap) :
    ∃ s', writeCode out_cap cbits b (1#16 <<< j) s = .ok s' ∧
      Wrote (S ++ (List.range b).map fun i => cbits.getLsbD (j + i)) out_cap s' := by
  induction b generalizing S j s with
  | zero =>
    refine ⟨s, rfl, ?_⟩
    rw [List.range_zero, List.map_nil, List.append_nil]
    exact h
  | succ b ih =>
    obtain ⟨pos, out⟩ := s
    have hpos : pos = S.length := h.1
    have hbit := h.bit (by omega) (cbits.getLsbD j)
    obtain ⟨s', hs', hw⟩ := ih (j + 1) hbit (by
      rw [List.length_append, List.length_singleton]
      omega)
    refine ⟨s', ?_, ?_⟩
    · rw [writeCode, if_neg (by omega), ← hs', ← BitVec.shiftLeft_add]
      have htest : cbits &&& 1#16 <<< j ≠ 0#16 ↔ cbits.getLsbD j = true := by
        rw [← BitVec.twoPow_eq, Ne, and_twoPow_eq_zero, Bool.not_eq_false]
      simp only [htest]
    · rw [List.append_assoc, List.singleton_append] at hw
      rw [List.range_succ_eq_map, List.map_cons, List.map_map]
      have hshift : (fun i => cbits.getLsbD (j + 1 + i)) =
          (fun i => cbits.getLsbD (j + i)) ∘ Nat.succ :=
        funext fun i => congrArg _ (by omega)
      rw [← hshift]
      exact hw

/-- The bits of a code when the output is full before the last. -/
theorem writeCode_overflow (hcap : out_cap ≤ 0xFF) (cbits : Bits) (b : ℕ) (code_mask : Bits)
    (pos : ℕ) (out : ℕ → Byte) (hpos : pos ≤ 8 * out_cap) (hfull : 8 * out_cap < pos + b) :
    ∃ out', writeCode out_cap cbits b code_mask (pos, out) = .error out' := by
  induction b generalizing code_mask pos out with
  | zero => omega
  | succ b ih =>
    rw [writeCode]
    by_cases hend : out_cap ≤ pos / 8
    · exact ⟨out, if_pos hend⟩
    · rw [if_neg hend, Nat.mod_eq_of_lt (show pos + 1 < 65536 by omega)]
      exact ih _ (pos + 1) _ (by omega) (by omega)

end Write

section Encode
variable {g : Tables} {out_cap : ℕ}

/-- The bits that the codes table has for a byte value. -/
def bitsOf (g : Tables) (x : Byte) : List Bool := (g.codes (g.symLookup x)).word

theorem bitsOf_length (g : Tables) (x : Byte) :
    (bitsOf g x).length = (g.codes (g.symLookup x)).len := HuffCode.word_length _

theorem writeSymbol_eq {x : Byte} (hx : g.symLookup x < maxSymbols) (s : ℕ × (ℕ → Byte)) :
    writeSymbol g out_cap s x = writeCode out_cap (g.codes (g.symLookup x)).bits
      (g.codes (g.symLookup x)).len (1#16 <<< 0) s := by
  rw [writeSymbol, if_neg (Nat.not_le.2 hx), BitVec.shiftLeft_zero]

theorem bitsOf_eq (g : Tables) (x : Byte) :
    bitsOf g x = (List.range (g.codes (g.symLookup x)).len).map fun i =>
      (g.codes (g.symLookup x)).bits.getLsbD (0 + i) := by
  simp only [Nat.zero_add]
  rfl

/-- The symbols of the data are written one after the other when they fit. -/
theorem writeSymbols_fits (hcap : out_cap ≤ 0xFF) (data : List Byte)
    (hdata : ∀ x ∈ data, g.symLookup x < maxSymbols) {S : List Bool} {s : ℕ × (ℕ → Byte)}
    (h : Wrote S out_cap s) (hfit : S.length + (data.flatMap (bitsOf g)).length ≤ 8 * out_cap) :
    ∃ s', data.foldlM (writeSymbol g out_cap) s = .ok s' ∧
      Wrote (S ++ data.flatMap (bitsOf g)) out_cap s' := by
  induction data generalizing S s with
  | nil =>
    refine ⟨s, rfl, ?_⟩
    rw [List.flatMap_nil, List.append_nil]
    exact h
  | cons x data ih =>
    rw [List.flatMap_cons, List.length_append] at hfit
    have hlen := bitsOf_length g x
    obtain ⟨s₁, hs₁, hw₁⟩ := writeCode_fits hcap (g.codes (g.symLookup x)).bits
      (g.codes (g.symLookup x)).len 0 h (by omega)
    rw [← bitsOf_eq] at hw₁
    obtain ⟨s', hs', hw⟩ := ih (fun y hy => hdata y (List.mem_cons_of_mem x hy)) hw₁ (by
      rw [List.length_append]
      omega)
    refine ⟨s', ?_, ?_⟩
    · rw [List.foldlM_cons, writeSymbol_eq (hdata x List.mem_cons_self), hs₁]
      exact hs'
    · rw [List.flatMap_cons, ← List.append_assoc]
      exact hw

theorem writeSymbols_overflow (hcap : out_cap ≤ 0xFF) (data : List Byte)
    (hdata : ∀ x ∈ data, g.symLookup x < maxSymbols) {S : List Bool} {s : ℕ × (ℕ → Byte)}
    (h : Wrote S out_cap s) (hS : S.length ≤ 8 * out_cap)
    (hfull : 8 * out_cap < S.length + (data.flatMap (bitsOf g)).length) :
    ∃ out, data.foldlM (writeSymbol g out_cap) s = .error out := by
  induction data generalizing S s with
  | nil =>
    rw [List.flatMap_nil, List.length_nil] at hfull
    omega
  | cons x data ih =>
    rw [List.flatMap_cons, List.length_append] at hfull
    have hlen := bitsOf_length g x
    rw [List.foldlM_cons, writeSymbol_eq (hdata x List.mem_cons_self)]
    by_cases hx : S.length + (g.codes (g.symLookup x)).len ≤ 8 * out_cap
    · obtain ⟨s₁, hs₁, hw₁⟩ := writeCode_fits hcap (g.codes (g.symLookup x)).bits
        (g.codes (g.symLookup x)).len 0 h hx
      rw [← bitsOf_eq] at hw₁
      rw [hs₁]
      refine ih (fun y hy => hdata y (List.mem_cons_of_mem x hy)) hw₁ ?_ ?_
      · rw [List.length_append]
        omega
      · rw [List.length_append]
        omega
    · obtain ⟨pos, out⟩ := s
      have hpos : pos = S.length := h.1
      obtain ⟨out', hout'⟩ := writeCode_overflow hcap (g.codes (g.symLookup x)).bits
        (g.codes (g.symLookup x)).len (1#16 <<< 0) pos out (by omega) (by omega)
      rw [hout']
      exact ⟨out', rfl⟩

theorem wrote_clear (out : ℕ → Byte) (out_cap : ℕ) :
    Wrote [] out_cap (0, clearOut out out_cap) := by
  refine ⟨rfl, fun n hn => ?_⟩
  have hclear : clearOut out out_cap (n / 8) = 0#8 := if_pos (by omega)
  dsimp only
  rw [bitAt, hclear, BitVec.getLsbD_zero, List.getD_nil]

/-- `encode_data` writes the codes of the data when they fit, and returns 0 else. -/
theorem encodeData_spec (hcap : out_cap ≤ 0xFF) (data : List Byte)
    (hdata : ∀ x ∈ data, g.symLookup x < maxSymbols) (out : ℕ → Byte) :
    ((data.flatMap (bitsOf g)).length ≤ 8 * out_cap →
      Wrote (data.flatMap (bitsOf g)) out_cap (encodeData g data out out_cap)) ∧
    (8 * out_cap < (data.flatMap (bitsOf g)).length → (encodeData g data out out_cap).1 = 0) := by
  have hclear := wrote_clear out out_cap
  constructor
  · intro hfit
    obtain ⟨s, hs, hw⟩ := writeSymbols_fits hcap data hdata hclear (by
      rw [List.length_nil]
      omega)
    rw [encodeData, hs]
    exact hw
  · intro hfull
    obtain ⟨out', hout'⟩ := writeSymbols_overflow hcap data hdata hclear (Nat.zero_le _) (by
      rw [List.length_nil]
      omega)
    rw [encodeData, hout']

end Encode

section Decode
variable {S : List Bool} {stream : ℕ → Byte}

theorem drop_cons {b : Bool} {pos : ℕ} {rest : List Bool} (h : S.drop pos = b :: rest) :
    pos < S.length ∧ S.getD pos false = b ∧ S.drop (pos + 1) = rest := by
  have hlt : pos < S.length := by
    by_contra hge
    rw [List.drop_eq_nil_of_le (Nat.le_of_not_lt hge)] at h
    exact absurd h.symm (List.cons_ne_nil b rest)
  rw [List.drop_eq_getElem_cons hlt, List.cons.injEq] at h
  exact ⟨hlt, by rw [List.getD_eq_getElem _ _ hlt, h.1], h.2⟩

/-- The walk over the path of a leaf ends there. -/
theorem walk_path {nodes : ℕ → HuffNode} (hbits : ∀ n < S.length, bitAt stream n = S.getD n false)
    (p : List Bool) {pos cur k : ℕ} {rest : List Bool} (hdrop : S.drop pos = p ++ rest)
    (hp : descend nodes cur p = some k) (hk : IsLeaf (nodes k)) :
    walk nodes stream S.length pos cur = some (k, pos + p.length) := by
  induction p generalizing pos cur with
  | nil =>
    rw [descend, Option.some.injEq] at hp
    rw [walk, if_neg (by rw [hp, hk.1, hk.2]; omega), hp]
    rfl
  | cons b p ih =>
    obtain ⟨hlt, hb, hdrop'⟩ := drop_cons hdrop
    rw [descend] at hp
    have hnext : ¬ (if b then (nodes cur).right else (nodes cur).left) = 0xFF := by
      intro hff
      rw [if_pos hff] at hp
      exact absurd hp.symm (Option.some_ne_none k)
    rw [if_neg hnext] at hp
    have hinner : (nodes cur).left ≠ 0xFF ∨ (nodes cur).right ≠ 0xFF := by
      cases b with
      | false => exact .inl hnext
      | true => exact .inr hnext
    have htest : stream (pos / 8) &&& bitMasks.getD (pos % 8) 0#8 = 0#8 ↔ b = false := by
      rw [bitMasks_getD _ (Nat.mod_lt _ (by decide)), and_twoPow_eq_zero, ← hb, ← hbits pos hlt]
      rfl
    have hchild : (if stream (pos / 8) &&& bitMasks.getD (pos % 8) 0#8 = 0#8 then (nodes cur).left
        else (nodes cur).right) = if b then (nodes cur).right else (nodes cur).left := by
      cases b with
      | false => rw [if_pos (htest.2 rfl), if_neg Bool.false_ne_true]
      | true => rw [if_neg fun h => absurd (htest.1 h).symm Bool.false_ne_true, if_pos rfl]
    rw [walk, if_pos hinner, if_neg (by omega)]
    simp only [hchild]
    rw [if_neg hnext, ih hdrop' hp, List.length_cons, Nat.add_assoc, Nat.add_comm 1]

/-- The code of `x` leads from the root to a leaf of `x`. -/
def Codes (nodes : ℕ → HuffNode) (root : ℕ) (p : List Bool) (x : Byte) : Prop :=
  ∃ k, descend nodes root p = some k ∧ IsLeaf (nodes k) ∧ (nodes k).symbol = x

/-- `decode_data` reads the codes of `rest` and writes its symbols. -/
theorem decodeLoop_spec {nodes : ℕ → HuffNode} {root : ℕ} {code : Byte → List Bool}
    (hbits : ∀ n < S.length, bitAt stream n = S.getD n false) (rest : List Byte)
    (hcode : ∀ x ∈ rest, code x ≠ [] ∧ Codes nodes root (code x) x) {pos out_pos : ℕ}
    (out : ℕ → Byte) (hdrop : S.drop pos = rest.flatMap code) :
    ∃ out', decodeLoop nodes stream S.length root (out_pos + rest.length) pos out_pos out =
        (out_pos + rest.length, out') ∧
      (∀ i < out_pos, out' i = out i) ∧
      ∀ i (hi : i < rest.length), out' (out_pos + i) = rest[i] := by
  induction rest generalizing pos out_pos out with
  | nil =>
    rw [decodeLoop, if_neg (by rw [List.length_nil]; omega)]
    exact ⟨out, rfl, fun _ _ => rfl, fun i hi => absurd hi (Nat.not_lt_zero i)⟩
  | cons x rest ih =>
    obtain ⟨hne, k, hk, hleaf, hsym⟩ := hcode x List.mem_cons_self
    rw [List.flatMap_cons] at hdrop
    have hpos : pos < S.length := by
      obtain ⟨b, p, hbp⟩ := List.exists_cons_of_ne_nil hne
      rw [hbp, List.cons_append] at hdrop
      exact (drop_cons hdrop).1
    have hwalk := walk_path hbits (code x) hdrop hk hleaf
    have hdrop' : S.drop (pos + (code x).length) = rest.flatMap code := by
      rw [← List.drop_drop, hdrop, List.drop_left]
    have hlen : out_pos + (x :: rest).length = out_pos + 1 + rest.length := by
      rw [List.length_cons]
      omega
    obtain ⟨out', hrun, hbefore, hafter⟩ := ih (fun y hy => hcode y (List.mem_cons_of_mem x hy))
      (Function.update out out_pos x) hdrop'
    refine ⟨out', ?_, fun i hi => ?_, fun i hi => ?_⟩
    · rw [decodeLoop, if_pos ⟨hpos, by rw [List.length_cons]; omega⟩, hwalk, hlen]
      dsimp only
      rw [hsym, hrun]
    · rw [hbefore i (by omega), Function.update_of_ne (Nat.ne_of_lt hi)]
    · cases i with
      | zero =>
        rw [List.getElem_cons_zero, Nat.add_zero, hbefore out_pos (by omega),
          Function.update_self]
      | succ i =>
        rw [List.length_cons] at hi
        rw [List.getElem_cons_succ, ← hafter i (by omega)]
        congr 1
        omega

end Decode

end LlvmTms9900.Huffman
