import LlvmTms9900.Huffman.BuildTree

/-!
# The codes

`generate_codes` gives each leaf its path, bit 0 first, in a 16-bit word.
-/

namespace LlvmTms9900.Huffman

open LlvmTms9900.Arith

/-- The bits of a code in the order they are written. -/
def HuffCode.word (c : HuffCode) : List Bool := (List.range c.len).map c.bits.getLsbD

/-- The word for a path below a node that has `code` so far. -/
def codeWord : List Bool → Bits → Bits → Bits
  | [], code, _ => code
  | b :: p, code, bit_mask => codeWord p (if b then code ||| bit_mask else code) (bit_mask <<< 1)

/-- The code of a leaf below a node at `depth`. -/
def assign (code bit_mask : Bits) (depth : ℕ) (codes : ℕ → HuffCode) (x : ℕ × List Bool) :
    ℕ → HuffCode :=
  Function.update codes x.1 ⟨codeWord x.2 code bit_mask, depth + x.2.length⟩

/-- Every leaf below the node gets its code, and nothing else changes. -/
theorem generateCodes_eq {g : Tables} {n : ℕ} (hn : n ≤ 0xFF) {t : CodeTree ℕ} {i : ℕ}
    (hrep : Rep g.nodes n t i)
    (hsym : ∀ k ∈ t.leaves, g.symLookup (g.nodes k).symbol = k ∧ k < maxSymbols)
    {fuel depth : ℕ} (hfuel : t.height < fuel) (hdepth : depth + t.height < 256)
    (code bit_mask : Bits) (codes : ℕ → HuffCode) :
    generateCodes g fuel i code bit_mask depth codes =
      some (t.paths.foldl (assign code bit_mask depth) codes) := by
  induction t generalizing i fuel depth code bit_mask codes with
  | leaf k =>
    obtain ⟨fuel, rfl⟩ := Nat.exists_eq_add_of_lt hfuel
    obtain ⟨rfl, -, hl, hr⟩ := hrep
    obtain ⟨hsi, hlt⟩ := hsym i (List.mem_singleton.2 rfl)
    rw [generateCodes]
    simp only [hl, hr, hsi, and_self, if_true, if_pos hlt]
    rfl
  | node l r ihl ihr =>
    obtain ⟨fuel, rfl⟩ : ∃ f, fuel = f + 1 := Nat.exists_eq_add_of_le' (by omega)
    obtain ⟨-, hl, hr⟩ := hrep
    have hlt := hl.lt
    have hrt := hr.lt
    rw [CodeTree.height] at hfuel hdepth
    have hsyml := fun k hk => hsym k (List.mem_append_left r.leaves hk)
    have hsymr := fun k hk => hsym k (List.mem_append_right l.leaves hk)
    have hleft : generateCodes g fuel (g.nodes i).left code (bit_mask <<< 1) (depth + 1) codes =
        some (l.paths.foldl (assign code (bit_mask <<< 1) (depth + 1)) codes) :=
      ihl hl hsyml (by omega) (by omega) _ _ _
    rw [generateCodes]
    dsimp only
    rw [if_neg (by omega), if_pos (by omega), Nat.mod_eq_of_lt (by omega), hleft,
      Option.bind_eq_bind, Option.bind_some, if_pos (by omega),
      ihr hr hsymr (by omega) (by omega), CodeTree.paths, List.foldl_append, List.foldl_map,
      List.foldl_map]
    have hshift : ∀ b : Bool,
        assign (if b then code ||| bit_mask else code) (bit_mask <<< 1) (depth + 1) =
          fun f x => assign code bit_mask depth f (x.1, b :: x.2) := by
      intro b
      funext f x
      rw [assign, assign, codeWord, List.length_cons, Nat.add_assoc, Nat.add_comm 1]
    have h0 := hshift false
    have h1 := hshift true
    rw [if_neg Bool.false_ne_true] at h0
    rw [if_pos rfl] at h1
    rw [h0, h1]

/-- The code that a list of assignments leaves for one of its leaves. -/
theorem foldl_assign {code bit_mask : Bits} {depth : ℕ} {l : List (ℕ × List Bool)}
    (hnd : (l.map Prod.fst).Nodup) {k : ℕ} {p : List Bool} (h : (k, p) ∈ l)
    (codes : ℕ → HuffCode) :
    l.foldl (assign code bit_mask depth) codes k =
      ⟨codeWord p code bit_mask, depth + p.length⟩ := by
  induction l using List.reverseRecOn with
  | nil => exact absurd h List.not_mem_nil
  | append_singleton l x ih =>
    rw [List.map_append, List.nodup_append] at hnd
    rw [List.foldl_append, List.foldl_cons, List.foldl_nil, assign]
    rcases List.mem_append.1 h with hl | hx
    · have hne : k ≠ x.1 :=
        hnd.2.2 k (List.mem_map.2 ⟨(k, p), hl, rfl⟩) x.1 (List.mem_singleton.2 rfl)
      rw [Function.update_of_ne hne]
      exact ih hnd.1 hl
    · rw [List.mem_singleton] at hx
      rw [← hx, Function.update_self]

section Word

/-- The word of a path has the bits of the path from the mask's bit on. -/
theorem codeWord_getLsbD (p : List Bool) (code : Bits) (d : ℕ) (hd : d + p.length ≤ 16) {j : ℕ}
    (hj : j < 16) : (codeWord p code (1#16 <<< d)).getLsbD j =
      (code.getLsbD j || (decide (d ≤ j) && p.getD (j - d) false)) := by
  induction p generalizing code d with
  | nil => rw [codeWord, List.getD_nil, Bool.and_false, Bool.or_false]
  | cons b p ih =>
    rw [List.length_cons] at hd
    rw [codeWord, ← BitVec.shiftLeft_add, ih _ (d + 1) (by omega)]
    have hcode : (if b then code ||| 1#16 <<< d else code).getLsbD j =
        (code.getLsbD j || (decide (j = d) && b)) := by
      cases b with
      | false => rw [if_neg Bool.false_ne_true, Bool.and_false, Bool.or_false]
      | true =>
        rw [if_pos rfl, BitVec.getLsbD_or, Bool.and_true, ← BitVec.twoPow_eq,
          BitVec.getLsbD_twoPow]
        simp only [show d < 16 by omega, decide_true, Bool.true_and, eq_comm]
    rw [hcode, Bool.or_assoc]
    congr 1
    rcases Nat.lt_trichotomy j d with hlt | rfl | hgt
    · simp only [show ¬ j = d by omega, show ¬ d + 1 ≤ j by omega, show ¬ d ≤ j by omega,
        decide_false, Bool.false_and, Bool.or_false]
    · simp only [show ¬ j + 1 ≤ j by omega, le_refl, decide_true, decide_false, Bool.true_and,
        Bool.false_and, Bool.or_false, Nat.sub_self, List.getD_cons_zero]
    · obtain ⟨e, rfl⟩ := Nat.exists_eq_add_of_lt hgt
      simp only [show ¬ d + e + 1 = d by omega, show d + 1 ≤ d + e + 1 by omega,
        show d ≤ d + e + 1 by omega, show d + e + 1 - (d + 1) = e by omega,
        show d + e + 1 - d = e + 1 by omega, decide_true, decide_false, Bool.true_and,
        Bool.false_and, Bool.false_or, List.getD_cons_succ]

/-- A path of at most 16 bits is held whole. -/
theorem word_codeWord {p : List Bool} (hp : p.length ≤ 16) :
    (HuffCode.mk (codeWord p 0#16 1#16) (0 + p.length)).word = p := by
  rw [HuffCode.word]
  dsimp only
  refine List.ext_getElem (by rw [List.length_map, List.length_range, Nat.zero_add]) ?_
  intro j hj hjp
  rw [List.getElem_map, List.getElem_range]
  have h := codeWord_getLsbD p 0#16 0 (by omega) (show j < 16 by omega)
  rw [BitVec.shiftLeft_zero] at h
  rw [h, BitVec.getLsbD_zero, Bool.false_or, Nat.sub_zero, decide_eq_true (Nat.zero_le j),
    Bool.true_and, List.getD_eq_getElem _ _ hjp]

theorem HuffCode.word_length (c : HuffCode) : c.word.length = c.len := by
  rw [HuffCode.word, List.length_map, List.length_range]

end Word

end LlvmTms9900.Huffman
