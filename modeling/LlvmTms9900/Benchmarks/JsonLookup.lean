import LlvmTms9900.Benchmarks.JsonTokens

/-!
# Reading a number out of the tokens

The search of `main` compares token texts with the key, and reads the digits of the
token after the first match. On the tokens of a value this finds the number after
the key, modulo 65536, unless a string equal to the key stands before it.
-/

namespace LlvmTms9900.Benchmarks.Json
open LlvmTms9900.Arith

section Token
variable {js key : Text} {t : Tok}

theorem length_slice (h : t.stop ≤ js.length) : (slice js t).length = t.stop - t.start := by
  rw [slice, List.length_take, List.length_drop]
  omega

theorem charAt_slice {i : ℕ} (hi : i < t.stop - t.start) :
    charAt (slice js t) i = charAt js (t.start + i) := by
  rw [charAt, charAt, slice, List.getD_eq_getElem?_getD, List.getD_eq_getElem?_getD,
    List.getElem?_take_of_lt hi, List.getElem?_drop]

theorem tokEq_iff (hle : t.start ≤ t.stop) (h : t.stop ≤ js.length) (hlen : js.length ≤ 254) :
    tokEq js t key = true ↔ readToken js t = (.string, key) := by
  have hsize : (t.stop + 256 - t.start) % 256 = (slice js t).length := by
    rw [length_slice h]
    omega
  rw [tokEq, hsize, Bool.and_eq_true, Bool.and_eq_true, decide_eq_true_iff, decide_eq_true_iff,
    List.all_eq_true, readToken, Prod.mk.injEq, and_assoc]
  refine and_congr_right fun _ => ⟨?_, ?_⟩
  · rintro ⟨hkey, hall⟩
    refine List.ext_getElem hkey fun i hi hi' => ?_
    have hchar := hall i (List.mem_range.2 hi')
    have hbound : i < t.stop - t.start := by rwa [length_slice h] at hi
    rw [Nat.mod_eq_of_lt (by omega), ← charAt_slice hbound, beq_iff_eq, charAt, charAt,
      List.getD_eq_getElem _ _ hi, List.getD_eq_getElem _ _ hi'] at hchar
    exact hchar
  · rintro rfl
    refine ⟨rfl, fun i hi => ?_⟩
    have hbound : i < t.stop - t.start := by
      rw [← length_slice h]
      exact List.mem_range.1 hi
    rw [Nat.mod_eq_of_lt (by omega), charAt_slice hbound, beq_self_eq_true]

theorem tokInt_eq (hle : t.start ≤ t.stop) (h : t.stop ≤ js.length) :
    tokInt js t = (slice js t).foldl digitStep 0 := by
  have hloop : ∀ hi, t.start ≤ hi → hi ≤ js.length →
      forUpto t.start hi (fun i val => digitStep val (charAt js i)) 0 =
        ((js.drop t.start).take (hi - t.start)).foldl digitStep 0 := by
    intro hi hstart hhi
    induction hi, hstart using Nat.le_induction with
    | base =>
      rw [forUpto_self, Nat.sub_self, List.take_zero]
      rfl
    | succ hi hstart ih =>
      have hget : (js.drop t.start)[hi - t.start]? = some (charAt js hi) := by
        rw [List.getElem?_drop, Nat.add_sub_cancel' hstart, charAt,
          List.getD_eq_getElem _ _ (by omega), List.getElem?_eq_getElem]
      rw [forUpto_succ hstart, ih (by omega), Nat.succ_sub hstart, Nat.succ_eq_add_one,
        List.take_add_one, hget, List.foldl_append]
      rfl
  exact hloop t.stop hle h

end Token

/-! ### Decimal digits -/

/-- The digits of a number; none for 0. -/
def digitText (n : ℕ) : Text := (Nat.digits 10 n).reverse.map fun d => BitVec.ofNat 8 (0x30 + d)

/-- A decimal number; 0 is one digit. -/
def decimal (n : ℕ) : Text := if n = 0 then [0x30#8] else digitText n

theorem digitStep_digit {d val : ℕ} (hd : d < 10) :
    digitStep val (BitVec.ofNat 8 (0x30 + d)) = (val * 10 + d) % 65536 := by
  have hval : (BitVec.ofNat 8 (0x30 + d)).toNat = 0x30 + d := by
    rw [BitVec.toNat_ofNat, Nat.mod_eq_of_lt (by omega)]
  rw [digitStep, hval, if_pos (by omega), Nat.add_sub_cancel_left]

theorem foldl_digitStep_digitText (n : ℕ) : (digitText n).foldl digitStep 0 = n % 65536 := by
  induction n using Nat.strong_induction_on with
  | _ n ih =>
    rcases Nat.eq_zero_or_pos n with rfl | hpos
    · rfl
    · have hsplit : digitText n = digitText (n / 10) ++ [BitVec.ofNat 8 (0x30 + n % 10)] := by
        rw [digitText, Nat.digits_def' (by decide) hpos, List.reverse_cons, List.map_append]
        rfl
      rw [hsplit, List.foldl_append, ih (n / 10) (by omega), List.foldl_cons, List.foldl_nil,
        digitStep_digit (Nat.mod_lt n (by decide))]
      omega

theorem foldl_digitStep_decimal (n : ℕ) : (decimal n).foldl digitStep 0 = n % 65536 := by
  rw [decimal]
  split_ifs with hn
  · rw [hn]
    rfl
  · exact foldl_digitStep_digitText n

/-! ### The search -/

/-- The span of a token within the text. -/
def Tok.Within (js : Text) (t : Tok) : Prop := t.start ≤ t.stop ∧ t.stop ≤ js.length

section Search
variable {js key : Text} {toks : List Tok}

theorem bitsValue_skip {t next : Tok} {rest : List Tok} (ht : t.Within js)
    (hlen : js.length ≤ 254) (hno : readToken js t ≠ (.string, key)) :
    bitsValue js key (t :: next :: rest) = bitsValue js key (next :: rest) := by
  have heq : tokEq js t key = false := by
    rw [← Bool.not_eq_true, tokEq_iff ht.1 ht.2 hlen]
    exact hno
  rw [bitsValue, List.head?_cons, Option.elim_some, heq, if_neg Bool.false_ne_true]

theorem bitsValue_found {parts rest : List (TokType × Text)} {part : TokType × Text}
    (hlen : js.length ≤ 254) (hwithin : ∀ t ∈ toks, t.Within js)
    (hread : toks.map (readToken js) = parts ++ (.string, key) :: part :: rest)
    (hno : (.string, key) ∉ parts) : bitsValue js key toks = part.2.foldl digitStep 0 := by
  induction parts generalizing toks with
  | nil =>
    obtain ⟨t, tail, rfl, ht, htail⟩ := List.map_eq_cons_iff.1 hread
    obtain ⟨next, tail, rfl, hnext, -⟩ := List.map_eq_cons_iff.1 htail
    have htin := hwithin t (by simp)
    have hnin := hwithin next (by simp)
    rw [bitsValue, List.head?_cons, Option.elim_some,
      if_pos ((tokEq_iff htin.1 htin.2 hlen).2 ht), tokInt_eq hnin.1 hnin.2, ← hnext]
    rfl
  | cons p parts ih =>
    obtain ⟨hp, hparts⟩ := List.ne_and_not_mem_of_not_mem_cons hno
    obtain ⟨t, tail, rfl, ht, htail⟩ := List.map_eq_cons_iff.1 hread
    have hnext := ih (fun u hu => hwithin u (by simp [hu])) htail hparts
    cases tail with
    | nil => simp at htail
    | cons next tail =>
      rw [bitsValue_skip (hwithin t (by simp)) hlen (by rw [ht]; exact hp.symm), hnext]

end Search

/-- In the text of an object the search finds the number `n` behind the key, modulo
`2 ^ 16`, when no string equal to the key stands before that key. -/
theorem json_number_found (value : Value) (hvalid : value.Valid)
    (hlen : value.text.length ≤ 254) (maxTok fuel : ℕ)
    (hfuel : 2 * value.text.length + maxTok + 1 < fuel) (hroom : value.preorder.length ≤ maxTok)
    (key : Text) (n : ℕ) (type : TokType) (whole : TokType × Text)
    (parts rest : List (TokType × Text))
    (hparts : value.preorder = whole :: (parts ++ (.string, key) :: (type, decimal n) :: rest))
    (hno : (.string, key) ∉ parts) :
    ∃ tokens, jsonTokenize value.text value.text.length maxTok fuel = some (some tokens) ∧
      bitsValue value.text key (tokens.drop 1) = n % 65536 := by
  obtain ⟨tokens, hrun, hread, hwithin⟩ := value.tokenized hvalid hlen hfuel hroom
  refine ⟨tokens, hrun, ?_⟩
  have hdrop : (tokens.drop 1).map (readToken value.text) =
      parts ++ (.string, key) :: (type, decimal n) :: rest := by
    rw [List.map_drop, hread, hparts]
    rfl
  have hfound := bitsValue_found hlen (fun t ht => hwithin t (List.mem_of_mem_drop ht)) hdrop hno
  rw [hfound, foldl_digitStep_decimal]

theorem json_number_found_sixteen :
    ∃ tokens,
      jsonTokenize (Value.object (.last [0x62#8] (.primitive (decimal 16)))).text 8 3 22 =
        some (some tokens) ∧
      bitsValue (Value.object (.last [0x62#8] (.primitive (decimal 16)))).text [0x62#8]
        (tokens.drop 1) = 16 :=
  json_number_found (.object (.last [0x62#8] (.primitive (decimal 16))))
    ⟨.plain (by decide) (by decide) .nil, ⟨⟨_, _, rfl, by decide⟩, by decide⟩⟩ (by decide) 3 22
    (by decide) (by decide) [0x62#8] 16 .primitive _ [] [] rfl (by decide)

end LlvmTms9900.Benchmarks.Json
