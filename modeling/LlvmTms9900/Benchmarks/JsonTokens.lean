import LlvmTms9900.Benchmarks.JsonItems

/-!
# The tokens of the JSON tokenizer

The tokens of an accepted text are nested and each covers what its type says. The
text of a value, written without blanks, gives the tokens of its parts in
preorder, each with the text of its part.
-/

namespace LlvmTms9900.Benchmarks.Json

/-! ### The last open object -/

def Tok.Open (t : Tok) : Prop := t.type = .object ∧ t.stop = 0

theorem closeObject_last (stop : ℕ) (front : List Tok) {m : ℕ} {back : List Tok} {o : Tok}
    (ho : o.Open) (hback : ∀ t ∈ back, ¬ t.Open) (hm : m ≤ back.length) :
    closeObject stop (front.length + 1 + m) (front ++ o :: back) =
      front ++ { o with stop := stop } :: back := by
  induction m with
  | zero =>
    have hget : (front ++ o :: back)[front.length]? = some o := by simp
    have hopen : o.type = .object ∧ o.stop = 0 := ho
    rw [Nat.add_zero, closeObject, hget, Option.elim_some, if_pos hopen,
      List.set_append_right _ _ le_rfl, Nat.sub_self, List.set_cons_zero]
  | succ m ih =>
    have hlt : m < back.length := hm
    have hget : (front ++ o :: back)[front.length + 1 + m]? = some back[m] := by
      rw [List.getElem?_append_right (by omega), show front.length + 1 + m - front.length = m + 1 by
        omega, List.getElem?_cons_succ, List.getElem?_eq_getElem hlt]
    have hclosed : ¬ (back[m].type = .object ∧ back[m].stop = 0) := hback _ (List.getElem_mem hlt)
    rw [← Nat.add_assoc, closeObject, hget, Option.elim_some, if_neg hclosed, ih hlt.le]

theorem closeObject_none {stop k : ℕ} {toks : List Tok} (h : ∀ t ∈ toks, ¬ t.Open) :
    closeObject stop k toks = toks := by
  induction k with
  | zero => rfl
  | succ k ih =>
    rw [closeObject]
    cases hget : toks[k]? with
    | none => rfl
    | some t =>
      have ht : ¬ (t.type = .object ∧ t.stop = 0) := h t (List.mem_of_getElem? hget)
      rw [Option.elim_some, if_neg ht, ih]

theorem exists_last_open (toks : List Tok) :
    (∀ t ∈ toks, ¬ t.Open) ∨ ∃ front o back, toks = front ++ o :: back ∧ o.Open ∧
      ∀ t ∈ back, ¬ t.Open := by
  induction toks with
  | nil => exact .inl (by simp)
  | cons t toks ih =>
    rcases ih with hnone | ⟨front, o, back, rfl, ho, hback⟩
    · by_cases ht : t.Open
      · exact .inr ⟨[], t, toks, rfl, ht, hnone⟩
      · exact .inl (List.forall_mem_cons.2 ⟨ht, hnone⟩)
    · exact .inr ⟨t :: front, o, back, rfl, ho, hback⟩

/-! ### Tokens are nested and cover what they name -/

def slice (js : Text) (t : Tok) : Text := (js.drop t.start).take (t.stop - t.start)

def Tok.Reads (js : Text) (t : Tok) : Prop :=
  match t.type with
  | .object => charAt js t.start = openBrace ∧
      (t.stop = 0 ∨ t.start < t.stop ∧ charAt js (t.stop - 1) = closeBrace)
  | .string => t.start ≠ 0 ∧ t.start ≤ t.stop ∧ charAt js (t.start - 1) = quote ∧
      charAt js t.stop = quote ∧ Escaped (slice js t)
  | .primitive => t.start < t.stop ∧ IsWord (slice js t)

theorem Tok.Reads.le {js : Text} {t : Tok} (h : t.Reads js) (hclosed : ¬ t.Open) :
    t.start ≤ t.stop := by
  unfold Tok.Reads at h
  split at h
  next htype => exact (h.2.resolve_left fun hstop => hclosed ⟨htype, hstop⟩).1.le
  next => exact h.2.1
  next => exact h.1.le

/-- A later token begins after an earlier one; it lies behind it or inside it, and
inside a closed object there is nothing open. -/
structure Nested (a b : Tok) : Prop where
  start : a.start < b.start
  apart : a.Open ∨ a.stop ≤ b.start ∨ a.type = .object ∧ ¬ b.Open ∧ b.stop ≤ a.stop

structure Well (js : Text) (pos : ℕ) (toks : List Tok) : Prop where
  nested : toks.Pairwise Nested
  inside : ∀ t ∈ toks, t.start < pos ∧ t.stop ≤ pos
  reads : ∀ t ∈ toks, t.Reads js

section Sound
variable {js before rest : Text} {pos next : ℕ} {toks : List Tok}

theorem Well.mono (h : Well js pos toks) (hle : pos ≤ next) : Well js next toks :=
  ⟨h.nested, fun t ht => ⟨(h.inside t ht).1.trans_le hle, (h.inside t ht).2.trans hle⟩, h.reads⟩

theorem Well.append (h : Well js pos toks) {t : Tok} (hstart : pos ≤ t.start)
    (hnext : t.start < next) (hstop : t.stop ≤ next) (hreads : t.Reads js) :
    Well js next (toks ++ [t]) := by
  obtain ⟨hnested, hinside, hall⟩ := h.mono (hstart.trans hnext.le)
  refine ⟨List.pairwise_append.2 ⟨hnested, List.pairwise_singleton _ _, ?_⟩, ?_, ?_⟩
  · intro a ha b hb
    obtain rfl := List.mem_singleton.1 hb
    obtain ⟨h1, h2⟩ := h.inside a ha
    exact ⟨by omega, .inr (.inl (by omega))⟩
  · intro a ha
    rcases List.mem_append.1 ha with ha | ha
    · exact hinside a ha
    · obtain rfl := List.mem_singleton.1 ha
      exact ⟨hnext, hstop⟩
  · intro a ha
    rcases List.mem_append.1 ha with ha | ha
    · exact hall a ha
    · obtain rfl := List.mem_singleton.1 ha
      exact hreads

theorem Well.close (h : Well js pos toks) (hc : charAt js pos = closeBrace) :
    Well js (pos + 1) (closeObject (pos + 1) toks.length toks) := by
  rcases exists_last_open toks with hnone | ⟨front, o, back, rfl, ho, hback⟩
  · rw [closeObject_none hnone]
    exact h.mono (Nat.le_succ pos)
  have hlen : (front ++ o :: back).length = front.length + 1 + back.length := by
    rw [List.length_append, List.length_cons]
    omega
  rw [hlen, closeObject_last _ _ ho hback le_rfl]
  have hinside := h.inside
  have hreads := h.reads
  obtain ⟨hfront, hmid, hcross⟩ := List.pairwise_append.1 h.nested
  obtain ⟨hfirst, hrest⟩ := List.pairwise_cons.1 hmid
  have hostart := (hinside o (by simp)).1
  have hnew : ∀ t ∈ front ++ { o with stop := pos + 1 } :: back,
      t = { o with stop := pos + 1 } ∨ t ∈ front ++ o :: back := by
    intro t ht
    simp only [List.mem_append, List.mem_cons] at ht ⊢
    tauto
  refine ⟨List.pairwise_append.2 ⟨hfront, List.pairwise_cons.2 ⟨?_, hrest⟩, ?_⟩, ?_, ?_⟩
  · intro b hb
    have hb' := (hinside b (by simp [hb])).2
    exact ⟨(hfirst b hb).start, .inr (.inr ⟨ho.1, hback b hb, by
      change b.stop ≤ pos + 1
      omega⟩)⟩
  · intro a ha b hb
    rcases List.mem_cons.1 hb with rfl | hb
    · have hao := hcross a ha o (by simp)
      refine ⟨hao.start, ?_⟩
      rcases hao.apart with hopen | hbefore | ⟨-, hno, -⟩
      · exact .inl hopen
      · exact .inr (.inl hbefore)
      · exact absurd ho hno
    · exact hcross a ha b (by simp [hb])
  · intro t ht
    rcases hnew t ht with rfl | ht
    · exact ⟨hostart.trans (Nat.lt_succ_self pos), le_rfl⟩
    · obtain ⟨h1, h2⟩ := hinside t ht
      exact ⟨h1.trans (Nat.lt_succ_self pos), h2.trans (Nat.le_succ pos)⟩
  · intro t ht
    rcases hnew t ht with rfl | ht
    · have horeads := hreads o (by simp)
      rw [Tok.Reads, ho.1] at horeads
      rw [Tok.Reads]
      simp only [ho.1]
      exact ⟨horeads.1, .inr ⟨by omega, hc⟩⟩
    · exact hreads t ht

theorem slice_append (before body after : Text) (type : TokType) :
    slice (before ++ (body ++ after)) ⟨type, before.length, before.length + body.length⟩ =
      body := by
  rw [slice, List.drop_left, Nat.add_sub_cancel_left, List.take_left]

theorem Well.emit {item : Item} (h : Well js before.length toks) (hfits : item.Fits rest)
    (hjs : js = before ++ (item.text ++ rest)) :
    Well js (before.length + item.text.length) (item.emit before.length toks) := by
  cases item with
  | separator c => exact h.mono (Nat.le_add_right _ _)
  | opening =>
    refine h.append le_rfl (Nat.lt_succ_self _) (Nat.zero_le _) ?_
    exact ⟨(charAt_item hjs).1, .inl rfl⟩
  | closing => exact h.close (charAt_item hjs).1
  | quoted body =>
    have hfirst : js = before ++ quote :: (body ++ quote :: rest) := by simp [hjs, Item.text]
    have hbody : js = (before ++ [quote]) ++ (body ++ quote :: rest) := by simp [hfirst]
    have hlast : js = (before ++ quote :: body) ++ quote :: rest := by simp [hfirst]
    have hsize : (Item.quoted body).text.length = body.length + 2 := by simp [Item.text]
    have hslice := slice_append (before ++ [quote]) body (quote :: rest) .string
    have hend := (charAt_item hlast).1
    rw [← hbody, List.length_append, List.length_singleton] at hslice
    rw [List.length_append, List.length_cons, ← Nat.add_assoc, Nat.add_right_comm] at hend
    refine h.append (Nat.le_succ _) ?_ ?_ ?_
    · change before.length + 1 < before.length + (Item.quoted body).text.length
      omega
    · change before.length + 1 + body.length ≤ before.length + (Item.quoted body).text.length
      omega
    refine ⟨Nat.succ_ne_zero _, Nat.le_add_right _ _, (charAt_item hfirst).1, hend, ?_⟩
    rw [hslice]
    exact hfits
  | word body =>
    have hslice := slice_append before body rest .primitive
    have hpos := hfits.pos
    rw [← show js = before ++ (body ++ rest) from hjs] at hslice
    refine h.append le_rfl (Nat.lt_add_of_pos_right hpos) le_rfl ⟨Nat.lt_add_of_pos_right hpos, ?_⟩
    rw [hslice]
    exact hfits.1

theorem Well.assemble {items : List Item} (h : Well js before.length toks) (hrow : Row rest items)
    (hjs : js = before ++ (textOf items ++ rest)) :
    Well js (before.length + (textOf items).length) (assemble before.length toks items) := by
  induction hrow generalizing before toks with
  | nil => exact h
  | @cons item items hfits _ ih =>
    have htext : textOf (item :: items) = item.text ++ textOf items := rfl
    rw [htext, List.append_assoc] at hjs
    have hnext : Well js (before ++ item.text).length (item.emit before.length toks) := by
      rw [List.length_append]
      exact h.emit hfits hjs
    have hall := ih hnext (by rw [hjs, ← List.append_assoc])
    rw [List.length_append] at hall
    rw [htext, List.length_append, ← Nat.add_assoc]
    exact hall

theorem length_assemble (pos : ℕ) (toks : List Tok) (items : List Item) :
    (assemble pos toks items).length = toks.length + tokenTotal items := by
  induction items generalizing pos toks with
  | nil => rfl
  | cons item items ih =>
    have htotal : tokenTotal (item :: items) = item.tokens + tokenTotal items := rfl
    rw [Json.assemble, ih, length_emit, htotal, Nat.add_assoc]

end Sound

/-- Every text of fewer than 255 characters is a row of items and a rest. Where the
rest is empty or begins with a zero and there is room for the tokens, these are the
tokens; otherwise the result is 0. -/
theorem json_tokenize_correct (js : Text) (hlen : js.length ≤ 254) :
    ∃ items rest, js = textOf items ++ rest ∧ Row rest items ∧ (Accepts rest ∨ Refuses rest) ∧
      ∀ maxTok fuel, 2 * js.length + maxTok + 1 < fuel →
        (Accepts rest → tokenTotal items ≤ maxTok →
          jsonTokenize js js.length maxTok fuel = some (some (assemble 0 [] items))) ∧
        (Refuses rest ∨ maxTok < tokenTotal items →
          jsonTokenize js js.length maxTok fuel = some none) := by
  obtain ⟨items, rest, rfl, hrow, hrest⟩ := exists_row js
  exact ⟨items, rest, rfl, hrow, hrest, fun maxTok fuel hfuel => jsonTokenize_row hrow hlen hfuel⟩

theorem json_tokenize_correct_unclosed :
    ∃ items rest, [openBrace, quote, comma] = textOf items ++ rest ∧ Row rest items ∧
      (Accepts rest ∨ Refuses rest) ∧ ∀ maxTok fuel, 7 + maxTok < fuel →
        (Accepts rest → tokenTotal items ≤ maxTok →
          jsonTokenize [openBrace, quote, comma] 3 maxTok fuel =
            some (some (assemble 0 [] items))) ∧
        (Refuses rest ∨ maxTok < tokenTotal items →
          jsonTokenize [openBrace, quote, comma] 3 maxTok fuel = some none) := by
  obtain ⟨items, rest, htext, hrow, hrest, h⟩ :=
    json_tokenize_correct [openBrace, quote, comma] (by decide)
  exact ⟨items, rest, htext, hrow, hrest, fun maxTok fuel hfuel => h maxTok fuel (by
    simp only [List.length_cons, List.length_nil]
    omega)⟩

/-- What the tokenizer returns is nested, lies within the text and covers what it names. -/
theorem json_tokens_sound (js : Text) (hlen : js.length ≤ 254) (maxTok fuel : ℕ)
    (hfuel : 2 * js.length + maxTok + 1 < fuel) (tokens : List Tok)
    (h : jsonTokenize js js.length maxTok fuel = some (some tokens)) :
    tokens.length ≤ maxTok ∧ tokens.Pairwise Nested ∧
      ∀ t ∈ tokens, t.stop ≤ js.length ∧ t.Reads js := by
  obtain ⟨items, rest, rfl, hrow, hrest⟩ := exists_row js
  obtain ⟨hyes, hno⟩ := @jsonTokenize_row rest items maxTok fuel hrow hlen hfuel
  have hnone : ¬ (Refuses rest ∨ maxTok < tokenTotal items) := by
    intro hcon
    rw [hno hcon] at h
    simp at h
  have htotal : tokenTotal items ≤ maxTok := by
    by_contra hcon
    exact hnone (.inr (by omega))
  rw [hyes (hrest.resolve_right fun hr => hnone (.inl hr)) htotal] at h
  obtain rfl := Option.some.inj (Option.some.inj h)
  have hempty : Well (textOf items ++ rest) ([] : Text).length [] :=
    ⟨List.Pairwise.nil, by simp, by simp⟩
  have hwell := hempty.assemble hrow rfl
  refine ⟨?_, hwell.nested, fun t ht => ⟨(hwell.inside t ht).2.trans ?_, hwell.reads t ht⟩⟩
  · rw [length_assemble, List.length_nil, Nat.zero_add]
    exact htotal
  · rw [List.length_nil, Nat.zero_add, List.length_append]
    exact Nat.le_add_right _ _

theorem json_tokens_sound_object :
    ([⟨.object, 0, 7⟩, ⟨.string, 2, 3⟩, ⟨.primitive, 5, 6⟩] : List Tok).Pairwise Nested :=
  (json_tokens_sound [openBrace, quote, 0x61#8, quote, colon, 0x37#8, closeBrace] (by decide) 4 20
    (by decide) _ (by decide)).2.1

/-! ### Values -/

mutual

inductive Value
  | string (body : Text)
  | primitive (body : Text)
  | empty
  | object (members : Members)

/-- The members of an object that has some. -/
inductive Members
  | last (key : Text) (value : Value)
  | more (key : Text) (value : Value) (rest : Members)

end

mutual

def Value.items : Value → List Item
  | .string body => [.quoted body]
  | .primitive body => [.word body]
  | .empty => [.opening, .closing]
  | .object members => .opening :: (members.items ++ [.closing])

def Members.items : Members → List Item
  | .last key value => .quoted key :: .separator colon :: value.items
  | .more key value rest =>
    .quoted key :: .separator colon :: (value.items ++ .separator comma :: rest.items)

end

def Value.text (value : Value) : Text := textOf value.items

mutual

/-- Strings are escaped, and primitives are words. -/
def Value.Valid : Value → Prop
  | .string body => Escaped body
  | .primitive body => IsWord body
  | .empty => True
  | .object members => members.Valid

def Members.Valid : Members → Prop
  | .last key value => Escaped key ∧ value.Valid
  | .more key value rest => Escaped key ∧ value.Valid ∧ rest.Valid

end

mutual

/-- The value and its parts, keys included, with their texts in preorder. -/
def Value.preorder : Value → List (TokType × Text)
  | .string body => [(.string, body)]
  | .primitive body => [(.primitive, body)]
  | .empty => [(.object, Value.empty.text)]
  | .object members => (.object, (Value.object members).text) :: members.preorder

def Members.preorder : Members → List (TokType × Text)
  | .last key value => (.string, key) :: value.preorder
  | .more key value rest => (.string, key) :: (value.preorder ++ rest.preorder)

end

def readToken (js : Text) (t : Tok) : TokType × Text := (t.type, slice js t)

/-! ### The tokens of a value -/

theorem textOf_cons (item : Item) (items : List Item) :
    textOf (item :: items) = item.text ++ textOf items := rfl

theorem textOf_append (items items' : List Item) :
    textOf (items ++ items') = textOf items ++ textOf items' := List.flatMap_append

theorem assemble_append (pos : ℕ) (toks : List Tok) (items items' : List Item) :
    assemble pos toks (items ++ items') =
      assemble (pos + (textOf items).length) (assemble pos toks items) items' := by
  induction items generalizing pos toks with
  | nil => rfl
  | cons item items ih =>
    rw [List.cons_append, assemble, ih, textOf_cons, List.length_append, Nat.add_assoc, assemble]

/-- From `pos` on the items add closed tokens that read as the parts. -/
def Yields (js : Text) (pos : ℕ) (items : List Item) (parts : List (TokType × Text)) : Prop :=
  ∀ toks, ∃ new, assemble pos toks items = toks ++ new ∧ (∀ t ∈ new, ¬ t.Open) ∧
    new.map (readToken js) = parts

section Yield
variable {js before after : Text} {pos : ℕ} {items items' : List Item}
  {parts parts' : List (TokType × Text)}

theorem Yields.append (h : Yields js pos items parts)
    (h' : Yields js (pos + (textOf items).length) items' parts') :
    Yields js pos (items ++ items') (parts ++ parts') := by
  intro toks
  obtain ⟨new, hnew, hclosed, hread⟩ := h toks
  obtain ⟨new', hnew', hclosed', hread'⟩ := h' (toks ++ new)
  refine ⟨new ++ new', ?_, ?_, ?_⟩
  · rw [assemble_append, hnew, hnew', List.append_assoc]
  · intro t ht
    exact (List.mem_append.1 ht).elim (hclosed t) (hclosed' t)
  · rw [List.map_append, hread, hread']

theorem yields_separator (c : BitVec 8) : Yields js pos [.separator c] [] :=
  fun toks => ⟨[], (List.append_nil _).symm, by simp, rfl⟩

theorem yields_quoted {body : Text} (hjs : js = before ++ (quote :: body ++ [quote] ++ after)) :
    Yields js before.length [.quoted body] [(.string, body)] := by
  intro toks
  have hbody : js = (before ++ [quote]) ++ (body ++ quote :: after) := by simp [hjs]
  have hslice := slice_append (before ++ [quote]) body (quote :: after) .string
  rw [← hbody, List.length_append, List.length_singleton] at hslice
  refine ⟨[⟨.string, before.length + 1, before.length + 1 + body.length⟩], rfl, ?_, ?_⟩
  · intro t ht
    obtain rfl := List.mem_singleton.1 ht
    exact fun hopen => TokType.noConfusion hopen.1
  · rw [List.map_singleton, readToken, hslice]

theorem yields_word {body : Text} (hjs : js = before ++ (body ++ after)) :
    Yields js before.length [.word body] [(.primitive, body)] := by
  intro toks
  have hslice := slice_append before body after .primitive
  rw [← hjs] at hslice
  refine ⟨[⟨.primitive, before.length, before.length + body.length⟩], rfl, ?_, ?_⟩
  · intro t ht
    obtain rfl := List.mem_singleton.1 ht
    exact fun hopen => TokType.noConfusion hopen.1
  · rw [List.map_singleton, readToken, hslice]

/-- The closing brace ends the object's own token, the tokens between being closed. -/
theorem yields_object {text : Text} (h : Yields js (before.length + 1) items parts)
    (htext : text = textOf (.opening :: (items ++ [.closing])))
    (hjs : js = before ++ (text ++ after)) :
    Yields js before.length (.opening :: (items ++ [.closing])) ((.object, text) :: parts) := by
  intro toks
  obtain ⟨new, hnew, hclosed, hread⟩ := h (toks ++ [⟨.object, before.length, 0⟩])
  have hsize : text.length = (textOf items).length + 2 := by
    rw [htext, textOf_cons, textOf_append, List.length_append, List.length_append]
    change 1 + ((textOf items).length + 1) = _
    omega
  have hslice := slice_append before text after .object
  rw [← hjs, hsize, ← Nat.add_assoc] at hslice
  have hend : before.length + 1 + (textOf items).length + 1 =
      before.length + (textOf items).length + 2 := by omega
  refine ⟨⟨.object, before.length, before.length + (textOf items).length + 2⟩ :: new, ?_, ?_, ?_⟩
  · have hopen : (⟨.object, before.length, 0⟩ : Tok).Open := ⟨rfl, rfl⟩
    have hlen : (toks ++ [(⟨.object, before.length, 0⟩ : Tok)] ++ new).length =
        toks.length + 1 + new.length := by
      rw [List.length_append, List.length_append, List.length_singleton]
    have hlast := closeObject_last (before.length + (textOf items).length + 2) toks hopen hclosed
      le_rfl
    rw [assemble, assemble_append]
    change closeObject (before.length + 1 + (textOf items).length + 1)
      (assemble (before.length + 1) (toks ++ [⟨.object, before.length, 0⟩]) items).length
      (assemble (before.length + 1) (toks ++ [⟨.object, before.length, 0⟩]) items) = _
    rw [hnew, hlen, hend, List.append_assoc]
    exact hlast
  · refine List.forall_mem_cons.2 ⟨fun hopen => ?_, hclosed⟩
    exact absurd hopen.2 (Nat.succ_ne_zero _)
  · rw [List.map_cons, hread, readToken, hslice]

theorem yields_key (rest : Text) {key : Text}
    (hjs : js = before ++ (quote :: key ++ [quote] ++ colon :: rest))
    (h : Yields js (before ++ (quote :: key ++ [quote, colon])).length items parts) :
    Yields js before.length (.quoted key :: .separator colon :: items)
      ((.string, key) :: parts) := by
  have hlen : (before ++ (quote :: key ++ [quote, colon])).length =
      before.length + (textOf [.quoted key]).length + (textOf [.separator colon]).length := by
    simp [textOf, Item.text]
    omega
  rw [hlen] at h
  exact (yields_quoted hjs).append ((yields_separator colon).append h)

end Yield

mutual

theorem Value.yields (js before after : Text) (value : Value)
    (hjs : js = before ++ (value.text ++ after)) :
    Yields js before.length value.items value.preorder := by
  cases value with
  | string body =>
    exact yields_quoted (by simpa [Value.text, Value.items, textOf, Item.text] using hjs)
  | primitive body =>
    exact yields_word (by simpa [Value.text, Value.items, textOf, Item.text] using hjs)
  | empty =>
    have hnone : Yields js (before.length + 1) [] [] := fun toks =>
      ⟨[], (List.append_nil _).symm, by simp, rfl⟩
    exact yields_object hnone rfl hjs
  | object members =>
    have htext : (Value.object members).text =
        openBrace :: (textOf members.items ++ [closeBrace]) := by
      rw [Value.text, Value.items, textOf_cons, textOf_append]
      rfl
    have hmembers := Members.yields js (before ++ [openBrace]) (closeBrace :: after) members
      (by simp [hjs, htext])
    rw [List.length_append, List.length_singleton] at hmembers
    exact yields_object hmembers rfl hjs

theorem Members.yields (js before after : Text) (members : Members)
    (hjs : js = before ++ (textOf members.items ++ after)) :
    Yields js before.length members.items members.preorder := by
  cases members with
  | last key value =>
    have htext : textOf (Members.last key value).items =
        quote :: key ++ [quote] ++ colon :: value.text := by
      simp [Members.items, textOf, Item.text, Value.text]
    refine yields_key (value.text ++ after) (by simp [hjs, htext]) ?_
    exact Value.yields js _ after value (by simp [hjs, htext])
  | more key value rest =>
    have htext : textOf (Members.more key value rest).items =
        quote :: key ++ [quote] ++ colon :: (value.text ++ comma :: textOf rest.items) := by
      simp [Members.items, textOf, Item.text, Value.text]
    refine yields_key (value.text ++ comma :: (textOf rest.items ++ after))
      (by simp [hjs, htext]) ?_
    have hvalue := Value.yields js (before ++ (quote :: key ++ [quote, colon]))
      (comma :: (textOf rest.items ++ after)) value (by simp [hjs, htext])
    have hrest := Members.yields js
      (before ++ (quote :: key ++ [quote, colon]) ++ value.text ++ [comma]) after rest
      (by simp [hjs, htext])
    have hlen : (before ++ (quote :: key ++ [quote, colon]) ++ value.text ++ [comma]).length =
        (before ++ (quote :: key ++ [quote, colon])).length + (textOf value.items).length +
          (textOf [.separator comma]).length := by
      rw [List.length_append, List.length_append]
      rfl
    rw [hlen] at hrest
    exact hvalue.append ((yields_separator comma).append hrest)

end

/-! ### A value's text is a row of items -/

theorem Row.append {rest : Text} {items items' : List Item}
    (h : Row (textOf items' ++ rest) items) (h' : Row rest items') :
    Row rest (items ++ items') := by
  induction h with
  | nil => exact h'
  | @cons item items hfits _ ih =>
    have htext : textOf (items ++ items') ++ rest = textOf items ++ (textOf items' ++ rest) := by
      rw [textOf_append, List.append_assoc]
    refine .cons ?_ ih
    change item.Fits (textOf (items ++ items') ++ rest)
    rw [htext]
    exact hfits

mutual

theorem Value.row (rest : Text) (value : Value) (hvalid : value.Valid)
    (hrest : ∀ c ∈ rest.head?, c ∈ delimiters) : Row rest value.items := by
  cases value with
  | string body => exact .cons hvalid .nil
  | primitive body => exact .cons ⟨hvalid, hrest⟩ .nil
  | empty => exact .cons trivial (.cons trivial .nil)
  | object members =>
    refine .cons trivial (Row.append ?_ (.cons trivial .nil))
    exact Members.row _ members hvalid (by rintro c ⟨⟩; decide)

theorem Members.row (rest : Text) (members : Members) (hvalid : members.Valid)
    (hrest : ∀ c ∈ rest.head?, c ∈ delimiters) : Row rest members.items := by
  have hcolon : colon ∈ separators := by decide
  have hcomma : comma ∈ separators := by decide
  cases members with
  | last key value => exact .cons hvalid.1 (.cons hcolon (Value.row rest value hvalid.2 hrest))
  | more key value others =>
    obtain ⟨hkey, hvalue, hothers⟩ := hvalid
    refine .cons hkey (.cons hcolon (Row.append (Value.row _ value hvalue ?_)
      (.cons hcomma (Members.row rest others hothers hrest))))
    rintro c ⟨⟩
    decide

end

theorem Value.total (value : Value) : tokenTotal value.items = value.preorder.length := by
  obtain ⟨tokens, hnew, -, hread⟩ := Value.yields value.text [] [] value (by simp) []
  have hsize := length_assemble 0 [] value.items
  rw [List.length_nil, List.nil_append] at hnew
  rw [hnew, List.length_nil, Nat.zero_add] at hsize
  rw [← hsize, ← hread, List.length_map]

/-- The tokens of a value read as its parts, and lie within its text. -/
theorem Value.tokenized {value : Value} {maxTok fuel : ℕ} (hvalid : value.Valid)
    (hlen : value.text.length ≤ 254) (hfuel : 2 * value.text.length + maxTok + 1 < fuel)
    (hroom : value.preorder.length ≤ maxTok) :
    ∃ tokens, jsonTokenize value.text value.text.length maxTok fuel = some (some tokens) ∧
      tokens.map (readToken value.text) = value.preorder ∧
      ∀ t ∈ tokens, t.start ≤ t.stop ∧ t.stop ≤ value.text.length := by
  have hrow : Row [] value.items := value.row [] hvalid (by simp)
  have htext : textOf value.items ++ [] = value.text := List.append_nil _
  have hrun := @jsonTokenize_row [] value.items maxTok fuel hrow
  rw [htext] at hrun
  obtain ⟨tokens, hnew, hclosed, hread⟩ := Value.yields value.text [] [] value (by simp) []
  have hempty : Well value.text ([] : Text).length [] := ⟨List.Pairwise.nil, by simp, by simp⟩
  have hwell := hempty.assemble hrow htext.symm
  rw [List.length_nil, Nat.zero_add] at hwell
  rw [List.length_nil, List.nil_append] at hnew
  rw [hnew] at hwell hrun
  refine ⟨tokens, (hrun hlen hfuel).1 (by simp [Accepts]) (value.total.le.trans hroom), hread,
    fun t ht => ⟨(hwell.reads t ht).le (hclosed t ht), (hwell.inside t ht).2⟩⟩

/-- The text of a value gives its parts back, each token the text of its part, when
there is room for them all; otherwise the result is 0. -/
theorem json_value_round_trip (value : Value) (hvalid : value.Valid)
    (hlen : value.text.length ≤ 254) (maxTok fuel : ℕ)
    (hfuel : 2 * value.text.length + maxTok + 1 < fuel) :
    (value.preorder.length ≤ maxTok →
      ∃ tokens, jsonTokenize value.text value.text.length maxTok fuel = some (some tokens) ∧
        tokens.map (readToken value.text) = value.preorder) ∧
      (maxTok < value.preorder.length →
        jsonTokenize value.text value.text.length maxTok fuel = some none) := by
  constructor
  · intro hroom
    obtain ⟨tokens, hrun, hread, -⟩ := Value.tokenized hvalid hlen hfuel hroom
    exact ⟨tokens, hrun, hread⟩
  · intro hover
    have hrow : Row [] value.items := value.row [] hvalid (by simp)
    have htext : textOf value.items ++ [] = value.text := List.append_nil _
    have hrun := @jsonTokenize_row [] value.items maxTok fuel hrow
    rw [htext, value.total] at hrun
    exact (hrun hlen hfuel).2 (.inr hover)

theorem json_value_round_trip_object :
    ∃ tokens,
      jsonTokenize (Value.object (.last [0x61#8] (.primitive [0x37#8]))).text 7 3 20 =
        some (some tokens) ∧
      tokens.map (readToken (Value.object (.last [0x61#8] (.primitive [0x37#8]))).text) =
        (Value.object (.last [0x61#8] (.primitive [0x37#8]))).preorder :=
  (json_value_round_trip (.object (.last [0x61#8] (.primitive [0x37#8])))
    ⟨.plain (by decide) (by decide) .nil, ⟨⟨_, _, rfl, by decide⟩, by decide⟩⟩ (by decide) 3 20
    (by decide)).1 (by decide)

end LlvmTms9900.Benchmarks.Json
