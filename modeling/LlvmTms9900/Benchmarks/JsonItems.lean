import LlvmTms9900.Benchmarks.JsonParse

/-!
# What the JSON tokenizer accepts

A text is read as a row of items: separators, braces, quoted strings and
primitives. Every text splits into items as far as they go, and the rest shows
whether the tokenizer accepts it. Below 255 characters no position wraps, and
the tokenizer writes the tokens of the items.
-/

namespace LlvmTms9900.Benchmarks.Json

/-! ### Items -/

inductive Item
  | separator (c : BitVec 8)
  | opening
  | closing
  | quoted (body : Text)
  | word (body : Text)

def separators : Text := [space, colon, tab, newline, carriageReturn, comma]

def delimiters : Text := [comma, closeBrace, closeBracket, colon, space]

/-- What stands between two quotes: a backslash takes the next character with it. -/
inductive Escaped : Text → Prop
  | nil : Escaped []
  | plain {c : BitVec 8} {body : Text} : c ≠ backslash → c ≠ quote → Escaped body →
      Escaped (c :: body)
  | pair (c : BitVec 8) {body : Text} : Escaped body → Escaped (backslash :: c :: body)

/-- What follows a quote that is never closed. -/
inductive Unterminated : Text → Prop
  | nil : Unterminated []
  | lone : Unterminated [backslash]
  | plain {c : BitVec 8} {body : Text} : c ≠ backslash → c ≠ quote → Unterminated body →
      Unterminated (c :: body)
  | pair (c : BitVec 8) {body : Text} : Unterminated body → Unterminated (backslash :: c :: body)

/-- The characters that do not begin a primitive. -/
def leaders : Text := 0#8 :: openBrace :: closeBrace :: quote :: separators

structure IsWord (body : Text) : Prop where
  leader : ∃ c rest, body = c :: rest ∧ c ∉ leaders
  plain : ∀ c ∈ body, c ∉ delimiters

namespace Item

def text : Item → Text
  | separator c => [c]
  | opening => [openBrace]
  | closing => [closeBrace]
  | quoted body => quote :: body ++ [quote]
  | word body => body

/-- An item in front of `rest`: a primitive ends at a delimiter or with the text. -/
def Fits (rest : Text) : Item → Prop
  | separator c => c ∈ separators
  | opening => True
  | closing => True
  | quoted body => Escaped body
  | word body => IsWord body ∧ ∀ c ∈ rest.head?, c ∈ delimiters

def tokens : Item → ℕ
  | separator _ => 0
  | opening => 1
  | closing => 0
  | quoted _ => 1
  | word _ => 1

def emit (pos : ℕ) (toks : List Tok) : Item → List Tok
  | separator _ => toks
  | opening => toks ++ [⟨.object, pos, 0⟩]
  | closing => closeObject (pos + 1) toks.length toks
  | quoted body => toks ++ [⟨.string, pos + 1, pos + 1 + body.length⟩]
  | word body => toks ++ [⟨.primitive, pos, pos + body.length⟩]

end Item

def textOf (items : List Item) : Text := items.flatMap Item.text

def tokenTotal (items : List Item) : ℕ := (items.map Item.tokens).sum

/-- The tokens of a row of items that begins at `pos`. -/
def assemble (pos : ℕ) (toks : List Tok) : List Item → List Tok
  | [] => toks
  | item :: items => assemble (pos + item.text.length) (item.emit pos toks) items

inductive Row (rest : Text) : List Item → Prop
  | nil : Row rest []
  | cons {item : Item} {items : List Item} : item.Fits (textOf items ++ rest) → Row rest items →
      Row rest (item :: items)

/-! ### Every text is a row of items and a rest -/

/-- At the end of the text, or at a character zero, the tokenizer returns its tokens. -/
def Accepts (rest : Text) : Prop := ∀ c ∈ rest.head?, c = 0#8

/-- At a bracket, or at a quote that is never closed, it gives up. -/
def Refuses (rest : Text) : Prop :=
  (∃ tail, rest = closeBracket :: tail) ∨ ∃ tail, rest = quote :: tail ∧ Unterminated tail

theorem escaped_or_unterminated (tail : Text) :
    (∃ body rest, tail = body ++ quote :: rest ∧ Escaped body) ∨ Unterminated tail := by
  induction h : tail.length using Nat.strong_induction_on generalizing tail with
  | _ n ih =>
    cases tail with
    | nil => exact .inr .nil
    | cons c tail =>
      rw [List.length_cons] at h
      by_cases hb : c = backslash
      · subst hb
        cases tail with
        | nil => exact .inr .lone
        | cons d tail =>
          rw [List.length_cons] at h
          rcases ih tail.length (by omega) tail rfl with ⟨body, rest, rfl, hbody⟩ | hbody
          · exact .inl ⟨_, rest, rfl, .pair d hbody⟩
          · exact .inr (.pair d hbody)
      · by_cases hq : c = quote
        · subst hq
          exact .inl ⟨[], tail, rfl, .nil⟩
        · rcases ih tail.length (by omega) tail rfl with ⟨body, rest, rfl, hbody⟩ | hbody
          · exact .inl ⟨_, rest, rfl, .plain hb hq hbody⟩
          · exact .inr (.plain hb hq hbody)

theorem exists_plain_prefix (text : Text) :
    ∃ body rest, text = body ++ rest ∧ (∀ c ∈ body, c ∉ delimiters) ∧
      ∀ c ∈ rest.head?, c ∈ delimiters := by
  induction text with
  | nil => exact ⟨[], [], rfl, by simp, by simp⟩
  | cons c text ih =>
    by_cases hc : c ∈ delimiters
    · exact ⟨[], c :: text, rfl, by simp, by simpa using hc⟩
    · obtain ⟨body, rest, rfl, hbody, hrest⟩ := ih
      exact ⟨c :: body, rest, rfl, List.forall_mem_cons.2 ⟨hc, hbody⟩, hrest⟩

/-- A character that neither stops the tokenizer nor is refused begins an item. -/
theorem exists_item (text : Text) :
    Accepts text ∨ Refuses text ∨
      ∃ item rest, text = Item.text item ++ rest ∧ item.Fits rest ∧ 0 < item.text.length := by
  cases text with
  | nil => exact .inl fun c hc => by simp at hc
  | cons c tail =>
    by_cases hzero : c = 0#8
    · exact .inl fun d hd => by simp_all
    by_cases hsep : c ∈ separators
    · exact .inr (.inr ⟨.separator c, tail, rfl, hsep, Nat.one_pos⟩)
    by_cases hopen : c = openBrace
    · exact .inr (.inr ⟨.opening, tail, by rw [hopen]; rfl, trivial, Nat.one_pos⟩)
    by_cases hclose : c = closeBrace
    · exact .inr (.inr ⟨.closing, tail, by rw [hclose]; rfl, trivial, Nat.one_pos⟩)
    by_cases hquote : c = quote
    · subst hquote
      rcases escaped_or_unterminated tail with ⟨body, rest, rfl, hbody⟩ | hbody
      · refine .inr (.inr ⟨.quoted body, rest, ?_, hbody, Nat.succ_pos _⟩)
        simp [Item.text]
      · exact .inr (.inl (.inr ⟨tail, rfl, hbody⟩))
    by_cases hbracket : c = closeBracket
    · exact .inr (.inl (.inl ⟨tail, by rw [hbracket]⟩))
    have hleader : c ∉ leaders := by simp [leaders, hzero, hopen, hclose, hquote, hsep]
    have hplain : c ∉ delimiters := by
      simp only [separators, List.mem_cons, not_or] at hsep
      simp [delimiters, hclose, hbracket, hsep]
    obtain ⟨body, rest, rfl, hbody, hrest⟩ := exists_plain_prefix tail
    refine .inr (.inr ⟨.word (c :: body), rest, rfl, ⟨⟨⟨c, body, rfl, hleader⟩, ?_⟩, hrest⟩,
      Nat.succ_pos _⟩)
    exact List.forall_mem_cons.2 ⟨hplain, hbody⟩

theorem exists_row (text : Text) :
    ∃ items rest, text = textOf items ++ rest ∧ Row rest items ∧ (Accepts rest ∨ Refuses rest) := by
  induction h : text.length using Nat.strong_induction_on generalizing text with
  | _ n ih =>
    rcases exists_item text with hacc | href | ⟨item, tail, rfl, hfits, hpos⟩
    · exact ⟨[], text, rfl, .nil, .inl hacc⟩
    · exact ⟨[], text, rfl, .nil, .inr href⟩
    · rw [List.length_append] at h
      obtain ⟨items, rest, rfl, hrow, hrest⟩ := ih tail.length (by omega) tail rfl
      exact ⟨item :: items, rest, (List.append_assoc _ _ _).symm, .cons hfits hrow, hrest⟩

/-! ### The scans -/

theorem charAt_append (before : Text) (c : BitVec 8) (after : Text) :
    charAt (before ++ c :: after) before.length = c := by
  rw [charAt, List.getD_eq_getElem?_getD, List.getElem?_append_right le_rfl, Nat.sub_self]
  rfl

section Scan
variable {js before after body : Text} {len fuel : ℕ}

theorem scanString_plain {c : BitVec 8} (hb : c ≠ backslash) (hq : c ≠ quote)
    (hjs : js = before ++ c :: after) (hlen : js.length ≤ 254) :
    scanString js js.length (fuel + 1) before.length =
      scanString js js.length fuel (before ++ [c]).length := by
  have hc : charAt js before.length = c := by rw [hjs, charAt_append]
  have hlt : before.length < js.length := by simp [hjs]
  rw [scanString, if_pos hlt, hc, if_neg hb, if_neg hq, Nat.mod_eq_of_lt (by omega),
    List.length_append]
  rfl

theorem scanString_pair {c : BitVec 8} (hjs : js = before ++ backslash :: c :: after)
    (hlen : js.length ≤ 254) :
    scanString js js.length (fuel + 1) before.length =
      scanString js js.length fuel (before ++ [backslash, c]).length := by
  have hc : charAt js before.length = backslash := by rw [hjs, charAt_append]
  have hlt : before.length + 2 ≤ js.length := by simp [hjs]
  rw [scanString, if_pos (by omega), hc, if_pos rfl, Nat.mod_eq_of_lt (by omega),
    if_neg (by omega), List.length_append]
  rfl

theorem scanString_escaped (hbody : Escaped body) (hjs : js = before ++ (body ++ quote :: after))
    (hlen : js.length ≤ 254) (hfuel : body.length < fuel) :
    scanString js js.length fuel before.length = some (before.length + body.length) := by
  induction hbody generalizing before fuel with
  | nil =>
    obtain ⟨fuel, rfl⟩ := Nat.exists_eq_succ_of_ne_zero (Nat.ne_zero_of_lt hfuel)
    have hc : charAt js before.length = quote := by rw [hjs, List.nil_append, charAt_append]
    have hlt : before.length < js.length := by simp [hjs]
    rw [scanString, if_pos hlt, hc, if_neg (by decide), if_pos rfl]
    rfl
  | @plain c body hb hq _ ih =>
    obtain ⟨fuel, rfl⟩ := Nat.exists_eq_succ_of_ne_zero (Nat.ne_zero_of_lt hfuel)
    rw [List.length_cons] at hfuel ⊢
    rw [Nat.succ_eq_add_one, scanString_plain hb hq hjs hlen,
      ih (by rw [hjs, List.append_assoc]; rfl) (by omega), List.length_append]
    simp only [List.length_singleton]
    congr 1
    omega
  | @pair c body _ ih =>
    obtain ⟨fuel, rfl⟩ := Nat.exists_eq_succ_of_ne_zero (Nat.ne_zero_of_lt hfuel)
    rw [List.length_cons, List.length_cons] at hfuel ⊢
    rw [Nat.succ_eq_add_one, scanString_pair hjs hlen,
      ih (by rw [hjs, List.append_assoc]; rfl) (by omega), List.length_append]
    simp only [List.length_cons, List.length_nil]
    congr 1
    omega

theorem scanString_unterminated (hbody : Unterminated body) (hjs : js = before ++ body)
    (hlen : js.length ≤ 254) (hfuel : body.length < fuel) :
    scanString js js.length fuel before.length = some 0 := by
  induction hbody generalizing before fuel with
  | nil =>
    obtain ⟨fuel, rfl⟩ := Nat.exists_eq_succ_of_ne_zero (Nat.ne_zero_of_lt hfuel)
    rw [scanString, if_neg (by simp [hjs])]
  | lone =>
    obtain ⟨fuel, rfl⟩ := Nat.exists_eq_succ_of_ne_zero (Nat.ne_zero_of_lt hfuel)
    have hc : charAt js before.length = backslash := by rw [hjs, charAt_append]
    have heq : js.length = before.length + 1 := by simp [hjs]
    rw [scanString, if_pos (by omega), hc, if_pos rfl, Nat.mod_eq_of_lt (by omega),
      if_pos (by omega)]
  | @plain c body hb hq _ ih =>
    obtain ⟨fuel, rfl⟩ := Nat.exists_eq_succ_of_ne_zero (Nat.ne_zero_of_lt hfuel)
    rw [List.length_cons] at hfuel
    rw [Nat.succ_eq_add_one, scanString_plain hb hq hjs hlen,
      ih (by rw [hjs, List.append_assoc]; rfl) (by omega)]
  | @pair c body _ ih =>
    obtain ⟨fuel, rfl⟩ := Nat.exists_eq_succ_of_ne_zero (Nat.ne_zero_of_lt hfuel)
    rw [List.length_cons, List.length_cons] at hfuel
    rw [Nat.succ_eq_add_one, scanString_pair hjs hlen,
      ih (by rw [hjs, List.append_assoc]; rfl) (by omega)]

theorem scanPrimitive_stop (hjs : js = before ++ after)
    (hafter : ∀ c ∈ after.head?, c ∈ delimiters) :
    scanPrimitive js js.length (fuel + 1) before.length = some before.length := by
  cases after with
  | nil => rw [scanPrimitive, if_neg (by simp [hjs])]
  | cons c after =>
    have hc : charAt js before.length = c := by rw [hjs, charAt_append]
    have hmem : c ∈ delimiters := hafter c rfl
    simp only [delimiters, List.mem_cons, List.not_mem_nil, or_false] at hmem
    rw [scanPrimitive, if_pos (by simp [hjs]), hc, if_pos hmem]

theorem scanPrimitive_word (hbody : ∀ c ∈ body, c ∉ delimiters)
    (hafter : ∀ c ∈ after.head?, c ∈ delimiters) (hjs : js = before ++ (body ++ after))
    (hlen : js.length ≤ 254) (hfuel : body.length < fuel) :
    scanPrimitive js js.length fuel before.length = some (before.length + body.length) := by
  induction body generalizing before fuel with
  | nil =>
    obtain ⟨fuel, rfl⟩ := Nat.exists_eq_succ_of_ne_zero (Nat.ne_zero_of_lt hfuel)
    exact scanPrimitive_stop hjs hafter
  | cons c body ih =>
    obtain ⟨fuel, rfl⟩ := Nat.exists_eq_succ_of_ne_zero (Nat.ne_zero_of_lt hfuel)
    obtain ⟨hplain, hbody⟩ := List.forall_mem_cons.1 hbody
    have hc : charAt js before.length = c := by
      rw [hjs, List.cons_append, charAt_append]
    have hlt : before.length < js.length := by simp [hjs]
    simp only [delimiters, List.mem_cons, List.not_mem_nil, or_false] at hplain
    have hstep : scanPrimitive js js.length fuel (before ++ [c]).length =
        some ((before ++ [c]).length + body.length) :=
      ih hbody (by rw [hjs, List.append_assoc]; rfl) (by simpa using hfuel)
    rw [List.length_append, List.length_singleton] at hstep
    rw [Nat.succ_eq_add_one, scanPrimitive, if_pos hlt, hc, if_neg hplain,
      Nat.mod_eq_of_lt (by omega), hstep, List.length_cons]
    congr 1
    omega

end Scan

/-! ### The loop reads one item a round -/

section Loop
variable {js before rest : Text} {maxTok fuel : ℕ} {tokens : List Tok}

theorem length_closeObject (stop k : ℕ) (toks : List Tok) :
    (closeObject stop k toks).length = toks.length := by
  induction k with
  | zero => rfl
  | succ k ih =>
    rw [closeObject]
    cases toks[k]? with
    | none => rfl
    | some t =>
      rw [Option.elim_some]
      split
      · exact List.length_set
      · exact ih

theorem length_emit (item : Item) (pos : ℕ) (toks : List Tok) :
    (item.emit pos toks).length = toks.length + item.tokens := by
  cases item with
  | separator c => rfl
  | opening => exact List.length_append
  | closing => exact length_closeObject _ _ _
  | quoted body => exact List.length_append
  | word body => exact List.length_append

theorem charAt_item {c : BitVec 8} {tail : Text} (hjs : js = before ++ (c :: tail)) :
    charAt js before.length = c ∧ before.length < js.length := by
  refine ⟨by rw [hjs, charAt_append], by simp [hjs]⟩

theorem tokenizeLoop_separator {c : BitVec 8} {tail : Text} (hc : c ∈ separators)
    (hjs : js = before ++ (c :: tail)) (hlen : js.length ≤ 254) :
    tokenizeLoop js js.length maxTok (fuel + 1) before.length tokens =
      tokenizeLoop js js.length maxTok fuel (before.length + 1) tokens := by
  obtain ⟨hchar, hlt⟩ := charAt_item hjs
  rw [tokenizeLoop, if_pos hlt]
  dsimp only
  rw [hchar, Nat.mod_eq_of_lt (by omega)]
  simp only [separators, List.mem_cons, List.not_mem_nil, or_false] at hc
  rcases hc with rfl | rfl | rfl | rfl | rfl | rfl <;> rfl

theorem tokenizeLoop_opening {tail : Text} (hjs : js = before ++ (openBrace :: tail))
    (hlen : js.length ≤ 254) :
    tokenizeLoop js js.length maxTok (fuel + 1) before.length tokens =
      if tokens.length + 1 ≤ maxTok then
        tokenizeLoop js js.length maxTok fuel (before.length + 1)
          (tokens ++ [⟨.object, before.length, 0⟩])
      else some none := by
  obtain ⟨hchar, hlt⟩ := charAt_item hjs
  rw [tokenizeLoop, if_pos hlt]
  dsimp only
  rw [hchar, Nat.mod_eq_of_lt (by omega), if_neg (by decide), if_pos (by decide), if_pos rfl]
  by_cases htok : tokens.length + 1 ≤ maxTok
  · rw [if_neg (by omega), if_pos htok]
  · rw [if_pos (by omega), if_neg htok]

theorem tokenizeLoop_closing {tail : Text} (hjs : js = before ++ (closeBrace :: tail))
    (hlen : js.length ≤ 254) :
    tokenizeLoop js js.length maxTok (fuel + 1) before.length tokens =
      tokenizeLoop js js.length maxTok fuel (before.length + 1)
        (closeObject (before.length + 1) tokens.length tokens) := by
  obtain ⟨hchar, hlt⟩ := charAt_item hjs
  rw [tokenizeLoop, if_pos hlt]
  dsimp only
  rw [hchar, Nat.mod_eq_of_lt (by omega), if_neg (by decide), if_pos (by decide),
    if_neg (by decide), if_pos rfl]

/-- At a quote the outcome is that of the scan for the closing one. -/
theorem tokenizeLoop_quote {tail : Text} (hjs : js = before ++ (quote :: tail))
    (hlen : js.length ≤ 254) :
    tokenizeLoop js js.length maxTok (fuel + 1) before.length tokens =
      (scanString js js.length fuel (before.length + 1)).bind fun stop =>
        if stop = 0 then some none
        else if tokens.length ≥ maxTok then some none
        else
          tokenizeLoop js js.length maxTok fuel ((stop + 1) % 256)
            (tokens ++ [⟨.string, before.length + 1, stop⟩]) := by
  obtain ⟨hchar, hlt⟩ := charAt_item hjs
  rw [tokenizeLoop, if_pos hlt]
  dsimp only
  rw [hchar, Nat.mod_eq_of_lt (by omega), if_neg (by decide), if_neg (by decide),
    if_neg (by decide), if_pos rfl]

theorem tokenizeLoop_quoted {body tail : Text} (hbody : Escaped body)
    (hjs : js = before ++ (quote :: body ++ [quote] ++ tail)) (hlen : js.length ≤ 254)
    (hfuel : body.length < fuel) :
    tokenizeLoop js js.length maxTok (fuel + 1) before.length tokens =
      if tokens.length + 1 ≤ maxTok then
        tokenizeLoop js js.length maxTok fuel (before.length + (body.length + 2))
          (tokens ++ [⟨.string, before.length + 1, before.length + 1 + body.length⟩])
      else some none := by
  have hjs' : js = (before ++ [quote]) ++ (body ++ quote :: tail) := by simp [hjs]
  have hsize : js.length = before.length + body.length + tail.length + 2 := by
    simp only [hjs, List.length_append, List.length_cons, List.length_nil]
    omega
  have hscan := scanString_escaped hbody hjs' hlen hfuel
  rw [List.length_append, List.length_singleton] at hscan
  rw [tokenizeLoop_quote (by simpa using hjs) hlen, hscan, Option.bind_some, if_neg (by omega),
    Nat.mod_eq_of_lt (by omega)]
  by_cases htok : tokens.length + 1 ≤ maxTok
  · rw [if_neg (by omega), if_pos htok]
    congr 1
    omega
  · rw [if_pos (by omega), if_neg htok]

/-- What begins neither a separator, a brace, a string nor the end is scanned as a primitive. -/
theorem tokenizeLoop_primitive {c : BitVec 8} {tail : Text} (hc : c ∉ leaders)
    (hjs : js = before ++ (c :: tail)) :
    tokenizeLoop js js.length maxTok (fuel + 1) before.length tokens =
      (scanPrimitive js js.length fuel before.length).bind fun stop =>
        if tokens.length ≥ maxTok then some none
        else
          tokenizeLoop js js.length maxTok fuel stop
            (tokens ++ [⟨.primitive, before.length, stop⟩]) := by
  obtain ⟨hchar, hlt⟩ := charAt_item hjs
  simp only [leaders, separators, List.mem_cons, List.not_mem_nil, or_false, not_or] at hc
  obtain ⟨hzero, hopen, hclose, hquote, hspace, hcolon, htab, hline, hreturn, hcomma⟩ := hc
  rw [tokenizeLoop, if_pos hlt]
  dsimp only
  rw [hchar, if_neg hzero, if_neg (by simp_all), if_neg hcomma, if_neg hquote]

theorem tokenizeLoop_word {body : Text} (hbody : IsWord body)
    (hrest : ∀ c ∈ rest.head?, c ∈ delimiters) (hjs : js = before ++ (body ++ rest))
    (hlen : js.length ≤ 254) (hfuel : body.length < fuel) :
    tokenizeLoop js js.length maxTok (fuel + 1) before.length tokens =
      if tokens.length + 1 ≤ maxTok then
        tokenizeLoop js js.length maxTok fuel (before.length + body.length)
          (tokens ++ [⟨.primitive, before.length, before.length + body.length⟩])
      else some none := by
  have hscan := scanPrimitive_word hbody.plain hrest hjs hlen hfuel
  obtain ⟨c, tail, rfl, hleader⟩ := hbody.leader
  rw [tokenizeLoop_primitive hleader hjs, hscan, Option.bind_some]
  by_cases htok : tokens.length + 1 ≤ maxTok
  · rw [if_neg (by omega), if_pos htok]
  · rw [if_pos (by omega), if_neg htok]

theorem tokenizeLoop_item {item : Item} (hfits : item.Fits rest)
    (hjs : js = before ++ (item.text ++ rest)) (hlen : js.length ≤ 254)
    (htok : tokens.length ≤ maxTok) (hfuel : js.length < fuel) :
    tokenizeLoop js js.length maxTok (fuel + 1) before.length tokens =
      if tokens.length + item.tokens ≤ maxTok then
        tokenizeLoop js js.length maxTok fuel (before.length + item.text.length)
          (item.emit before.length tokens)
      else some none := by
  have hsize : js.length = before.length + (item.text.length + rest.length) := by
    rw [hjs, List.length_append, List.length_append]
  cases item with
  | separator c => exact (tokenizeLoop_separator hfits hjs hlen).trans (if_pos htok).symm
  | opening => exact tokenizeLoop_opening hjs hlen
  | closing => exact (tokenizeLoop_closing hjs hlen).trans (if_pos htok).symm
  | quoted body =>
    have hbody : (Item.quoted body).text.length = body.length + 2 := by simp [Item.text]
    rw [hbody] at hsize ⊢
    exact tokenizeLoop_quoted hfits hjs hlen (by omega)
  | word body =>
    have hbody : (Item.word body).text.length = body.length := rfl
    rw [hbody] at hsize
    exact tokenizeLoop_word hfits.1 hfits.2 hjs hlen (by omega)

theorem Item.Fits.pos {item : Item} (h : item.Fits rest) : 0 < item.text.length := by
  cases item with
  | word body =>
    obtain ⟨c, tail, rfl, -⟩ := h.1.leader
    exact Nat.succ_pos _
  | _ => exact Nat.succ_pos _

theorem Row.length_le {items : List Item} (h : Row rest items) :
    items.length ≤ (textOf items).length := by
  induction h with
  | nil => exact le_rfl
  | @cons item items hfits _ ih =>
    have hpos := hfits.pos
    have htext : (textOf (item :: items)).length = item.text.length + (textOf items).length :=
      List.length_append
    rw [List.length_cons, htext]
    omega

/-- A row of items is read in one round for each item. -/
theorem tokenizeLoop_row {items : List Item} (hrow : Row rest items)
    (hjs : js = before ++ (textOf items ++ rest)) (hlen : js.length ≤ 254)
    (htok : tokens.length ≤ maxTok) (hfuel : js.length < fuel) :
    tokenizeLoop js js.length maxTok (fuel + items.length) before.length tokens =
      if tokens.length + tokenTotal items ≤ maxTok then
        tokenizeLoop js js.length maxTok fuel (before.length + (textOf items).length)
          (assemble before.length tokens items)
      else some none := by
  induction hrow generalizing before tokens with
  | nil => exact (if_pos htok).symm
  | @cons item items hfits _ ih =>
    have htext : textOf (item :: items) = item.text ++ textOf items := rfl
    have htotal : tokenTotal (item :: items) = item.tokens + tokenTotal items := rfl
    rw [htext, List.append_assoc] at hjs
    rw [List.length_cons, ← Nat.add_assoc,
      tokenizeLoop_item hfits hjs hlen htok (by omega), htext, htotal, List.length_append]
    by_cases hitem : tokens.length + item.tokens ≤ maxTok
    · have hemit := length_emit item before.length tokens
      have hnext := ih (by rw [hjs, ← List.append_assoc]) (hemit.le.trans hitem)
      rw [hemit, List.length_append] at hnext
      rw [if_pos hitem, hnext]
      simp only [Nat.add_assoc, assemble]
    · rw [if_neg hitem, if_neg (by omega)]

theorem tokenizeLoop_accepts (h : Accepts rest) (hjs : js = before ++ rest) :
    tokenizeLoop js js.length maxTok (fuel + 1) before.length tokens = some (some tokens) := by
  cases rest with
  | nil => rw [tokenizeLoop, if_neg (by simp [hjs])]
  | cons c tail =>
    obtain ⟨hchar, hlt⟩ := charAt_item hjs
    have hc : c = 0#8 := h c rfl
    rw [tokenizeLoop, if_pos hlt]
    dsimp only
    rw [hchar, if_pos hc]

/-- At a closing bracket empty primitives fill the tokens until none are left. -/
theorem tokenizeLoop_bracket {tail : Text} (hjs : js = before ++ (closeBracket :: tail))
    (hfuel : maxTok ≤ fuel + tokens.length) :
    tokenizeLoop js js.length maxTok (fuel + 2) before.length tokens = some none := by
  have hstop : ∀ c ∈ (closeBracket :: tail).head?, c ∈ delimiters := by
    intro c hc
    obtain rfl : closeBracket = c := Option.some.inj hc
    decide
  induction fuel generalizing tokens with
  | zero =>
    rw [tokenizeLoop_primitive (by decide) hjs, scanPrimitive_stop hjs hstop, Option.bind_some,
      if_pos (by omega)]
  | succ fuel ih =>
    rw [tokenizeLoop_primitive (by decide) hjs, scanPrimitive_stop hjs hstop, Option.bind_some]
    by_cases htok : tokens.length ≥ maxTok
    · rw [if_pos htok]
    · rw [if_neg htok, ih (by rw [List.length_append, List.length_singleton]; omega)]

theorem tokenizeLoop_refuses (h : Refuses rest) (hjs : js = before ++ rest)
    (hlen : js.length ≤ 254) (hfuel : js.length + maxTok < fuel) :
    tokenizeLoop js js.length maxTok (fuel + 1) before.length tokens = some none := by
  rcases h with ⟨tail, rfl⟩ | ⟨tail, rfl, htail⟩
  · obtain ⟨rounds, rfl⟩ : ∃ rounds, fuel = rounds + 1 := ⟨fuel - 1, by omega⟩
    exact tokenizeLoop_bracket hjs (by omega)
  · have hjs' : js = (before ++ [quote]) ++ tail := by simp [hjs]
    have hsize : js.length = before.length + 1 + tail.length := by
      rw [hjs', List.length_append, List.length_append, List.length_singleton]
    have hscan : scanString js js.length fuel (before ++ [quote]).length = some 0 :=
      scanString_unterminated htail hjs' hlen (by omega)
    rw [List.length_append, List.length_singleton] at hscan
    rw [tokenizeLoop_quote hjs hlen, hscan, Option.bind_some, if_pos rfl]

end Loop

/-! ### What the tokenizer returns -/

section Tokenize
variable {rest : Text} {items : List Item} {maxTok fuel : ℕ}

theorem jsonTokenize_row (hrow : Row rest items) (hlen : (textOf items ++ rest).length ≤ 254)
    (hfuel : 2 * (textOf items ++ rest).length + maxTok + 1 < fuel) :
    (Accepts rest → tokenTotal items ≤ maxTok →
      jsonTokenize (textOf items ++ rest) (textOf items ++ rest).length maxTok fuel =
        some (some (assemble 0 [] items))) ∧
      (Refuses rest ∨ maxTok < tokenTotal items →
        jsonTokenize (textOf items ++ rest) (textOf items ++ rest).length maxTok fuel =
          some none) := by
  obtain ⟨js, hjs⟩ : ∃ js, js = textOf items ++ rest := ⟨_, rfl⟩
  rw [← hjs] at hlen hfuel ⊢
  have hsize : js.length = (textOf items).length + rest.length := by rw [hjs, List.length_append]
  have hitems := hrow.length_le
  obtain ⟨left, rfl⟩ : ∃ left, fuel = left + 1 + items.length :=
    ⟨fuel - 1 - items.length, by omega⟩
  have hloop : tokenizeLoop js js.length maxTok (left + 1 + items.length) ([] : Text).length [] =
      if ([] : List Tok).length + tokenTotal items ≤ maxTok then
        tokenizeLoop js js.length maxTok (left + 1) (([] : Text).length + (textOf items).length)
          (assemble 0 [] items)
      else some none :=
    tokenizeLoop_row hrow hjs hlen (Nat.zero_le _) (by omega)
  rw [List.length_nil, List.length_nil, Nat.zero_add, Nat.zero_add] at hloop
  rw [jsonTokenize, hloop]
  constructor
  · intro hacc htotal
    rw [if_pos htotal, tokenizeLoop_accepts hacc hjs]
  · intro hno
    by_cases htotal : tokenTotal items ≤ maxTok
    · rw [if_pos htotal]
      exact tokenizeLoop_refuses (hno.resolve_right (by omega)) hjs hlen (by omega)
    · rw [if_neg htotal]

end Tokenize

end LlvmTms9900.Benchmarks.Json
