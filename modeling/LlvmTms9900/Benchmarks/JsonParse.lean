import LlvmTms9900.Arith.ForLoop

/-!
# The JSON benchmark

A tokenizer over a text of fewer than 256 characters: positions and counts are
bytes and wrap. An object's token is written at its opening brace, with end 0;
a closing brace ends the last object still open.

The loops take fuel; `none` is a loop that did not end. `some none` is the
result 0 of an error, `some (some tokens)` the tokens written. The end of a token
is its `stop`.
-/

namespace LlvmTms9900.Benchmarks.Json
open LlvmTms9900.Arith

abbrev Text := List (BitVec 8)

inductive TokType
  | object
  | string
  | primitive
  deriving DecidableEq

structure Tok where
  type : TokType
  start : ℕ
  stop : ℕ
  deriving DecidableEq

def backslash : BitVec 8 := 0x5C#8
def quote : BitVec 8 := 0x22#8
def comma : BitVec 8 := 0x2C#8
def openBrace : BitVec 8 := 0x7B#8
def closeBrace : BitVec 8 := 0x7D#8
def closeBracket : BitVec 8 := 0x5D#8
def colon : BitVec 8 := 0x3A#8
def space : BitVec 8 := 0x20#8
def tab : BitVec 8 := 0x09#8
def newline : BitVec 8 := 0x0A#8
def carriageReturn : BitVec 8 := 0x0D#8

/-- The character at a position; the code reads none at or after the length. -/
def charAt (js : Text) (p : ℕ) : BitVec 8 := js.getD p 0#8

/-- The loop of `scan_string`, from the character after the opening quote. -/
def scanString (js : Text) (len : ℕ) : ℕ → ℕ → Option ℕ
  | 0, _ => none
  | fuel + 1, p =>
    if p < len then
      if charAt js p = backslash then
        if (p + 2) % 256 > len then some 0 else scanString js len fuel ((p + 2) % 256)
      else if charAt js p = quote then some p
      else scanString js len fuel ((p + 1) % 256)
    else some 0

def scanPrimitive (js : Text) (len : ℕ) : ℕ → ℕ → Option ℕ
  | 0, _ => none
  | fuel + 1, pos =>
    if pos < len then
      if charAt js pos = comma ∨ charAt js pos = closeBrace ∨ charAt js pos = closeBracket ∨
          charAt js pos = colon ∨ charAt js pos = space then some pos
      else scanPrimitive js len fuel ((pos + 1) % 256)
    else some pos

/-- The search for the last open object, downward from `k`. -/
def closeObject (stop : ℕ) : ℕ → List Tok → List Tok
  | 0, tokens => tokens
  | k + 1, tokens =>
    tokens[k]?.elim tokens fun t =>
      if t.type = .object ∧ t.stop = 0 then tokens.set k { t with stop := stop }
      else closeObject stop k tokens

def tokenizeLoop (js : Text) (len maxTok : ℕ) : ℕ → ℕ → List Tok → Option (Option (List Tok))
  | 0, _, _ => none
  | fuel + 1, pos, tokens =>
    if pos < len then
      let c := charAt js pos
      if c = 0#8 then some (some tokens)
      else if c = openBrace ∨ c = closeBrace ∨ c = space ∨ c = colon ∨ c = tab ∨ c = newline ∨
          c = carriageReturn then
        if c = openBrace then
          if tokens.length ≥ maxTok then some none
          else
            tokenizeLoop js len maxTok fuel ((pos + 1) % 256) (tokens ++ [⟨.object, pos, 0⟩])
        else if c = closeBrace then
          tokenizeLoop js len maxTok fuel ((pos + 1) % 256)
            (closeObject ((pos + 1) % 256) tokens.length tokens)
        else tokenizeLoop js len maxTok fuel ((pos + 1) % 256) tokens
      else if c = comma then tokenizeLoop js len maxTok fuel ((pos + 1) % 256) tokens
      else if c = quote then
        (scanString js len fuel ((pos + 1) % 256)).bind fun stop =>
          if stop = 0 then some none
          else if tokens.length ≥ maxTok then some none
          else
            tokenizeLoop js len maxTok fuel ((stop + 1) % 256)
              (tokens ++ [⟨.string, (pos + 1) % 256, stop⟩])
      else
        (scanPrimitive js len fuel pos).bind fun stop =>
          if tokens.length ≥ maxTok then some none
          else tokenizeLoop js len maxTok fuel stop (tokens ++ [⟨.primitive, pos, stop⟩])
    else some (some tokens)

def jsonTokenize (js : Text) (len maxTok fuel : ℕ) : Option (Option (List Tok)) :=
  tokenizeLoop js len maxTok fuel 0 []

def tokEq (js : Text) (t : Tok) (key : Text) : Bool :=
  decide (t.type = .string) && decide ((t.stop + 256 - t.start) % 256 = key.length) &&
    (List.range key.length).all fun i => charAt js ((t.start + i) % 256) == charAt key i

/-- A digit is taken into a 16-bit value; any other character is passed over. -/
def digitStep (val : ℕ) (c : BitVec 8) : ℕ :=
  if 0x30 ≤ c.toNat ∧ c.toNat ≤ 0x39 then (val * 10 + (c.toNat - 0x30)) % 65536 else val

def tokInt (js : Text) (t : Tok) : ℕ :=
  forUpto t.start t.stop (fun i val => digitStep val (charAt js i)) 0

/-- The search of `main` through the tokens after the first. -/
def bitsValue (js key : Text) : List Tok → ℕ
  | [] => 0
  | t :: rest =>
    rest.head?.elim 0 fun next =>
      if tokEq js t key then tokInt js next else bitsValue js key rest

end LlvmTms9900.Benchmarks.Json
