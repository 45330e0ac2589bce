import LlvmTms9900.Isa.Machine

/-!
# 64-bit division (libtms9900/builtins/i64/udivmoddi4.c)

`unsigned long` is a 32-bit word and `unsigned` a 16-bit word. The operations
whose meaning C leaves undefined fail: a 32-bit shift by 32 or more, a division
by zero, and the bit counts of zero.
-/

namespace LlvmTms9900.Builtins.Udivmoddi4
open LlvmTms9900.Isa (Word)

abbrev Long := BitVec 32
abbrev LongLong := BitVec 64

/-- `x << n` and `x >> n`. -/
def shl {w : Nat} (x : Long) (n : BitVec w) : Option Long :=
  if n.toNat < 32 then some (x <<< n.toNat) else none

def shr {w : Nat} (x : Long) (n : BitVec w) : Option Long :=
  if n.toNat < 32 then some (x >>> n.toNat) else none

/-- `x / y` and `x % y`. -/
def quot (x y : Long) : Option Long := if y = 0#32 then none else some (x / y)
def modulo (x y : Long) : Option Long := if y = 0#32 then none else some (x % y)

/-- `__builtin_clzl` and `__builtin_ctzl`, converted to `unsigned`. -/
def clzsi (a : Long) : Option Word := if a = 0#32 then none else some (BitVec.ofNat 16 a.clz.toNat)
def ctzsi (a : Long) : Option Word := if a = 0#32 then none else some (BitVec.ofNat 16 a.ctz.toNat)

def hi32 (x : LongLong) : Long := (x >>> 32).setWidth 32
def lo32 (x : LongLong) : Long := x.setWidth 32
def make64 (hi lo : Long) : LongLong := (hi.setWidth 64 <<< 32) ||| lo.setWidth 64

/-- `r_hi:r_lo`, `q_hi:q_lo` and `carry`. -/
structure Loop where
  r_hi : Long
  r_lo : Long
  q_hi : Long
  q_lo : Long
  carry : Long
  deriving DecidableEq, Repr

/-- How the code in front of the loop ends: with a result and a remainder, or
with a loop count and the initial `q` and `r`. -/
inductive Start where
  | done (q rem : LongLong)
  | loop (sr : Word) (s : Loop)
  deriving DecidableEq, Repr

/-- `q_hi:q_lo` and `r_hi:r_lo` of the dividend, for a loop count below 32. -/
def startLow (n_hi n_lo : Long) (sr : Word) : Option Start := do
  let q_hi ← shl n_lo (32#16 - sr)
  let r_hi ← shr n_hi sr
  let top ← shl n_hi (32#16 - sr)
  let low ← shr n_lo sr
  return .loop sr ⟨r_hi, top ||| low, q_hi, 0#32, 0#32⟩

/-- The cases with `d_lo == 0`. -/
def startLoZero (a : LongLong) (n_hi n_lo d_hi d_lo : Long) : Option Start := do
  if d_hi = 0#32 then
    let rem ← modulo n_hi d_lo
    let q ← quot n_hi d_lo
    return .done (q.setWidth 64) (rem.setWidth 64)
  if n_lo = 0#32 then
    let rem ← modulo n_hi d_hi
    let q ← quot n_hi d_hi
    return .done (q.setWidth 64) (make64 rem 0#32)
  if d_hi &&& (d_hi - 1#32) = 0#32 then
    let rem := make64 (n_hi &&& (d_hi - 1#32)) n_lo
    let q ← shr n_hi (← ctzsi d_hi)
    return .done (q.setWidth 64) rem
  let sr := (← clzsi d_hi) - (← clzsi n_hi)
  if 30#16 < sr then
    return .done 0#64 a
  startLow n_hi n_lo (sr + 1#16)

/-- The cases with `d_lo != 0` and `d_hi == 0`. -/
def startHiZero (a : LongLong) (n_hi n_lo d_lo : Long) : Option Start := do
  if d_lo &&& (d_lo - 1#32) = 0#32 then
    let rem := (n_lo &&& (d_lo - 1#32)).setWidth 64
    if d_lo = 1#32 then
      return .done a rem
    let sr ← ctzsi d_lo
    let q_hi ← shr n_hi sr
    let top ← shl n_hi (32#16 - sr)
    let low ← shr n_lo sr
    return .done (make64 q_hi (top ||| low)) rem
  let sr := 1#16 + 32#16 + (← clzsi d_lo) - (← clzsi n_hi)
  if sr = 32#16 then
    return .loop sr ⟨0#32, n_hi, n_lo, 0#32, 0#32⟩
  if sr < 32#16 then
    startLow n_hi n_lo sr
  else
    let q_lo ← shl n_lo (64#16 - sr)
    let top ← shl n_hi (64#16 - sr)
    let low ← shr n_lo (sr - 32#16)
    let r_lo ← shr n_hi (sr - 32#16)
    return .loop sr ⟨0#32, r_lo, top ||| low, q_lo, 0#32⟩

/-- The cases with `d_lo != 0` and `d_hi != 0`. -/
def startFull (a : LongLong) (n_hi n_lo d_hi : Long) : Option Start := do
  let sr := (← clzsi d_hi) - (← clzsi n_hi)
  if 31#16 < sr then
    return .done 0#64 a
  let sr := sr + 1#16
  if sr = 32#16 then
    return .loop sr ⟨0#32, n_hi, n_lo, 0#32, 0#32⟩
  startLow n_hi n_lo sr

/-- `udivmoddi4.c:51-152`: everything in front of the loop. -/
def start (a b : LongLong) : Option Start :=
  let n_hi := hi32 a
  let n_lo := lo32 a
  let d_hi := hi32 b
  let d_lo := lo32 b
  if n_hi = 0#32 then
    if d_hi = 0#32 then do
      let rem ← modulo n_lo d_lo
      let q ← quot n_lo d_lo
      return .done (q.setWidth 64) (rem.setWidth 64)
    else
      return .done 0#64 (n_lo.setWidth 64)
  else if d_lo = 0#32 then startLoZero a n_hi n_lo d_hi d_lo
  else if d_hi = 0#32 then startHiZero a n_hi n_lo d_lo
  else startFull a n_hi n_lo d_hi

/-- `udivmoddi4.c:159-179`: one iteration. -/
def body (d_hi d_lo : Long) (s : Loop) : Option Loop := do
  let r_hi := (← shl s.r_hi 1#16) ||| (← shr s.r_lo 31#16)
  let r_lo := (← shl s.r_lo 1#16) ||| (← shr s.q_hi 31#16)
  let q_hi := (← shl s.q_hi 1#16) ||| (← shr s.q_lo 31#16)
  let q_lo := (← shl s.q_lo 1#16) ||| s.carry
  if d_hi < r_hi ∨ r_hi = d_hi ∧ d_lo ≤ r_lo then
    let new_lo := r_lo - d_lo
    let borrow := if r_lo < new_lo then 1#32 else 0#32
    return ⟨r_hi - d_hi - borrow, new_lo, q_hi, q_lo, 1#32⟩
  else
    return ⟨r_hi, r_lo, q_hi, q_lo, 0#32⟩

/-- `for (; sr > 0; --sr)`. -/
def loop (d_hi d_lo : Long) : Nat → Loop → Option Loop
  | 0, s => some s
  | sr + 1, s => do loop d_hi d_lo sr (← body d_hi d_lo s)

/-- The 64-bit objects a pointer can point to; 0 is the null pointer. -/
abbrev Objects := Word → LongLong

/-- `if (rem) *rem = v`. -/
def store (mem : Objects) (rem : Word) (v : LongLong) : Objects :=
  if rem = 0#16 then mem else Function.update mem rem v

/-- The quotient returned and the objects afterwards. -/
def udivmoddi4 (mem : Objects) (a b : LongLong) (rem : Word) : Option (LongLong × Objects) := do
  match ← start a b with
  | .done q r => return (q, store mem rem r)
  | .loop sr s =>
    let s ← loop (hi32 b) (lo32 b) sr.toNat s
    let q_hi := (← shl s.q_hi 1#16) ||| (← shr s.q_lo 31#16)
    let q_lo := (← shl s.q_lo 1#16) ||| s.carry
    return (make64 q_hi q_lo, store mem rem (make64 s.r_hi s.r_lo))

/-- `udivdi3.c:13-15`. -/
def udivdi3 (mem : Objects) (a b : LongLong) : Option (LongLong × Objects) :=
  udivmoddi4 mem a b 0#16

/-- `umoddi3.c:13-17`, with the local `rem` at `slot`. -/
def umoddi3 (mem : Objects) (slot : Word) (a b : LongLong) : Option (LongLong × Objects) := do
  let (_, mem) ← udivmoddi4 mem a b slot
  return (mem slot, mem)

end LlvmTms9900.Builtins.Udivmoddi4
