import LlvmTms9900.Builtins.Udivmoddi4

/-!
# The 64-bit helpers of the float benchmark (tests/fp32_builtins.c)

A 64-bit value is the union of its two 32-bit halves. How a 32-bit sum comes
out is a parameter of the multiplication: `wrap` is what C computes, `noWrap`
fails where the sum does not fit. A 32-bit shift by 32 or more fails.
-/

namespace LlvmTms9900.Builtins
open LlvmTms9900.Builtins.Udivmoddi4 (Long LongLong hi32 lo32 make64 shl shr)

abbrev Plus := Long → Long → Option Long

def wrap : Plus := fun x y => some (x + y)

def noWrap : Plus := fun x y => if x.toNat + y.toNat < 2 ^ 32 then some (x + y) else none

namespace Fp32

/-- `u64_parts`. -/
structure U64Parts where
  hi : Long
  lo : Long
  deriving DecidableEq, Repr

def U64Parts.ofU64 (x : LongLong) : U64Parts := ⟨hi32 x, lo32 x⟩
def U64Parts.u64 (v : U64Parts) : LongLong := make64 v.hi v.lo

/-- `x >> n` for a signed `x`. -/
def sar (x n : Long) : Option Long :=
  if n.toNat < 32 then some (x.sshiftRight n.toNat) else none

/-- `mul_u32_u32`; returns `*hi` and `*lo`. -/
def mulU32U32 (plus : Plus) (a b : Long) : Option U64Parts := do
  let a_lo := a &&& 0xFFFF#32
  let a_hi := a >>> 16
  let b_lo := b &&& 0xFFFF#32
  let b_hi := b >>> 16
  let p0 := a_lo * b_lo
  let p1 := a_lo * b_hi
  let p2 := a_hi * b_lo
  let p3 := a_hi * b_hi
  let mid ← plus (← plus (p1 &&& 0xFFFF#32) (p2 &&& 0xFFFF#32)) (p0 >>> 16)
  let lo := (p0 &&& 0xFFFF#32) ||| (mid <<< 16)
  let hi ← plus (← plus (← plus p3 (p1 >>> 16)) (p2 >>> 16)) (mid >>> 16)
  return ⟨hi, lo⟩

/-- `__muldi3`. The last two sums are meant to wrap. -/
def muldi3 (plus : Plus) (a b : LongLong) : Option LongLong := do
  let ua := U64Parts.ofU64 a
  let ub := U64Parts.ofU64 b
  let p0 ← mulU32U32 plus ua.lo ub.lo
  let p1 ← mulU32U32 plus ua.lo ub.hi
  let p2 ← mulU32U32 plus ua.hi ub.lo
  return U64Parts.u64 ⟨p0.hi + p1.lo + p2.lo, p0.lo⟩

/-- `__ashldi3`; the count `b` is read as `(uint32_t)b`. -/
def ashldi3 (a : LongLong) (b : Long) : Option LongLong := do
  let v := U64Parts.ofU64 a
  if b = 0#32 then return v.u64
  if 64#32 ≤ b then return U64Parts.u64 ⟨0#32, 0#32⟩
  if 32#32 ≤ b then
    return U64Parts.u64 ⟨← shl v.lo (b - 32#32), 0#32⟩
  let hi := (← shl v.hi b) ||| (← shr v.lo (32#32 - b))
  return U64Parts.u64 ⟨hi, ← shl v.lo b⟩

/-- `__lshrdi3`. -/
def lshrdi3 (a : LongLong) (b : Long) : Option LongLong := do
  let v := U64Parts.ofU64 a
  if b = 0#32 then return v.u64
  if 64#32 ≤ b then return U64Parts.u64 ⟨0#32, 0#32⟩
  if 32#32 ≤ b then
    return U64Parts.u64 ⟨0#32, ← shr v.hi (b - 32#32)⟩
  let lo := (← shr v.lo b) ||| (← shl v.hi (32#32 - b))
  return U64Parts.u64 ⟨← shr v.hi b, lo⟩

/-- `__ashrdi3`. -/
def ashrdi3 (a : LongLong) (b : Long) : Option LongLong := do
  let v := U64Parts.ofU64 a
  if b = 0#32 then return v.u64
  if 64#32 ≤ b then
    let hi ← sar v.hi 31#32
    return U64Parts.u64 ⟨hi, hi⟩
  let hi := v.hi
  if 32#32 ≤ b then
    let lo ← sar hi (b - 32#32)
    return U64Parts.u64 ⟨← sar hi 31#32, lo⟩
  let lo := (← shr v.lo b) ||| (← shl hi (32#32 - b))
  return U64Parts.u64 ⟨← sar hi b, lo⟩

end Fp32
end LlvmTms9900.Builtins
