import LlvmTms9900.Softfloat.Error

/-!
# sinf and cosf (libtms9900/libm/sincosf_tiny.c)

Each operator on a `float` is the runtime routine in round to nearest. `int` has
16 bits, and a conversion of a number that does not fit has no result.
-/

namespace LlvmTms9900.Libm
open LlvmTms9900.Softfloat
open LlvmTms9900.Isa (Word)

section Model

def pio2Hi : Rep := 0x3FC90FDB#32
def pio2Lo : Rep := 0xB33BBD2E#32
def invpio2 : Rep := 0x3F22F983#32

def sin1 : Rep := 0xBE2AAAAB#32
def sin2 : Rep := 0x3C088889#32
def sin3 : Rep := 0xB9500D01#32

def cos1 : Rep := 0xBF000000#32
def cos2 : Rep := 0x3D2AAAAB#32
def cos3 : Rep := 0xBAB60B61#32

def one : Rep := 0x3F800000#32
def half : Rep := 0x3F000000#32

def add (a b : Rep) : Option Rep := (addsf3 .toNearest a b).map Sum.rep
def sub (a b : Rep) : Option Rep := (subsf3 .toNearest a b).map Sum.rep

/-- `1.0f + x2 * (k1 + x2 * (k2 + x2 * k3))` -/
def polynomial (k1 k2 k3 x2 : Rep) : Option Rep := do
  let t ← add k2 (← mulsf3 x2 k3)
  let t ← add k1 (← mulsf3 x2 t)
  add one (← mulsf3 x2 t)

def kernelSinf (x : Rep) : Option Rep := do
  let x2 ← mulsf3 x x
  mulsf3 x (← polynomial sin1 sin2 sin3 x2)

def kernelCosf (x : Rep) : Option Rep := do
  let x2 ← mulsf3 x x
  polynomial cos1 cos2 cos3 x2

/-- `(int)x` of a number below `2 ^ 15` in magnitude. -/
def toInt (x : Rep) : Option Word :=
  if x &&& absMask < 0x47000000#32 then (fixsfsi x).map (·.setWidth 16) else none

/-- The quarter turns and the rest. -/
structure Reduced where
  n : Word
  y : Rep
  deriving DecidableEq, Repr

def remPio2f (x : Rep) : Option Reduced := do
  let ix := x &&& 0x7FFFFFFF#32
  let sign := x >>> 31
  let z := if sign ≠ 0#32 then negsf2 x else x
  if ix ≤ 0x3F490FDB#32 then return ⟨0#16, x⟩
  let n ← toInt (← add (← mulsf3 z invpio2) half)
  let fn ← floatsisf (n.signExtend 32)
  let z ← sub (← sub z (← mulsf3 fn pio2Hi)) (← mulsf3 fn pio2Lo)
  return if sign ≠ 0#32 then ⟨-n, negsf2 z⟩ else ⟨n, z⟩

/-- `switch (n & 3)` -/
def quadrant (n : Word) (case0 case1 case2 other : Option Rep) : Option Rep :=
  if n &&& 3#16 = 0#16 then case0
  else if n &&& 3#16 = 1#16 then case1
  else if n &&& 3#16 = 2#16 then case2
  else other

def sinf (x : Rep) : Option Rep := do
  let r ← remPio2f x
  quadrant r.n (kernelSinf r.y) (kernelCosf r.y) ((kernelSinf r.y).map negsf2)
    ((kernelCosf r.y).map negsf2)

def cosf (x : Rep) : Option Rep := do
  let r ← remPio2f x
  quadrant r.n (kernelCosf r.y) ((kernelSinf r.y).map negsf2) ((kernelCosf r.y).map negsf2)
    (kernelSinf r.y)

end Model

section Constants

theorem value_one : value one = 1 := by
  rw [value_of_code (e := 126) (s := 2 ^ 23) (by decide) (by norm_num) (by norm_num)]
  norm_num [show one.msb = false from rfl]

theorem value_half : value half = 1 / 2 := by
  rw [value_of_code (e := 125) (s := 2 ^ 23) (by decide) (by norm_num) (by norm_num)]
  norm_num [show half.msb = false from rfl]

theorem value_pio2Hi : value pio2Hi = 13176795 / 2 ^ 23 := by
  rw [value_of_code (e := 126) (s := 13176795) (by decide) (by norm_num) (by norm_num)]
  norm_num [show pio2Hi.msb = false from rfl]

theorem value_pio2Lo : value pio2Lo = -(12303662 / 2 ^ 48) := by
  rw [value_of_code (e := 101) (s := 12303662) (by decide) (by norm_num) (by norm_num)]
  norm_num [show pio2Lo.msb = true from rfl]

theorem value_invpio2 : value invpio2 = 10680707 / 2 ^ 24 := by
  rw [value_of_code (e := 125) (s := 10680707) (by decide) (by norm_num) (by norm_num)]
  norm_num [show invpio2.msb = false from rfl]

theorem value_sin1 : value sin1 = -(11184811 / 2 ^ 26) := by
  rw [value_of_code (e := 123) (s := 11184811) (by decide) (by norm_num) (by norm_num)]
  norm_num [show sin1.msb = true from rfl]

theorem value_sin2 : value sin2 = 8947849 / 2 ^ 30 := by
  rw [value_of_code (e := 119) (s := 8947849) (by decide) (by norm_num) (by norm_num)]
  norm_num [show sin2.msb = false from rfl]

theorem value_sin3 : value sin3 = -(13634817 / 2 ^ 36) := by
  rw [value_of_code (e := 113) (s := 13634817) (by decide) (by norm_num) (by norm_num)]
  norm_num [show sin3.msb = true from rfl]

theorem value_cos1 : value cos1 = -(1 / 2) := by
  rw [value_of_code (e := 125) (s := 2 ^ 23) (by decide) (by norm_num) (by norm_num)]
  norm_num [show cos1.msb = true from rfl]

theorem value_cos2 : value cos2 = 11184811 / 2 ^ 28 := by
  rw [value_of_code (e := 121) (s := 11184811) (by decide) (by norm_num) (by norm_num)]
  norm_num [show cos2.msb = false from rfl]

theorem value_cos3 : value cos3 = -(11930465 / 2 ^ 33) := by
  rw [value_of_code (e := 116) (s := 11930465) (by decide) (by norm_num) (by norm_num)]
  norm_num [show cos3.msb = true from rfl]

theorem finite_sin : Finite sin1 ∧ Finite sin2 ∧ Finite sin3 := ⟨by decide, by decide, by decide⟩

theorem finite_cos : Finite cos1 ∧ Finite cos2 ∧ Finite cos3 := ⟨by decide, by decide, by decide⟩

theorem finite_pio2 : Finite pio2Hi ∧ Finite pio2Lo ∧ Finite invpio2 :=
  ⟨by decide, by decide, by decide⟩

end Constants

end LlvmTms9900.Libm
