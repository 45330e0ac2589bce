import LlvmTms9900.Isa.Word

/-!
# Conway's rule, sixteen cells at a time

`life_next_word` of life.c, life2.c and life2_2x.c counts the neighbours of the
sixteen cells of a word with a carry-save adder tree. The most significant bit
of a word is its leftmost cell.
-/

namespace LlvmTms9900.Life
open LlvmTms9900.Isa

/-! ## The rule on a torus -/

/-- A live cell stays alive with two or three neighbours, a dead one is born
with three. -/
def rule (alive : Bool) (neighbours : Nat) : Bool :=
  decide (neighbours = 3) || (alive && decide (neighbours = 2))

/-- Live cells among the eight around row `y`, column `x` of a torus of `h`
rows and `w` columns. -/
def liveNeighbours (w h : Nat) (g : Nat → Nat → Bool) (y x : Nat) : Nat :=
  let up := (y + h - 1) % h
  let down := (y + 1) % h
  let left := (x + w - 1) % w
  let right := (x + 1) % w
  (g up left).toNat + (g up x).toNat + (g up right).toNat + (g y left).toNat + (g y right).toNat +
    (g down left).toNat + (g down x).toNat + (g down right).toNat

def conway (w h : Nat) (g : Nat → Nat → Bool) (y x : Nat) : Bool :=
  rule (g y x) (liveNeighbours w h g y x)

/-- The rule reads only cells of the torus. -/
theorem conway_congr {w h : Nat} {g g' : Nat → Nat → Bool}
    (hg : ∀ y < h, ∀ x < w, g y x = g' y x) {y x : Nat} (hy : y < h) (hx : x < w) :
    conway w h g y x = conway w h g' y x := by
  have hh : 0 < h := by omega
  have hw : 0 < w := by omega
  have hup := Nat.mod_lt (y + h - 1) hh
  have hdown := Nat.mod_lt (y + 1) hh
  have hleft := Nat.mod_lt (x + w - 1) hw
  have hright := Nat.mod_lt (x + 1) hw
  simp only [conway, liveNeighbours, hg _ hy _ hx, hg _ hup _ hleft, hg _ hup _ hx,
    hg _ hup _ hright, hg _ hy _ hleft, hg _ hy _ hright, hg _ hdown _ hleft, hg _ hdown _ hx,
    hg _ hdown _ hright]

/-! ## Neighbour counts by carry-save addition -/

/-- The four bit planes of the neighbour count. -/
structure Count where
  bit0 : Word
  bit1 : Word
  bit2 : Word
  bit3 : Word

/-- `life2_2x.c:367-387`. -/
def neighbourCount (uLeft uC uRight mLeft mRight dLeft dC dRight : Word) : Count :=
  let sum1 := uLeft ^^^ uC ^^^ uRight
  let carry1 := (uLeft &&& uC) ||| (uLeft &&& uRight) ||| (uC &&& uRight)
  let sum2 := mLeft ^^^ mRight ^^^ dLeft
  let carry2 := (mLeft &&& mRight) ||| (mLeft &&& dLeft) ||| (mRight &&& dLeft)
  let sum3 := dC ^^^ dRight
  let carry3 := dC &&& dRight
  let sum4 := sum1 ^^^ sum2 ^^^ sum3
  let carry4 := (sum1 &&& sum2) ||| (sum1 &&& sum3) ||| (sum2 &&& sum3)
  let tSum := carry1 ^^^ carry2 ^^^ carry3
  let tCarry := (carry1 &&& carry2) ||| (carry1 &&& carry3) ||| (carry2 &&& carry3)
  let c0 := tSum ^^^ carry4
  let c1 := tSum &&& carry4
  let c1Sum := tCarry ^^^ c1
  let c2 := tCarry &&& c1
  ⟨sum4, c0, c1Sum, c2⟩

/-- `life_next_word` of life2.c and life2_2x.c, with the simplified rule. -/
def lifeNextWord (uLeft uC uRight mLeft mC mRight dLeft dC dRight : Word) : Word :=
  let n := neighbourCount uLeft uC uRight mLeft mRight dLeft dC dRight
  n.bit1 &&& ~~~n.bit2 &&& ~~~n.bit3 &&& (n.bit0 ||| mC)

/-- `life_next_word` of life.c. -/
def lifeNextWordPlain (uLeft uC uRight mLeft mC mRight dLeft dC dRight : Word) : Word :=
  let n := neighbourCount uLeft uC uRight mLeft mRight dLeft dC dRight
  let n2 := ~~~n.bit0 &&& n.bit1 &&& ~~~n.bit2 &&& ~~~n.bit3
  let n3 := n.bit0 &&& n.bit1 &&& ~~~n.bit2 &&& ~~~n.bit3
  n3 ||| (n2 &&& mC)

theorem lifeNextWord_eq_plain (uLeft uC uRight mLeft mC mRight dLeft dC dRight : Word) :
    lifeNextWord uLeft uC uRight mLeft mC mRight dLeft dC dRight =
      lifeNextWordPlain uLeft uC uRight mLeft mC mRight dLeft dC dRight := by
  simp only [lifeNextWord, lifeNextWordPlain]
  generalize neighbourCount uLeft uC uRight mLeft mRight dLeft dC dRight = n
  apply BitVec.eq_of_getLsbD_eq
  intro i hi
  simp only [BitVec.getLsbD_and, BitVec.getLsbD_or, BitVec.getLsbD_not, hi, decide_true,
    Bool.true_and]
  cases n.bit0.getLsbD i <;> cases n.bit1.getLsbD i <;> cases n.bit2.getLsbD i <;>
    cases n.bit3.getLsbD i <;> cases mC.getLsbD i <;> rfl

/-- A full adder counts its three inputs. -/
theorem count_three (a b c : Bool) :
    (a ^^ b ^^ c).toNat + 2 * ((a && b) || (a && c) || (b && c)).toNat =
      a.toNat + b.toNat + c.toNat := by
  cases a <;> cases b <;> cases c <;> rfl

theorem count_two (a b : Bool) : (a ^^ b).toNat + 2 * (a && b).toNat = a.toNat + b.toNat := by
  cases a <;> cases b <;> rfl

/-- In every lane the bit planes spell the number of live neighbours. -/
theorem neighbourCount_lane (uLeft uC uRight mLeft mRight dLeft dC dRight : Word) (i : Nat) :
    let n := neighbourCount uLeft uC uRight mLeft mRight dLeft dC dRight
    (n.bit0.getLsbD i).toNat + 2 * (n.bit1.getLsbD i).toNat + 4 * (n.bit2.getLsbD i).toNat +
      8 * (n.bit3.getLsbD i).toNat =
    (uLeft.getLsbD i).toNat + (uC.getLsbD i).toNat + (uRight.getLsbD i).toNat +
      (mLeft.getLsbD i).toNat + (mRight.getLsbD i).toNat + (dLeft.getLsbD i).toNat +
      (dC.getLsbD i).toNat + (dRight.getLsbD i).toNat := by
  simp only [neighbourCount, BitVec.getLsbD_and, BitVec.getLsbD_or, BitVec.getLsbD_xor]
  generalize uLeft.getLsbD i = a
  generalize uC.getLsbD i = b
  generalize uRight.getLsbD i = c
  generalize mLeft.getLsbD i = d
  generalize mRight.getLsbD i = e
  generalize dLeft.getLsbD i = f
  generalize dC.getLsbD i = g
  generalize dRight.getLsbD i = h
  -- the first layer of adders, then the sums, then the carries
  have h1 := count_three a b c
  have h2 := count_three d e f
  have h3 := count_two g h
  generalize (a ^^ b ^^ c) = sum1 at *
  generalize ((a && b) || (a && c) || (b && c)) = carry1 at *
  generalize (d ^^ e ^^ f) = sum2 at *
  generalize ((d && e) || (d && f) || (e && f)) = carry2 at *
  generalize (g ^^ h) = sum3 at *
  generalize (g && h) = carry3 at *
  have h4 := count_three sum1 sum2 sum3
  generalize ((sum1 && sum2) || (sum1 && sum3) || (sum2 && sum3)) = carry4 at *
  have h5 := count_three carry1 carry2 carry3
  generalize (carry1 ^^ carry2 ^^ carry3) = tSum at *
  generalize ((carry1 && carry2) || (carry1 && carry3) || (carry2 && carry3)) = tCarry at *
  have h6 := count_two tSum carry4
  have h7 := count_two tCarry (tSum && carry4)
  omega

theorem lifeNextWord_lane (uLeft uC uRight mLeft mC mRight dLeft dC dRight : Word) {i : Nat}
    (hi : i < 16) :
    (lifeNextWord uLeft uC uRight mLeft mC mRight dLeft dC dRight).getLsbD i =
      rule (mC.getLsbD i)
        ((uLeft.getLsbD i).toNat + (uC.getLsbD i).toNat + (uRight.getLsbD i).toNat +
          (mLeft.getLsbD i).toNat + (mRight.getLsbD i).toNat + (dLeft.getLsbD i).toNat +
          (dC.getLsbD i).toNat + (dRight.getLsbD i).toNat) := by
  rw [← neighbourCount_lane]
  simp only [lifeNextWord]
  generalize neighbourCount uLeft uC uRight mLeft mRight dLeft dC dRight = n
  simp only [BitVec.getLsbD_and, BitVec.getLsbD_or, BitVec.getLsbD_not, hi, decide_true,
    Bool.true_and]
  cases n.bit0.getLsbD i <;> cases n.bit1.getLsbD i <;> cases n.bit2.getLsbD i <;>
    cases n.bit3.getLsbD i <;> cases mC.getLsbD i <;> rfl

end LlvmTms9900.Life
