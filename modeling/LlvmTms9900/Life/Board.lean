import LlvmTms9900.Life.Conway

/-!
# Bit-packed boards

A board is an array of rows of bytes; bit 7 of a byte is its leftmost cell. The
engines compute a region of the board, which starts at row `y0` and byte column
`x0`, a big-endian word at a time.
-/

namespace LlvmTms9900.Life
open LlvmTms9900.Isa

/-- Row, then byte column. -/
abbrev Board := Nat → Nat → Byte

def setByte (b : Board) (y x : Nat) (v : Byte) : Board :=
  fun y' x' => if y' = y ∧ x' = x then v else b y' x'

/-- `*(u16_alias *)&b[y][x]`. -/
def getWord (b : Board) (y x : Nat) : Word := b y x ++ b y (x + 1)

def setWord (b : Board) (y x : Nat) (v : Word) : Board :=
  setByte (setByte b y x (hiByte v)) y (x + 1) (loByte v)

def cell (b : Board) (y x : Nat) : Bool := (b y (x / 8)).getLsbD (7 - x % 8)

/-- Word `wx` of row `y` of the region. -/
def regionWord (b : Board) (y0 x0 y wx : Nat) : Word := getWord b (y0 + y) (x0 + 2 * wx)

def regionCell (b : Board) (y0 x0 y x : Nat) : Bool := cell b (y0 + y) (8 * x0 + x)

theorem setWord_apply (b : Board) (y x : Nat) (v : Word) (y' x' : Nat) :
    setWord b y x v y' x' =
      if y' = y ∧ x' = x then hiByte v
      else if y' = y ∧ x' = x + 1 then loByte v else b y' x' := by
  simp only [setWord, setByte]
  by_cases h : y' = y ∧ x' = x
  · rw [if_neg (by omega), if_pos h, if_pos h]
  · rw [if_neg h, if_neg h]

theorem getWord_getLsbD (b : Board) (y x : Nat) {j : Nat} (hj : j < 16) :
    (getWord b y x).getLsbD (15 - j) = (b y (x + j / 8)).getLsbD (7 - j % 8) := by
  rw [getWord, BitVec.getLsbD_append]
  by_cases h : j < 8
  · have h1 : ¬ 15 - j < 8 := by omega
    have h2 : 15 - j - 8 = 7 - j % 8 := by omega
    have h3 : j / 8 = 0 := by omega
    rw [if_neg h1, h2, h3, Nat.add_zero]
  · have h1 : 15 - j < 8 := by omega
    have h2 : 15 - j = 7 - j % 8 := by omega
    have h3 : j / 8 = 1 := by omega
    rw [if_pos h1, h2, h3]

theorem getWord_ne_zero (b : Board) (y x : Nat) :
    getWord b y x ≠ 0#16 ↔ b y x ≠ 0#8 ∨ b y (x + 1) ≠ 0#8 := by
  have hzero : getWord b y x = 0#16 ↔ b y x = 0#8 ∧ b y (x + 1) = 0#8 := by
    constructor
    · intro h
      have hhi := hiByte_append (b y x) (b y (x + 1))
      have hlo := loByte_append (b y x) (b y (x + 1))
      rw [getWord] at h
      rw [h] at hhi hlo
      exact ⟨hhi.symm, hlo.symm⟩
    · rintro ⟨h1, h2⟩
      rw [getWord, h1, h2]
      rfl
  rw [Ne, hzero]
  tauto

theorem regionWord_getLsbD (b : Board) (y0 x0 y x : Nat) :
    (regionWord b y0 x0 y (x / 16)).getLsbD (15 - x % 16) = regionCell b y0 x0 y x := by
  have h1 : x0 + 2 * (x / 16) + x % 16 / 8 = (8 * x0 + x) / 8 := by omega
  have h2 : x % 16 % 8 = (8 * x0 + x) % 8 := by omega
  rw [regionWord, getWord_getLsbD b _ _ (Nat.mod_lt x (by decide)), h1, h2, regionCell, cell]

/-- The byte of a word that is stored in byte column `x`. -/
def wordByte (v : Word) (x : Nat) : Byte := if x % 2 = 0 then hiByte v else loByte v

theorem wordByte_getLsbD (v : Word) (x : Nat) :
    (wordByte v (x / 8)).getLsbD (7 - x % 8) = v.getLsbD (15 - x % 16) := by
  have hlt : 7 - x % 8 < 8 := by omega
  unfold wordByte
  by_cases h : x / 8 % 2 = 0
  · have he : 8 + (7 - x % 8) = 15 - x % 16 := by omega
    rw [if_pos h, hiByte, BitVec.getLsbD_extractLsb', he]
    simp [hlt]
  · have he : 0 + (7 - x % 8) = 15 - x % 16 := by omega
    rw [if_neg h, loByte, BitVec.getLsbD_extractLsb', he]
    simp [hlt]

/-- `board_a` and `board_b`. -/
inductive Buffer where
  | a | b
  deriving DecidableEq, Repr

def Buffer.other : Buffer → Buffer
  | .a => .b
  | .b => .a

/-! ## The nine words around a word -/

/-- `u_left`: every cell replaced by its left neighbour. -/
def fromLeft (l c : Word) : Word := (c >>> 1) ||| (l <<< 15)

/-- `u_right`: every cell replaced by its right neighbour. -/
def fromRight (c r : Word) : Word := (c <<< 1) ||| (r >>> 15)

/-- The next generation of the word in the middle of nine. -/
def nextOfNine (uL uC uR mL mC mR dL dC dR : Word) : Word :=
  lifeNextWord (fromLeft uL uC) uC (fromRight uC uR) (fromLeft mL mC) mC (fromRight mC mR)
    (fromLeft dL dC) dC (fromRight dC dR)

/-- The centre and right columns that slide along a row. -/
structure Window where
  uC : Word
  uR : Word
  mC : Word
  mR : Word
  dC : Word
  dR : Word

/-- The window when word `wx` is about to be computed. -/
def windowAt (rowPrev row rowNext : Nat → Word) (wx : Nat) : Window :=
  ⟨rowPrev (wx - 1), rowPrev wx, row (wx - 1), row wx, rowNext (wx - 1), rowNext wx⟩

theorem fromLeft_getLsbD (l c : Word) {j : Nat} (hj : j < 16) :
    (fromLeft l c).getLsbD (15 - j) = if j = 0 then l.getLsbD 0 else c.getLsbD (16 - j) := by
  simp only [fromLeft, BitVec.getLsbD_or, BitVec.getLsbD_ushiftRight, BitVec.getLsbD_shiftLeft]
  by_cases h : j = 0
  · subst h
    simp
  · have h1 : 1 + (15 - j) = 16 - j := by omega
    have h2 : 15 - j < 15 := by omega
    simp [h, h1, h2]

theorem fromRight_getLsbD (c r : Word) {j : Nat} (hj : j < 16) :
    (fromRight c r).getLsbD (15 - j) = if j = 15 then r.getLsbD 15 else c.getLsbD (14 - j) := by
  simp only [fromRight, BitVec.getLsbD_or, BitVec.getLsbD_ushiftRight, BitVec.getLsbD_shiftLeft]
  by_cases h : j = 15
  · subst h
    simp
  · have h1 : 15 - j - 1 = 14 - j := by omega
    have h2 : ¬ 15 - j < 1 := by omega
    have h3 : r.getLsbD (15 + (15 - j)) = false := BitVec.getLsbD_of_ge r _ (by omega)
    have h4 : 15 - j < 16 := by omega
    simp only [h, if_false, h1, h3, Bool.or_false]
    simp [h2, h4]

section Torus
variable {n : Nat}

/-- Index of the word to the left, as the engines compute it. -/
def prevIndex (n i : Nat) : Nat := if i = 0 then n - 1 else i - 1

def nextIndex (n i : Nat) : Nat := if i + 1 = n then 0 else i + 1

theorem prevIndex_eq {i : Nat} (h : i < n) : prevIndex n i = (i + n - 1) % n := by
  unfold prevIndex
  by_cases h0 : i = 0
  · rw [if_pos h0, h0, Nat.zero_add, Nat.mod_eq_of_lt (by omega)]
  · have he : i + n - 1 = (i - 1) + n := by omega
    rw [if_neg h0, he, Nat.add_mod_right, Nat.mod_eq_of_lt (by omega)]

theorem nextIndex_eq {i : Nat} (h : i < n) : nextIndex n i = (i + 1) % n := by
  unfold nextIndex
  by_cases h0 : i + 1 = n
  · rw [if_pos h0, h0, Nat.mod_self]
  · rw [if_neg h0, Nat.mod_eq_of_lt (by omega)]

theorem prevIndex_lt {i : Nat} (h : i < n) : prevIndex n i < n := by
  unfold prevIndex
  split <;> omega

theorem nextIndex_lt {i : Nat} (h : i < n) : nextIndex n i < n := by
  unfold nextIndex
  split <;> omega

/-- A row of words, read as cells. -/
def rowCell (row : Nat → Word) (x : Nat) : Bool := (row (x / 16)).getLsbD (15 - x % 16)

theorem rowCell_left (row : Nat → Word) {x : Nat} (hx : x < 16 * n) :
    (fromLeft (row (prevIndex n (x / 16))) (row (x / 16))).getLsbD (15 - x % 16) =
      rowCell row ((x + 16 * n - 1) % (16 * n)) := by
  rw [fromLeft_getLsbD _ _ (Nat.mod_lt x (by decide)), ← prevIndex_eq hx, rowCell]
  unfold prevIndex
  by_cases h0 : x = 0
  · have h1 : (16 * n - 1) / 16 = n - 1 := by omega
    have h2 : 15 - (16 * n - 1) % 16 = 0 := by omega
    simp [h0, h1, h2]
  · by_cases hj : x % 16 = 0
    · have h1 : x / 16 ≠ 0 := by omega
      have h2 : (x - 1) / 16 = x / 16 - 1 := by omega
      have h3 : 15 - (x - 1) % 16 = 0 := by omega
      rw [if_pos hj, if_neg h1, if_neg h0, h2, h3]
    · have h2 : (x - 1) / 16 = x / 16 := by omega
      have h3 : 15 - (x - 1) % 16 = 16 - x % 16 := by omega
      rw [if_neg hj, if_neg h0, h2, h3]

theorem rowCell_right (row : Nat → Word) {x : Nat} (hx : x < 16 * n) :
    (fromRight (row (x / 16)) (row (nextIndex n (x / 16)))).getLsbD (15 - x % 16) =
      rowCell row ((x + 1) % (16 * n)) := by
  rw [fromRight_getLsbD _ _ (Nat.mod_lt x (by decide)), ← nextIndex_eq hx, rowCell]
  unfold nextIndex
  by_cases hj : x % 16 = 15
  · by_cases hlast : x + 1 = 16 * n
    · have h1 : x / 16 + 1 = n := by omega
      rw [if_pos hj, if_pos h1, if_pos hlast]
    · have h1 : x / 16 + 1 ≠ n := by omega
      have h2 : (x + 1) / 16 = x / 16 + 1 := by omega
      have h3 : 15 - (x + 1) % 16 = 15 := by omega
      rw [if_pos hj, if_neg h1, if_neg hlast, h2, h3]
  · have hlast : x + 1 ≠ 16 * n := by omega
    have h2 : (x + 1) / 16 = x / 16 := by omega
    have h3 : 15 - (x + 1) % 16 = 14 - x % 16 := by omega
    rw [if_neg hj, if_neg hlast, h2, h3]

/-- Next generation of word `wx` of row `y`, on a torus of `h` rows of `n` words. -/
def nextWord (h n : Nat) (w : Nat → Nat → Word) (y wx : Nat) : Word :=
  let up := w (prevIndex h y)
  let mid := w y
  let down := w (nextIndex h y)
  let left := prevIndex n wx
  let right := nextIndex n wx
  nextOfNine (up left) (up wx) (up right) (mid left) (mid wx) (mid right) (down left) (down wx)
    (down right)

/-- Every lane of `nextWord` is Conway's rule on the torus of cells. -/
theorem nextWord_cell {h y x : Nat} (w : Nat → Nat → Word) (hy : y < h) (hx : x < 16 * n) :
    (nextWord h n w y (x / 16)).getLsbD (15 - x % 16) =
      conway (16 * n) h (fun y x => rowCell (w y) x) y x := by
  have hlane : 15 - x % 16 < 16 := by omega
  simp only [nextWord, nextOfNine]
  rw [lifeNextWord_lane _ _ _ _ _ _ _ _ _ hlane]
  simp only [rowCell_left _ hx, rowCell_right _ hx]
  simp only [conway, liveNeighbours, ← prevIndex_eq hy, ← nextIndex_eq hy]
  rfl

end Torus
end LlvmTms9900.Life
