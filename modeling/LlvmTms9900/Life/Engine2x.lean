import LlvmTms9900.Life.Tiles

/-!
# The 2x Life engine (cart_example/life2_2x.c)

A torus of 128 by 96 cells in rows of sixteen bytes, with tiles of 4 by 4
cells. `step_board` recomputes whole tile rows, and only those with an active
tile; a second pass compares the two boards and fills the tile tables.
-/

namespace LlvmTms9900.Life.Engine2x
open LlvmTms9900.Isa LlvmTms9900.Arith LlvmTms9900.Life

def cellW : Nat := 128
def cellH : Nat := 96
def cellRowBytes : Nat := 16
def cellWords : Nat := 8
def tilesW : Nat := 32
def tilesH : Nat := 24

/-- The nibble of byte row `y` that belongs to tile column `tx`. -/
def tileNibble (b : Board) (y tx : Nat) : Byte :=
  let cellX := tx <<< 2
  let v := b y (cellX >>> 3)
  if cellX &&& 4 ≠ 0 then v &&& 0x0F#8 else v >>> 4

/-- `life2_2x.c:269-277`: some cell of the tile is live. -/
def anyLive (src : Board) (ty tx : Nat) : Bool :=
  decide (forUpto 0 4 (fun row any => any ||| tileNibble src (ty <<< 2 + row) tx) 0#8 ≠ 0#8)

/-- `build_active_tiles`. -/
def buildActiveTiles (src : Board) (active : Tiles) : Tiles :=
  expandActive tilesH tilesW (anyLive src) active

/-- `clear_board`. -/
def clearBoard (b : Board) : Board := fill 0 cellH 0 cellRowBytes 0#8 b

/-- `row_active` and `row_dirty`: the or of a tile row, a word at a time. -/
def rowOr (t : Tiles) (ty : Nat) : Word :=
  forUpto 0 (tilesW / 2) (fun j acc => acc ||| getWord t ty (2 * j)) 0#16

/-- `life2_2x.c:511-524`: the window slides to word `wx`. -/
def slide (rowPrev row rowNext : Nat → Word) (y wx : Nat) (s : Window × Board) : Window × Board :=
  let win : Window := ⟨s.1.uR, rowPrev (wx + 1), s.1.mR, row (wx + 1), s.1.dR, rowNext (wx + 1)⟩
  (win, setWord s.2 y (2 * wx)
    (nextOfNine s.1.uC win.uC win.uR s.1.mC win.mC win.mR s.1.dC win.dC win.dR))

/-- `life2_2x.c:483-541`: one row of words, with the window always sliding. -/
def stepRow (src : Board) (y : Nat) (dst : Board) : Board :=
  let rowPrev := fun wx => getWord src (prevIndex cellH y) (2 * wx)
  let row := fun wx => getWord src y (2 * wx)
  let rowNext := fun wx => getWord src (nextIndex cellH y) (2 * wx)
  let last := cellWords - 1
  -- word 0: left wraps to the last word
  let dst := setWord dst y 0 (nextOfNine (rowPrev last) (rowPrev 0) (rowPrev 1)
    (row last) (row 0) (row 1) (rowNext last) (rowNext 0) (rowNext 1))
  let win : Window := ⟨rowPrev 0, rowPrev 1, row 0, row 1, rowNext 0, rowNext 1⟩
  let s := forUpto 1 last (slide rowPrev row rowNext y) (win, dst)
  -- last word: right wraps to word 0
  setWord s.2 y (2 * last) (nextOfNine s.1.uC s.1.uR (rowPrev 0) s.1.mC s.1.mR (row 0)
    s.1.dC s.1.dR (rowNext 0))

/-- `life2_2x.c:467-542`. -/
def stepRows (src : Board) (active : Tiles) (dst : Board) : Board :=
  forUpto 0 tilesH (fun ty dst =>
    if rowOr active ty ≠ 0#16 then
      forUpto 0 4 (fun dy dst => stepRow src (ty <<< 2 + dy) dst) dst
    else dst) dst

/-- `life2_2x.c:563-578`: a tile is marked for every nonzero nibble. -/
def markNibbles (ty wx : Nat) (acc : Word) (t : Tiles) : Tiles :=
  let tileX := wx <<< 2
  let t := if acc &&& 0xF000#16 ≠ 0#16 then setByte t ty tileX 1#8 else t
  let t := if acc &&& 0x0F00#16 ≠ 0#16 then setByte t ty (tileX + 1) 1#8 else t
  let t := if acc &&& 0x00F0#16 ≠ 0#16 then setByte t ty (tileX + 2) 1#8 else t
  if acc &&& 0x000F#16 ≠ 0#16 then setByte t ty (tileX + 3) 1#8 else t

/-- The or of the four words of a tile row in word column `wx`. -/
def tileAcc (w : Nat → Nat → Word) (ty wx : Nat) : Word :=
  forUpto 0 4 (fun row acc => acc ||| w (ty <<< 2 + row) wx) 0#16

/-- `life2_2x.c:547-582`. -/
def markTables (src dst : Board) (t : Tables) : Tables :=
  forUpto 0 tilesH (fun ty t => forUpto 0 cellWords (fun wx t =>
    let liveAcc := tileAcc (fun y wx => getWord dst y (2 * wx)) ty wx
    let dirtyAcc := tileAcc (fun y wx => getWord dst y (2 * wx) ^^^ getWord src y (2 * wx)) ty wx
    ⟨markNibbles ty wx liveAcc t.live, markNibbles ty wx dirtyAcc t.dirty⟩) t) t

/-- `step_board`. -/
def stepBoard (src dst : Board) (tables : Tables) (active : Tiles) : Stepped :=
  let dst := clearBoard dst
  let tables := clearTables tilesH tilesW tables
  let dst := stepRows src active dst
  let tables := markTables src dst tables
  ⟨dst, tables, buildActiveFromLive tilesH tilesW tables.live active⟩

/-! ## The rows -/

/-- The next generation of `src`, by words. -/
def nextOf (src : Board) (y wx : Nat) : Word :=
  nextWord cellH cellWords (fun y wx => getWord src y (2 * wx)) y wx

/-- The row filled word by word, each from its own nine words. -/
def fillRow (src : Board) (y n : Nat) (dst : Board) : Board :=
  forUpto 0 n (fun wx dst => setWord dst y (2 * wx) (nextOf src y wx)) dst

theorem fillRow_succ (src : Board) (y n : Nat) (dst : Board) :
    fillRow src y (n + 1) dst = setWord (fillRow src y n dst) y (2 * n) (nextOf src y n) :=
  forUpto_succ (Nat.zero_le n) _ dst

/-- The sliding window computes the same nine words as reloading them. -/
theorem stepRow_eq (src : Board) (y : Nat) (dst : Board) :
    stepRow src y dst = fillRow src y cellWords dst := by
  unfold stepRow
  extract_lets rowPrev row rowNext last dst1 win s
  have hs : s = (windowAt rowPrev row rowNext last, fillRow src y last dst) := by
    refine forUpto_inv (P := fun wx s =>
      s = (windowAt rowPrev row rowNext wx, fillRow src y wx dst)) (by decide) ?_ ?_
    · rw [fillRow_succ, fillRow, forUpto_self]
      rfl
    · rintro wx t h1 h2 rfl
      have hp : prevIndex cellWords wx = wx - 1 := if_neg (by omega)
      have hn : nextIndex cellWords wx = wx + 1 := by
        have : last = 7 := rfl
        exact if_neg (by rw [cellWords]; omega)
      rw [fillRow_succ]
      simp only [slide, windowAt, nextOf, nextWord, hp, hn, Nat.add_sub_cancel]
      rfl
  rw [hs, show cellWords = last + 1 from rfl, fillRow_succ]
  rfl

/-- Byte `p` of the next generation of `src`. -/
def nextByte (src : Board) (p : Nat × Nat) : Byte := wordByte (nextOf src p.1 (p.2 / 2)) p.2

theorem writes_stepRow (src : Board) (y : Nat) :
    Writes (fun _ => True) at2 (fun p => p.1 = y ∧ p.2 < cellRowBytes) (nextByte src)
      (stepRow src y) := by
  have hword : ∀ wx, 0 ≤ wx → wx < cellWords → Writes (fun _ => True) at2
      (fun p => p.1 = y ∧ (p.2 = 2 * wx ∨ p.2 = 2 * wx + 1)) (nextByte src)
      (fun dst => setWord dst y (2 * wx) (nextOf src y wx)) := fun wx _ _ => by
    refine (writes_setWord y (2 * wx) (nextOf src y wx) (by omega)).congr (fun p => Iff.rfl) ?_
    rintro p ⟨hy, hx⟩
    have hhalf : p.2 / 2 = wx := by omega
    rw [nextByte, hy, hhalf]
  have heq : stepRow src y = fillRow src y cellWords := funext fun dst => stepRow_eq src y dst
  rw [heq]
  refine (Writes.forUpto 0 cellWords hword).congr (fun p => ?_) fun _ _ => rfl
  have h8 : cellWords = 8 := rfl
  have h16 : cellRowBytes = 16 := rfl
  constructor
  · rintro ⟨hy, hx⟩
    exact ⟨p.2 / 2, Nat.zero_le _, by omega, hy, by omega⟩
  · rintro ⟨wx, -, hwx, hy, hx⟩
    exact ⟨hy, by omega⟩

theorem writes_stepRows (src : Board) (active : Tiles) :
    Writes (fun _ => True) at2
      (fun p => p.1 < cellH ∧ p.2 < cellRowBytes ∧ rowOr active (p.1 / 4) ≠ 0#16)
      (nextByte src) (stepRows src active) := by
  have h := Writes.forUpto 0 tilesH fun ty _ _ =>
    (Writes.forUpto 0 4 fun dy _ _ => writes_stepRow src (ty <<< 2 + dy)).guard
      (c := rowOr active ty ≠ 0#16)
  refine h.congr (fun p => ?_) fun _ _ => rfl
  have h24 : tilesH = 24 := rfl
  have h96 : cellH = 96 := rfl
  have hshift : ∀ ty, ty <<< 2 = 4 * ty := fun ty => by rw [Nat.shiftLeft_eq]; omega
  simp only [hshift]
  constructor
  · rintro ⟨hy, hx, ha⟩
    exact ⟨p.1 / 4, Nat.zero_le _, by omega, ha, p.1 % 4, Nat.zero_le _, by omega, by omega, hx⟩
  · rintro ⟨ty, -, hty, ha, dy, -, hdy, hy, hx⟩
    have hdiv : p.1 / 4 = ty := by omega
    exact ⟨by omega, hx, by rw [hdiv]; exact ha⟩

theorem rowOr_ne_zero (t : Tiles) (ty : Nat) : rowOr t ty ≠ 0#16 ↔ ∃ tx < tilesW, t ty tx ≠ 0#8 := by
  rw [rowOr, forUpto_or_ne_zero]
  simp only [getWord_ne_zero]
  have h32 : tilesW = 32 := rfl
  constructor
  · rintro ⟨j, hj, h | h⟩
    · exact ⟨2 * j, by omega, h⟩
    · exact ⟨2 * j + 1, by omega, h⟩
  · rintro ⟨tx, htx, h⟩
    refine ⟨tx / 2, by omega, ?_⟩
    rcases Nat.mod_two_eq_zero_or_one tx with h2 | h2
    · left
      rwa [show 2 * (tx / 2) = tx by omega]
    · right
      rwa [show 2 * (tx / 2) + 1 = tx by omega]

/-! ## The board -/

section Board
variable (src dst : Board) (active : Tiles) {y x : Nat}

theorem stepRows_cell (hy : y < cellH) (hx : x < cellW) :
    cell (stepRows src active (clearBoard dst)) y x =
      if rowOr active (y / 4) ≠ 0#16 then (nextOf src y (x / 16)).getLsbD (15 - x % 16)
      else false := by
  have hx8 : x / 8 < cellRowBytes := by
    have h1 : cellW = 128 := rfl
    have h2 : cellRowBytes = 16 := rfl
    omega
  have hw := writes_stepRows src active
  by_cases ha : rowOr active (y / 4) ≠ 0#16
  · have hbyte := hw.written (s := clearBoard dst) (p := (y, x / 8)) trivial ⟨hy, hx8, ha⟩
    have hdiv : x / 8 / 2 = x / 16 := by omega
    simp only [at2, nextByte, hdiv] at hbyte
    rw [if_pos ha, cell, hbyte, wordByte_getLsbD]
  · have hbyte := hw.kept (s := clearBoard dst) (p := (y, x / 8)) trivial fun h => ha h.2.2
    simp only [at2, clearBoard] at hbyte
    rw [fill_of_mem ⟨Nat.zero_le _, hy⟩ ⟨Nat.zero_le _, hx8⟩] at hbyte
    rw [if_neg ha, cell, clearBoard, hbyte]
    simp

theorem rowCell_board (b : Board) (y x : Nat) :
    rowCell (fun wx => getWord b y (2 * wx)) x = cell b y x := by
  have h := regionWord_getLsbD b 0 0 y x
  simp only [regionWord, regionCell, Nat.zero_add, Nat.mul_zero] at h
  exact h

/-- Where the active tiles cover the live ones, the rows are Conway's rule. -/
theorem stepRows_conway (hc : Covers tilesH tilesW active (TileLive 4 (cell src)))
    (hy : y < cellH) (hx : x < cellW) :
    cell (stepRows src active (clearBoard dst)) y x = conway cellW cellH (cell src) y x := by
  rw [stepRows_cell src dst active hy hx]
  by_cases ha : rowOr active (y / 4) ≠ 0#16
  · rw [if_pos ha, nextOf, nextWord_cell _ hy hx]
    simp only [rowCell_board]
    rfl
  · have hzero : active (y / 4) (x / 4) = 0#8 := by
      by_contra hne
      refine ha ((rowOr_ne_zero active _).2 ⟨x / 4, ?_, hne⟩)
      have h1 : cellW = 128 := rfl
      have h2 : tilesW = 32 := rfl
      omega
    rw [if_neg ha]
    exact (conway_of_inactive (by decide) hc hy hx hzero).symm

end Board

/-! ## The tile tables -/

/-- The four masks of `markNibbles`, from the left. -/
def nibbleMask : Nat → Word
  | 0 => 0xF000#16
  | 1 => 0x0F00#16
  | 2 => 0x00F0#16
  | _ => 0x000F#16

theorem writes_markNibbles (ty wx : Nat) (acc : Word) :
    Writes (fun _ => True) at2
      (fun p => p.1 = ty ∧ p.2 / 4 = wx ∧ acc &&& nibbleMask (p.2 % 4) ≠ 0#16) (fun _ => 1#8)
      (markNibbles ty wx acc) := by
  have h := fun (m : Word) (x : Nat) =>
    (writes_setByte ty x 1#8).guard (c := acc &&& m ≠ 0#16)
  have hshift : wx <<< 2 = 4 * wx := by rw [Nat.shiftLeft_eq]; omega
  have hall := (((h 0xF000#16 (wx <<< 2)).comp (h 0x0F00#16 (wx <<< 2 + 1))).comp
    (h 0x00F0#16 (wx <<< 2 + 2))).comp (h 0x000F#16 (wx <<< 2 + 3))
  refine hall.congr (fun p => ?_) fun _ _ => rfl
  rw [hshift]
  constructor
  · rintro ⟨hy, hx, hm⟩
    have hk : p.2 % 4 = 0 ∨ p.2 % 4 = 1 ∨ p.2 % 4 = 2 ∨ p.2 % 4 = 3 := by omega
    rcases hk with hk | hk | hk | hk <;> rw [hk] at hm
    · exact Or.inl (Or.inl (Or.inl ⟨hm, hy, by omega⟩))
    · exact Or.inl (Or.inl (Or.inr ⟨hm, hy, by omega⟩))
    · exact Or.inl (Or.inr ⟨hm, hy, by omega⟩)
    · exact Or.inr ⟨hm, hy, by omega⟩
  · rintro (((⟨hm, hy, hx⟩ | ⟨hm, hy, hx⟩) | ⟨hm, hy, hx⟩) | ⟨hm, hy, hx⟩)
    · exact ⟨hy, by omega, by rw [show p.2 % 4 = 0 by omega]; exact hm⟩
    · exact ⟨hy, by omega, by rw [show p.2 % 4 = 1 by omega]; exact hm⟩
    · exact ⟨hy, by omega, by rw [show p.2 % 4 = 2 by omega]; exact hm⟩
    · exact ⟨hy, by omega, by rw [show p.2 % 4 = 3 by omega]; exact hm⟩

theorem nibbleMask_getLsbD : ∀ k < 4, ∀ i < 16,
    ((nibbleMask k).getLsbD i = true ↔ 12 ≤ i + 4 * k ∧ i + 4 * k < 16) := by decide

/-- A nonzero nibble is a live cell of the tile. -/
theorem tileAcc_ne_zero (w : Nat → Nat → Word) (ty tx : Nat) :
    tileAcc w ty (tx / 4) &&& nibbleMask (tx % 4) ≠ 0#16 ↔
      TileLive 4 (fun y x => rowCell (w y) x) ty tx := by
  have hk : tx % 4 < 4 := Nat.mod_lt tx (by decide)
  have hshift : ty <<< 2 = 4 * ty := by rw [Nat.shiftLeft_eq]; omega
  rw [bitVec_ne_zero_iff]
  simp only [BitVec.getLsbD_and, Bool.and_eq_true, tileAcc, forUpto_or_getLsbD, hshift]
  constructor
  · rintro ⟨i, hi, ⟨r, hr, hbit⟩, hmask⟩
    rw [nibbleMask_getLsbD _ hk i hi] at hmask
    refine ⟨r, hr, 15 - i - 4 * (tx % 4), by omega, ?_⟩
    have h1 : (4 * tx + (15 - i - 4 * (tx % 4))) / 16 = tx / 4 := by omega
    have h2 : 15 - (4 * tx + (15 - i - 4 * (tx % 4))) % 16 = i := by omega
    simp only [rowCell, h1, h2]
    exact hbit
  · rintro ⟨r, hr, c, hc, hcell⟩
    have h1 : (4 * tx + c) / 16 = tx / 4 := by omega
    have h2 : (4 * tx + c) % 16 = 4 * (tx % 4) + c := by omega
    simp only [rowCell, h1, h2] at hcell
    refine ⟨15 - (4 * (tx % 4) + c), by omega, ⟨r, hr, hcell⟩, ?_⟩
    rw [nibbleMask_getLsbD _ hk _ (by omega)]
    omega

theorem writes_markTables_at (src dst : Board) (pr : Tables → Tiles) (w : Nat → Nat → Word)
    (hpr : ∀ (t : Tables) (ty wx : Nat), pr
      ⟨markNibbles ty wx (tileAcc (fun y wx => getWord dst y (2 * wx)) ty wx) t.live,
        markNibbles ty wx
          (tileAcc (fun y wx => getWord dst y (2 * wx) ^^^ getWord src y (2 * wx)) ty wx) t.dirty⟩ =
      markNibbles ty wx (tileAcc w ty wx) (pr t)) :
    Writes (fun _ => True) (fun t => at2 (pr t))
      (fun p => p.1 < tilesH ∧ p.2 < tilesW ∧
        TileLive 4 (fun y x => rowCell (w y) x) p.1 p.2) (fun _ => 1#8) (markTables src dst) := by
  have h32 : tilesW = 32 := rfl
  have h8 : cellWords = 8 := rfl
  have h := Writes.forUpto 0 tilesH fun ty _ _ => Writes.forUpto 0 cellWords fun wx _ _ =>
    (writes_markNibbles ty wx (tileAcc w ty wx)).proj pr fun t => hpr t ty wx
  refine h.congr (fun p => ?_) fun _ _ => rfl
  rw [← tileAcc_ne_zero]
  constructor
  · rintro ⟨hy, hx, hl⟩
    exact ⟨p.1, Nat.zero_le _, hy, p.2 / 4, Nat.zero_le _, by omega, rfl, rfl, hl⟩
  · rintro ⟨ty, -, hty, wx, -, hwx, rfl, rfl, hm⟩
    exact ⟨hty, by omega, hm⟩

/-- Some cell of the tile differs between the two boards. -/
def TileDiffers (s : Nat) (g g' : Nat → Nat → Bool) (ty tx : Nat) : Prop :=
  ∃ r < s, ∃ c < s, g (s * ty + r) (s * tx + c) ≠ g' (s * ty + r) (s * tx + c)

section Tables
variable (src dst : Board) (t : Tables) {ty tx : Nat}

theorem markTables_live (hy : ty < tilesH) (hx : tx < tilesW) :
    (TileLive 4 (cell dst) ty tx →
      (markTables src dst (clearTables tilesH tilesW t)).live ty tx = 1#8) ∧
    (¬ TileLive 4 (cell dst) ty tx →
      (markTables src dst (clearTables tilesH tilesW t)).live ty tx = 0#8) := by
  have hw := writes_markTables_at src dst Tables.live
    (fun y wx => getWord dst y (2 * wx)) fun _ _ _ => rfl
  simp only [rowCell_board] at hw
  constructor
  · intro h
    exact hw.written (p := (ty, tx)) trivial ⟨hy, hx, h⟩
  · intro h
    have hk := hw.kept (s := clearTables tilesH tilesW t) (p := (ty, tx)) trivial fun hp => h hp.2.2
    exact hk.trans (clearTables_live (by decide) t hy hx)

theorem markTables_dirty (hy : ty < tilesH) (hx : tx < tilesW) :
    (TileDiffers 4 (cell dst) (cell src) ty tx →
      (markTables src dst (clearTables tilesH tilesW t)).dirty ty tx = 1#8) ∧
    (¬ TileDiffers 4 (cell dst) (cell src) ty tx →
      (markTables src dst (clearTables tilesH tilesW t)).dirty ty tx = 0#8) := by
  have hw := writes_markTables_at src dst Tables.dirty
    (fun y wx => getWord dst y (2 * wx) ^^^ getWord src y (2 * wx)) fun _ _ _ => rfl
  have hxor : ∀ y x, rowCell (fun wx => getWord dst y (2 * wx) ^^^ getWord src y (2 * wx)) x =
      (cell dst y x ^^ cell src y x) := fun y x => by
    rw [← rowCell_board, ← rowCell_board]
    exact BitVec.getLsbD_xor
  have hdiff : TileLive 4 (fun y x => cell dst y x ^^ cell src y x) ty tx ↔
      TileDiffers 4 (cell dst) (cell src) ty tx := by
    simp only [TileLive, TileDiffers, Bool.xor_iff_ne]
  simp only [hxor] at hw
  rw [← hdiff]
  constructor
  · intro h
    exact hw.written (p := (ty, tx)) trivial ⟨hy, hx, h⟩
  · intro h
    have hk := hw.kept (s := clearTables tilesH tilesW t) (p := (ty, tx)) trivial fun hp => h hp.2.2
    exact hk.trans (clearTables_dirty (by decide) t hy hx)

end Tables

/-- `build_active_tiles` sees exactly the live cells. -/
theorem tileNibble_ne_zero (b : Board) (y : Nat) {tx : Nat} (hx : tx < tilesW) :
    tileNibble b y tx ≠ 0#8 ↔ ∃ c < 4, cell b y (4 * tx + c) = true := by
  have hodd : ∀ tx < 32, (tx <<< 2 &&& 4 ≠ 0 ↔ tx % 2 = 1) := by decide
  have hbyte : tx <<< 2 >>> 3 = tx / 2 := by
    rw [Nat.shiftLeft_eq, Nat.shiftRight_eq_div_pow]
    omega
  simp only [tileNibble, hbyte, hodd tx hx, cell]
  by_cases h : tx % 2 = 1
  · rw [if_pos h, bitVec_ne_zero_iff]
    have hmask : ∀ i < 8, ((0x0F#8 : Byte).getLsbD i = true ↔ i < 4) := by decide
    constructor
    · rintro ⟨i, hi, hbit⟩
      rw [BitVec.getLsbD_and, Bool.and_eq_true, hmask i hi] at hbit
      refine ⟨3 - i, by omega, ?_⟩
      rw [show (4 * tx + (3 - i)) / 8 = tx / 2 by omega,
        show 7 - (4 * tx + (3 - i)) % 8 = i by omega]
      exact hbit.1
    · rintro ⟨c, hc, hbit⟩
      rw [show (4 * tx + c) / 8 = tx / 2 by omega,
        show 7 - (4 * tx + c) % 8 = 3 - c by omega] at hbit
      refine ⟨3 - c, by omega, ?_⟩
      rw [BitVec.getLsbD_and, Bool.and_eq_true, hmask _ (by omega)]
      exact ⟨hbit, by omega⟩
  · rw [if_neg h, bitVec_ne_zero_iff]
    constructor
    · rintro ⟨i, hi, hbit⟩
      rw [BitVec.getLsbD_ushiftRight] at hbit
      have hlt : 4 + i < 8 := by
        by_contra hge
        rw [BitVec.getLsbD_of_ge _ _ (by omega)] at hbit
        cases hbit
      refine ⟨3 - i, by omega, ?_⟩
      rw [show (4 * tx + (3 - i)) / 8 = tx / 2 by omega,
        show 7 - (4 * tx + (3 - i)) % 8 = 4 + i by omega]
      exact hbit
    · rintro ⟨c, hc, hbit⟩
      rw [show (4 * tx + c) / 8 = tx / 2 by omega,
        show 7 - (4 * tx + c) % 8 = 4 + (3 - c) by omega] at hbit
      refine ⟨3 - c, by omega, ?_⟩
      rw [BitVec.getLsbD_ushiftRight]
      exact hbit

theorem anyLive_iff (src : Board) (ty : Nat) {tx : Nat} (hx : tx < tilesW) :
    anyLive src ty tx = true ↔ TileLive 4 (cell src) ty tx := by
  have hshift : ty <<< 2 = 4 * ty := by rw [Nat.shiftLeft_eq]; omega
  simp only [anyLive, decide_eq_true_eq, forUpto_or_ne_zero, tileNibble_ne_zero _ _ hx, hshift,
    TileLive]

/-- `build_active_tiles` covers the board it is given. -/
theorem buildActiveTiles_covers (b : Board) (active : Tiles) :
    Covers tilesH tilesW (buildActiveTiles b active) (TileLive 4 (cell b)) :=
  expandActive_covers (fun ty _ _ htx h => (anyLive_iff b ty htx).2 h) active

/-- What `step_board` does to a board its active tiles cover. -/
structure StepRight (src : Board) (r : Stepped) : Prop where
  board : ∀ y < cellH, ∀ x < cellW, cell r.dst y x = conway cellW cellH (cell src) y x
  live : ∀ ty < tilesH, ∀ tx < tilesW,
    (TileLive 4 (cell r.dst) ty tx → r.tables.live ty tx = 1#8) ∧
    (¬ TileLive 4 (cell r.dst) ty tx → r.tables.live ty tx = 0#8)
  dirty : ∀ ty < tilesH, ∀ tx < tilesW,
    (TileDiffers 4 (cell r.dst) (cell src) ty tx → r.tables.dirty ty tx = 1#8) ∧
    (¬ TileDiffers 4 (cell r.dst) (cell src) ty tx → r.tables.dirty ty tx = 0#8)
  covers : Covers tilesH tilesW r.active (TileLive 4 (cell r.dst))

theorem stepBoard_right {src : Board} (dst : Board) (t : Tables) {active : Tiles}
    (hc : Covers tilesH tilesW active (TileLive 4 (cell src))) :
    StepRight src (stepBoard src dst t active) where
  board := fun _ hy _ hx => stepRows_conway src dst active hc hy hx
  live := fun _ hy _ hx => markTables_live src _ t hy hx
  dirty := fun _ hy _ hx => markTables_dirty src _ t hy hx
  covers := by
    refine buildActiveFromLive_covers (fun ty hty tx htx h => ?_) active
    have hlive := markTables_live src (stepRows src active (clearBoard dst)) t hty htx
    exact ne_of_eq_of_ne (hlive.1 h) (by decide)

end LlvmTms9900.Life.Engine2x
