import LlvmTms9900.Life.Tiles

/-!
# The plain Life engine (cart_example/life.c)

The board is the whole screen, 192 rows of thirty-two bytes, but only a region
of 224 by 160 cells lives; it is a torus of its own. Tiles are 8 by 8 cells, one
byte wide, so a word of the region spans two tiles.
-/

namespace LlvmTms9900.Life.Region
open LlvmTms9900.Isa LlvmTms9900.Arith LlvmTms9900.Life

def regionW : Nat := 224
def regionH : Nat := 160
def regionY0 : Nat := 16
def regionY1 : Nat := 175
def regionByteX0 : Nat := 2
def regionRowBytes : Nat := 28
def regionWords : Nat := 14
def tilesW : Nat := 28
def tilesH : Nat := 20

/-- `clear_board_region`. -/
def clearBoardRegion (b : Board) : Board :=
  fill regionY0 (regionY1 + 1) regionByteX0 (regionByteX0 + regionRowBytes) 0#8 b

/-- `life.c:206-210`: some cell of the tile is live. -/
def anyLive (src : Board) (ty tx : Nat) : Bool :=
  decide (forUpto 0 8 (fun row any => any ||| src (regionY0 + ty <<< 3 + row) (regionByteX0 + tx))
    0#8 ≠ 0#8)

/-- `build_active_tiles`. -/
def buildActiveTiles (src : Board) (active : Tiles) : Tiles :=
  expandActive tilesH tilesW (anyLive src) active

/-- `life.c:411-416`. -/
def clearTiles (t : Tables) : Tables :=
  forUpto 0 tilesH (fun ty => forUpto 0 tilesW (fun tx t =>
    ⟨setByte t.live ty tx 0#8, setByte t.dirty ty tx 0#8⟩)) t

/-- What the computation of a word writes. -/
structure Work where
  dst : Board
  tables : Tables

/-- A tile is marked for each nonzero byte of `acc`. -/
def markBytes (ty wx : Nat) (acc : Word) (t : Tiles) : Tiles :=
  let tileX := wx <<< 1
  let t := if acc &&& 0xFF00#16 ≠ 0#16 then setByte t ty tileX 1#8 else t
  if acc &&& 0x00FF#16 ≠ 0#16 then setByte t ty (tileX + 1) 1#8 else t

/-- `life.c:458-471`, the same in life2.c: store a word and mark its tiles. -/
def putWord (y wx : Nat) (out mC : Word) (s : Work) : Work :=
  let ty := (y - regionY0) >>> 3
  { dst := setWord s.dst y (regionByteX0 + 2 * wx) out
    tables :=
      { live := markBytes ty wx out s.tables.live
        dirty := markBytes ty wx (out ^^^ mC) s.tables.dirty } }

/-- `row_prev`, `row` and `row_next`. -/
def rowPrev (src : Board) (y wx : Nat) : Word :=
  getWord src (if y = regionY0 then regionY1 else y - 1) (regionByteX0 + 2 * wx)

def row (src : Board) (y wx : Nat) : Word := getWord src y (regionByteX0 + 2 * wx)

def rowNext (src : Board) (y wx : Nat) : Word :=
  getWord src (if y = regionY1 then regionY0 else y + 1) (regionByteX0 + 2 * wx)

/-- `life.c:430-471`: one word, from nine loads. -/
def stepWord (src : Board) (active : Tiles) (y wx : Nat) (s : Work) : Work :=
  let ty := (y - regionY0) >>> 3
  let tileX := wx <<< 1
  if active ty tileX = 0#8 ∧ active ty (tileX + 1) = 0#8 then s
  else
    let wxLeft := prevIndex regionWords wx
    let wxRight := nextIndex regionWords wx
    let uL := rowPrev src y wxLeft
    let uC := rowPrev src y wx
    let uR := rowPrev src y wxRight
    let mL := row src y wxLeft
    let mC := row src y wx
    let mR := row src y wxRight
    let dL := rowNext src y wxLeft
    let dC := rowNext src y wx
    let dR := rowNext src y wxRight
    let out := lifeNextWordPlain (fromLeft uL uC) uC (fromRight uC uR) (fromLeft mL mC) mC
      (fromRight mC mR) (fromLeft dL dC) dC (fromRight dC dR)
    putWord y wx out mC s

/-- `step_board`. -/
def stepBoard (src dst : Board) (tables : Tables) (active : Tiles) : Stepped :=
  let s := forUpto regionY0 (regionY1 + 1)
    (fun y => forUpto 0 regionWords (stepWord src active y))
    ⟨clearBoardRegion dst, clearTiles tables⟩
  ⟨s.dst, s.tables, buildActiveFromLive tilesH tilesW s.tables.live active⟩

/-! ## The tile tables -/

theorem writes_clearTiles_at (pr : Tables → Tiles)
    (hpr : ∀ (t : Tables) (y x : Nat), pr ⟨setByte t.live y x 0#8, setByte t.dirty y x 0#8⟩ =
      setByte (pr t) y x 0#8) :
    Writes (fun _ => True) (fun t => at2 (pr t)) (fun p => p.1 < tilesH ∧ p.2 < tilesW)
      (fun _ => 0#8) clearTiles := by
  have h := Writes.forUpto 0 tilesH fun ty _ _ => Writes.forUpto 0 tilesW fun tx _ _ =>
    (writes_setByte ty tx 0#8).proj pr fun t => hpr t ty tx
  refine h.congr (fun p => ?_) fun _ _ => rfl
  constructor
  · rintro ⟨hy, hx⟩
    exact ⟨p.1, Nat.zero_le _, hy, p.2, Nat.zero_le _, hx, rfl, rfl⟩
  · rintro ⟨ty, -, hty, tx, -, htx, rfl, rfl⟩
    exact ⟨hty, htx⟩

/-- Some tile of the word is active. -/
def WordActive (active : Tiles) (ty wx : Nat) : Prop :=
  active ty (2 * wx) ≠ 0#8 ∨ active ty (2 * wx + 1) ≠ 0#8

/-- Word `wx` of row `y` of the next generation of the region. -/
def nextOf (src : Board) (y wx : Nat) : Word :=
  nextWord regionH regionWords (regionWord src regionY0 regionByteX0) y wx

/-- Byte `x` of row `y` of the next generation of the region. -/
def nextByte (src : Board) (y x : Nat) : Byte := wordByte (nextOf src y (x / 2)) x

section Word
variable (src : Board) (active : Tiles) {y : Nat}

/-- The nine loads are the word and its neighbours on the torus. -/
theorem stepWord_eq (hy : y < regionH) (wx : Nat) (s : Work) :
    stepWord src active (regionY0 + y) wx s =
      if active (y / 8) (2 * wx) = 0#8 ∧ active (y / 8) (2 * wx + 1) = 0#8 then s
      else putWord (regionY0 + y) wx (nextOf src y wx) (regionWord src regionY0 regionByteX0 y wx)
        s := by
  have h16 : regionY0 = 16 := rfl
  have h175 : regionY1 = 175 := rfl
  have h160 : regionH = 160 := rfl
  have hty : (regionY0 + y - regionY0) >>> 3 = y / 8 := by
    rw [Nat.add_sub_cancel_left, Nat.shiftRight_eq_div_pow]
  have htx : wx <<< 1 = 2 * wx := by rw [Nat.shiftLeft_eq]; omega
  have hprev : (if regionY0 + y = regionY0 then regionY1 else regionY0 + y - 1) =
      regionY0 + prevIndex regionH y := by
    unfold prevIndex
    split_ifs <;> omega
  have hnext : (if regionY0 + y = regionY1 then regionY0 else regionY0 + y + 1) =
      regionY0 + nextIndex regionH y := by
    unfold nextIndex
    split_ifs <;> omega
  simp only [stepWord, hty, htx, rowPrev, row, rowNext, hprev, hnext, ← lifeNextWord_eq_plain]
  rfl

theorem not_wordActive (active : Tiles) (ty wx : Nat) :
    ¬ WordActive active ty wx ↔ active ty (2 * wx) = 0#8 ∧ active ty (2 * wx + 1) = 0#8 := by
  rw [WordActive, not_or, not_not, not_not]

/-- A component of the work to which every computed word is applied by `f`. -/
theorem writes_words {β κ : Type} {R : β → Prop} {get : β → κ → Byte} {val : κ → Byte}
    (pr : Work → β) {f : Nat → Nat → β → β} {hit : Nat → Nat → κ → Prop}
    (hpr : ∀ y wx s, pr (putWord (regionY0 + y) wx (nextOf src y wx)
      (regionWord src regionY0 regionByteX0 y wx) s) = f y wx (pr s))
    (hf : ∀ y < regionH, ∀ wx < regionWords, Writes R get (hit y wx) val (f y wx)) :
    Writes (fun s => R (pr s)) (fun s => get (pr s))
      (fun p => ∃ y < regionH, ∃ wx < regionWords, WordActive active (y / 8) wx ∧ hit y wx p) val
      (forUpto regionY0 (regionY1 + 1) fun y => forUpto 0 regionWords (stepWord src active y)) := by
  have h160 : regionY1 + 1 = regionY0 + regionH := rfl
  have hword : ∀ y, regionY0 ≤ y → y < regionY1 + 1 → ∀ wx, 0 ≤ wx → wx < regionWords →
      Writes (fun s => R (pr s)) (fun s => get (pr s)) (fun p =>
        ¬ (active ((y - regionY0) / 8) (2 * wx) = 0#8 ∧
          active ((y - regionY0) / 8) (2 * wx + 1) = 0#8) ∧ hit (y - regionY0) wx p) val
        (stepWord src active y wx) := by
    intro y h1 h2 wx _ hwx
    obtain ⟨y, rfl⟩ := Nat.exists_eq_add_of_le h1
    have hy : y < regionH := by omega
    rw [Nat.add_sub_cancel_left]
    refine ((hf y hy wx hwx).guard (c := ¬ (active (y / 8) (2 * wx) = 0#8 ∧
      active (y / 8) (2 * wx + 1) = 0#8))).proj pr fun s => ?_
    rw [stepWord_eq src active hy wx s]
    by_cases h0 : active (y / 8) (2 * wx) = 0#8 ∧ active (y / 8) (2 * wx + 1) = 0#8
    · rw [if_pos h0, if_neg (not_not.2 h0)]
    · rw [if_neg h0, if_pos h0, hpr]
  refine (Writes.forUpto regionY0 (regionY1 + 1) fun y h1 h2 =>
    Writes.forUpto 0 regionWords (hword y h1 h2)).congr (fun p => ?_) fun _ _ => rfl
  constructor
  · rintro ⟨y, hy, wx, hwx, ha, hp⟩
    refine ⟨regionY0 + y, by omega, by omega, wx, Nat.zero_le _, hwx, ?_, ?_⟩
    · rw [Nat.add_sub_cancel_left, ← not_wordActive, not_not]
      exact ha
    · rw [Nat.add_sub_cancel_left]
      exact hp
  · rintro ⟨y, h1, h2, wx, -, hwx, ha, hp⟩
    rw [← not_wordActive, not_not] at ha
    exact ⟨y - regionY0, by omega, wx, hwx, ha, hp⟩

theorem wordByte_sub_two (v : Word) {x : Nat} (hx : 2 ≤ x) : wordByte v (x - 2) = wordByte v x := by
  have h : (x - 2) % 2 = x % 2 := by omega
  rw [wordByte, wordByte, h]

/-- The bytes of the board that the words write. -/
theorem writes_dst : Writes (fun _ : Work => True) (fun s => at2 s.dst)
    (fun p => ∃ y < regionH, ∃ wx < regionWords, WordActive active (y / 8) wx ∧
      p.1 = regionY0 + y ∧ (p.2 = regionByteX0 + 2 * wx ∨ p.2 = regionByteX0 + 2 * wx + 1))
    (fun p => nextByte src (p.1 - regionY0) (p.2 - regionByteX0))
    (forUpto regionY0 (regionY1 + 1) fun y => forUpto 0 regionWords (stepWord src active y)) := by
  have h2 : regionByteX0 = 2 := rfl
  refine writes_words src active (R := fun _ => True) Work.dst
    (f := fun y wx b => setWord b (regionY0 + y) (regionByteX0 + 2 * wx) (nextOf src y wx))
    (fun y wx s => rfl) fun y _ wx _ => ?_
  refine (writes_setWord (regionY0 + y) (regionByteX0 + 2 * wx) (nextOf src y wx)
    (by omega)).congr (fun p => Iff.rfl) ?_
  rintro p ⟨hp1, hp2⟩
  have hword : (p.2 - regionByteX0) / 2 = wx := by omega
  rw [nextByte, hp1, Nat.add_sub_cancel_left, hword, h2]
  exact wordByte_sub_two _ (by omega)

end Word

/-! ## Marks -/

theorem and_hi_ne_zero (v : Word) : v &&& 0xFF00#16 ≠ 0#16 ↔ hiByte v ≠ 0#8 := by
  have hmask : ∀ i < 16, ((0xFF00#16 : Word).getLsbD i = true ↔ 8 ≤ i) := by decide
  rw [bitVec_ne_zero_iff, bitVec_ne_zero_iff]
  simp only [BitVec.getLsbD_and, Bool.and_eq_true, hiByte, BitVec.getLsbD_extractLsb',
    decide_eq_true_eq]
  constructor
  · rintro ⟨i, hi, hv, hm⟩
    rw [hmask i hi] at hm
    exact ⟨i - 8, by omega, by omega, by rwa [show 8 + (i - 8) = i by omega]⟩
  · rintro ⟨i, hi, -, hv⟩
    exact ⟨8 + i, by omega, hv, (hmask _ (by omega)).2 (by omega)⟩

theorem and_lo_ne_zero (v : Word) : v &&& 0x00FF#16 ≠ 0#16 ↔ loByte v ≠ 0#8 := by
  have hmask : ∀ i < 16, ((0x00FF#16 : Word).getLsbD i = true ↔ i < 8) := by decide
  rw [bitVec_ne_zero_iff, bitVec_ne_zero_iff]
  simp only [BitVec.getLsbD_and, Bool.and_eq_true, loByte, BitVec.getLsbD_extractLsb',
    decide_eq_true_eq, Nat.zero_add]
  constructor
  · rintro ⟨i, hi, hv, hm⟩
    rw [hmask i hi] at hm
    exact ⟨i, hm, hm, hv⟩
  · rintro ⟨i, hi, -, hv⟩
    exact ⟨i, by omega, hv, (hmask _ (by omega)).2 hi⟩

theorem writes_markBytes (ty wx : Nat) (acc : Word) :
    Writes (fun _ => True) at2 (fun p => p.1 = ty ∧ p.2 / 2 = wx ∧ wordByte acc p.2 ≠ 0#8)
      (fun _ => 1#8) (markBytes ty wx acc) := by
  have h := fun (m : Word) (x : Nat) => (writes_setByte ty x 1#8).guard (c := acc &&& m ≠ 0#16)
  have htx : wx <<< 1 = 2 * wx := by rw [Nat.shiftLeft_eq]; omega
  refine ((h 0xFF00#16 (wx <<< 1)).comp (h 0x00FF#16 (wx <<< 1 + 1))).congr (fun p => ?_)
    fun _ _ => rfl
  rw [and_hi_ne_zero, and_lo_ne_zero, htx, wordByte]
  constructor
  · rintro ⟨hy, hx, hb⟩
    by_cases hp : p.2 % 2 = 0
    · rw [if_pos hp] at hb
      exact Or.inl ⟨hb, hy, by omega⟩
    · rw [if_neg hp] at hb
      exact Or.inr ⟨hb, hy, by omega⟩
  · rintro (⟨hb, hy, hx⟩ | ⟨hb, hy, hx⟩)
    · exact ⟨hy, by omega, by rwa [if_pos (by omega)]⟩
    · exact ⟨hy, by omega, by rwa [if_neg (by omega)]⟩

section Tables
variable (src : Board) (active : Tiles)

/-- The tiles that the words mark in one of the tables. -/
theorem writes_tables (pr : Tables → Tiles) (acc : Nat → Nat → Word)
    (hpr : ∀ y wx s, pr (putWord (regionY0 + y) wx (nextOf src y wx)
      (regionWord src regionY0 regionByteX0 y wx) s).tables =
      markBytes (y / 8) wx (acc y wx) (pr s.tables)) :
    Writes (fun _ : Work => True) (fun s => at2 (pr s.tables))
      (fun p => p.1 < tilesH ∧ p.2 < tilesW ∧ WordActive active p.1 (p.2 / 2) ∧
        ∃ r < 8, wordByte (acc (8 * p.1 + r) (p.2 / 2)) p.2 ≠ 0#8) (fun _ => 1#8)
      (forUpto regionY0 (regionY1 + 1) fun y => forUpto 0 regionWords (stepWord src active y)) := by
  have h20 : tilesH = 20 := rfl
  have h28 : tilesW = 28 := rfl
  have h160 : regionH = 160 := rfl
  have h14 : regionWords = 14 := rfl
  refine (writes_words src active (R := fun _ => True) (fun s => pr s.tables) hpr
    fun y _ wx _ => writes_markBytes (y / 8) wx (acc y wx)).congr (fun p => ?_) fun _ _ => rfl
  constructor
  · rintro ⟨hy, hx, ha, r, hr, hb⟩
    have hdiv : (8 * p.1 + r) / 8 = p.1 := by omega
    exact ⟨8 * p.1 + r, by omega, p.2 / 2, by omega, by rwa [hdiv], hdiv.symm, rfl, hb⟩
  · rintro ⟨y, hy, wx, hwx, ha, hp1, rfl, hb⟩
    refine ⟨by omega, by omega, by rwa [hp1], y % 8, by omega, ?_⟩
    rwa [show 8 * p.1 + y % 8 = y by omega]

end Tables

/-! ## The step -/

/-- The bytes of the region. -/
def InRegion (y x : Nat) : Prop :=
  (regionY0 ≤ y ∧ y < regionY1 + 1) ∧ regionByteX0 ≤ x ∧ x < regionByteX0 + regionRowBytes

/-- Cell `x` of row `y` of the region. -/
def lifeCell (b : Board) (y x : Nat) : Bool := regionCell b regionY0 regionByteX0 y x

theorem lifeCell_eq (b : Board) (y x : Nat) :
    lifeCell b y x = (b (regionY0 + y) (regionByteX0 + x / 8)).getLsbD (7 - x % 8) := by
  have h1 : (8 * regionByteX0 + x) / 8 = regionByteX0 + x / 8 := by omega
  have h2 : (8 * regionByteX0 + x) % 8 = x % 8 := by omega
  rw [lifeCell, regionCell, cell, h1, h2]

/-- A byte of the region is eight cells of a row. -/
theorem byte_ne_zero_iff (b : Board) (y x : Nat) :
    b (regionY0 + y) (regionByteX0 + x) ≠ 0#8 ↔ ∃ c < 8, lifeCell b y (8 * x + c) = true := by
  rw [bitVec_ne_zero_iff]
  simp only [lifeCell_eq]
  constructor
  · rintro ⟨i, hi, h⟩
    refine ⟨7 - i, by omega, ?_⟩
    rwa [show (8 * x + (7 - i)) / 8 = x by omega, show 7 - (8 * x + (7 - i)) % 8 = i by omega]
  · rintro ⟨c, hc, h⟩
    refine ⟨7 - c, by omega, ?_⟩
    rwa [show (8 * x + c) / 8 = x by omega, show 7 - (8 * x + c) % 8 = 7 - c by omega] at h

theorem tileLive_iff (b : Board) (ty tx : Nat) : TileLive 8 (lifeCell b) ty tx ↔
    ∃ r < 8, b (regionY0 + (8 * ty + r)) (regionByteX0 + tx) ≠ 0#8 := by
  simp only [byte_ne_zero_iff]
  rfl

theorem nextByte_getLsbD (src : Board) {y x : Nat} (hy : y < regionH) (hx : x < regionW) :
    (nextByte src y (x / 8)).getLsbD (7 - x % 8) = conway regionW regionH (lifeCell src) y x := by
  have hdiv : x / 8 / 2 = x / 16 := by omega
  have hcells : (fun y x => rowCell (regionWord src regionY0 regionByteX0 y) x) = lifeCell src := by
    funext y x
    exact regionWord_getLsbD src regionY0 regionByteX0 y x
  rw [nextByte, wordByte_getLsbD, hdiv, nextOf, nextWord_cell _ hy hx, hcells]
  rfl

section Step
variable (src dst : Board) (t : Tables) (active : Tiles) {y x ty tx : Nat}

theorem stepBoard_byte (hy : y < regionH) (hx : x < regionRowBytes) :
    (WordActive active (y / 8) (x / 2) →
      (stepBoard src dst t active).dst (regionY0 + y) (regionByteX0 + x) = nextByte src y x) ∧
    (¬ WordActive active (y / 8) (x / 2) →
      (stepBoard src dst t active).dst (regionY0 + y) (regionByteX0 + x) = 0#8) := by
  have h28 : regionRowBytes = 28 := rfl
  have h14 : regionWords = 14 := rfl
  have h160 : regionY1 + 1 = regionY0 + regionH := rfl
  have hw := writes_dst src active
  constructor
  · intro ha
    have hbyte := hw.written (s := ⟨clearBoardRegion dst, clearTiles t⟩)
      (p := (regionY0 + y, regionByteX0 + x)) trivial
      ⟨y, hy, x / 2, by omega, ha, rfl, by simp only; omega⟩
    simp only [Nat.add_sub_cancel_left] at hbyte
    exact hbyte
  · intro ha
    have hkept := hw.kept (s := ⟨clearBoardRegion dst, clearTiles t⟩)
      (p := (regionY0 + y, regionByteX0 + x)) trivial (by
        rintro ⟨y', -, wx, -, ha', h1, h2⟩
        simp only at h1 h2
        rw [show y' = y by omega, show wx = x / 2 by omega] at ha'
        exact ha ha')
    have hclear : clearBoardRegion dst (regionY0 + y) (regionByteX0 + x) = 0#8 :=
      fill_of_mem ⟨by omega, by omega⟩ ⟨by omega, by omega⟩ _ _
    exact hkept.trans hclear

theorem stepBoard_outside (h : ¬ InRegion y x) : (stepBoard src dst t active).dst y x = dst y x := by
  have h28 : regionRowBytes = 28 := rfl
  have h14 : regionWords = 14 := rfl
  have h160 : regionY1 + 1 = regionY0 + regionH := rfl
  have hkept := (writes_dst src active).kept (s := ⟨clearBoardRegion dst, clearTiles t⟩)
    (p := (y, x)) trivial (by
      rintro ⟨y', hy', wx, hwx, -, h1, h2⟩
      simp only at h1 h2
      exact h ⟨⟨by omega, by omega⟩, by omega, by omega⟩)
  have hclear : clearBoardRegion dst y x = dst y x := fill_of_not_mem h 0#8 dst
  exact hkept.trans hclear

/-- Where the active tiles cover the live ones, the region is Conway's rule. -/
theorem stepBoard_conway (hc : Covers tilesH tilesW active (TileLive 8 (lifeCell src)))
    (hy : y < regionH) (hx : x < regionW) :
    lifeCell (stepBoard src dst t active).dst y x = conway regionW regionH (lifeCell src) y x := by
  have h224 : regionW = 224 := rfl
  have h28 : regionRowBytes = 28 := rfl
  obtain ⟨hon, hoff⟩ := stepBoard_byte src dst t active hy (x := x / 8) (by omega)
  rw [lifeCell_eq]
  by_cases ha : WordActive active (y / 8) (x / 8 / 2)
  · rw [hon ha]
    exact nextByte_getLsbD src hy hx
  · have hzero : active (y / 8) (x / 8) = 0#8 := by
      obtain ⟨h1, h2⟩ := (not_wordActive active _ _).1 ha
      rcases Nat.mod_two_eq_zero_or_one (x / 8) with hp | hp
      · rwa [show 2 * (x / 8 / 2) = x / 8 by omega] at h1
      · rwa [show 2 * (x / 8 / 2) + 1 = x / 8 by omega] at h2
    rw [hoff ha, BitVec.getLsbD_zero]
    exact (conway_of_inactive (by decide) hc hy hx hzero).symm

/-- A live tile of the new board is marked live. -/
theorem stepBoard_live (hy : ty < tilesH) (hx : tx < tilesW)
    (h : TileLive 8 (lifeCell (stepBoard src dst t active).dst) ty tx) :
    (stepBoard src dst t active).tables.live ty tx = 1#8 := by
  have h20 : tilesH = 20 := rfl
  have h160 : regionH = 160 := rfl
  rw [tileLive_iff] at h
  obtain ⟨r, hr, hb⟩ := h
  obtain ⟨hon, hoff⟩ := stepBoard_byte src dst t active (y := 8 * ty + r) (by omega) (x := tx) hx
  have hdiv : (8 * ty + r) / 8 = ty := by omega
  rw [hdiv] at hon hoff
  have ha : WordActive active ty (tx / 2) := by
    by_contra hno
    exact hb (hoff hno)
  rw [hon ha] at hb
  have hw := writes_tables src active Tables.live (nextOf src) fun y wx s => by
    rw [putWord, Nat.add_sub_cancel_left, Nat.shiftRight_eq_div_pow]
  exact hw.written (p := (ty, tx)) trivial ⟨hy, hx, ha, r, hr, hb⟩

theorem wordByte_xor (v w : Word) (x : Nat) :
    wordByte (v ^^^ w) x = wordByte v x ^^^ wordByte w x := by
  unfold wordByte
  split
  · exact BitVec.extractLsb'_xor
  · exact BitVec.extractLsb'_xor

theorem wordByte_regionWord (b : Board) (y x : Nat) :
    wordByte (regionWord b regionY0 regionByteX0 y (x / 2)) x =
      b (regionY0 + y) (regionByteX0 + x) := by
  rw [wordByte, regionWord, getWord, hiByte_append, loByte_append]
  by_cases hp : x % 2 = 0
  · rw [if_pos hp, show regionByteX0 + 2 * (x / 2) = regionByteX0 + x by omega]
  · rw [if_neg hp, show regionByteX0 + 2 * (x / 2) + 1 = regionByteX0 + x by omega]

/-- A tile that is not marked dirty is the same on both boards. -/
theorem stepBoard_clean (hc : Covers tilesH tilesW active (TileLive 8 (lifeCell src)))
    (hy : ty < tilesH) (hx : tx < tilesW)
    (hd : (stepBoard src dst t active).tables.dirty ty tx = 0#8) {r : Nat} (hr : r < 8) :
    (stepBoard src dst t active).dst (regionY0 + (8 * ty + r)) (regionByteX0 + tx) =
      src (regionY0 + (8 * ty + r)) (regionByteX0 + tx) := by
  have h20 : tilesH = 20 := rfl
  have h160 : regionH = 160 := rfl
  obtain ⟨hon, hoff⟩ := stepBoard_byte src dst t active (y := 8 * ty + r) (by omega) (x := tx) hx
  have hdiv : (8 * ty + r) / 8 = ty := by omega
  rw [hdiv] at hon hoff
  by_cases ha : WordActive active ty (tx / 2)
  · have hw := writes_tables src active Tables.dirty
      (fun y wx => nextOf src y wx ^^^ regionWord src regionY0 regionByteX0 y wx)
      fun y wx s => by rw [putWord, Nat.add_sub_cancel_left, Nat.shiftRight_eq_div_pow]
    rw [hon ha]
    by_contra hne
    have hmark := hw.written (s := ⟨clearBoardRegion dst, clearTiles t⟩) (p := (ty, tx)) trivial
      ⟨hy, hx, ha, r, hr, by
        simp only [wordByte_xor, wordByte_regionWord]
        rw [Ne, BitVec.xor_eq_zero_iff]
        exact hne⟩
    exact absurd (hmark.symm.trans hd) (by decide)
  · rw [hoff ha]
    by_contra hne
    refine ha ?_
    have hlive : TileLive 8 (lifeCell src) ty tx :=
      (tileLive_iff src ty tx).2 ⟨r, hr, fun h => hne h.symm⟩
    have hself := hc ty hy tx hx hlive ty tx (Or.inr (Or.inl rfl)) (Or.inr (Or.inl rfl))
    rcases Nat.mod_two_eq_zero_or_one tx with hp | hp
    · left
      rwa [show 2 * (tx / 2) = tx by omega]
    · right
      rwa [show 2 * (tx / 2) + 1 = tx by omega]

end Step

/-- `build_active_tiles` covers the board it is given. -/
theorem buildActiveTiles_covers (b : Board) (active : Tiles) :
    Covers tilesH tilesW (buildActiveTiles b active) (TileLive 8 (lifeCell b)) := by
  refine expandActive_covers (fun ty _ tx _ h => ?_) active
  have hshift : ty <<< 3 = 8 * ty := by rw [Nat.shiftLeft_eq]; omega
  rw [anyLive, decide_eq_true_eq, forUpto_or_ne_zero, hshift]
  simp only [Nat.add_assoc]
  exact (tileLive_iff b ty tx).1 h

/-- What `step_board` does to a board its active tiles cover. -/
structure StepRight (src dst : Board) (r : Stepped) : Prop where
  region : ∀ y < regionH, ∀ x < regionW,
    lifeCell r.dst y x = conway regionW regionH (lifeCell src) y x
  outside : ∀ y x, ¬ InRegion y x → r.dst y x = dst y x
  clean : ∀ ty < tilesH, ∀ tx < tilesW, r.tables.dirty ty tx = 0#8 → ∀ k < 8,
    r.dst (regionY0 + (8 * ty + k)) (regionByteX0 + tx) =
      src (regionY0 + (8 * ty + k)) (regionByteX0 + tx)
  covers : Covers tilesH tilesW r.active (TileLive 8 (lifeCell r.dst))

theorem stepBoard_right {src : Board} (dst : Board) (t : Tables) {active : Tiles}
    (hc : Covers tilesH tilesW active (TileLive 8 (lifeCell src))) :
    StepRight src dst (stepBoard src dst t active) where
  region := fun _ hy _ hx => stepBoard_conway src dst t active hc hy hx
  outside := fun _ _ h => stepBoard_outside src dst t active h
  clean := fun _ hy _ hx hd _ hk => stepBoard_clean src dst t active hc hy hx hd hk
  covers := by
    refine buildActiveFromLive_covers (fun ty hty tx htx h => ?_) active
    exact ne_of_eq_of_ne (stepBoard_live src dst t active hty htx h) (by decide)

end LlvmTms9900.Life.Region
