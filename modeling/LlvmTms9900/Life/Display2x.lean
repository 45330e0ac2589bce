import LlvmTms9900.Life.Main2x

/-!
# What the 2x Life cartridge shows (cart_example/life2_2x.c)

Only the rows with a dirty tile are drawn. A row without one shows the same
cells as before the step, so if the pattern table was the image of the board it
still is. Reseeding marks every tile, and the debug overlay writes to the colour
table only.
-/

namespace LlvmTms9900.Life.Main2x
open LlvmTms9900.Isa LlvmTms9900.Arith LlvmTms9900.Life LlvmTms9900.Life.Engine2x

/-- The byte of the pattern table that shows the board at address `a`. -/
def patternByte (b : Board) (a : Nat) : Byte :=
  expand4 (tileNibble b (4 * (a / 256) + a % 8 / 2) (a % 256 / 8))

def InPatternTable (a : Nat) : Prop := a < 0x1800

def InColorTable (a : Nat) : Prop := 0x2000 ≤ a ∧ a < 0x3800

/-! ## Nibbles -/

theorem tileNibble_even (b : Board) (y : Nat) {i : Nat} (hi : i < cellRowBytes) :
    tileNibble b y (2 * i) = b y i >>> 4 := by
  have hbit : ∀ i < 16, (2 * i) <<< 2 &&& 4 = 0 ∧ (2 * i) <<< 2 >>> 3 = i := by decide
  obtain ⟨h1, h2⟩ := hbit i hi
  rw [tileNibble, h1, h2, if_neg (by decide)]

theorem tileNibble_odd (b : Board) (y : Nat) {i : Nat} (hi : i < cellRowBytes) :
    tileNibble b y (2 * i + 1) = b y i &&& 0x0F#8 := by
  have hbit : ∀ i < 16, (2 * i + 1) <<< 2 &&& 4 ≠ 0 ∧ (2 * i + 1) <<< 2 >>> 3 = i := by decide
  obtain ⟨h1, h2⟩ := hbit i hi
  rw [tileNibble, if_pos h1, h2]

/-- The nibble is the four cells of the tile in that row. -/
theorem tileNibble_getLsbD (b : Board) (y : Nat) {tx i : Nat} (hx : tx < tilesW) (hi : i < 8) :
    (tileNibble b y tx).getLsbD i = (decide (i < 4) && cell b y (4 * tx + (3 - i))) := by
  have h32 : tilesW = 32 := rfl
  have h16 : cellRowBytes = 16 := rfl
  rcases Nat.mod_two_eq_zero_or_one tx with h2 | h2
  · have hd : (4 * tx + (3 - i)) / 8 = tx / 2 := by omega
    rw [show tx = 2 * (tx / 2) by omega, tileNibble_even b y (by omega),
      BitVec.getLsbD_ushiftRight, cell, show 2 * (tx / 2) = tx by omega, hd]
    by_cases h4 : i < 4
    · rw [show 7 - (4 * tx + (3 - i)) % 8 = 4 + i by omega, decide_eq_true h4, Bool.true_and]
    · rw [BitVec.getLsbD_of_ge _ _ (by omega), decide_eq_false h4, Bool.false_and]
  · have hmask : ∀ i < 8, (0x0F#8 : Byte).getLsbD i = decide (i < 4) := by decide
    have hd : (4 * tx + (3 - i)) / 8 = tx / 2 := by omega
    rw [show tx = 2 * (tx / 2) + 1 by omega, tileNibble_odd b y (by omega),
      BitVec.getLsbD_and, hmask i hi, Bool.and_comm, cell,
      show 2 * (tx / 2) + 1 = tx by omega, hd]
    by_cases h4 : i < 4
    · rw [show 7 - (4 * tx + (3 - i)) % 8 = i by omega]
    · rw [decide_eq_false h4, Bool.false_and, Bool.false_and]

/-- Tiles that do not differ have the same nibbles. -/
theorem tileNibble_congr {b b' : Board} {ty tx k : Nat} (hx : tx < tilesW) (hk : k < 4)
    (h : ¬ TileDiffers 4 (cell b) (cell b') ty tx) :
    tileNibble b (4 * ty + k) tx = tileNibble b' (4 * ty + k) tx := by
  refine BitVec.eq_of_getLsbD_eq fun i hi => ?_
  rw [tileNibble_getLsbD b _ hx hi, tileNibble_getLsbD b' _ hx hi]
  by_cases h4 : i < 4
  · have hcell : cell b (4 * ty + k) (4 * tx + (3 - i)) =
        cell b' (4 * ty + k) (4 * tx + (3 - i)) := by
      by_contra hne
      exact h ⟨k, hk, 3 - i, by omega, hne⟩
    rw [hcell]
  · rw [decide_eq_false h4, Bool.false_and, Bool.false_and]

/-! ## Drawing -/

theorem patternByte_at (b : Board) (ty : Nat) {tx k : Nat} (hx : tx < tilesW) (hk : k < 4) {e : Nat}
    (he : e < 2) : patternByte b (ty * 256 + tx * 8 + 2 * k + e) = expand4 (tileNibble b (4 * ty + k) tx) := by
  have h32 : tilesW = 32 := rfl
  have h1 : (ty * 256 + tx * 8 + 2 * k + e) / 256 = ty := by omega
  have h2 : (ty * 256 + tx * 8 + 2 * k + e) % 8 / 2 = k := by omega
  have h3 : (ty * 256 + tx * 8 + 2 * k + e) % 256 / 8 = tx := by omega
  rw [patternByte, h1, h2, h3]

theorem streamsTo_pair (b : Board) {n : Byte} {ty : Nat} (tx : Nat) {k : Nat} (hy : ty < tilesH)
    (hx : tx < tilesW) (hk : k < 4) (hn : n = tileNibble b (4 * ty + k) tx) :
    StreamsTo (patternByte b) (ty * 256 + tx * 8 + 2 * k) 2 (vdpPair n) := by
  have h32 : tilesW = 32 := rfl
  have h24 : tilesH = 24 := rfl
  have hv : vramSize = 0x4000 := rfl
  have h0 : StreamsTo (patternByte b) (ty * 256 + tx * 8 + 2 * k) 1 (vdpData (expand4 n)) :=
    streamsTo_data (by rw [hn, ← patternByte_at b ty hx hk Nat.zero_lt_two, Nat.add_zero]) (by omega)
  have h1 : StreamsTo (patternByte b) (ty * 256 + tx * 8 + 2 * k + 1) 1 (vdpData (expand4 n)) :=
    streamsTo_data (by rw [hn, ← patternByte_at b ty hx hk Nat.one_lt_two]) (by omega)
  exact h0.comp h1

theorem streamsTo_fourPairs {img : Nat → Byte} {a : Nat} {n0 n1 n2 n3 : Byte}
    (h0 : StreamsTo img a 2 (vdpPair n0)) (h1 : StreamsTo img (a + 2) 2 (vdpPair n1))
    (h2 : StreamsTo img (a + 4) 2 (vdpPair n2)) (h3 : StreamsTo img (a + 6) 2 (vdpPair n3)) :
    StreamsTo img a 8 fun d => vdpPair n3 (vdpPair n2 (vdpPair n1 (vdpPair n0 d))) :=
  ((h0.comp h1).comp h2).comp h3

theorem streamsTo_tilePair (b : Board) {ty i : Nat} (hy : ty < tilesH) (hi : i < cellRowBytes) :
    StreamsTo (patternByte b) (ty * 256 + i * 16) 16 (vdpTilePair b (ty <<< 2) i) := by
  have h32 : tilesW = 32 := rfl
  have h16 : cellRowBytes = 16 := rfl
  have hs : ty <<< 2 = 4 * ty := by rw [Nat.shiftLeft_eq]; omega
  have heven : ∀ k < 4, ∀ a, a = ty * 256 + i * 16 + 2 * k → StreamsTo (patternByte b) a 2
      (vdpPair (b (4 * ty + k) i >>> 4)) := fun k hk a ha => by
    have h := streamsTo_pair b (2 * i) hy (by omega) hk (tileNibble_even b _ hi).symm
    rwa [show ty * 256 + 2 * i * 8 + 2 * k = a by omega] at h
  have hodd : ∀ k < 4, ∀ a, a = ty * 256 + i * 16 + 8 + 2 * k → StreamsTo (patternByte b) a 2
      (vdpPair (b (4 * ty + k) i &&& 0x0F#8)) := fun k hk a ha => by
    have h := streamsTo_pair b (2 * i + 1) hy (by omega) hk (tileNibble_odd b _ hi).symm
    rwa [show ty * 256 + (2 * i + 1) * 8 + 2 * k = a by omega] at h
  have hl := streamsTo_fourPairs (heven 0 (by decide) (ty * 256 + i * 16) (by omega))
    (heven 1 (by decide) _ (by omega)) (heven 2 (by decide) _ (by omega))
    (heven 3 (by decide) _ (by omega))
  have hr := streamsTo_fourPairs (hodd 0 (by decide) (ty * 256 + i * 16 + 8) (by omega))
    (hodd 1 (by decide) _ (by omega)) (hodd 2 (by decide) _ (by omega))
    (hodd 3 (by decide) _ (by omega))
  rw [Nat.add_zero] at hl hr
  have h := hl.comp hr
  rw [hs]
  unfold vdpTilePair
  exact h

/-- The two hundred and fifty-six bytes of a tile row. -/
def drawRow (b : Board) (ty : Nat) (d : Vdp) : Vdp :=
  forUpto 0 cellRowBytes (fun byteIdx d => vdpTilePair b (ty <<< 2) byteIdx d)
    (vdpSetWriteAddr (ty * 256) d)

/-- The running address is the address of the row, also after skipped rows. -/
theorem vdpWriteDirtyPatterns_eq (dirty : Tiles) (b : Board) (d : Vdp) :
    vdpWriteDirtyPatterns dirty b d =
      forUpto 0 tilesH (fun ty d => if rowOr dirty ty ≠ 0#16 then drawRow b ty d else d) d := by
  let streamRow := fun ty (s : Nat × Vdp) =>
    if rowOr dirty ty = 0#16 then (s.1 + 256, s.2)
    else (s.1 + 256,
      forUpto 0 cellRowBytes (fun byteIdx d => vdpTilePair b (ty <<< 2) byteIdx d)
        (vdpSetWriteAddr s.1 s.2))
  let row := fun ty d => if rowOr dirty ty ≠ 0#16 then drawRow b ty d else d
  have h : forUpto 0 tilesH streamRow (patternTableAddr, d) =
      (tilesH * 256, forUpto 0 tilesH row d) := by
    refine forUpto_simulates (P := fun ty s d => s = (ty * 256, d)) (Nat.zero_le tilesH) rfl ?_
    rintro ty s d - - rfl
    by_cases h0 : rowOr dirty ty = 0#16
    · simp only [streamRow, row, h0, if_true, ne_eq, not_true_eq_false, if_false, Nat.succ_mul]
    · simp only [streamRow, row, h0, if_false, ne_eq, not_false_eq_true, if_true, Nat.succ_mul,
        drawRow]
  exact congrArg Prod.snd h

theorem writes_drawRow (b : Board) {ty : Nat} (hy : ty < tilesH) :
    Writes Vdp.AtRest Vdp.cellAt (fun a => ty * 256 ≤ a ∧ a < ty * 256 + 256)
      (drawn (patternByte b)) (drawRow b ty) := by
  have h24 : tilesH = 24 := rfl
  have hv : vramSize = 0x4000 := rfl
  have h : StreamsTo (patternByte b) (ty * 256) (cellRowBytes * 16)
      (forUpto 0 cellRowBytes fun byteIdx d => vdpTilePair b (ty <<< 2) byteIdx d) :=
    StreamsTo.forUpto fun i hi => streamsTo_tilePair b hy hi
  exact h.writes (by omega)

theorem writes_dirtyPatterns (dirty : Tiles) (b : Board) :
    Writes Vdp.AtRest Vdp.cellAt (fun a => InPatternTable a ∧ rowOr dirty (a / 256) ≠ 0#16)
      (drawn (patternByte b)) (vdpWriteDirtyPatterns dirty b) := by
  have h24 : tilesH = 24 := rfl
  have h := Writes.forUpto 0 tilesH fun ty _ hy =>
    (writes_drawRow b hy).guard (c := rowOr dirty ty ≠ 0#16)
  rw [show vdpWriteDirtyPatterns dirty b = _ from funext (vdpWriteDirtyPatterns_eq dirty b)]
  refine h.congr (fun a => ?_) fun _ _ => rfl
  constructor
  · rintro ⟨ha, hd⟩
    have ha' : a < 0x1800 := ha
    exact ⟨a / 256, Nat.zero_le _, by omega, hd, by omega, by omega⟩
  · rintro ⟨ty, -, hty, hd, h1, h2⟩
    have hdiv : a / 256 = ty := by omega
    refine ⟨?_, by rw [hdiv]; exact hd⟩
    show a < 0x1800
    omega

/-- `vdp_write_tile_scaled` on every tile. -/
def drawEveryTile (b : Board) (d : Vdp) : Vdp :=
  forUpto 0 tilesH (fun ty => forUpto 0 tilesW (fun tx d => vdpWriteTileScaled ty tx 0 0 b d)) d

theorem writes_tileScaled (b : Board) {ty tx : Nat} (hy : ty < tilesH) (hx : tx < tilesW) :
    Writes Vdp.AtRest Vdp.cellAt
      (fun a => ty * 256 + tx * 8 ≤ a ∧ a < ty * 256 + tx * 8 + 8)
      (drawn (patternByte b)) (vdpWriteTileScaled ty tx 0 0 b) := by
  have h24 : tilesH = 24 := rfl
  have h32 : tilesW = 32 := rfl
  have hv : vramSize = 0x4000 := rfl
  have hs : ty <<< 2 = 4 * ty := by rw [Nat.shiftLeft_eq]; omega
  have haddr : tileAddr patternTableAddr (0 + ty) (0 + tx) = ty * 256 + tx * 8 := by
    rw [Nat.zero_add, Nat.zero_add, tileAddr_eq patternTableAddr hy hx]
    exact congrArg (· + tx * 8) (Nat.zero_add _)
  have h : StreamsTo (patternByte b) (ty * 256 + tx * 8) (4 * 2)
      (forUpto 0 4 fun row d => vdpPair (tileNibble b (ty <<< 2 + row) tx) d) :=
    StreamsTo.forUpto fun k hk => by
      rw [Nat.mul_comm k 2]
      exact streamsTo_pair b tx hy hx hk (by rw [hs])
  have hw := h.writes (by omega)
  rw [← haddr] at hw ⊢
  exact hw

theorem writes_everyTile (b : Board) :
    Writes Vdp.AtRest Vdp.cellAt InPatternTable (drawn (patternByte b)) (drawEveryTile b) := by
  have h24 : tilesH = 24 := rfl
  have h32 : tilesW = 32 := rfl
  have h := Writes.forUpto 0 tilesH fun ty _ hy =>
    Writes.forUpto 0 tilesW fun tx _ hx => writes_tileScaled b hy hx
  refine h.congr (fun a => ?_) fun _ _ => rfl
  constructor
  · intro ha
    have ha' : a < 0x1800 := ha
    exact ⟨a / 256, Nat.zero_le _, by omega, a % 256 / 8, Nat.zero_le _, by omega, by omega,
      by omega⟩
  · rintro ⟨ty, -, hty, tx, -, htx, h1, h2⟩
    show a < 0x1800
    omega

/-! ## The overlay -/

/-- Only the colour table and the variables beside the boards and tiles change. -/
structure Recoloured (m m' : Machine) : Prop where
  boards : m'.boards = m.boards
  cur : m'.cur = m.cur
  active : m'.active = m.active
  tables : m'.tables = m.tables
  atRest : m.vdp.AtRest → m'.vdp.AtRest
  kept : m.vdp.AtRest → ∀ a, ¬ InColorTable a → m'.vdp.cellAt a = m.vdp.cellAt a

namespace Recoloured

/-- The display is the same. -/
theorem of_eq {m m' : Machine} (hb : m'.boards = m.boards) (hc : m'.cur = m.cur)
    (ha : m'.active = m.active) (ht : m'.tables = m.tables) (hv : m'.vdp = m.vdp) :
    Recoloured m m' :=
  ⟨hb, hc, ha, ht, fun h => by rw [hv]; exact h, fun _ a _ => by rw [hv]⟩

theorem refl (m : Machine) : Recoloured m m := of_eq rfl rfl rfl rfl rfl

theorem trans {m m' m'' : Machine} (h : Recoloured m m') (h' : Recoloured m' m'') :
    Recoloured m m'' where
  boards := h'.boards.trans h.boards
  cur := h'.cur.trans h.cur
  active := h'.active.trans h.active
  tables := h'.tables.trans h.tables
  atRest := fun hr => h'.atRest (h.atRest hr)
  kept := fun hr a ha => (h'.kept (h.atRest hr) a ha).trans (h.kept hr a ha)

theorem curBoard {m m' : Machine} (h : Recoloured m m') : m'.curBoard = m.curBoard := by
  rw [Machine.curBoard, Machine.curBoard, h.boards, h.cur]

/-- A tile is coloured. -/
theorem tile (m : Machine) {ty tx : Nat} (hy : ty < tilesH) (hx : tx < tilesW) (color : Byte)
    (dirtyPrev : Tiles) : Recoloured m
      { m with vdp := vdpSetTileColor ty tx color m.vdp, dirtyPrev := dirtyPrev } where
  boards := rfl
  cur := rfl
  active := rfl
  tables := rfl
  atRest := fun hr => (writes_setTileColor hy hx color).stays hr
  kept := fun hr a ha => (writes_setTileColor hy hx color).kept hr fun h => ha (by
    have h0 : colorTableAddr = 0x2000 := rfl
    have h24 : tilesH = 24 := rfl
    have h32 : tilesW = 32 := rfl
    exact ⟨by omega, by omega⟩)

/-- The overlay functions visit every tile. -/
theorem forTiles {body : Nat → Nat → Machine → Machine}
    (h : ∀ ty < tilesH, ∀ tx < tilesW, ∀ m, Recoloured m (body ty tx m)) (m : Machine) :
    Recoloured m (forUpto 0 tilesH (fun ty => forUpto 0 tilesW (body ty)) m) :=
  forUpto_rel refl (fun _ _ _ => trans) (fun ty m _ hy =>
    forUpto_rel refl (fun _ _ _ => trans) (fun tx m _ hx => h ty hy tx hx m) m) m

end Recoloured

theorem debugDirtyUpdate_recoloured (m : Machine) : Recoloured m (vdpDebugDirtyUpdate m) := by
  refine Recoloured.forTiles (fun ty hy tx hx m => ?_) m
  by_cases h1 : m.tables.dirty ty tx ≠ 0#8 ∧ m.dirtyPrev ty tx = 0#8
  · simp only [if_pos h1]
    exact Recoloured.tile m hy hx _ _
  · by_cases h2 : m.tables.dirty ty tx = 0#8 ∧ m.dirtyPrev ty tx ≠ 0#8
    · simp only [if_neg h1, if_pos h2]
      exact Recoloured.tile m hy hx _ _
    · simp only [if_neg h1, if_neg h2]
      exact Recoloured.of_eq rfl rfl rfl rfl rfl

theorem debugDirtyClear_recoloured (m : Machine) : Recoloured m (vdpDebugDirtyClear m) := by
  refine Recoloured.forTiles (fun ty hy tx hx m => ?_) m
  by_cases h : m.dirtyPrev ty tx ≠ 0#8
  · simp only [if_pos h]
    exact Recoloured.tile m hy hx _ _
  · simp only [if_neg h]
    exact Recoloured.refl m

theorem setSnapshotPending_recoloured (m : Machine) (v : Byte) :
    Recoloured m (m.setSnapshotPending v) := Recoloured.of_eq rfl rfl rfl rfl rfl

theorem debugCleanSnapshot_recoloured (m : Machine) : Recoloured m (vdpDebugCleanSnapshot m) := by
  refine (Recoloured.forTiles (fun ty hy tx hx m => ?_) m).trans
    (setSnapshotPending_recoloured _ _)
  by_cases h : m.tables.dirty ty tx ≠ 0#8
  · simp only [if_pos h]
    exact Recoloured.refl m
  · simp only [if_neg h]
    exact Recoloured.tile m hy hx _ m.dirtyPrev

theorem debugCleanSnapshotClear_recoloured (m : Machine) :
    Recoloured m (vdpDebugCleanSnapshotClear m) :=
  (Recoloured.forTiles (fun _ hy _ hx m => Recoloured.tile m hy hx _ m.dirtyPrev) m).trans
    (setSnapshotPending_recoloured _ _)

theorem readFrame_recoloured (i : Input) (m : Machine) : Recoloured m (readFrame i m) := by
  unfold readFrame
  by_cases h : i.frame ≠ m.framePrev
  · rw [if_pos h]
    exact Recoloured.of_eq rfl rfl rfl rfl rfl
  · rw [if_neg h]
    exact Recoloured.refl m

/-- A key that does not reseed only recolours. -/
theorem handleKey_cases (i : Input) (key : Byte) (m : Machine) :
    Recoloured m (handleKey i key m) ∨
      ∃ m', Recoloured m m' ∧ handleKey i key m = reseedBoard i m' := by
  have hseed : ∀ v, Recoloured m { m with seedDensity := v } :=
    fun v => Recoloured.of_eq rfl rfl rfl rfl rfl
  have htoggle : Recoloured m m.toggleDirty := Recoloured.of_eq rfl rfl rfl rfl rfl
  unfold handleKey
  split_ifs with hD hoff hF h19
  · exact Or.inl (htoggle.trans (debugDirtyClear_recoloured _))
  · exact Or.inl htoggle
  · exact Or.inl (debugCleanSnapshot_recoloured m)
  · exact Or.inl (Recoloured.of_eq rfl rfl rfl rfl rfl)
  · exact Or.inr ⟨_, hseed _, rfl⟩
  · exact Or.inr ⟨_, hseed _, rfl⟩
  · exact Or.inr ⟨_, hseed _, rfl⟩
  · exact Or.inr ⟨_, hseed _, rfl⟩
  · exact Or.inr ⟨_, hseed _, rfl⟩
  · exact Or.inr ⟨m, Recoloured.refl m, rfl⟩
  · exact Or.inl (Recoloured.refl m)

/-! ## The invariant of the loop -/

/-- Between the step and the drawing: a row that will not be drawn is right. -/
structure Ready (m : Machine) : Prop where
  rest : m.vdp.AtRest
  clean : ∀ a, InPatternTable a → rowOr m.tables.dirty (a / 256) = 0#16 →
    m.vdp.vram a = patternByte m.curBoard a
  confined : ∀ a, m.vdp.written a = true → InPatternTable a ∨ InColorTable a
  covers : Covers tilesH tilesW m.active (TileLive 4 (cell m.curBoard))

/-- After the drawing. -/
structure Shows (m : Machine) : Prop where
  rest : m.vdp.AtRest
  image : ∀ a, InPatternTable a → m.vdp.vram a = patternByte m.curBoard a
  confined : ∀ a, m.vdp.written a = true → InPatternTable a ∨ InColorTable a
  covers : Covers tilesH tilesW m.active (TileLive 4 (cell m.curBoard))

theorem not_inColorTable {a : Nat} (ha : InPatternTable a) : ¬ InColorTable a := by
  have ha' : a < 0x1800 := ha
  rintro ⟨h, -⟩
  omega

theorem Ready.recoloured {m m' : Machine} (h : Ready m) (hr : Recoloured m m') : Ready m' where
  rest := hr.atRest h.rest
  clean := fun a ha hd => by
    have hk := congrArg Prod.fst (hr.kept h.rest a (not_inColorTable ha))
    rw [hr.tables] at hd
    rw [hr.curBoard, ← h.clean a ha hd]
    exact hk
  confined := fun a ha => by
    by_cases hc : InColorTable a
    · exact Or.inr hc
    · have hk : m'.vdp.written a = m.vdp.written a :=
        congrArg Prod.snd (hr.kept h.rest a hc)
      exact h.confined a (hk ▸ ha)
  covers := by
    rw [hr.active, hr.curBoard]
    exact h.covers

theorem curBoard_setCurBoard (m : Machine) (b : Board) : (m.setCurBoard b).curBoard = b :=
  if_pos rfl

/-- With every tile marked no row is left out. -/
theorem rowOr_markAllDirty (dirty : Tiles) {ty : Nat} (hy : ty < tilesH) :
    rowOr (markAllDirty dirty) ty ≠ 0#16 := by
  rw [rowOr_ne_zero]
  refine ⟨0, by decide, ?_⟩
  rw [markAllDirty, fill_of_mem ⟨Nat.zero_le _, hy⟩ ⟨Nat.zero_le _, by decide⟩]
  decide

/-- A machine whose tiles were just built and all marked. -/
theorem ready_of_marked {m : Machine} (hrest : m.vdp.AtRest)
    (hconf : ∀ a, m.vdp.written a = true → InPatternTable a ∨ InColorTable a)
    (hmark : ∃ dirty, m.tables.dirty = markAllDirty dirty)
    (hact : ∃ active, m.active = buildActiveTiles m.curBoard active) : Ready m where
  rest := hrest
  clean := fun a ha hd => by
    obtain ⟨dirty, hdirty⟩ := hmark
    have ha' : a < 0x1800 := ha
    have h24 : tilesH = 24 := rfl
    rw [hdirty] at hd
    exact absurd hd (rowOr_markAllDirty dirty (by omega))
  confined := hconf
  covers := by
    obtain ⟨active, hactive⟩ := hact
    rw [hactive]
    exact buildActiveTiles_covers _ _

theorem Ready.reseed {m : Machine} (h : Ready m) (i : Input) : Ready (reseedBoard i m) := by
  have hvdp : (reseedBoard i m).vdp = m.vdp := by
    unfold reseedBoard
    split_ifs <;> rfl
  refine ready_of_marked ?_ ?_ ⟨_, rfl⟩ ⟨_, rfl⟩
  · rw [hvdp]
    exact h.rest
  · rw [hvdp]
    exact h.confined

theorem Ready.readKey {m : Machine} (h : Ready m) (i : Input) : Ready (readKey i m) := by
  have hprev : Ready { m with debugKeyPrev := i.scan.setWidth 8 } :=
    h.recoloured (Recoloured.of_eq rfl rfl rfl rfl rfl)
  simp only [Main2x.readKey]
  split_ifs
  · rcases handleKey_cases i (i.scan.setWidth 8) { m with debugKeyPrev := i.scan.setWidth 8 }
      with hr | ⟨m', hr, heq⟩
    · exact hprev.recoloured hr
    · rw [heq]
      exact (hprev.recoloured hr).reseed i
  · exact hprev

/-- Drawing the dirty rows completes the image. -/
theorem Ready.draw {m : Machine} (h : Ready m) : Shows m.draw := by
  have hw := writes_dirtyPatterns m.tables.dirty m.curBoard
  refine ⟨hw.stays h.rest, fun a ha => ?_, fun a ha => ?_, h.covers⟩
  · by_cases hd : rowOr m.tables.dirty (a / 256) ≠ 0#16
    · exact congrArg Prod.fst (hw.written h.rest ⟨ha, hd⟩)
    · have hk := congrArg Prod.fst (hw.kept h.rest fun hp => hd hp.2 : _ = m.vdp.cellAt a)
      exact hk.trans (h.clean a ha (not_not.1 hd))
  · by_cases hp : InPatternTable a
    · exact Or.inl hp
    · have hk := congrArg Prod.snd (hw.kept h.rest fun hq => hp hq.1 : _ = m.vdp.cellAt a)
      exact h.confined a (hk.symm.trans ha)

theorem swapAndStep_curBoard (m : Machine) : (swapAndStep m).curBoard =
    (stepBoard m.curBoard (m.boards m.cur.other) m.tables m.active).dst := if_pos rfl

/-- The swap and the step leave only dirty rows to draw. -/
theorem Shows.step {m : Machine} (h : Shows m) : Ready (swapAndStep m) := by
  have hr := stepBoard_right (m.boards m.cur.other) m.tables h.covers
  have hcur := swapAndStep_curBoard m
  refine ⟨h.rest, fun a ha hd => ?_, h.confined, ?_⟩
  · have ha' : a < 0x1800 := ha
    have h24 : tilesH = 24 := rfl
    have h32 : tilesW = 32 := rfl
    have htx : a % 256 / 8 < tilesW := by omega
    have hsame : ¬ TileDiffers 4 (cell (swapAndStep m).curBoard) (cell m.curBoard)
        (a / 256) (a % 256 / 8) := by
      intro hdiff
      rw [hcur] at hdiff
      have hone := (hr.dirty (a / 256) (by omega) _ htx).1 hdiff
      refine (rowOr_ne_zero _ _).2 ⟨_, htx, ?_⟩ hd
      exact ne_of_eq_of_ne hone (by decide)
    have himg : m.vdp.vram a = patternByte m.curBoard a := h.image a ha
    rw [patternByte, tileNibble_congr htx (by omega) hsame]
    exact himg
  · rw [hcur]
    exact hr.covers

/-- What an iteration does before it draws, after the keys. -/
theorem overlay_recoloured (m : Machine) :
    let m1 := if m.debugDirtyEnabled ≠ 0#8 then vdpDebugDirtyUpdate m else m
    Recoloured m (if m1.debugSnapshotPending ≠ 0#8 then vdpDebugCleanSnapshotClear m1 else m1) := by
  intro m1
  have h1 : Recoloured m m1 := by
    simp only [m1]
    split_ifs
    · exact debugDirtyUpdate_recoloured m
    · exact Recoloured.refl m
  refine h1.trans ?_
  split_ifs
  · exact debugCleanSnapshotClear_recoloured m1
  · exact Recoloured.refl m1

theorem Shows.iterate {m : Machine} (h : Shows m) (i : Input) : Shows (iterate m i) :=
  (((h.step.recoloured (readFrame_recoloured i _)).readKey i).recoloured
    (overlay_recoloured _)).draw

/-! ## Whole runs -/

theorem mainInit_curBoard (m : Machine) (seed : Board) (rng : Word) :
    (mainInit m seed rng).curBoard = seed := curBoard_setCurBoard m seed

theorem setUp_ready (m : Machine) (seed : Board) (rng : Word) : Ready (setUp m seed rng) := by
  -- `vdp_disable_sprites` ends with a data write
  refine ready_of_marked rfl (fun a ha => ?_) ⟨_, rfl⟩ ⟨_, rfl⟩
  cases ha

theorem Shows.displayOn {m : Machine} (h : Shows m) : Shows m.displayOn := by
  obtain ⟨hrest, hcells⟩ := vdpSetRegister_atRest 1#8 0xE0#8 rfl h.rest
  refine ⟨hrest, fun a ha => ?_, fun a ha => ?_, h.covers⟩
  · exact (congrArg Prod.fst (congrFun hcells a)).trans (h.image a ha)
  · exact h.confined a ((congrArg Prod.snd (congrFun hcells a)).symm.trans ha)

theorem mainInit_shows (m : Machine) (seed : Board) (rng : Word) :
    Shows (mainInit m seed rng) := (setUp_ready m seed rng).draw.displayOn

theorem runMain_append (vram : Nat → Byte) (seed : Board) (rng : Word) (is : List Input)
    (i : Input) : runMain vram seed rng (is ++ [i]) = iterate (runMain vram seed rng is) i := by
  rw [runMain, List.foldl_append, List.foldl_cons, List.foldl_nil, runMain]

theorem runMain_shows (vram : Nat → Byte) (seed : Board) (rng : Word) (inputs : List Input) :
    Shows (runMain vram seed rng inputs) := by
  induction inputs using List.reverseRecOn with
  | nil => exact mainInit_shows (boot vram) seed rng
  | append_singleton is i ih =>
    rw [runMain_append]
    exact ih.iterate i

/-- No key is down. -/
def Input.Quiet (i : Input) : Prop := i.scan.setWidth 8 = 0#8

theorem iterate_quiet (m : Machine) {i : Input} (hi : i.Quiet) :
    (iterate m i).curBoard = (swapAndStep m).curBoard := by
  have hkey : ∀ m, Recoloured m (readKey i m) := fun m => by
    have h0 : i.scan.setWidth 8 = 0#8 := hi
    rw [readKey, h0, if_neg (fun h => h.1 rfl)]
    exact Recoloured.of_eq rfl rfl rfl rfl rfl
  exact (((readFrame_recoloured i (swapAndStep m)).trans (hkey _)).trans
    (overlay_recoloured _)).curBoard

theorem runMain_quiet (vram : Nat → Byte) (seed : Board) (rng : Word) (inputs : List Input)
    (hq : ∀ i ∈ inputs, i.Quiet) {y x : Nat} (hy : y < cellH) (hx : x < cellW) :
    cell (runMain vram seed rng inputs).curBoard y x =
      (conway cellW cellH)^[inputs.length] (cell seed) y x := by
  induction inputs using List.reverseRecOn generalizing y x with
  | nil => exact congrArg (cell · y x) (mainInit_curBoard (boot vram) seed rng)
  | append_singleton is i ih =>
    have hprev := fun y (hy : y < cellH) x (hx : x < cellW) =>
      ih (fun j hj => hq j (List.mem_append_left [i] hj)) hy hx
    have hi : i.Quiet := hq i (List.mem_append_right is (List.mem_singleton_self i))
    have hshow := runMain_shows vram seed rng is
    rw [runMain_append, iterate_quiet _ hi, swapAndStep_curBoard,
      (stepBoard_right _ _ hshow.covers).board y hy x hx, List.length_append,
      List.length_singleton, Function.iterate_succ_apply']
    exact conway_congr hprev hy hx

/-- The engine is Conway's rule: `step_board` on any board its active tiles
cover, `build_active_tiles` on any board, and the loop of `main` on any seed. -/
theorem engine_is_conway :
    (∀ (src dst : Board) (t : Tables) (active : Tiles),
      Covers tilesH tilesW active (TileLive 4 (cell src)) →
        StepRight src (stepBoard src dst t active)) ∧
    (∀ (b : Board) (active : Tiles),
      Covers tilesH tilesW (buildActiveTiles b active) (TileLive 4 (cell b))) ∧
    (∀ (vram : Nat → Byte) (seed : Board) (rng : Word) (inputs : List Input),
      (∀ i ∈ inputs, i.Quiet) → ∀ y < cellH, ∀ x < cellW,
        cell (runMain vram seed rng inputs).curBoard y x =
          (conway cellW cellH)^[inputs.length] (cell seed) y x) := by
  refine ⟨fun src dst t active hc => stepBoard_right dst t hc, buildActiveTiles_covers, ?_⟩
  intro vram seed rng inputs hq y hy x hx
  exact runMain_quiet vram seed rng inputs hq hy hx

/-- Three cells in a row at the left edge, with one over the edge. -/
def blinker : Board := fun y x =>
  if y = 40 ∧ x = 0 then 0xC0#8 else if y = 40 ∧ x = 15 then 0x01#8 else 0#8

def noKey : Input := ⟨0#8, 0#16, fun _ _ => 0#8, 0#16⟩

/-- After one iteration the blinker stands upright. -/
theorem blinker_turns :
    (∀ y < cellH, ∀ x < cellW,
      cell (runMain (fun _ => 0#8) blinker 0#16 [noKey]).curBoard y x =
        conway cellW cellH (cell blinker) y x) ∧
    conway cellW cellH (cell blinker) 39 0 = true ∧
    conway cellW cellH (cell blinker) 40 127 = false := by
  refine ⟨?_, by decide, by decide⟩
  exact engine_is_conway.2.2 (fun _ => 0#8) blinker 0#16 [noKey]
    fun i hi => by rw [List.mem_singleton.1 hi]; rfl

/-- After every iteration, whatever keys are pressed, the pattern table is the
image of the current board at twice the size, byte for byte what drawing every
tile would leave there, and the loop has written to the pattern and colour
tables only. -/
theorem display_shows_board (vram : Nat → Byte) (seed : Board) (rng : Word)
    (inputs : List Input) :
    (∀ ty < tilesH, ∀ tx < tilesW, ∀ k < 4,
      (runMain vram seed rng inputs).vdp.vram (ty * 256 + tx * 8 + 2 * k) =
        expand4 (tileNibble (runMain vram seed rng inputs).curBoard (4 * ty + k) tx) ∧
      (runMain vram seed rng inputs).vdp.vram (ty * 256 + tx * 8 + 2 * k + 1) =
        expand4 (tileNibble (runMain vram seed rng inputs).curBoard (4 * ty + k) tx)) ∧
    (∀ d : Vdp, d.AtRest → ∀ a, InPatternTable a →
      (runMain vram seed rng inputs).vdp.vram a =
        (drawEveryTile (runMain vram seed rng inputs).curBoard d).vram a) ∧
    (∀ a, (runMain vram seed rng inputs).vdp.written a = true →
      InPatternTable a ∨ InColorTable a) := by
  have h := runMain_shows vram seed rng inputs
  generalize runMain vram seed rng inputs = m at h ⊢
  refine ⟨fun ty hy tx hx k hk => ?_, fun d hd a ha => ?_, h.confined⟩
  · have h24 : tilesH = 24 := rfl
    have h32 : tilesW = 32 := rfl
    have hin : ∀ e < 2, InPatternTable (ty * 256 + tx * 8 + 2 * k + e) := fun e he => by
      show ty * 256 + tx * 8 + 2 * k + e < 0x1800
      omega
    have hbyte := fun e he => (h.image _ (hin e he)).trans (patternByte_at m.curBoard ty hx hk he)
    have h0 := hbyte 0 (by decide)
    rw [Nat.add_zero] at h0
    exact ⟨h0, hbyte 1 (by decide)⟩
  · have hw : (drawEveryTile m.curBoard d).vram a = patternByte m.curBoard a :=
      congrArg Prod.fst ((writes_everyTile m.curBoard).written hd ha)
    rw [h.image a ha, hw]

end LlvmTms9900.Life.Main2x
