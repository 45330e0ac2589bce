import LlvmTms9900.Life.Region
import LlvmTms9900.Life.Vdp

/-!
# The main loop of the Life cartridge (cart_example/life.c)

The screen is drawn once, the frame around the region and the region itself;
after that only the tiles of the region that a step marked dirty are drawn.
-/

namespace LlvmTms9900.Life.RegionRun
open LlvmTms9900.Isa LlvmTms9900.Arith LlvmTms9900.Life LlvmTms9900.Life.Region

/-- The static variables; `next` is the buffer that `cur` is not. -/
structure Machine where
  boards : Buffer → Board
  cur : Buffer
  active : Tiles
  tables : Tables
  vdp : Vdp

def Machine.curBoard (m : Machine) : Board := m.boards m.cur

def regionX0 : Nat := 16
def regionX1 : Nat := 239

/-! ## Drawing -/

/-- `vdp_write_tile`. -/
def vdpWriteTile (tileRow tileCol : Nat) (b : Board) (d : Vdp) : Vdp :=
  forUpto 0 8 (fun rowInChar d => vdpData (b (tileRow <<< 3 + rowInChar) tileCol) d)
    (vdpSetWriteAddr (tileAddr patternTableAddr tileRow tileCol) d)

/-- `vdp_write_border_patterns`. -/
def vdpWriteBorderPatterns (b : Board) (d : Vdp) : Vdp :=
  let top := if 23 < (regionY0 - 1) >>> 3 then 0 else (regionY0 - 1) >>> 3
  let bottom := if 23 < (regionY1 + 1) >>> 3 then 23 else (regionY1 + 1) >>> 3
  let left := if 31 < (regionX0 - 1) >>> 3 then 0 else (regionX0 - 1) >>> 3
  let right := if 31 < (regionX1 + 1) >>> 3 then 31 else (regionX1 + 1) >>> 3
  let d := forUpto left (right + 1) (fun tileCol d =>
    vdpWriteTile bottom tileCol b (vdpWriteTile top tileCol b d)) d
  forUpto top (bottom + 1) (fun tileRow d =>
    vdpWriteTile tileRow right b (vdpWriteTile tileRow left b d)) d

/-- `vdp_write_patterns`. -/
def vdpWritePatterns (b : Board) (d : Vdp) : Vdp :=
  forUpto (regionY0 >>> 3) (regionY1 >>> 3 + 1) (fun tileRow =>
    forUpto (regionX0 >>> 3) (regionX1 >>> 3 + 1) (fun tileCol d =>
      vdpWriteTile tileRow tileCol b d)) d

/-- `vdp_write_dirty_patterns`. -/
def vdpWriteDirtyPatterns (dirty : Tiles) (b : Board) (d : Vdp) : Vdp :=
  forUpto 0 tilesH (fun ty => forUpto 0 tilesW (fun tx d =>
    if dirty ty tx ≠ 0#8 then vdpWriteTile (regionY0 >>> 3 + ty) (regionX0 >>> 3 + tx) b d
    else d)) d

/-- `(COLOR_BORDER << 4) | (COLOR_BG & 0x0F)`. -/
def colorBorder : Byte := 0xB1#8

/-- `vdp_apply_border_colors`. -/
def vdpApplyBorderColors (d : Vdp) : Vdp :=
  let left := (regionX0 - 1) >>> 3
  let right := (regionX1 + 1) >>> 3
  let top := (regionY0 - 1) >>> 3
  let bottom := (regionY1 + 1) >>> 3
  let d := forUpto left (right + 1) (fun tileX d =>
    vdpSetTileColor bottom tileX colorBorder (vdpSetTileColor top tileX colorBorder d)) d
  forUpto top (bottom + 1) (fun tileY d =>
    vdpSetTileColor tileY right colorBorder (vdpSetTileColor tileY left colorBorder d)) d

/-! ## main -/

/-- `main` up to its loop, with the outcome of `seed_board`. -/
def mainInit (m : Machine) (seed : Board) : Machine :=
  let d := vdpInitGfx2 m.vdp
  let d := vdpClearPatternTable d
  let d := vdpInitNameTable d
  let d := vdpInitColorTable d
  let d := vdpApplyBorderColors d
  let d := vdpDisableSprites d
  let boards := fun x => if x = m.cur then seed else m.boards x
  let active := buildActiveTiles (boards m.cur) m.active
  let d := vdpWriteBorderPatterns (boards m.cur) d
  let d := vdpWritePatterns (boards m.cur) d
  ⟨boards, m.cur, active, m.tables, vdpDisplayOn d⟩

/-- `step_board(next, cur)` after the boards have changed places. -/
def Machine.stepped (m : Machine) : Stepped :=
  stepBoard m.curBoard (m.boards m.cur.other) m.tables m.active

/-- One iteration of the loop in `main`. -/
def iterate (m : Machine) : Machine where
  boards := fun x => if x = m.cur.other then m.stepped.dst else m.boards x
  cur := m.cur.other
  active := m.stepped.active
  tables := m.stepped.tables
  vdp := vdpWriteDirtyPatterns m.stepped.tables.dirty m.stepped.dst m.vdp

/-! ## What the drawing functions write -/

/-- The byte of the pattern table that shows the board at address `a`. -/
def patternByte (b : Board) (a : Nat) : Byte := b (8 * (a / 256) + a % 8) (a % 256 / 8)

/-- The addresses of the tiles of the region. -/
def InRegionTile (a : Nat) : Prop :=
  (2 ≤ a / 256 ∧ a / 256 < 22) ∧ 2 ≤ a % 256 / 8 ∧ a % 256 / 8 < 30

/-- The addresses of the tiles of the frame around it. -/
def InBorderTile (a : Nat) : Prop :=
  ((a / 256 = 1 ∨ a / 256 = 22) ∧ 1 ≤ a % 256 / 8 ∧ a % 256 / 8 ≤ 30) ∨
    (1 ≤ a / 256 ∧ a / 256 ≤ 22) ∧ (a % 256 / 8 = 1 ∨ a % 256 / 8 = 30)

theorem writes_tile (b : Board) {r c : Nat} (hr : r < 24) (hc : c < 32) :
    Writes Vdp.AtRest Vdp.cellAt (fun a => a / 256 = r ∧ a % 256 / 8 = c) (drawn (patternByte b))
      (vdpWriteTile r c b) := by
  have hv : vramSize = 0x4000 := rfl
  have hshift : r <<< 3 = 8 * r := by rw [Nat.shiftLeft_eq]; omega
  have haddr : tileAddr patternTableAddr r c = r * 256 + c * 8 := by
    rw [tileAddr_eq patternTableAddr hr hc]
    exact congrArg (· + c * 8) (Nat.zero_add _)
  have h : StreamsTo (patternByte b) (r * 256 + c * 8) (8 * 1)
      (forUpto 0 8 fun k d => vdpData (b (r <<< 3 + k) c) d) := by
    refine StreamsTo.forUpto fun k hk => streamsTo_data ?_ (by omega)
    have h1 : (r * 256 + c * 8 + k * 1) / 256 = r := by omega
    have h2 : (r * 256 + c * 8 + k * 1) % 8 = k := by omega
    have h3 : (r * 256 + c * 8 + k * 1) % 256 / 8 = c := by omega
    rw [patternByte, h1, h2, h3, hshift]
  have hw := h.writes (by omega)
  rw [← haddr] at hw
  refine hw.congr (fun a => ?_) fun _ _ => rfl
  rw [haddr]
  constructor <;> intro ha <;> omega

theorem writes_borderPatterns (b : Board) :
    Writes Vdp.AtRest Vdp.cellAt InBorderTile (drawn (patternByte b))
      (vdpWriteBorderPatterns b) := by
  have hrows := Writes.forUpto 1 31 fun c _ hc =>
    (writes_tile b (r := 1) (c := c) (by decide) (by omega)).comp
      (writes_tile b (r := 22) (c := c) (by decide) (by omega))
  have hcols := Writes.forUpto 1 23 fun r _ hr =>
    (writes_tile b (r := r) (c := 1) (by omega) (by decide)).comp
      (writes_tile b (r := r) (c := 30) (by omega) (by decide))
  refine (hrows.comp hcols).congr (fun a => ?_) fun _ _ => rfl
  constructor
  · rintro (⟨hr | hr, h1, h2⟩ | ⟨⟨h1, h2⟩, hc | hc⟩)
    · exact Or.inl ⟨a % 256 / 8, h1, by omega, Or.inl ⟨hr, rfl⟩⟩
    · exact Or.inl ⟨a % 256 / 8, h1, by omega, Or.inr ⟨hr, rfl⟩⟩
    · exact Or.inr ⟨a / 256, h1, by omega, Or.inl ⟨rfl, hc⟩⟩
    · exact Or.inr ⟨a / 256, h1, by omega, Or.inr ⟨rfl, hc⟩⟩
  · rintro (⟨c, h1, h2, ⟨hr, hc⟩ | ⟨hr, hc⟩⟩ | ⟨r, h1, h2, ⟨hr, hc⟩ | ⟨hr, hc⟩⟩)
    · exact Or.inl ⟨Or.inl hr, by omega, by omega⟩
    · exact Or.inl ⟨Or.inr hr, by omega, by omega⟩
    · exact Or.inr ⟨⟨by omega, by omega⟩, Or.inl hc⟩
    · exact Or.inr ⟨⟨by omega, by omega⟩, Or.inr hc⟩

theorem writes_patterns (b : Board) :
    Writes Vdp.AtRest Vdp.cellAt InRegionTile (drawn (patternByte b)) (vdpWritePatterns b) := by
  have h := Writes.forUpto 2 22 fun r _ hr => Writes.forUpto 2 30 fun c _ hc =>
    writes_tile b (r := r) (c := c) (by omega) (by omega)
  refine h.congr (fun a => ?_) fun _ _ => rfl
  constructor
  · rintro ⟨⟨h1, h2⟩, h3, h4⟩
    exact ⟨a / 256, h1, h2, a % 256 / 8, h3, h4, rfl, rfl⟩
  · rintro ⟨r, h1, h2, c, h3, h4, rfl, rfl⟩
    exact ⟨⟨h1, h2⟩, h3, h4⟩

theorem writes_dirtyPatterns (dirty : Tiles) (b : Board) :
    Writes Vdp.AtRest Vdp.cellAt
      (fun a => InRegionTile a ∧ dirty (a / 256 - 2) (a % 256 / 8 - 2) ≠ 0#8)
      (drawn (patternByte b)) (vdpWriteDirtyPatterns dirty b) := by
  have h20 : tilesH = 20 := rfl
  have h28 : tilesW = 28 := rfl
  have h := Writes.forUpto 0 tilesH fun ty _ hty => Writes.forUpto 0 tilesW fun tx _ htx =>
    (writes_tile b (r := 2 + ty) (c := 2 + tx) (by omega) (by omega)).guard
      (c := dirty ty tx ≠ 0#8)
  refine h.congr (fun a => ?_) fun _ _ => rfl
  constructor
  · rintro ⟨⟨⟨h1, h2⟩, h3, h4⟩, hd⟩
    exact ⟨a / 256 - 2, Nat.zero_le _, by omega, a % 256 / 8 - 2, Nat.zero_le _, by omega, hd,
      by omega, by omega⟩
  · rintro ⟨ty, -, hty, tx, -, htx, hd, hr, hc⟩
    refine ⟨⟨⟨by omega, by omega⟩, by omega, by omega⟩, ?_⟩
    rwa [show a / 256 - 2 = ty by omega, show a % 256 / 8 - 2 = tx by omega]

/-! ## The invariant of the loop -/

/-- The region shows the current board, the frame the board `seed`. -/
structure Shows (seed : Board) (m : Machine) : Prop where
  rest : m.vdp.AtRest
  image : ∀ a, InRegionTile a → m.vdp.vram a = patternByte m.curBoard a
  border : ∀ a, InBorderTile a → m.vdp.vram a = patternByte seed a
  covers : Covers tilesH tilesW m.active (TileLive 8 (lifeCell m.curBoard))

theorem not_inRegionTile {a : Nat} (h : InBorderTile a) : ¬ InRegionTile a := by
  rintro ⟨⟨h1, h2⟩, h3, h4⟩
  rcases h with ⟨hr, -⟩ | ⟨-, hc⟩ <;> omega

theorem mainInit_curBoard (m : Machine) (seed : Board) : (mainInit m seed).curBoard = seed :=
  if_pos rfl

theorem mainInit_shows (m : Machine) (seed : Board) : Shows seed (mainInit m seed) := by
  have hcur := mainInit_curBoard m seed
  have hboards : (fun x => if x = m.cur then seed else m.boards x) m.cur = seed := if_pos rfl
  obtain ⟨d, hd, hvdp⟩ : ∃ d : Vdp, d.AtRest ∧ (mainInit m seed).vdp =
      vdpDisplayOn (vdpWritePatterns seed (vdpWriteBorderPatterns seed d)) := by
    -- `vdp_disable_sprites` ends with a data write
    refine ⟨vdpDisableSprites (vdpApplyBorderColors (vdpInitColorTable (vdpInitNameTable
      (vdpClearPatternTable (vdpInitGfx2 m.vdp))))), rfl, ?_⟩
    simp only [mainInit, if_true]
  have hb := (writes_borderPatterns seed).stays hd
  have hp := (writes_patterns seed).stays hb
  obtain ⟨hrest, hcells⟩ := vdpSetRegister_atRest 1#8 0xE0#8 rfl hp
  have hcells' : ∀ a, (mainInit m seed).vdp.vram a =
      (vdpWritePatterns seed (vdpWriteBorderPatterns seed d)).vram a := fun a => by
    rw [hvdp]
    exact congrArg Prod.fst (congrFun hcells a)
  refine ⟨hvdp ▸ hrest, fun a ha => ?_, fun a ha => ?_, ?_⟩
  · rw [hcells', hcur]
    exact congrArg Prod.fst ((writes_patterns seed).written hb ha)
  · rw [hcells']
    have hkept := (writes_patterns seed).kept hb (not_inRegionTile ha)
    exact congrArg Prod.fst (hkept.trans ((writes_borderPatterns seed).written hd ha))
  · rw [hcur]
    simp only [mainInit, if_true]
    exact buildActiveTiles_covers seed m.active

theorem iterate_curBoard (m : Machine) : (iterate m).curBoard = m.stepped.dst := if_pos rfl

theorem iterate_vdp (m : Machine) : (iterate m).vdp =
    vdpWriteDirtyPatterns m.stepped.tables.dirty m.stepped.dst m.vdp := rfl

/-- A tile that the step did not mark shows what it showed before. -/
theorem patternByte_clean {src dst : Board} {r : Stepped} (hr : StepRight src dst r) {a : Nat}
    (ha : InRegionTile a) (hd : r.tables.dirty (a / 256 - 2) (a % 256 / 8 - 2) = 0#8) :
    patternByte r.dst a = patternByte src a := by
  obtain ⟨⟨h1, h2⟩, h3, h4⟩ := ha
  have h20 : tilesH = 20 := rfl
  have h28 : tilesW = 28 := rfl
  have hy : regionY0 + (8 * (a / 256 - 2) + a % 8) = 8 * (a / 256) + a % 8 := by
    have h16 : regionY0 = 16 := rfl
    omega
  have hx : regionByteX0 + (a % 256 / 8 - 2) = a % 256 / 8 := by
    have h2 : regionByteX0 = 2 := rfl
    omega
  have hsame := hr.clean (a / 256 - 2) (by omega) (a % 256 / 8 - 2) (by omega) hd (a % 8)
    (by omega)
  rw [hy, hx] at hsame
  exact hsame

theorem Shows.iterate {seed : Board} {m : Machine} (h : Shows seed m) : Shows seed (iterate m) := by
  have hr : StepRight m.curBoard (m.boards m.cur.other) m.stepped := stepBoard_right _ _ h.covers
  have hw := writes_dirtyPatterns m.stepped.tables.dirty m.stepped.dst
  refine ⟨?_, fun a ha => ?_, fun a ha => ?_, ?_⟩
  · rw [iterate_vdp]
    exact hw.stays h.rest
  · rw [iterate_vdp, iterate_curBoard]
    by_cases hd : m.stepped.tables.dirty (a / 256 - 2) (a % 256 / 8 - 2) = 0#8
    · have hkept := congrArg Prod.fst (hw.kept h.rest fun hp => hp.2 hd : _ = m.vdp.cellAt a)
      rw [patternByte_clean hr ha hd]
      exact hkept.trans (h.image a ha)
    · exact congrArg Prod.fst (hw.written h.rest ⟨ha, hd⟩)
  · have hkept := congrArg Prod.fst
      (hw.kept h.rest fun hp => not_inRegionTile ha hp.1 : _ = m.vdp.cellAt a)
    rw [iterate_vdp]
    exact hkept.trans (h.border a ha)
  · rw [iterate_curBoard]
    exact hr.covers

/-- Outside the region both boards stay as they are. -/
theorem iterate_outside (m : Machine) (buf : Buffer) {y x : Nat} (h : ¬ InRegion y x) :
    (iterate m).boards buf y x = m.boards buf y x := by
  by_cases hb : buf = m.cur.other
  · have hdst : (iterate m).boards buf = m.stepped.dst := if_pos hb
    rw [hdst, hb]
    exact stepBoard_outside m.curBoard (m.boards m.cur.other) m.tables m.active h
  · have hsrc : (iterate m).boards buf = m.boards buf := if_neg hb
    rw [hsrc]

section Run
variable (m : Machine) (seed : Board)

theorem run_shows (n : Nat) : Shows seed (iterate^[n] (mainInit m seed)) := by
  induction n with
  | zero => exact mainInit_shows m seed
  | succ n ih =>
    rw [Function.iterate_succ_apply']
    exact ih.iterate

theorem run_conway (n : Nat) : ∀ y < regionH, ∀ x < regionW,
    lifeCell (iterate^[n] (mainInit m seed)).curBoard y x =
      (conway regionW regionH)^[n] (lifeCell seed) y x := by
  induction n with
  | zero => exact fun y _ x _ => congrArg (lifeCell · y x) (mainInit_curBoard m seed)
  | succ n ih =>
    intro y hy x hx
    have hr := stepBoard_right ((iterate^[n] (mainInit m seed)).boards
      (iterate^[n] (mainInit m seed)).cur.other) (iterate^[n] (mainInit m seed)).tables
      (run_shows m seed n).covers
    rw [Function.iterate_succ_apply', Function.iterate_succ_apply', iterate_curBoard]
    exact (hr.region y hy x hx).trans (conway_congr ih hy hx)

theorem run_outside (n : Nat) (buf : Buffer) {y x : Nat} (h : ¬ InRegion y x) :
    (iterate^[n] (mainInit m seed)).boards buf y x = (mainInit m seed).boards buf y x := by
  induction n with
  | zero => rfl
  | succ n ih =>
    rw [Function.iterate_succ_apply', iterate_outside _ buf h]
    exact ih

/-- From any boards, tables and display, and for any board that the seeding
leaves, after any number of iterations: the region is Conway's iterate on its
torus, both boards are as they were outside it, every tile of the region shows
the current board, and the frame still shows the board of the start. -/
theorem region_run (n : Nat) :
    (∀ y < regionH, ∀ x < regionW, lifeCell (iterate^[n] (mainInit m seed)).curBoard y x =
      (conway regionW regionH)^[n] (lifeCell seed) y x) ∧
    (∀ buf y x, ¬ InRegion y x →
      (iterate^[n] (mainInit m seed)).boards buf y x = (mainInit m seed).boards buf y x) ∧
    (∀ r c k, 2 ≤ r → r ≤ 21 → 2 ≤ c → c ≤ 29 → k < 8 →
      (iterate^[n] (mainInit m seed)).vdp.vram (r * 256 + c * 8 + k) =
        (iterate^[n] (mainInit m seed)).curBoard (8 * r + k) c) ∧
    (∀ r c k, (((r = 1 ∨ r = 22) ∧ 1 ≤ c ∧ c ≤ 30) ∨ (1 ≤ r ∧ r ≤ 22) ∧ (c = 1 ∨ c = 30)) →
      k < 8 → (iterate^[n] (mainInit m seed)).vdp.vram (r * 256 + c * 8 + k) =
        seed (8 * r + k) c) := by
  have h := run_shows m seed n
  have hdiv : ∀ r c k : Nat, c < 32 → k < 8 → (r * 256 + c * 8 + k) / 256 = r ∧
      (r * 256 + c * 8 + k) % 256 / 8 = c ∧ (r * 256 + c * 8 + k) % 8 = k :=
    fun r c k hc hk => ⟨by omega, by omega, by omega⟩
  refine ⟨run_conway m seed n, fun buf y x => run_outside m seed n buf, ?_, ?_⟩
  · intro r c k h1 h2 h3 h4 hk
    obtain ⟨hr, hc, hm⟩ := hdiv r c k (by omega) hk
    rw [h.image _ (by rw [InRegionTile, hr, hc]; omega), patternByte, hr, hc, hm]
  · intro r c k hborder hk
    obtain ⟨hr, hc, hm⟩ := hdiv r c k (by omega) hk
    rw [h.border _ (by rw [InBorderTile, hr, hc]; exact hborder), patternByte, hr, hc, hm]

end Run
end LlvmTms9900.Life.RegionRun
