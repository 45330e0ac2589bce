import LlvmTms9900.Life.Engine2x
import LlvmTms9900.Life.Vdp

/-!
# The main loop of the 2x Life cartridge (cart_example/life2_2x.c)

Two boards change places every iteration. After the step the keyboard is read:
keys reseed the board or switch a colour overlay of the dirty tiles. At the end
the rows with a dirty tile are drawn.
-/

namespace LlvmTms9900.Life.Main2x
open LlvmTms9900.Isa LlvmTms9900.Arith LlvmTms9900.Life LlvmTms9900.Life.Engine2x

/-- The static variables; `next` is the buffer that `cur` is not. -/
structure Machine where
  boards : Buffer → Board
  cur : Buffer
  active : Tiles
  tables : Tables
  dirtyPrev : Tiles
  debugDirtyEnabled : Byte
  debugSnapshotPending : Byte
  debugKeyPrev : Byte
  entropy : Word
  rngState : Word
  seedDensity : Byte
  framePrev : Byte
  vdp : Vdp

def Machine.curBoard (m : Machine) : Board := m.boards m.cur

/-- What an iteration reads from outside: the frame counter, the key, and, for
a key that reseeds, what `seed_board` leaves in the board and in `rng_state`. -/
structure Input where
  frame : Byte
  scan : Word
  seed : Board
  rng : Word

/-! ## Drawing -/

/-- `expand4`: every cell twice. -/
def expand4 (nibble : Byte) : Byte :=
  [0x00#8, 0x03#8, 0x0C#8, 0x0F#8, 0x30#8, 0x33#8, 0x3C#8, 0x3F#8,
    0xC0#8, 0xC3#8, 0xCC#8, 0xCF#8, 0xF0#8, 0xF3#8, 0xFC#8, 0xFF#8].getD nibble.toNat 0#8

/-- `vdp_write_tile_scaled`. -/
def vdpWriteTileScaled (ty tx tileRowStart tileColStart : Nat) (b : Board) (d : Vdp) : Vdp :=
  let addr := tileAddr patternTableAddr (tileRowStart + ty) (tileColStart + tx)
  forUpto 0 4 (fun row d =>
    let expanded := expand4 (tileNibble b (ty <<< 2 + row) tx)
    vdpData expanded (vdpData expanded d)) (vdpSetWriteAddr addr d)

/-- `e = expand4[n]; vdp_data(e); vdp_data(e);` -/
def vdpPair (n : Byte) (d : Vdp) : Vdp := vdpData (expand4 n) (vdpData (expand4 n) d)

/-- `life2_2x.c:699-721`: the two tiles of a byte column. -/
def vdpTilePair (b : Board) (cellY byteIdx : Nat) (d : Vdp) : Vdp :=
  let v0 := b cellY byteIdx
  let v1 := b (cellY + 1) byteIdx
  let v2 := b (cellY + 2) byteIdx
  let v3 := b (cellY + 3) byteIdx
  let d := vdpPair (v0 >>> 4) d
  let d := vdpPair (v1 >>> 4) d
  let d := vdpPair (v2 >>> 4) d
  let d := vdpPair (v3 >>> 4) d
  let d := vdpPair (v0 &&& 0x0F#8) d
  let d := vdpPair (v1 &&& 0x0F#8) d
  let d := vdpPair (v2 &&& 0x0F#8) d
  vdpPair (v3 &&& 0x0F#8) d

/-- `vdp_write_dirty_patterns`; the state is `vdp_addr` and the display. -/
def vdpWriteDirtyPatterns (dirty : Tiles) (b : Board) (d : Vdp) : Vdp :=
  (forUpto 0 tilesH (fun ty (s : Nat × Vdp) =>
    if rowOr dirty ty = 0#16 then (s.1 + 256, s.2)
    else (s.1 + 256,
      forUpto 0 cellRowBytes (fun byteIdx d => vdpTilePair b (ty <<< 2) byteIdx d)
        (vdpSetWriteAddr s.1 s.2))) (patternTableAddr, d)).2

/-- `mark_all_dirty`. -/
def markAllDirty (dirty : Tiles) : Tiles := fill 0 tilesH 0 tilesW 1#8 dirty

/-! ## The debug overlay -/

/-- `(COLOR_DIRTY << 4) | (COLOR_BG & 0x0F)`. -/
def colorDirty : Byte := 0x91#8

/-- `(COLOR_CLEAN << 4) | (COLOR_BG & 0x0F)`. -/
def colorClean : Byte := 0xD1#8

/-- `vdp_debug_dirty_update`; the region covers the whole screen. -/
def vdpDebugDirtyUpdate (m : Machine) : Machine :=
  forUpto 0 tilesH (fun ty => forUpto 0 tilesW (fun tx m =>
    let wasDirty := m.dirtyPrev ty tx
    let isDirty := m.tables.dirty ty tx
    let vdp :=
      if isDirty ≠ 0#8 ∧ wasDirty = 0#8 then vdpSetTileColor ty tx colorDirty m.vdp
      else if isDirty = 0#8 ∧ wasDirty ≠ 0#8 then vdpSetTileColor ty tx colorNormal m.vdp
      else m.vdp
    { m with vdp := vdp, dirtyPrev := setByte m.dirtyPrev ty tx isDirty })) m

/-- `vdp_debug_dirty_clear`. -/
def vdpDebugDirtyClear (m : Machine) : Machine :=
  forUpto 0 tilesH (fun ty => forUpto 0 tilesW (fun tx m =>
    if m.dirtyPrev ty tx ≠ 0#8 then
      { m with
        vdp := vdpSetTileColor ty tx colorNormal m.vdp
        dirtyPrev := setByte m.dirtyPrev ty tx 0#8 }
    else m)) m

def Machine.setSnapshotPending (m : Machine) (v : Byte) : Machine :=
  { m with debugSnapshotPending := v }

/-- `vdp_debug_clean_snapshot`. -/
def vdpDebugCleanSnapshot (m : Machine) : Machine :=
  (forUpto 0 tilesH (fun ty => forUpto 0 tilesW (fun tx (m : Machine) =>
    if m.tables.dirty ty tx ≠ 0#8 then m
    else { m with vdp := vdpSetTileColor ty tx colorClean m.vdp })) m).setSnapshotPending 1#8

/-- `vdp_debug_clean_snapshot_clear`. -/
def vdpDebugCleanSnapshotClear (m : Machine) : Machine :=
  (forUpto 0 tilesH (fun ty => forUpto 0 tilesW (fun tx (m : Machine) =>
    { m with vdp := vdpSetTileColor ty tx colorNormal m.vdp })) m).setSnapshotPending 0#8

/-! ## Keys -/

def Machine.setCurBoard (m : Machine) (b : Board) : Machine :=
  { m with boards := fun x => if x = m.cur then b else m.boards x }

/-- `reseed_board( cur )`, with the outcome of `seed_board` in the input. -/
def reseedBoard (i : Input) (m : Machine) : Machine :=
  let m :=
    if m.entropy ≠ 0#16 then
      let rng := m.rngState ^^^ m.entropy
      { m with rngState := if rng = 0#16 then 0x1D2B#16 else rng }
    else m
  let m := { m.setCurBoard i.seed with rngState := i.rng }
  { m with
    active := buildActiveTiles m.curBoard m.active
    tables := { m.tables with dirty := markAllDirty m.tables.dirty } }

def Machine.toggleDirty (m : Machine) : Machine :=
  { m with debugDirtyEnabled := if m.debugDirtyEnabled = 0#8 then 1#8 else 0#8 }

/-- `life2_2x.c:931-963`: a key that was not down before. -/
def handleKey (i : Input) (key : Byte) (m : Machine) : Machine :=
  if key = 0x44#8 ∨ key = 0x64#8 then -- D
    if m.toggleDirty.debugDirtyEnabled = 0#8 then vdpDebugDirtyClear m.toggleDirty
    else m.toggleDirty
  else if key = 0x46#8 ∨ key = 0x66#8 then -- F
    vdpDebugCleanSnapshot m
  else if 0x31#8 ≤ key ∧ key ≤ 0x39#8 then -- 1 to 9
    let add := (key - 0x30#8).setWidth 16
    let e := m.entropy + add * 0x1111#16
    { m with entropy := e ^^^ ((e <<< 5) ||| (e >>> 11)) }
  else if key = 0x5A#8 ∨ key = 0x7A#8 then -- Z
    reseedBoard i { m with seedDensity := 70#8 }
  else if key = 0x58#8 ∨ key = 0x78#8 then -- X
    reseedBoard i { m with seedDensity := 60#8 }
  else if key = 0x43#8 ∨ key = 0x63#8 then -- C
    reseedBoard i { m with seedDensity := 50#8 }
  else if key = 0x56#8 ∨ key = 0x76#8 then -- V
    reseedBoard i { m with seedDensity := 40#8 }
  else if key = 0x42#8 ∨ key = 0x62#8 then -- B
    reseedBoard i { m with seedDensity := 30#8 }
  else if key = 0x52#8 ∨ key = 0x72#8 then -- R
    reseedBoard i m
  else m

/-! ## main -/

/-- `life2_2x.c:915-918`: the boards change places and the new one is computed. -/
def swapAndStep (m : Machine) : Machine :=
  let cur := m.cur.other
  let r := stepBoard (m.boards m.cur) (m.boards cur) m.tables m.active
  { m with
    cur := cur
    boards := fun x => if x = cur then r.dst else m.boards x
    tables := r.tables
    active := r.active }

/-- `life2_2x.c:920-926`. -/
def readFrame (i : Input) (m : Machine) : Machine :=
  if i.frame ≠ m.framePrev then
    { m with entropy := m.entropy ^^^ (i.frame ++ m.framePrev), framePrev := i.frame }
  else m

/-- `life2_2x.c:928-964`. -/
def readKey (i : Input) (m : Machine) : Machine :=
  let key := i.scan.setWidth 8
  let pressed := key ≠ 0#8 ∧ key ≠ m.debugKeyPrev
  let m := { m with debugKeyPrev := key }
  if pressed then handleKey i key m else m

/-- `vdp_write_dirty_patterns( cur )`. -/
def Machine.draw (m : Machine) : Machine :=
  { m with vdp := vdpWriteDirtyPatterns m.tables.dirty m.curBoard m.vdp }

/-- One iteration of the loop in `main`. -/
def iterate (m : Machine) (i : Input) : Machine :=
  let m := swapAndStep m
  let m := readFrame i m
  let m := readKey i m
  let m := if m.debugDirtyEnabled ≠ 0#8 then vdpDebugDirtyUpdate m else m
  let m := if m.debugSnapshotPending ≠ 0#8 then vdpDebugCleanSnapshotClear m else m
  m.draw

/-- The variables and the display at reset. -/
def boot (vram : Nat → Byte) : Machine where
  boards := fun _ _ _ => 0#8
  cur := .a
  active := fun _ _ => 0#8
  tables := ⟨fun _ _ => 0#8, fun _ _ => 0#8⟩
  dirtyPrev := fun _ _ => 0#8
  debugDirtyEnabled := 0#8
  debugSnapshotPending := 0#8
  debugKeyPrev := 0#8
  entropy := 0#16
  rngState := 0x1D2B#16
  seedDensity := 70#8
  framePrev := 0#8
  vdp := ⟨vram, 0, none, fun _ => 0#8, fun _ => false⟩

/-- `main` up to the first drawing, with the outcome of `seed_board`. The board
fills the screen, so no border is drawn. The history of writes starts here. -/
def setUp (m : Machine) (seed : Board) (rng : Word) : Machine :=
  let d := vdpInitGfx2 m.vdp
  let d := vdpClearPatternTable d
  let d := vdpInitNameTable d
  let d := vdpInitColorTable d
  let d := vdpDisableSprites d
  let m := { m.setCurBoard seed with vdp := { d with written := fun _ => false }, rngState := rng }
  { m with
    active := buildActiveTiles m.curBoard m.active
    tables := { m.tables with dirty := markAllDirty m.tables.dirty } }

def Machine.displayOn (m : Machine) : Machine := { m with vdp := vdpDisplayOn m.vdp }

/-- `main` up to its loop. -/
def mainInit (m : Machine) (seed : Board) (rng : Word) : Machine :=
  (setUp m seed rng).draw.displayOn

/-- The machine after the iterations with the given inputs. -/
def runMain (vram : Nat → Byte) (seed : Board) (rng : Word) (inputs : List Input) : Machine :=
  inputs.foldl iterate (mainInit (boot vram) seed rng)

end LlvmTms9900.Life.Main2x
