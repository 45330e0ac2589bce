import LlvmTms9900.Life.Region

/-!
# The optimised Life engine (cart_example/life2.c)

The same step as in life.c, with the two active tiles of a word tested by one
load, the left and centre words taken from a window that slides along the row,
and the rule in its simplified form. After a word that is skipped the window
does not hold the neighbouring words any more and is loaded again.
-/

namespace LlvmTms9900.Life.RegionWindow
open LlvmTms9900.Isa LlvmTms9900.Arith LlvmTms9900.Life LlvmTms9900.Life.Region

/-- The variables of the row loop. -/
structure RowState where
  win : Window
  needReload : Bool
  work : Work

/-- `life2.c:459-518`. -/
def stepWord (src : Board) (active : Tiles) (y wx : Nat) (s : RowState) : RowState :=
  let ty := (y - regionY0) >>> 3
  let tileX := wx <<< 1
  if getWord active ty tileX = 0#16 then { s with needReload := true }
  else
    let wxLeft := prevIndex regionWords wx
    -- the first word after a gap is loaded, the others slide
    let uL := if s.needReload then rowPrev src y wxLeft else s.win.uC
    let uC := if s.needReload then rowPrev src y wx else s.win.uR
    let mL := if s.needReload then row src y wxLeft else s.win.mC
    let mC := if s.needReload then row src y wx else s.win.mR
    let dL := if s.needReload then rowNext src y wxLeft else s.win.dC
    let dC := if s.needReload then rowNext src y wx else s.win.dR
    let wxRight := nextIndex regionWords wx
    let uR := rowPrev src y wxRight
    let mR := row src y wxRight
    let dR := rowNext src y wxRight
    let out := nextOfNine uL uC uR mL mC mR dL dC dR
    { win := ⟨uC, uR, mC, mR, dC, dR⟩
      needReload := false
      work := putWord y wx out mC s.work }

/-- `life2.c:443-519`: a row. The window is not initialised; `junk` is what the
variables hold when the row is entered. -/
def stepRow (src : Board) (active : Tiles) (junk : Window) (y : Nat) (s : Work) : Work :=
  (forUpto 0 regionWords (stepWord src active y) ⟨junk, true, s⟩).work

/-- `step_board`. -/
def stepBoard (junk : Nat → Window) (src dst : Board) (tables : Tables) (active : Tiles) :
    Stepped :=
  let s := forUpto regionY0 (regionY1 + 1) (fun y => stepRow src active (junk y) y)
    ⟨clearBoardRegion dst, clearTables tilesH tilesW tables⟩
  ⟨s.dst, s.tables, buildActiveFromLive tilesH tilesW s.tables.live active⟩

/-! ## The two engines agree -/

theorem nextOfNine_eq_plain (uL uC uR mL mC mR dL dC dR : Word) :
    nextOfNine uL uC uR mL mC mR dL dC dR =
      lifeNextWordPlain (fromLeft uL uC) uC (fromRight uC uR) (fromLeft mL mC) mC
        (fromRight mC mR) (fromLeft dL dC) dC (fromRight dC dR) :=
  lifeNextWord_eq_plain _ _ _ _ _ _ _ _ _

/-- While nothing was skipped, the window holds the words it stands for. -/
def Tracks (src : Board) (y wx : Nat) (s : RowState) : Prop :=
  s.needReload = false → 0 < wx ∧ (wx < regionWords →
    s.win = windowAt (rowPrev src y) (row src y) (rowNext src y) wx)

theorem stepWord_simulates (src : Board) (active : Tiles) (y : Nat) {wx : Nat}
    (hwx : wx < regionWords) {s : RowState} (ht : Tracks src y wx s) :
    (stepWord src active y wx s).work = Region.stepWord src active y wx s.work ∧
      Tracks src y (wx + 1) (stepWord src active y wx s) := by
  have hskip : getWord active ((y - regionY0) >>> 3) (wx <<< 1) = 0#16 ↔
      active ((y - regionY0) >>> 3) (wx <<< 1) = 0#8 ∧
        active ((y - regionY0) >>> 3) (wx <<< 1 + 1) = 0#8 := by
    have h := not_congr (getWord_ne_zero active ((y - regionY0) >>> 3) (wx <<< 1))
    rwa [not_or, not_not, not_not, not_not] at h
  by_cases h0 : getWord active ((y - regionY0) >>> 3) (wx <<< 1) = 0#16
  · rw [stepWord, if_pos h0, Region.stepWord, if_pos (hskip.1 h0)]
    exact ⟨rfl, fun h => by cases h⟩
  · -- whether loaded or kept, the left and centre words are those of the row
    have hload : (if s.needReload then rowPrev src y (prevIndex regionWords wx) else s.win.uC) =
          rowPrev src y (prevIndex regionWords wx) ∧
        (if s.needReload then rowPrev src y wx else s.win.uR) = rowPrev src y wx ∧
        (if s.needReload then row src y (prevIndex regionWords wx) else s.win.mC) =
          row src y (prevIndex regionWords wx) ∧
        (if s.needReload then row src y wx else s.win.mR) = row src y wx ∧
        (if s.needReload then rowNext src y (prevIndex regionWords wx) else s.win.dC) =
          rowNext src y (prevIndex regionWords wx) ∧
        (if s.needReload then rowNext src y wx else s.win.dR) = rowNext src y wx := by
      cases hn : s.needReload with
      | true => exact ⟨rfl, rfl, rfl, rfl, rfl, rfl⟩
      | false =>
        obtain ⟨hpos, hwin⟩ := ht hn
        have hp : prevIndex regionWords wx = wx - 1 := if_neg (by omega)
        rw [hwin hwx, hp]
        exact ⟨rfl, rfl, rfl, rfl, rfl, rfl⟩
    obtain ⟨huL, huC, hmL, hmC, hdL, hdC⟩ := hload
    simp only [stepWord, if_neg h0, huL, huC, hmL, hmC, hdL, hdC, nextOfNine_eq_plain]
    rw [Region.stepWord, if_neg (fun h => h0 (hskip.2 h))]
    refine ⟨rfl, fun _ => ⟨Nat.succ_pos wx, fun hlast => ?_⟩⟩
    have hnext : nextIndex regionWords wx = wx + 1 := if_neg (by omega)
    simp only [hnext, windowAt, Nat.add_sub_cancel]

theorem stepRow_eq (src : Board) (active : Tiles) (junk : Window) (y : Nat) (s : Work) :
    stepRow src active junk y s = forUpto 0 regionWords (Region.stepWord src active y) s := by
  have h : (forUpto 0 regionWords (stepWord src active y) ⟨junk, true, s⟩).work =
      forUpto 0 regionWords (Region.stepWord src active y) s ∧ Tracks src y regionWords
        (forUpto 0 regionWords (stepWord src active y) ⟨junk, true, s⟩) := by
    refine forUpto_simulates (P := fun wx (r : RowState) w => r.work = w ∧ Tracks src y wx r)
      (Nat.zero_le regionWords) ⟨rfl, fun h => by cases h⟩ ?_
    rintro wx r w - hwx ⟨rfl, ht⟩
    exact stepWord_simulates src active y hwx ht
  exact h.1

/-- Clearing byte by byte or word by word. -/
theorem clearTables_eq (t : Tables) : clearTables tilesH tilesW t = clearTiles t := by
  have h14 : tilesW = 2 * 14 := rfl
  have heq : ∀ (pr : Tables → Tiles),
      (∀ (t : Tables) (y x : Nat), pr ⟨setWord t.live y x 0#16, setWord t.dirty y x 0#16⟩ =
        setWord (pr t) y x 0#16) →
      (∀ (t : Tables) (y x : Nat), pr ⟨setByte t.live y x 0#8, setByte t.dirty y x 0#8⟩ =
        setByte (pr t) y x 0#8) →
      pr (clearTables tilesH tilesW t) = pr (clearTiles t) := fun pr hw hb => by
    funext y x
    have hwords := writes_clearTables_at tilesH (k := 14) (by decide) pr hw
    rw [← h14] at hwords
    exact hwords.ext (writes_clearTiles_at pr hb) (s := t) trivial (y, x)
  have hlive := heq Tables.live (fun _ _ _ => rfl) fun _ _ _ => rfl
  have hdirty := heq Tables.dirty (fun _ _ _ => rfl) fun _ _ _ => rfl
  cases h1 : clearTables tilesH tilesW t with
  | mk live dirty =>
    cases h2 : clearTiles t with
    | mk live' dirty' =>
      rw [h1, h2] at hlive hdirty
      rw [show live = live' from hlive, show dirty = dirty' from hdirty]

/-- On every state, whatever the active tiles are, the optimised step leaves
the board and the three tile tables that the plain step leaves. -/
theorem stepBoard_eq_plain (junk : Nat → Window) (src dst : Board) (tables : Tables)
    (active : Tiles) :
    stepBoard junk src dst tables active = Region.stepBoard src dst tables active := by
  have hrows : (fun y => stepRow src active (junk y) y) =
      fun y => forUpto 0 regionWords (Region.stepWord src active y) := by
    funext y s
    exact stepRow_eq src active (junk y) y s
  simp only [stepBoard, Region.stepBoard, hrows, clearTables_eq]

end LlvmTms9900.Life.RegionWindow
