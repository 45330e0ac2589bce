import LlvmTms9900.Life.Display2x

/-!
# The debug overlay of the 2x Life cartridge (cart_example/life2_2x.c)

The overlay shows the dirty tiles in a colour of their own. Four routines keep
the colour table up to date: each visits every tile and changes the colour and
the entry of `dirty_prev` of that tile only. The snapshot routines do not change
`dirty_prev`, so a snapshot taken while the overlay is shown removes colours that
`dirty_prev` still records.
-/

namespace LlvmTms9900.Life.Main2x
open LlvmTms9900.Isa LlvmTms9900.Arith LlvmTms9900.Life LlvmTms9900.Life.Engine2x

abbrev Tile := Fin tilesH × Fin tilesW

abbrev TileView := (Fin 8 → Byte) × Byte

/-- The colour bytes of a tile and its entry of `dirty_prev`. -/
def Machine.tileAt (m : Machine) (p : Tile) : TileView :=
  (fun k => m.vdp.vram (colorTableAddr + p.1 * 256 + p.2 * 8 + k), m.dirtyPrev p.1 p.2)

def plain (c : Byte) : Fin 8 → Byte := fun _ => c

/-! ## One tile -/

/-- `m` has the variables of `r` but for the display and `dirty_prev`. -/
structure Fixed (r m : Machine) : Prop where
  rest : m.vdp.AtRest
  frame : m = { r with vdp := m.vdp, dirtyPrev := m.dirtyPrev }

/-- Only the tile `p` changes, to `v`. -/
structure Touches (p : Tile) (m m' : Machine) (v : TileView) : Prop where
  rest : m'.vdp.AtRest
  frame : m' = { m with vdp := m'.vdp, dirtyPrev := m'.dirtyPrev }
  own : m'.tileAt p = v
  others : ∀ p', p' ≠ p → m'.tileAt p' = m.tileAt p'

def Machine.paint (m : Machine) (ty tx : Nat) (color : Byte) (prev : Tiles) : Machine :=
  { m with vdp := vdpSetTileColor ty tx color m.vdp, dirtyPrev := prev }

section Tile
variable {m : Machine} {p p' : Tile} {prev : Tiles}

/-- The colour bytes of two tiles are apart. -/
theorem tile_apart (hne : p' ≠ p) (k : Fin 8) :
    ¬ (colorTableAddr + p.1 * 256 + p.2 * 8 ≤ colorTableAddr + p'.1 * 256 + p'.2 * 8 + k ∧
      colorTableAddr + p'.1 * 256 + p'.2 * 8 + k < colorTableAddr + p.1 * 256 + p.2 * 8 + 8) := by
  have h1 : p.2.val < 32 := p.2.isLt
  have h2 : p'.2.val < 32 := p'.2.isLt
  have hk := k.isLt
  rintro ⟨hle, hlt⟩
  refine hne (Prod.ext (Fin.ext ?_) (Fin.ext ?_)) <;> omega

theorem touches_paint (hrest : m.vdp.AtRest) (c : Byte)
    (hprev : ∀ p' : Tile, p' ≠ p → prev p'.1 p'.2 = m.dirtyPrev p'.1 p'.2) :
    Touches p m (m.paint p.1 p.2 c prev) (plain c, prev p.1 p.2) := by
  have hw := writes_setTileColor p.1.isLt p.2.isLt c
  refine ⟨hw.stays hrest, rfl, ?_, fun p' hne => ?_⟩
  · refine Prod.ext (funext fun k => ?_) rfl
    exact congrArg Prod.fst (hw.written hrest ⟨Nat.le_add_right _ _, by omega⟩)
  · refine Prod.ext (funext fun k => ?_) (hprev p' hne)
    exact congrArg Prod.fst (hw.kept hrest (tile_apart hne k) : _ = m.vdp.cellAt _)

/-- Only `dirty_prev` is written. -/
theorem touches_mark (hrest : m.vdp.AtRest)
    (hprev : ∀ p' : Tile, p' ≠ p → prev p'.1 p'.2 = m.dirtyPrev p'.1 p'.2) :
    Touches p m { m with dirtyPrev := prev } ((m.tileAt p).1, prev p.1 p.2) :=
  ⟨hrest, rfl, rfl, fun p' hne => Prod.ext rfl (hprev p' hne)⟩

theorem setByte_self (prev : Tiles) (v : Byte) : setByte prev p.1 p.2 v p.1 p.2 = v := if_pos ⟨rfl, rfl⟩

theorem setByte_other (prev : Tiles) (hne : p' ≠ p) (v : Byte) :
    setByte prev p.1 p.2 v p'.1 p'.2 = prev p'.1 p'.2 :=
  if_neg fun h => hne (Prod.ext (Fin.ext h.1) (Fin.ext h.2))

end Tile

namespace Fixed
variable {r m : Machine}

theorem self (hrest : m.vdp.AtRest) : Fixed m m := ⟨hrest, rfl⟩

theorem tables (h : Fixed r m) : m.tables = r.tables := by
  rw [h.frame]

theorem enabled (h : Fixed r m) : m.debugDirtyEnabled = r.debugDirtyEnabled := by
  rw [h.frame]

theorem pending (h : Fixed r m) : m.debugSnapshotPending = r.debugSnapshotPending := by
  rw [h.frame]

theorem keyPrev (h : Fixed r m) : m.debugKeyPrev = r.debugKeyPrev := by
  rw [h.frame]

theorem setSnapshotPending (h : Fixed r m) (v : Byte) :
    Fixed (r.setSnapshotPending v) (m.setSnapshotPending v) := by
  refine ⟨h.rest, ?_⟩
  rw [h.frame]
  rfl

end Fixed

/-! ## Every tile -/

/-- A loop over the tiles changes each by its own round. -/
theorem forTiles_spec {r : Machine} {body : Nat → Nat → Machine → Machine}
    (upd : Tile → TileView → TileView)
    (h : ∀ (p : Tile) (m : Machine), Fixed r m →
      Touches p m (body p.1 p.2 m) (upd p (m.tileAt p))) {m : Machine} (hm : Fixed r m) :
    Fixed r (forUpto 0 tilesH (fun ty => forUpto 0 tilesW (body ty)) m) ∧
      ∀ p, (forUpto 0 tilesH (fun ty => forUpto 0 tilesW (body ty)) m).tileAt p =
        upd p (m.tileAt p) := by
  have hone : ∀ ty (hy : ty < tilesH) tx (hx : tx < tilesW), Updates (Fixed r)
      Machine.tileAt (fun p => p.1.val = ty ∧ p.2.val = tx) upd (body ty tx) := by
    intro ty hy tx hx
    have ht := fun m => h (⟨ty, hy⟩, ⟨tx, hx⟩) m
    refine ⟨fun {m} hm => ?_, fun {m p} hm hp => ?_, fun {m p} hm hp => ?_⟩
    · refine ⟨(ht m hm).rest, (ht m hm).frame.trans ?_⟩
      rw [hm.frame]
    · have heq : p = (⟨ty, hy⟩, ⟨tx, hx⟩) := Prod.ext (Fin.ext hp.1) (Fin.ext hp.2)
      rw [heq]
      exact (ht m hm).own
    · refine (ht m hm).others p fun heq => hp ?_
      rw [heq]
      exact ⟨rfl, rfl⟩
  have hall := Updates.forUpto 0 tilesH (fun ty _ hy => Updates.forUpto 0 tilesW
    (fun tx _ hx => hone ty hy tx hx) fun i j p hi hj => hi.2.symm.trans hj.2) (by
      rintro i j p ⟨-, -, -, hi, -⟩ ⟨-, -, -, hj, -⟩
      exact hi.symm.trans hj)
  exact ⟨hall.stays hm, fun p => hall.changed hm
    ⟨p.1, Nat.zero_le _, p.1.isLt, p.2, Nat.zero_le _, p.2.isLt, rfl, rfl⟩⟩

section Routines
variable {m r : Machine}

/-- What `vdp_debug_dirty_update` makes of a tile. -/
def updated (t : Tables) (p : Tile) (v : TileView) : TileView :=
  (if t.dirty p.1 p.2 ≠ 0#8 ∧ v.2 = 0#8 then plain colorDirty
    else if t.dirty p.1 p.2 = 0#8 ∧ v.2 ≠ 0#8 then plain colorNormal else v.1, t.dirty p.1 p.2)

theorem debugDirtyUpdate_spec (hm : Fixed r m) :
    Fixed r (vdpDebugDirtyUpdate m) ∧
      ∀ p, (vdpDebugDirtyUpdate m).tileAt p = updated r.tables p (m.tileAt p) := by
  refine forTiles_spec (updated r.tables) (fun p m hm => ?_) hm
  have hprev := fun p' (hne : p' ≠ p) => setByte_other m.dirtyPrev hne (m.tables.dirty p.1 p.2)
  have hv : (m.tileAt p).2 = m.dirtyPrev p.1 p.2 := rfl
  rw [updated, hv, ← hm.tables]
  by_cases h1 : m.tables.dirty p.1 p.2 ≠ 0#8 ∧ m.dirtyPrev p.1 p.2 = 0#8
  · simp only [if_pos h1]
    have h := touches_paint hm.rest colorDirty hprev
    rwa [setByte_self] at h
  · by_cases h2 : m.tables.dirty p.1 p.2 = 0#8 ∧ m.dirtyPrev p.1 p.2 ≠ 0#8
    · simp only [if_neg h1, if_pos h2]
      have h := touches_paint hm.rest colorNormal hprev
      rwa [setByte_self] at h
    · simp only [if_neg h1, if_neg h2]
      have h := touches_mark hm.rest hprev
      rwa [setByte_self] at h

/-- What `vdp_debug_dirty_clear` makes of a tile. -/
def cleared (v : TileView) : TileView := if v.2 ≠ 0#8 then (plain colorNormal, 0#8) else v

theorem debugDirtyClear_spec (hm : Fixed r m) :
    Fixed r (vdpDebugDirtyClear m) ∧
      ∀ p, (vdpDebugDirtyClear m).tileAt p = cleared (m.tileAt p) := by
  refine forTiles_spec (fun _ => cleared) (fun p m hm => ?_) hm
  have hv : (m.tileAt p).2 = m.dirtyPrev p.1 p.2 := rfl
  rw [cleared, hv]
  by_cases h : m.dirtyPrev p.1 p.2 ≠ 0#8
  · simp only [if_pos h]
    have ht := touches_paint hm.rest colorNormal
      fun p' (hne : p' ≠ p) => setByte_other m.dirtyPrev hne 0#8
    rwa [setByte_self] at ht
  · simp only [if_neg h]
    exact touches_mark hm.rest fun _ _ => rfl

theorem setSnapshotPending_tables (m : Machine) (v : Byte) :
    (m.setSnapshotPending v).tables = m.tables := rfl

theorem setSnapshotPending_enabled (m : Machine) (v : Byte) :
    (m.setSnapshotPending v).debugDirtyEnabled = m.debugDirtyEnabled := rfl

theorem setSnapshotPending_pending (m : Machine) (v : Byte) :
    (m.setSnapshotPending v).debugSnapshotPending = v := rfl

theorem tileAt_setSnapshotPending (m : Machine) (v : Byte) (p : Tile) :
    (m.setSnapshotPending v).tileAt p = m.tileAt p := rfl

/-- What `vdp_debug_clean_snapshot` makes of a tile. -/
def snapshot (t : Tables) (p : Tile) (v : TileView) : TileView :=
  if t.dirty p.1 p.2 ≠ 0#8 then v else (plain colorClean, v.2)

theorem debugCleanSnapshot_spec (hm : Fixed r m) :
    Fixed (r.setSnapshotPending 1#8) (vdpDebugCleanSnapshot m) ∧
      ∀ p, (vdpDebugCleanSnapshot m).tileAt p = snapshot r.tables p (m.tileAt p) := by
  rw [vdpDebugCleanSnapshot]
  refine And.imp (fun h => h.setSnapshotPending 1#8) (fun h p => ?_)
    (forTiles_spec (snapshot r.tables) (fun p m hm => ?_) hm)
  · rw [tileAt_setSnapshotPending]
    exact h p
  · rw [snapshot, ← hm.tables]
    by_cases hd : m.tables.dirty p.1 p.2 ≠ 0#8
    · rw [if_pos hd, if_pos hd]
      exact touches_mark hm.rest fun _ _ => rfl
    · rw [if_neg hd, if_neg hd]
      exact touches_paint hm.rest colorClean fun _ _ => rfl

/-- The routine that removes the snapshot. -/
theorem debugCleanSnapshotClear_spec (hm : Fixed r m) :
    Fixed (r.setSnapshotPending 0#8) (vdpDebugCleanSnapshotClear m) ∧
      ∀ p, (vdpDebugCleanSnapshotClear m).tileAt p = (plain colorNormal, (m.tileAt p).2) := by
  rw [vdpDebugCleanSnapshotClear]
  refine And.imp (fun h => h.setSnapshotPending 0#8) (fun h p => ?_)
    (forTiles_spec (r := r) (fun _ v => (plain colorNormal, v.2))
      (fun p m hm => touches_paint hm.rest colorNormal fun _ _ => rfl) hm)
  rw [tileAt_setSnapshotPending]
  exact h p

end Routines

/-! ## The overlay -/

/-- The eight colour bytes of a tile. -/
def ShowsColor (m : Machine) (ty tx : Nat) (c : Byte) : Prop :=
  ∀ k < 8, m.vdp.vram (colorTableAddr + ty * 256 + tx * 8 + k) = c

/-- The colours are those of the dirty tiles, or all normal, and `dirty_prev`
records them. -/
structure OverlayRight (m : Machine) : Prop where
  enabled : m.debugDirtyEnabled ≠ 0#8 → ∀ ty < tilesH, ∀ tx < tilesW,
    ShowsColor m ty tx (if m.tables.dirty ty tx ≠ 0#8 then colorDirty else colorNormal)
  disabled : m.debugDirtyEnabled = 0#8 → ∀ ty < tilesH, ∀ tx < tilesW,
    ShowsColor m ty tx colorNormal
  prev : ∀ ty < tilesH, ∀ tx < tilesW,
    (m.dirtyPrev ty tx ≠ 0#8 ↔ ShowsColor m ty tx colorDirty)

/-- The same, tile by tile. -/
structure Overlay (m : Machine) : Prop where
  tinted : ∀ p, (m.tileAt p).1 = plain (if (m.tileAt p).2 ≠ 0#8 then colorDirty else colorNormal)
  enabled : m.debugDirtyEnabled ≠ 0#8 → ∀ p : Tile,
    ((m.tileAt p).2 = 0#8 ↔ m.tables.dirty p.1 p.2 = 0#8)
  disabled : m.debugDirtyEnabled = 0#8 → ∀ p, (m.tileAt p).2 = 0#8

section Views
variable {m : Machine}

theorem showsColor_iff {p : Tile} {c : Byte} :
    ShowsColor m p.1 p.2 c ↔ (m.tileAt p).1 = plain c := by
  constructor
  · exact fun h => funext fun k => h k k.isLt
  · exact fun h k hk => congrFun h ⟨k, hk⟩

theorem plain_inj {c c' : Byte} (h : plain c = plain c') : c = c' := congrFun h 0

theorem forall_tiles {P : Nat → Nat → Prop} :
    (∀ ty < tilesH, ∀ tx < tilesW, P ty tx) ↔ ∀ p : Tile, P p.1 p.2 :=
  ⟨fun h p => h p.1 p.1.isLt p.2 p.2.isLt, fun h ty hy tx hx => h (⟨ty, hy⟩, ⟨tx, hx⟩)⟩

theorem overlayRight_iff : OverlayRight m ↔ Overlay m := by
  have hne : colorNormal ≠ colorDirty := by decide
  constructor
  · rintro ⟨henabled, hdisabled, hprev⟩
    simp only [forall_tiles, showsColor_iff] at henabled hdisabled hprev
    by_cases he : m.debugDirtyEnabled = 0#8
    · -- no tile is dirty coloured, so nothing is recorded
      have hzero : ∀ p, (m.tileAt p).2 = 0#8 := fun p => by
        by_contra h0
        have hdirty := (hprev p).1 h0
        rw [hdisabled he p] at hdirty
        exact hne (plain_inj hdirty)
      refine ⟨fun p => ?_, fun h => absurd he h, fun _ => hzero⟩
      rw [if_neg (not_not.2 (hzero p))]
      exact hdisabled he p
    · have hiff : ∀ p : Tile, (m.tileAt p).2 = 0#8 ↔ m.tables.dirty p.1 p.2 = 0#8 := fun p => by
        have hp : (m.tileAt p).2 ≠ 0#8 ↔ (m.tileAt p).1 = plain colorDirty := hprev p
        rw [henabled he p] at hp
        by_cases hd : m.tables.dirty p.1 p.2 = 0#8
        · rw [if_neg (not_not.2 hd)] at hp
          exact iff_of_true (not_not.1 fun h0 => hne (plain_inj (hp.1 h0))) hd
        · rw [if_pos hd] at hp
          exact iff_of_false (hp.2 rfl) hd
      refine ⟨fun p => ?_, fun _ => hiff, fun h => absurd h he⟩
      rw [henabled he p]
      simp only [ne_eq, hiff p]
  · rintro ⟨htinted, henabled, hdisabled⟩
    refine ⟨fun he => ?_, fun he => ?_, ?_⟩
    all_goals simp only [forall_tiles, showsColor_iff]
    · intro p
      rw [htinted p]
      simp only [ne_eq, henabled he p]
    · intro p
      rw [htinted p, if_neg (not_not.2 (hdisabled he p))]
    · intro p
      rw [htinted p]
      by_cases h0 : (m.tileAt p).2 = 0#8
      · rw [if_neg (not_not.2 h0)]
        exact iff_of_false (not_not.2 h0) fun h => hne (plain_inj h)
      · rw [if_pos h0]
        exact iff_of_true h0 rfl

end Views

/-! ## The keys -/

/-- The overlay between the iterations and, without a snapshot, up to its
update: the colours are the recorded ones. -/
structure Settled (m : Machine) : Prop where
  rest : m.vdp.AtRest
  pending : m.debugSnapshotPending = 0#8
  tinted : ∀ p, (m.tileAt p).1 = plain (if (m.tileAt p).2 ≠ 0#8 then colorDirty else colorNormal)
  disabled : m.debugDirtyEnabled = 0#8 → ∀ p, (m.tileAt p).2 = 0#8

/-- Nothing that concerns the overlay changes, apart from the dirty tiles. -/
structure SameOverlay (m m' : Machine) : Prop where
  vdp : m'.vdp = m.vdp
  prev : m'.dirtyPrev = m.dirtyPrev
  enabled : m'.debugDirtyEnabled = m.debugDirtyEnabled
  pending : m'.debugSnapshotPending = m.debugSnapshotPending

section Keys
variable {m m' : Machine} {i : Input} {key : Byte}

theorem SameOverlay.tileAt (h : SameOverlay m m') (p : Tile) : m'.tileAt p = m.tileAt p := by
  rw [Machine.tileAt, Machine.tileAt, h.vdp, h.prev]

theorem Settled.same (h : Settled m) (hs : SameOverlay m m') : Settled m' := by
  refine ⟨by rw [hs.vdp]; exact h.rest, hs.pending.trans h.pending, fun p => ?_, fun he p => ?_⟩
  · rw [hs.tileAt p]
    exact h.tinted p
  · rw [hs.tileAt p]
    exact h.disabled (hs.enabled.symm.trans he) p

theorem reseedBoard_same (i : Input) (m : Machine) : SameOverlay m (reseedBoard i m) := by
  unfold reseedBoard
  split_ifs <;> exact ⟨rfl, rfl, rfl, rfl⟩

theorem swapAndStep_same (m : Machine) : SameOverlay m (swapAndStep m) := ⟨rfl, rfl, rfl, rfl⟩

theorem readFrame_same (i : Input) (m : Machine) : SameOverlay m (readFrame i m) := by
  unfold readFrame
  split_ifs <;> exact ⟨rfl, rfl, rfl, rfl⟩

/-- A key other than D and F. -/
theorem handleKey_same (hD : ¬ (key = 0x44#8 ∨ key = 0x64#8)) (hF : ¬ (key = 0x46#8 ∨ key = 0x66#8)) :
    SameOverlay m (handleKey i key m) := by
  have hseed (v : Byte) : SameOverlay m (reseedBoard i { m with seedDensity := v }) := by
    obtain ⟨h1, h2, h3, h4⟩ := reseedBoard_same i { m with seedDensity := v }
    exact ⟨h1, h2, h3, h4⟩
  unfold handleKey
  rw [if_neg hD, if_neg hF]
  split_ifs
  · exact ⟨rfl, rfl, rfl, rfl⟩
  · exact hseed 70#8
  · exact hseed 60#8
  · exact hseed 50#8
  · exact hseed 40#8
  · exact hseed 30#8
  · exact reseedBoard_same i m
  · exact ⟨rfl, rfl, rfl, rfl⟩

/-- The D key switches the overlay on, or off and removes its colours. -/
theorem Settled.toggle (h : Settled m) : Settled
    (if m.toggleDirty.debugDirtyEnabled = 0#8 then vdpDebugDirtyClear m.toggleDirty
      else m.toggleDirty) := by
  by_cases hoff : m.toggleDirty.debugDirtyEnabled = 0#8
  · rw [if_pos hoff]
    have hrest : m.toggleDirty.vdp.AtRest := h.rest
    obtain ⟨hfix, hview⟩ := debugDirtyClear_spec (Fixed.self hrest)
    have hclear : ∀ p, (vdpDebugDirtyClear m.toggleDirty).tileAt p = (plain colorNormal, 0#8) := by
      intro p
      have ht : (m.toggleDirty.tileAt p).1 =
          plain (if (m.toggleDirty.tileAt p).2 ≠ 0#8 then colorDirty else colorNormal) := h.tinted p
      rw [hview p, cleared]
      by_cases h0 : (m.toggleDirty.tileAt p).2 ≠ 0#8
      · rw [if_pos h0]
      · rw [if_neg h0] at ht ⊢
        exact Prod.ext ht (not_not.1 h0)
    refine ⟨hfix.rest, hfix.pending.trans h.pending, fun p => ?_, fun _ p => ?_⟩
    · rw [hclear p, if_neg (not_not.2 rfl)]
    · rw [hclear p]
  · rw [if_neg hoff]
    exact ⟨h.rest, h.pending, h.tinted, fun he => absurd he hoff⟩

/-- Every key but F. -/
theorem Settled.handleKey (h : Settled m) (hF : ¬ (key = 0x46#8 ∨ key = 0x66#8)) :
    Settled (handleKey i key m) := by
  by_cases hD : key = 0x44#8 ∨ key = 0x64#8
  · rw [Main2x.handleKey, if_pos hD]
    exact h.toggle
  · exact h.same (handleKey_same hD hF)

end Keys

/-! ## The end of an iteration -/

/-- `life2_2x.c:965-970`: what is done between the keys and the drawing. -/
def refresh (m : Machine) : Machine :=
  let m := if m.debugDirtyEnabled ≠ 0#8 then vdpDebugDirtyUpdate m else m
  if m.debugSnapshotPending ≠ 0#8 then vdpDebugCleanSnapshotClear m else m

theorem iterate_eq (m : Machine) (i : Input) :
    iterate m i = (refresh (readKey i (readFrame i (swapAndStep m)))).draw := rfl

section Refresh
variable {m r : Machine}

/-- The update of the dirty tiles. -/
theorem update_spec (hrest : m.vdp.AtRest) :
    Fixed m (if m.debugDirtyEnabled ≠ 0#8 then vdpDebugDirtyUpdate m else m) ∧
      ∀ p, (if m.debugDirtyEnabled ≠ 0#8 then vdpDebugDirtyUpdate m else m).tileAt p =
        if m.debugDirtyEnabled ≠ 0#8 then updated m.tables p (m.tileAt p) else m.tileAt p := by
  by_cases he : m.debugDirtyEnabled ≠ 0#8
  · simp only [if_pos he]
    exact debugDirtyUpdate_spec (Fixed.self hrest)
  · simp only [if_neg he]
    exact ⟨Fixed.self hrest, fun _ => trivial⟩

/-- Without a snapshot the update is all that is done. -/
theorem refresh_plain (hrest : m.vdp.AtRest) (hpending : m.debugSnapshotPending = 0#8) :
    Fixed m (refresh m) ∧ ∀ p, (refresh m).tileAt p =
      if m.debugDirtyEnabled ≠ 0#8 then updated m.tables p (m.tileAt p) else m.tileAt p := by
  obtain ⟨hfix, hview⟩ := update_spec hrest
  rw [refresh, if_neg (not_not.2 (hfix.pending.trans hpending))]
  exact ⟨hfix, hview⟩

/-- With a snapshot every tile ends in the normal colour. -/
theorem refresh_snapshot (hrest : m.vdp.AtRest) (hpending : m.debugSnapshotPending = 1#8) :
    Fixed (m.setSnapshotPending 0#8) (refresh m) ∧ ∀ p, (refresh m).tileAt p = (plain colorNormal,
      if m.debugDirtyEnabled ≠ 0#8 then m.tables.dirty p.1 p.2 else (m.tileAt p).2) := by
  obtain ⟨hfix, hview⟩ := update_spec hrest
  obtain ⟨hfix', hview'⟩ := debugCleanSnapshotClear_spec hfix
  have hone : ¬ (1#8 : Byte) = 0#8 := by decide
  rw [refresh, hfix.pending, hpending, if_pos hone]
  refine ⟨hfix', fun p => ?_⟩
  rw [hview' p, hview p]
  by_cases he : m.debugDirtyEnabled ≠ 0#8
  · rw [if_pos he, if_pos he, updated]
  · rw [if_neg he, if_neg he]

/-- Drawing the patterns leaves the colours alone. -/
theorem draw_tileAt (hrest : m.vdp.AtRest) (p : Tile) : m.draw.tileAt p = m.tileAt p := by
  have hw := writes_dirtyPatterns m.tables.dirty m.curBoard
  refine Prod.ext (funext fun k => ?_) rfl
  refine congrArg Prod.fst (hw.kept hrest fun hp => ?_ : _ = m.vdp.cellAt _)
  have hpat : colorTableAddr + p.1 * 256 + p.2 * 8 + k < 0x1800 := hp.1
  have hcol : colorTableAddr = 0x2000 := rfl
  omega

theorem Fixed.draw (hm : Fixed r m) : Fixed r m.draw := by
  refine ⟨(writes_dirtyPatterns _ _).stays hm.rest, ?_⟩
  have hframe := congrArg Machine.draw hm.frame
  rw [hframe]
  rfl

/-- The overlay after an update is right. -/
theorem Settled.refresh (h : Settled m) :
    Overlay (refresh m).draw ∧ (refresh m).draw.debugSnapshotPending = 0#8 := by
  obtain ⟨hfix, hview⟩ := refresh_plain h.rest h.pending
  have hdraw := fun p => (draw_tileAt hfix.rest p).trans (hview p)
  have hdirty := hfix.draw.tables
  have henabled := hfix.draw.enabled
  refine ⟨⟨fun p => ?_, fun he p => ?_, fun he p => ?_⟩, hfix.draw.pending.trans h.pending⟩
  · rw [hdraw p]
    by_cases he : m.debugDirtyEnabled ≠ 0#8
    · rw [if_pos he, updated]
      have ht := h.tinted p
      by_cases hd : m.tables.dirty p.1 p.2 = 0#8 <;> by_cases h0 : (m.tileAt p).2 = 0#8 <;>
        simp [hd, h0, ht]
    · rw [if_neg he]
      exact h.tinted p
  · rw [henabled] at he
    rw [hdraw p, if_pos he, hdirty, updated]
  · rw [henabled] at he
    rw [hdraw p, if_neg (not_not.2 he)]
    exact h.disabled he p

end Refresh

/-! ## Still boards -/

/-- The rule changes no cell. -/
def StillLife (b : Board) : Prop :=
  ∀ y < cellH, ∀ x < cellW, conway cellW cellH (cell b) y x = cell b y x

/-- F was not down before, the overlay is shown and the step changes a cell. -/
def SpoilsOverlay (m : Machine) (i : Input) : Prop :=
  (i.scan.setWidth 8 = 0x46#8 ∨ i.scan.setWidth 8 = 0x66#8) ∧
    i.scan.setWidth 8 ≠ m.debugKeyPrev ∧ m.debugDirtyEnabled ≠ 0#8 ∧ ¬ StillLife m.curBoard

section Still
variable {m : Machine}

/-- A step marks no tile exactly when the board is still. -/
theorem no_dirty_iff (h : Shows m) :
    (∀ p : Tile, (swapAndStep m).tables.dirty p.1 p.2 = 0#8) ↔ StillLife m.curBoard := by
  have hr := stepBoard_right (m.boards m.cur.other) m.tables h.covers
  have hdirty (p : Tile) : (swapAndStep m).tables.dirty p.1 p.2 = 0#8 ↔
      ¬ TileDiffers 4 (cell (swapAndStep m).curBoard) (cell m.curBoard) p.1 p.2 := by
    obtain ⟨hone, hzero⟩ := hr.dirty p.1 p.1.isLt p.2 p.2.isLt
    rw [swapAndStep_curBoard]
    refine ⟨fun h0 hd => ?_, hzero⟩
    exact absurd (h0.symm.trans (hone hd)) (by decide)
  have hcell : ∀ y < cellH, ∀ x < cellW, cell (swapAndStep m).curBoard y x =
      conway cellW cellH (cell m.curBoard) y x := fun y hy x hx => by
    rw [swapAndStep_curBoard]
    exact hr.board y hy x hx
  have h24 : tilesH = 24 := rfl
  have h32 : tilesW = 32 := rfl
  have h96 : cellH = 96 := rfl
  have h128 : cellW = 128 := rfl
  constructor
  · intro hclean y hy x hx
    rw [← hcell y hy x hx]
    by_contra hne
    refine (hdirty (⟨y / 4, by omega⟩, ⟨x / 4, by omega⟩)).1 (hclean _)
      ⟨y % 4, by omega, x % 4, by omega, ?_⟩
    rwa [Nat.div_add_mod, Nat.div_add_mod]
  · intro hstill p
    have h1 := p.1.isLt
    have h2 := p.2.isLt
    rw [hdirty p]
    rintro ⟨r, hr4, c, hc4, hne⟩
    refine hne ?_
    rw [hcell _ (by omega) _ (by omega)]
    exact hstill _ (by omega) _ (by omega)

end Still

/-! ## One iteration -/

/-- What an iteration finds. -/
structure Before (m : Machine) : Prop where
  shows : Shows m
  pending : m.debugSnapshotPending = 0#8
  overlay : Overlay m

section Step
variable {m : Machine} {i : Input}

theorem Before.settled (h : Before m) : Settled m :=
  ⟨h.shows.rest, h.pending, h.overlay.tinted, h.overlay.disabled⟩

/-- The state when the key is handled. -/
theorem Before.stepped (h : Before m) : Settled (readFrame i (swapAndStep m)) :=
  (h.settled.same (swapAndStep_same m)).same (readFrame_same i _)

theorem readFrame_key (i : Input) (m : Machine) :
    (readFrame i m).debugKeyPrev = m.debugKeyPrev ∧ (readFrame i m).tables = m.tables := by
  unfold readFrame
  split_ifs <;> exact ⟨rfl, rfl⟩

/-- Without a fresh F the overlay is right again. -/
theorem Before.iterate_other (h : Before m)
    (hF : ¬ ((i.scan.setWidth 8 = 0x46#8 ∨ i.scan.setWidth 8 = 0x66#8) ∧
      i.scan.setWidth 8 ≠ m.debugKeyPrev)) :
    Overlay (iterate m i) ∧ (iterate m i).debugSnapshotPending = 0#8 := by
  have hs : Settled { readFrame i (swapAndStep m) with debugKeyPrev := i.scan.setWidth 8 } :=
    h.stepped.same ⟨rfl, rfl, rfl, rfl⟩
  rw [iterate_eq]
  refine Settled.refresh ?_
  simp only [readKey]
  split_ifs with hpressed
  · refine hs.handleKey fun hkey => hF ⟨hkey, ?_⟩
    rw [(readFrame_key i _).1] at hpressed
    exact hpressed.2
  · exact hs

/-- After a fresh F every tile is normal, and `dirty_prev` is that of an update. -/
theorem Before.iterate_snapshot (h : Before m)
    (hkey : i.scan.setWidth 8 = 0x46#8 ∨ i.scan.setWidth 8 = 0x66#8)
    (hfresh : i.scan.setWidth 8 ≠ m.debugKeyPrev) :
    (iterate m i).tables = (swapAndStep m).tables ∧
      (iterate m i).debugDirtyEnabled = m.debugDirtyEnabled ∧
      (iterate m i).debugSnapshotPending = 0#8 ∧ ∀ p : Tile, (iterate m i).tileAt p = (plain colorNormal,
        if m.debugDirtyEnabled ≠ 0#8 then (swapAndStep m).tables.dirty p.1 p.2
        else (m.tileAt p).2) := by
  obtain ⟨m₁, hm₁⟩ : ∃ m₁, m₁ =
    { readFrame i (swapAndStep m) with debugKeyPrev := i.scan.setWidth 8 } := ⟨_, rfl⟩
  have hsame : SameOverlay m m₁ := by
    rw [hm₁]
    obtain ⟨h1, h2, h3, h4⟩ := readFrame_same i (swapAndStep m)
    exact ⟨h1, h2, h3, h4⟩
  have htables : m₁.tables = (swapAndStep m).tables := by
    rw [hm₁]
    exact (readFrame_key i (swapAndStep m)).2
  have hread : readKey i (readFrame i (swapAndStep m)) = vdpDebugCleanSnapshot m₁ := by
    have hD : ¬ (i.scan.setWidth 8 = 0x44#8 ∨ i.scan.setWidth 8 = 0x64#8) := by
      rcases hkey with hk | hk <;> rw [hk] <;> decide
    have hzero : i.scan.setWidth 8 ≠ 0#8 := by
      rcases hkey with hk | hk <;> rw [hk] <;> decide
    have hprev : i.scan.setWidth 8 ≠ (readFrame i (swapAndStep m)).debugKeyPrev := by
      rw [(readFrame_key i _).1]
      exact hfresh
    rw [readKey]
    simp only [if_pos (And.intro hzero hprev)]
    rw [handleKey, if_neg hD, if_pos hkey, hm₁]
  have hrest₁ : m₁.vdp.AtRest := by
    rw [hsame.vdp]
    exact h.shows.rest
  obtain ⟨hfix₂, hview₂⟩ := debugCleanSnapshot_spec (Fixed.self hrest₁)
  have htables₂ : (vdpDebugCleanSnapshot m₁).tables = (swapAndStep m).tables := by
    rw [hfix₂.tables, setSnapshotPending_tables, htables]
  have henabled₂ : (vdpDebugCleanSnapshot m₁).debugDirtyEnabled = m.debugDirtyEnabled := by
    rw [hfix₂.enabled, setSnapshotPending_enabled, hsame.enabled]
  have hpending₂ : (vdpDebugCleanSnapshot m₁).debugSnapshotPending = 1#8 := by
    rw [hfix₂.pending, setSnapshotPending_pending]
  obtain ⟨hfix₃, hview₃⟩ := refresh_snapshot hfix₂.rest hpending₂
  rw [iterate_eq, hread]
  refine ⟨?_, ?_, ?_, fun p => ?_⟩
  · rw [hfix₃.draw.tables, setSnapshotPending_tables, htables₂]
  · rw [hfix₃.draw.enabled, setSnapshotPending_enabled, henabled₂]
  · rw [hfix₃.draw.pending, setSnapshotPending_pending]
  have hrecord : (snapshot m₁.tables p (m₁.tileAt p)).2 = (m.tileAt p).2 := by
    rw [snapshot, hsame.tileAt p, apply_ite Prod.snd, ite_self]
  rw [draw_tileAt hfix₃.rest, hview₃ p, hview₂ p, hrecord, htables₂, henabled₂]

/-- An iteration leaves the overlay right exactly when it does not spoil it. -/
theorem Before.iterate_iff (h : Before m) : (iterate m i).debugSnapshotPending = 0#8 ∧
    (Overlay (iterate m i) ↔ ¬ SpoilsOverlay m i) := by
  by_cases hF : (i.scan.setWidth 8 = 0x46#8 ∨ i.scan.setWidth 8 = 0x66#8) ∧
      i.scan.setWidth 8 ≠ m.debugKeyPrev
  · obtain ⟨htables, henabled, hpending, hview⟩ := h.iterate_snapshot hF.1 hF.2
    refine ⟨hpending, ?_⟩
    have hstill := no_dirty_iff h.shows
    by_cases he : m.debugDirtyEnabled = 0#8
    · refine iff_of_true ⟨fun p => ?_, fun h1 => absurd (henabled.trans he) h1, fun _ p => ?_⟩
        fun hno => hno.2.2.1 he
      · rw [hview p, if_neg (not_not.2 he), if_neg (not_not.2 (h.overlay.disabled he p))]
      · rw [hview p, if_neg (not_not.2 he)]
        exact h.overlay.disabled he p
    · constructor
      · rintro ⟨htinted, -, -⟩ ⟨-, -, -, hmoves⟩
        refine hmoves (hstill.1 fun p => ?_)
        have ht := htinted p
        rw [hview p, if_pos he] at ht
        by_contra hd
        rw [if_pos hd] at ht
        exact absurd (plain_inj ht) (by decide)
      · intro hno
        have hs : StillLife m.curBoard := by
          by_contra hmoves
          exact hno ⟨hF.1, hF.2, he, hmoves⟩
        have hclean := hstill.2 hs
        refine ⟨fun p => ?_, fun _ p => ?_, fun h0 => absurd (henabled.symm.trans h0) he⟩
        · rw [hview p, if_pos he, if_neg (not_not.2 (hclean p))]
        · rw [hview p, if_pos he, htables]
  · obtain ⟨hover, hpending⟩ := h.iterate_other hF
    exact ⟨hpending, iff_of_true hover fun hno => hF ⟨hno.1, hno.2.1⟩⟩

end Step

/-! ## Whole runs -/

theorem vdpInitNameTable_atRest (d : Vdp) : (vdpInitNameTable d).AtRest := by
  have hlen : 24 * 32 = 767 + 1 := rfl
  rw [vdpInitNameTable, hlen, forUpto_succ (Nat.zero_le 767)]
  rfl

/-- The colour table after `main` has set it up. -/
theorem initColors (d : Vdp) {a : Nat} (h : 0x2000 ≤ a) (h' : a < 0x3800) :
    (vdpDisableSprites (vdpInitColorTable (vdpInitNameTable d))).vram a = colorNormal := by
  have hv : vramSize = 0x4000 := rfl
  have hc : colorTableAddr = 0x2000 := rfl
  have hs : spriteAttrAddr = 0x1B00 := rfl
  have hrest := vdpInitNameTable_atRest d
  have hfill := (streamsTo_fill colorNormal (a := colorTableAddr) (n := 192 * 32)
    (by omega)).writes (by omega)
  have hdata : StreamsTo (fun _ => 0xD0#8) spriteAttrAddr 1 (vdpData 0xD0#8) :=
    streamsTo_data rfl (by omega)
  have hsprites := hdata.writes (by omega)
  have hrest' : (vdpInitColorTable (vdpInitNameTable d)).AtRest := hfill.stays hrest
  have hkept : (vdpDisableSprites (vdpInitColorTable (vdpInitNameTable d))).cellAt a =
      (vdpInitColorTable (vdpInitNameTable d)).cellAt a := hsprites.kept hrest' (by omega)
  have hfilled : (vdpInitColorTable (vdpInitNameTable d)).cellAt a = drawn (fun _ => colorNormal) a :=
    hfill.written hrest ⟨by omega, by omega⟩
  exact congrArg Prod.fst (hkept.trans hfilled)

theorem setUp_tileAt (vram : Nat → Byte) (seed : Board) (rng : Word) (p : Tile) :
    (setUp (boot vram) seed rng).tileAt p = (plain colorNormal, 0#8) := by
  refine Prod.ext (funext fun k => ?_) rfl
  have hc : colorTableAddr = 0x2000 := rfl
  have h1 : p.1.val < 24 := p.1.isLt
  have h2 : p.2.val < 32 := p.2.isLt
  exact initColors _ (by omega) (by omega)

theorem displayOn_tileAt {m : Machine} (hrest : m.vdp.AtRest) (p : Tile) :
    m.displayOn.tileAt p = m.tileAt p := by
  obtain ⟨-, hcells⟩ := vdpSetRegister_atRest 1#8 0xE0#8 rfl hrest
  exact Prod.ext (funext fun k => congrArg Prod.fst (congrFun hcells _)) rfl

/-- Before the loop every tile is normal. -/
theorem mainInit_before (vram : Nat → Byte) (seed : Board) (rng : Word) :
    Before (mainInit (boot vram) seed rng) := by
  have hready := setUp_ready (boot vram) seed rng
  have hview : ∀ p, (mainInit (boot vram) seed rng).tileAt p = (plain colorNormal, 0#8) := by
    intro p
    rw [mainInit, displayOn_tileAt hready.draw.rest, draw_tileAt hready.rest, setUp_tileAt]
  have hoff : (mainInit (boot vram) seed rng).debugDirtyEnabled = 0#8 := rfl
  refine ⟨mainInit_shows (boot vram) seed rng, rfl, fun p => ?_, fun he => absurd hoff he,
    fun _ p => ?_⟩
  · rw [hview p, if_neg (not_not.2 rfl)]
  · rw [hview p]

theorem runMain_nil (vram : Nat → Byte) (seed : Board) (rng : Word) :
    runMain vram seed rng [] = mainInit (boot vram) seed rng := rfl

/-- Up to the first step that spoils the overlay it is right. -/
theorem runMain_before (vram : Nat → Byte) (seed : Board) (rng : Word) (inputs : List Input)
    (h : ∀ is i, is ++ [i] <+: inputs → ¬ SpoilsOverlay (runMain vram seed rng is) i) :
    Before (runMain vram seed rng inputs) := by
  induction inputs using List.reverseRecOn with
  | nil => exact mainInit_before vram seed rng
  | append_singleton is i ih =>
    have hprev := ih fun js j hj => h js j (hj.trans (List.prefix_append is [i]))
    obtain ⟨hpending, hiff⟩ := hprev.iterate_iff (i := i)
    rw [runMain_append]
    exact ⟨hprev.shows.iterate i, hpending, hiff.2 (h is i List.prefix_rfl)⟩

/-- A step that spoils the overlay in a run without one before. -/
theorem runMain_spoiled {vram : Nat → Byte} {seed : Board} {rng : Word} {is : List Input} {i : Input}
    (h : Before (runMain vram seed rng is)) (hi : SpoilsOverlay (runMain vram seed rng is) i) :
    ¬ OverlayRight (runMain vram seed rng (is ++ [i])) := by
  rw [overlayRight_iff, runMain_append]
  exact fun hright => h.iterate_iff.2.1 hright hi

/-- A fresh D while the overlay is off switches it on. -/
theorem Before.iterate_enable {m : Machine} {i : Input} (h : Before m)
    (hkey : i.scan.setWidth 8 = 0x44#8) (hfresh : i.scan.setWidth 8 ≠ m.debugKeyPrev)
    (hoff : m.debugDirtyEnabled = 0#8) :
    (iterate m i).debugDirtyEnabled = 1#8 ∧ (iterate m i).debugKeyPrev = 0x44#8 ∧
      (iterate m i).curBoard = (swapAndStep m).curBoard := by
  obtain ⟨m₁, hm₁⟩ : ∃ m₁, m₁ =
    { readFrame i (swapAndStep m) with debugKeyPrev := i.scan.setWidth 8 } := ⟨_, rfl⟩
  have hs : Settled m₁ := by
    rw [hm₁]
    exact h.stepped.same ⟨rfl, rfl, rfl, rfl⟩
  have hoff₁ : m₁.debugDirtyEnabled = 0#8 := by
    rw [hm₁]
    exact (readFrame_same i (swapAndStep m)).enabled.trans hoff
  have hon : m₁.toggleDirty.debugDirtyEnabled = 1#8 := by
    rw [Machine.toggleDirty, hoff₁]
    rfl
  have hread : readKey i (readFrame i (swapAndStep m)) = m₁.toggleDirty := by
    have hzero : i.scan.setWidth 8 ≠ 0#8 := by
      rw [hkey]
      decide
    have hprev : i.scan.setWidth 8 ≠ (readFrame i (swapAndStep m)).debugKeyPrev := by
      rw [(readFrame_key i _).1]
      exact hfresh
    have hone : ¬ m₁.toggleDirty.debugDirtyEnabled = 0#8 := by
      rw [hon]
      decide
    rw [readKey]
    simp only [if_pos (And.intro hzero hprev)]
    rw [handleKey, if_pos (Or.inl hkey), ← hm₁, if_neg hone]
  have hrest : m₁.toggleDirty.vdp.AtRest := hs.rest
  have hpending : m₁.toggleDirty.debugSnapshotPending = 0#8 := hs.pending
  have hfix := (refresh_plain hrest hpending).1.draw
  have hframe : Recoloured (swapAndStep m) m₁.toggleDirty := by
    refine (readFrame_recoloured i (swapAndStep m)).trans ?_
    rw [hm₁]
    exact Recoloured.of_eq rfl rfl rfl rfl rfl
  have hcur := (hframe.trans (overlay_recoloured m₁.toggleDirty)).curBoard
  rw [iterate_eq, hread]
  refine ⟨hfix.enabled.trans hon, hfix.keyPrev.trans ?_, hcur⟩
  rw [hm₁]
  exact hkey

/-- The overlay is right at the end of every iteration of a run exactly when no
iteration spoils it. -/
theorem overlay_right_iff (vram : Nat → Byte) (seed : Board) (rng : Word) (inputs : List Input) :
    (∀ is, is <+: inputs → OverlayRight (runMain vram seed rng is)) ↔
      ∀ is i, is ++ [i] <+: inputs → ¬ SpoilsOverlay (runMain vram seed rng is) i := by
  constructor
  · intro hright
    -- every prefix is free of such steps, by induction on its length
    have hfree : ∀ js, js <+: inputs → ∀ is i, is ++ [i] <+: js →
        ¬ SpoilsOverlay (runMain vram seed rng is) i := by
      intro js
      induction js using List.reverseRecOn with
      | nil =>
        intro _ is i hnil
        exact absurd (List.prefix_nil.1 hnil) (by simp)
      | append_singleton js j ih =>
        intro hjs is i his hspoils
        have hshort := ih ((List.prefix_append js [j]).trans hjs)
        rcases List.prefix_concat_iff.1 his with heq | hpre
        · obtain ⟨rfl, hij⟩ := List.append_inj' heq rfl
          obtain rfl : i = j := List.singleton_inj.1 hij
          exact runMain_spoiled (runMain_before vram seed rng is hshort) hspoils (hright _ hjs)
        · exact hshort is i hpre hspoils
    exact hfree inputs List.prefix_rfl
  · intro hfree is his
    refine overlayRight_iff.2 (runMain_before vram seed rng is fun js j hj => ?_).overlay
    exact hfree js j (hj.trans his)

def dKey : Input := { noKey with scan := 0x44#16 }

def fKey : Input := { noKey with scan := 0x46#16 }

/-- A blinker, D and then F: the tiles of the blinker are dirty and normal. -/
theorem snapshot_spoils_overlay :
    ¬ OverlayRight (runMain (fun _ => 0#8) blinker 0#16 [dKey, fKey]) := by
  have h0 := mainInit_before (fun _ => 0#8) blinker 0#16
  have hrun := runMain_append (fun _ => 0#8) blinker 0#16 [] dKey
  obtain ⟨hon, hprev, hcur⟩ := h0.iterate_enable (i := dKey) rfl (by decide) rfl
  obtain ⟨hpending, hiff⟩ := h0.iterate_iff (i := dKey)
  have hover := hiff.2 fun hno => absurd hno.1 (by decide)
  have hshows := h0.shows.iterate dKey
  have hcovers := h0.shows.covers
  have hseed := mainInit_curBoard (boot fun _ => 0#8) blinker 0#16
  rw [List.nil_append, runMain_nil] at hrun
  generalize mainInit (boot fun _ => 0#8) blinker 0#16 = m₀ at *
  have h1 : Before (runMain (fun _ => 0#8) blinker 0#16 [dKey]) := by
    rw [hrun]
    exact ⟨hshows, hpending, hover⟩
  have hspoils : SpoilsOverlay (runMain (fun _ => 0#8) blinker 0#16 [dKey]) fKey := by
    rw [SpoilsOverlay, hrun, hprev, hon, hcur]
    refine ⟨by decide, by decide, by decide, fun hstill => ?_⟩
    -- the blinker stands upright and lies down again in the next step
    have hcell : ∀ y < cellH, ∀ x < cellW, cell (swapAndStep m₀).curBoard y x =
        conway cellW cellH (cell blinker) y x := fun y hy x hx => by
      rw [swapAndStep_curBoard, (stepBoard_right _ _ hcovers).board y hy x hx, hseed]
    have hbit := hstill 40 (by decide) 1 (by decide)
    rw [conway_congr hcell (by decide) (by decide), hcell 40 (by decide) 1 (by decide)] at hbit
    exact absurd hbit (by decide)
  have hlast := runMain_spoiled h1 hspoils
  rwa [List.singleton_append] at hlast

end LlvmTms9900.Life.Main2x
