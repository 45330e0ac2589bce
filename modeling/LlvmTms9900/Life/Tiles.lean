import LlvmTms9900.Arith.ForLoop
import LlvmTms9900.Life.Board

/-!
# Active tiles

The engines skip the parts of the board whose tiles are not active. A tile is
active when it is one of the nine tiles around a tile with a live cell, on the
torus of tiles. As long as this covering holds, what is skipped is dead in the
next generation.
-/

namespace LlvmTms9900.Life
open LlvmTms9900.Isa LlvmTms9900.Arith

/-- Row, then column. -/
abbrev Tiles := Nat → Nat → Byte

/-- `b[y0..y1)[x0..x1)` filled with one byte. -/
def fill (y0 y1 x0 x1 : Nat) (v : Byte) (b : Nat → Nat → Byte) : Nat → Nat → Byte :=
  forUpto y0 y1 (fun y => forUpto x0 x1 (fun x b => setByte b y x v)) b

/-- The nine assignments around tile `(ty, tx)`. -/
def markAround (th tw ty tx : Nat) (a : Tiles) : Tiles :=
  let tyPrev := prevIndex th ty
  let tyNext := nextIndex th ty
  let txPrev := prevIndex tw tx
  let txNext := nextIndex tw tx
  let a := setByte a tyPrev txPrev 1#8
  let a := setByte a tyPrev tx 1#8
  let a := setByte a tyPrev txNext 1#8
  let a := setByte a ty txPrev 1#8
  let a := setByte a ty tx 1#8
  let a := setByte a ty txNext 1#8
  let a := setByte a tyNext txPrev 1#8
  let a := setByte a tyNext tx 1#8
  setByte a tyNext txNext 1#8

/-- The body that `build_active_tiles` and `build_active_from_live` share:
clear the array, then mark around every tile that is `live`. -/
def expandActive (th tw : Nat) (live : Nat → Nat → Bool) (a : Tiles) : Tiles :=
  let a := fill 0 th 0 tw 0#8 a
  forUpto 0 th (fun ty => forUpto 0 tw (fun tx a =>
    if live ty tx = true then markAround th tw ty tx a else a)) a

/-- `build_active_from_live`. -/
def buildActiveFromLive (th tw : Nat) (liveTiles active : Tiles) : Tiles :=
  expandActive th tw (fun ty tx => decide (liveTiles ty tx ≠ 0#8)) active

/-- The tables that `step_board` fills, beside the active tiles. -/
structure Tables where
  live : Tiles
  dirty : Tiles

/-- Everything `step_board` writes. -/
structure Stepped where
  dst : Board
  tables : Tables
  active : Tiles

/-- `life2.c:430-439` and `life2_2x.c:452-460`: both tables cleared as one array
of words each. -/
def clearTables (th tw : Nat) (t : Tables) : Tables :=
  forUpto 0 (th * tw / 2) (fun i t =>
    ⟨setWord t.live (2 * i / tw) (2 * i % tw) 0#16,
      setWord t.dirty (2 * i / tw) (2 * i % tw) 0#16⟩) t

/-- `j` is `i` or one of its two neighbours on a cycle of length `n`. -/
def Near (n i j : Nat) : Prop := j = prevIndex n i ∨ j = i ∨ j = nextIndex n i

/-- Reading a byte array at a pair of indices. -/
def at2 (b : Nat → Nat → Byte) (p : Nat × Nat) : Byte := b p.1 p.2

theorem writes_setByte (y x : Nat) (v : Byte) :
    Writes (fun _ => True) at2 (fun p => p.1 = y ∧ p.2 = x) (fun _ => v)
      (fun b => setByte b y x v) :=
  ⟨fun _ => trivial, fun _ hp => if_pos hp, fun _ hp => if_neg hp⟩

theorem writes_setWord (y x : Nat) (v : Word) (hx : x % 2 = 0) :
    Writes (fun _ => True) at2 (fun p => p.1 = y ∧ (p.2 = x ∨ p.2 = x + 1))
      (fun p => wordByte v p.2) (fun b => setWord b y x v) where
  stays := fun _ => trivial
  written := by
    rintro b ⟨y', x'⟩ - ⟨rfl, rfl | rfl⟩
    · simp only [at2, setWord_apply, wordByte, if_pos hx, and_self, if_true]
    · have hodd : ¬ (x + 1) % 2 = 0 := by omega
      simp [at2, setWord_apply, wordByte, hodd]
  kept := by
    rintro b ⟨y', x'⟩ - hp
    simp only [at2, setWord_apply]
    rw [if_neg (fun h => hp ⟨h.1, Or.inl h.2⟩), if_neg (fun h => hp ⟨h.1, Or.inr h.2⟩)]

theorem writes_fill (y0 y1 x0 x1 : Nat) (v : Byte) :
    Writes (fun _ => True) at2 (fun p => (y0 ≤ p.1 ∧ p.1 < y1) ∧ x0 ≤ p.2 ∧ p.2 < x1)
      (fun _ => v) (fill y0 y1 x0 x1 v) := by
  have h := Writes.forUpto y0 y1 fun y _ _ =>
    Writes.forUpto x0 x1 fun x _ _ => writes_setByte y x v
  refine h.congr (fun p => ?_) fun _ _ => rfl
  constructor
  · rintro ⟨⟨h1, h2⟩, h3, h4⟩
    exact ⟨p.1, h1, h2, p.2, h3, h4, rfl, rfl⟩
  · rintro ⟨y, h1, h2, x, h3, h4, rfl, rfl⟩
    exact ⟨⟨h1, h2⟩, h3, h4⟩

theorem fill_of_mem {y0 y1 x0 x1 y x : Nat} (hy : y0 ≤ y ∧ y < y1) (hx : x0 ≤ x ∧ x < x1)
    (v : Byte) (b : Nat → Nat → Byte) : fill y0 y1 x0 x1 v b y x = v :=
  (writes_fill y0 y1 x0 x1 v).written (p := (y, x)) trivial ⟨hy, hx⟩

theorem fill_of_not_mem {y0 y1 x0 x1 y x : Nat}
    (h : ¬ ((y0 ≤ y ∧ y < y1) ∧ x0 ≤ x ∧ x < x1)) (v : Byte) (b : Nat → Nat → Byte) :
    fill y0 y1 x0 x1 v b y x = b y x :=
  (writes_fill y0 y1 x0 x1 v).kept (p := (y, x)) trivial h

section ClearTables
variable (th : Nat) {k : Nat}

theorem writes_clearTables_at (hk : 0 < k) (pr : Tables → Tiles)
    (hpr : ∀ (t : Tables) (y x : Nat), pr ⟨setWord t.live y x 0#16, setWord t.dirty y x 0#16⟩ =
      setWord (pr t) y x 0#16) :
    Writes (fun _ => True) (fun t => at2 (pr t)) (fun p => p.1 < th ∧ p.2 < 2 * k)
      (fun _ => 0#8) (clearTables th (2 * k)) := by
  have hstep : ∀ i, 0 ≤ i → i < th * (2 * k) / 2 → Writes (fun _ => True)
      (fun t => at2 (pr t)) (fun p => p.1 = 2 * i / (2 * k) ∧
        (p.2 = 2 * i % (2 * k) ∨ p.2 = 2 * i % (2 * k) + 1)) (fun _ => 0#8)
      (fun t : Tables => ⟨setWord t.live (2 * i / (2 * k)) (2 * i % (2 * k)) 0#16,
        setWord t.dirty (2 * i / (2 * k)) (2 * i % (2 * k)) 0#16⟩) := fun i _ _ => by
    have heven : 2 * i % (2 * k) % 2 = 0 := by rw [Nat.mul_mod_mul_left]; omega
    have hw := writes_setWord (2 * i / (2 * k)) (2 * i % (2 * k)) 0#16 heven
    refine (hw.congr (fun p => Iff.rfl) fun p _ => ?_).proj pr fun t => hpr t _ _
    rw [wordByte]
    split <;> rfl
  have hwords : th * (2 * k) / 2 = th * k := by
    rw [Nat.mul_left_comm, Nat.mul_div_cancel_left _ (by decide)]
  refine (Writes.forUpto 0 (th * (2 * k) / 2) hstep).congr (fun p => ?_) fun _ _ => rfl
  rw [hwords]
  simp only [Nat.mul_mod_mul_left, Nat.mul_div_mul_left _ _ Nat.zero_lt_two]
  constructor
  · rintro ⟨hy, hx⟩
    have hcol : p.2 / 2 < k := by omega
    have hdiv : (k * p.1 + p.2 / 2) / k = p.1 := by
      rw [Nat.mul_add_div hk, Nat.div_eq_of_lt hcol, Nat.add_zero]
    have hmod : (k * p.1 + p.2 / 2) % k = p.2 / 2 := by
      rw [Nat.mul_add_mod, Nat.mod_eq_of_lt hcol]
    have hlt : k * p.1 + p.2 / 2 < th * k := by
      have h1 : (p.1 + 1) * k ≤ th * k := Nat.mul_le_mul_right k hy
      rw [Nat.succ_mul, Nat.mul_comm] at h1
      omega
    exact ⟨_, Nat.zero_le _, hlt, hdiv.symm, by rw [hmod]; omega⟩
  · rintro ⟨i, -, hi, hy, hx⟩
    have h1 : i / k < th := Nat.div_lt_of_lt_mul (by rwa [Nat.mul_comm])
    have h2 := Nat.mod_lt i hk
    omega

theorem clearTables_live {th tw ty tx : Nat} (htw : tw % 2 = 0) (t : Tables) (hy : ty < th)
    (hx : tx < tw) : (clearTables th tw t).live ty tx = 0#8 := by
  obtain ⟨k, rfl⟩ : ∃ k, tw = 2 * k := ⟨tw / 2, by omega⟩
  exact (writes_clearTables_at th (by omega) Tables.live fun _ _ _ => rfl).written
    (p := (ty, tx)) trivial ⟨hy, hx⟩

theorem clearTables_dirty {th tw ty tx : Nat} (htw : tw % 2 = 0) (t : Tables) (hy : ty < th)
    (hx : tx < tw) : (clearTables th tw t).dirty ty tx = 0#8 := by
  obtain ⟨k, rfl⟩ : ∃ k, tw = 2 * k := ⟨tw / 2, by omega⟩
  exact (writes_clearTables_at th (by omega) Tables.dirty fun _ _ _ => rfl).written
    (p := (ty, tx)) trivial ⟨hy, hx⟩

end ClearTables

theorem writes_markAround (th tw ty tx : Nat) :
    Writes (fun _ => True) at2 (fun p => Near th ty p.1 ∧ Near tw tx p.2) (fun _ => 1#8)
      (markAround th tw ty tx) := by
  have h := fun y x => writes_setByte y x 1#8
  refine ((((((((h (prevIndex th ty) (prevIndex tw tx)).comp (h (prevIndex th ty) tx)).comp
    (h (prevIndex th ty) (nextIndex tw tx))).comp (h ty (prevIndex tw tx))).comp (h ty tx)).comp
    (h ty (nextIndex tw tx))).comp (h (nextIndex th ty) (prevIndex tw tx))).comp
    (h (nextIndex th ty) tx)).comp (h (nextIndex th ty) (nextIndex tw tx)) |>.congr
    (fun p => ?_) fun _ _ => rfl
  simp only [Near]
  tauto

/-- The second pass of `expandActive`. -/
theorem writes_marks (th tw : Nat) (live : Nat → Nat → Bool) :
    Writes (fun _ => True) at2
      (fun p => ∃ ty, 0 ≤ ty ∧ ty < th ∧ ∃ tx, 0 ≤ tx ∧ tx < tw ∧
        live ty tx = true ∧ Near th ty p.1 ∧ Near tw tx p.2) (fun _ => 1#8)
      (forUpto 0 th fun ty => forUpto 0 tw fun tx a =>
        if live ty tx = true then markAround th tw ty tx a else a) :=
  Writes.forUpto 0 th fun ty _ _ =>
    Writes.forUpto 0 tw fun tx _ _ => (writes_markAround th tw ty tx).guard

theorem expandActive_of_near {th tw ty tx ty' tx' : Nat} {live : Nat → Nat → Bool} (a : Tiles)
    (hty : ty < th) (htx : tx < tw) (hlive : live ty tx = true) (hy : Near th ty ty')
    (hx : Near tw tx tx') : expandActive th tw live a ty' tx' = 1#8 :=
  (writes_marks th tw live).written (p := (ty', tx')) trivial
    ⟨ty, Nat.zero_le _, hty, tx, Nat.zero_le _, htx, hlive, hy, hx⟩

/-- Every tile around a live tile is active. -/
def Covers (th tw : Nat) (active : Tiles) (live : Nat → Nat → Prop) : Prop :=
  ∀ ty < th, ∀ tx < tw, live ty tx → ∀ ty' tx', Near th ty ty' → Near tw tx tx' →
    active ty' tx' ≠ 0#8

theorem expandActive_covers {th tw : Nat} {live : Nat → Nat → Bool} {Live : Nat → Nat → Prop}
    (h : ∀ ty < th, ∀ tx < tw, Live ty tx → live ty tx = true) (a : Tiles) :
    Covers th tw (expandActive th tw live a) Live := by
  intro ty hty tx htx hlive ty' tx' hy hx
  rw [expandActive_of_near a hty htx (h ty hty tx htx hlive) hy hx]
  decide

theorem buildActiveFromLive_covers {th tw : Nat} {liveTiles : Tiles} {Live : Nat → Nat → Prop}
    (h : ∀ ty < th, ∀ tx < tw, Live ty tx → liveTiles ty tx ≠ 0#8) (active : Tiles) :
    Covers th tw (buildActiveFromLive th tw liveTiles active) Live :=
  expandActive_covers (fun ty hty tx htx hl => decide_eq_true (h ty hty tx htx hl)) active

/-! ## Cells and tiles -/

/-- Some cell of tile `(ty, tx)` of size `s` is live. -/
def TileLive (s : Nat) (g : Nat → Nat → Bool) (ty tx : Nat) : Prop :=
  ∃ r < s, ∃ c < s, g (s * ty + r) (s * tx + c) = true

theorem tileLive_of_cell {s : Nat} (hs : 0 < s) {g : Nat → Nat → Bool} {y x : Nat}
    (h : g y x = true) : TileLive s g (y / s) (x / s) := by
  refine ⟨y % s, Nat.mod_lt y hs, x % s, Nat.mod_lt x hs, ?_⟩
  rw [Nat.div_add_mod, Nat.div_add_mod]
  exact h

theorem mul_add_div_of_lt {s q r : Nat} (h : r < s) : (s * q + r) / s = q := by
  rw [Nat.mul_add_div (by omega), Nat.div_eq_of_lt h, Nat.add_zero]

/-- Neighbouring rows are in neighbouring tile rows. -/
theorem near_div {s n y y' : Nat} (hs : 0 < s) (hy : y < s * n) (h : Near (s * n) y y') :
    Near n (y' / s) (y / s) := by
  obtain ⟨q, r, hr, rfl⟩ : ∃ q r, r < s ∧ y = s * q + r :=
    ⟨y / s, y % s, Nat.mod_lt y hs, (Nat.div_add_mod y s).symm⟩
  have hq : q < n := by
    have := Nat.div_lt_of_lt_mul hy
    rwa [mul_add_div_of_lt hr] at this
  have hn : s * n = s * (n - 1) + s := by
    rw [← Nat.mul_succ]
    congr 1
    omega
  rw [mul_add_div_of_lt hr]
  rcases h with rfl | rfl | rfl
  · -- the row above
    unfold prevIndex
    by_cases h0 : s * q + r = 0
    · have hq0 : q = 0 := by
        rcases Nat.mul_eq_zero.1 (by omega : s * q = 0) with h1 | h1 <;> omega
      have he : s * n - 1 = s * (n - 1) + (s - 1) := by omega
      rw [if_pos h0, he, mul_add_div_of_lt (by omega), hq0]
      right; right
      rw [nextIndex, if_pos (by omega)]
    · rw [if_neg h0]
      by_cases hr0 : r = 0
      · have hq0 : q ≠ 0 := fun hz => h0 (by rw [hz, hr0, Nat.mul_zero])
        have hsq : s * q = s * (q - 1) + s := by
          rw [← Nat.mul_succ]
          congr 1
          omega
        have he : s * q + r - 1 = s * (q - 1) + (s - 1) := by omega
        rw [he, mul_add_div_of_lt (by omega)]
        right; right
        rw [nextIndex, if_neg (by omega)]
        omega
      · have he : s * q + r - 1 = s * q + (r - 1) := by omega
        rw [he, mul_add_div_of_lt (by omega)]
        exact Or.inr (Or.inl rfl)
  · rw [mul_add_div_of_lt hr]
    exact Or.inr (Or.inl rfl)
  · -- the row below
    unfold nextIndex
    by_cases hlast : s * q + r + 1 = s * n
    · have hqn : q = n - 1 := by
        have he : s * q + r = s * (n - 1) + (s - 1) := by omega
        have hd := congrArg (· / s) he
        simp only [mul_add_div_of_lt hr, mul_add_div_of_lt (by omega : s - 1 < s)] at hd
        exact hd
      rw [if_pos hlast, Nat.zero_div]
      left
      rw [prevIndex, if_pos rfl, hqn]
    · rw [if_neg hlast]
      by_cases hr1 : r + 1 = s
      · have he : s * q + r + 1 = s * (q + 1) + 0 := by
          rw [Nat.mul_succ]
          omega
        rw [he, mul_add_div_of_lt hs]
        left
        rw [prevIndex, if_neg (by omega)]
        omega
      · have he : s * q + r + 1 = s * q + (r + 1) := by omega
        rw [he, mul_add_div_of_lt (by omega)]
        exact Or.inr (Or.inl rfl)

theorem near_lt {n i j : Nat} (hi : i < n) (h : Near n i j) : j < n := by
  rcases h with rfl | rfl | rfl
  · exact prevIndex_lt hi
  · exact hi
  · exact nextIndex_lt hi

section Uncovered
variable {s th tw : Nat} {g : Nat → Nat → Bool} {active : Tiles} {y x : Nat}

/-- Around an inactive tile every cell is dead. -/
theorem dead_near (hs : 0 < s) (hc : Covers th tw active (TileLive s g))
    (hy : y < s * th) (hx : x < s * tw) (ha : active (y / s) (x / s) = 0#8) {y' x' : Nat}
    (hy' : Near (s * th) y y') (hx' : Near (s * tw) x x') : g y' x' = false := by
  by_contra hlive
  rw [Bool.not_eq_false] at hlive
  have hty : y' / s < th := Nat.div_lt_of_lt_mul (near_lt hy hy')
  have htx : x' / s < tw := Nat.div_lt_of_lt_mul (near_lt hx hx')
  exact hc _ hty _ htx (tileLive_of_cell hs hlive) _ _ (near_div hs hy hy') (near_div hs hx hx') ha

theorem conway_of_inactive (hs : 0 < s) (hc : Covers th tw active (TileLive s g))
    (hy : y < s * th) (hx : x < s * tw) (ha : active (y / s) (x / s) = 0#8) :
    conway (s * tw) (s * th) g y x = false := by
  have hdead : ∀ y' x', Near (s * th) y y' → Near (s * tw) x x' → g y' x' = false :=
    fun y' x' h1 h2 => dead_near hs hc hy hx ha h1 h2
  have hself : ∀ n i, Near n i i := fun n i => Or.inr (Or.inl rfl)
  have hprev : ∀ n i, Near n i (prevIndex n i) := fun n i => Or.inl rfl
  have hnext : ∀ n i, Near n i (nextIndex n i) := fun n i => Or.inr (Or.inr rfl)
  simp only [conway, liveNeighbours, ← prevIndex_eq hy, ← nextIndex_eq hy, ← prevIndex_eq hx,
    ← nextIndex_eq hx]
  rw [hdead _ _ (hself _ _) (hself _ _), hdead _ _ (hprev _ _) (hprev _ _),
    hdead _ _ (hprev _ _) (hself _ _), hdead _ _ (hprev _ _) (hnext _ _),
    hdead _ _ (hself _ _) (hprev _ _), hdead _ _ (hself _ _) (hnext _ _),
    hdead _ _ (hnext _ _) (hprev _ _), hdead _ _ (hnext _ _) (hself _ _),
    hdead _ _ (hnext _ _) (hnext _ _)]
  rfl

end Uncovered
end LlvmTms9900.Life
