import LlvmTms9900.Arith.ForLoop
import LlvmTms9900.Life.Engine2x

/-!
# Seeding the board of the 2x Life cartridge (cart_example/life2_2x.c)

Blocks of four by four cells are laid on a grid that is shifted by a random
offset. The origin of a block is wrapped onto the torus, its cells are not. The
board is the sixteen bytes a row from its address on, followed by whatever the
linker has put there. `calls` is history: the cells that were set, in order.
-/

namespace LlvmTms9900.Life.Seed2x
open LlvmTms9900.Isa LlvmTms9900.Arith LlvmTms9900.Life.Engine2x

structure Seeding where
  mem : Nat → Byte
  rng : Word
  calls : List (Nat × Nat)

def seedBlockSize : Nat := 4

def seedDropoutThreshold : Byte := BitVec.ofNat 8 (20 * 256 / 100)

/-- `rng_next`: the new state, which is also the value. -/
def rngNext (s : Word) : Word :=
  if s &&& 1#16 ≠ 0#16 then (s >>> 1) ^^^ 0xB400#16 else s >>> 1

def bitMask : List Byte := [0x80#8, 0x40#8, 0x20#8, 0x10#8, 0x08#8, 0x04#8, 0x02#8, 0x01#8]

/-- `b[y][x >> 3] |= bit_mask[x & 7]`. -/
def mark (mem : Nat → Byte) (x y : Nat) : Nat → Byte :=
  Function.update mem (y * cellRowBytes + x >>> 3)
    (mem (y * cellRowBytes + x >>> 3) ||| bitMask.getD (x &&& 7) 0#8)

/-- `set_cell`. -/
def setCell (x y : Nat) (s : Seeding) : Seeding :=
  { s with mem := mark s.mem x y, calls := s.calls ++ [(x, y)] }

/-- A random byte below the threshold. -/
def below (r : Word) (threshold : Byte) : Prop := r.setWidth 8 < threshold

instance (r : Word) (threshold : Byte) : Decidable (below r threshold) :=
  inferInstanceAs (Decidable (r.setWidth 8 < threshold))

/-- The body of the loops of `seed_block`. -/
def seedCell (x0 y0 : Nat) (dropoutThreshold : Byte) (y x : Nat) (s : Seeding) : Seeding :=
  if dropoutThreshold ≠ 0#8 then
    let s := { s with rng := rngNext s.rng }
    if below s.rng dropoutThreshold then s else setCell (x0 + x) (y0 + y) s
  else setCell (x0 + x) (y0 + y) s

/-- `seed_block`. -/
def seedBlock (x0 y0 : Nat) (dropoutThreshold : Byte) (s : Seeding) : Seeding :=
  forUpto 0 seedBlockSize (fun y =>
    forUpto 0 seedBlockSize (fun x => seedCell x0 y0 dropoutThreshold y x)) s

/-- `clear_board`. -/
def clearBoard (mem : Nat → Byte) : Nat → Byte :=
  forUpto 0 cellH (fun y => forUpto 0 cellRowBytes fun x mem =>
    Function.update mem (y * cellRowBytes + x) 0#8) mem

/-- `if (pos >= limit) pos -= limit;` -/
def wrapPos (pos limit : Nat) : Nat := if limit ≤ pos then pos - limit else pos

/-- The body of the loops of `seed_board`, for `y = 4 * i` and `x = 4 * k`. -/
def seedGridBlock (density : Byte) (xOffset yOffset i k : Nat) (s : Seeding) : Seeding :=
  let yPos := wrapPos (i * seedBlockSize + yOffset) cellH
  let xPos := wrapPos (k * seedBlockSize + xOffset) cellW
  let s := { s with rng := rngNext s.rng }
  if below s.rng density then seedBlock xPos yPos seedDropoutThreshold s else s

/-- `rng_next() & mask`, as a coordinate. -/
def drawMasked (mask : Word) (s : Seeding) : Nat × Seeding :=
  ((rngNext s.rng &&& mask).toNat, { s with rng := rngNext s.rng })

/-- `LIFE_SEED_EDGE_BLOCKS`. -/
def seedEdges (s : Seeding) : Seeding :=
  let (edgeX, s) := drawMasked (0x7F#16 &&& ~~~3#16) s
  let (edgeY, s) := drawMasked (0x5F#16 &&& ~~~3#16) s
  let s := seedBlock 0 edgeY seedDropoutThreshold s
  let s := seedBlock (cellW - seedBlockSize) edgeY seedDropoutThreshold s
  let s := seedBlock edgeX 0 seedDropoutThreshold s
  seedBlock edgeX (cellH - seedBlockSize) seedDropoutThreshold s

/-- `seed_board`. -/
def seedBoard (density : Byte) (s : Seeding) : Seeding :=
  let (xOffset, s) := drawMasked 3#16 s
  let (yOffset, s) := drawMasked 3#16 s
  let s := { s with mem := clearBoard s.mem }
  let s := forUpto 0 (cellH / seedBlockSize) (fun i =>
    forUpto 0 (cellW / seedBlockSize) (seedGridBlock density xOffset yOffset i)) s
  seedEdges s

/-! ## Memory -/

def cellAt (mem : Nat → Byte) (y x : Nat) : Bool :=
  (mem (y * cellRowBytes + x / 8)).getLsbD (7 - x % 8)

theorem bitMask_getLsbD :
    ∀ r < 8, ∀ s < 8, (bitMask.getD r 0#8).getLsbD (7 - s) = decide (s = r) := by
  decide

section Memory
variable {mem : Nat → Byte} {x y : Nat}

theorem mark_index (x y : Nat) : y * cellRowBytes + x >>> 3 = y * cellRowBytes + x / 8 := by
  rw [Nat.shiftRight_eq_div_pow]

theorem and_seven (x : Nat) : x &&& 7 = x % 8 := Nat.and_two_pow_sub_one_eq_mod x 3

theorem mark_other {a : Nat} (ha : a ≠ y * cellRowBytes + x / 8) : mark mem x y a = mem a := by
  rw [mark, mark_index, Function.update_of_ne ha]

/-- One cell of the board is set. -/
theorem cellAt_mark {x' y' : Nat} (hx : x < cellW) (hx' : x' < cellW) :
    cellAt (mark mem x y) y' x' = (cellAt mem y' x' || decide ((x', y') = (x, y))) := by
  have h128 : cellW = 128 := rfl
  by_cases ha : y' * cellRowBytes + x' / 8 = y * cellRowBytes + x / 8
  · have hpos : y' * 16 + x' / 8 = y * 16 + x / 8 := ha
    have hy : y' = y := by omega
    have hbyte : mark mem x y (y' * cellRowBytes + x' / 8) =
        mem (y' * cellRowBytes + x' / 8) ||| bitMask.getD (x % 8) 0#8 := by
      rw [ha, mark, mark_index, and_seven, Function.update_self]
    rw [cellAt, hbyte, BitVec.getLsbD_or, bitMask_getLsbD (x % 8) (by omega) (x' % 8) (by omega),
      cellAt]
    congr 1
    rw [decide_eq_decide, Prod.mk.injEq]
    omega
  · have hne : ¬ (x', y') = (x, y) := fun heq => ha (by
      rw [(Prod.mk.inj heq).1, (Prod.mk.inj heq).2])
    rw [cellAt, mark_other ha, decide_eq_false hne, Bool.or_false, cellAt]

def markAll (l : List (Nat × Nat)) (mem : Nat → Byte) : Nat → Byte :=
  l.foldl (fun m c => mark m c.1 c.2) mem

theorem markAll_append (l l' : List (Nat × Nat)) (mem : Nat → Byte) :
    markAll (l ++ l') mem = markAll l' (markAll l mem) := List.foldl_append

/-- Calls on the board set their cells and nothing else. -/
theorem markAll_spec (mem : Nat → Byte) {l : List (Nat × Nat)}
    (hl : ∀ c ∈ l, c.1 < cellW ∧ c.2 < cellH) :
    (∀ a, cellH * cellRowBytes ≤ a → markAll l mem a = mem a) ∧
      ∀ y x, x < cellW → (cellAt (markAll l mem) y x = true ↔
        cellAt mem y x = true ∨ (x, y) ∈ l) := by
  have h96 : cellH = 96 := rfl
  have h128 : cellW = 128 := rfl
  induction l generalizing mem with
  | nil => exact ⟨fun _ _ => rfl, fun y x _ => by simp [markAll]⟩
  | cons c l ih =>
    obtain ⟨hc, hl⟩ := List.forall_mem_cons.1 hl
    obtain ⟨hout, hin⟩ := ih (mark mem c.1 c.2) hl
    refine ⟨fun a ha => ?_, fun y x hx => ?_⟩
    · have ha' : 96 * 16 ≤ a := ha
      have hne : a ≠ c.2 * 16 + c.1 / 8 := by omega
      exact (hout a ha).trans (mark_other hne)
    · have hstep := hin y x hx
      rw [cellAt_mark hc.1 hx, Bool.or_eq_true, decide_eq_true_iff] at hstep
      rw [List.mem_cons, ← or_assoc]
      exact hstep

theorem clearBoard_spec (mem : Nat → Byte) (a : Nat) :
    clearBoard mem a = if a < cellH * cellRowBytes then 0#8 else mem a := by
  have h16 : cellRowBytes = 16 := rfl
  have h96 : cellH = 96 := rfl
  have h : Writes (fun _ => True) (fun (m : Nat → Byte) a => m a)
      (fun a => ∃ y, 0 ≤ y ∧ y < cellH ∧ ∃ x, 0 ≤ x ∧ x < cellRowBytes ∧ a = y * cellRowBytes + x)
      (fun _ => 0#8) clearBoard :=
    Writes.forUpto 0 cellH fun y _ _ => Writes.forUpto 0 cellRowBytes fun x _ _ =>
      ⟨fun _ => trivial, fun {m a} _ ha => by rw [ha, Function.update_self],
        fun {m a} _ ha => Function.update_of_ne ha _ _⟩
  by_cases ha : a < cellH * cellRowBytes
  · have ha' : a < 96 * 16 := ha
    have hpos : a = a / 16 * 16 + a % 16 := by omega
    rw [if_pos ha]
    exact h.written trivial ⟨a / 16, Nat.zero_le _, by omega, a % 16, Nat.zero_le _, by omega, hpos⟩
  · rw [if_neg ha]
    refine h.kept trivial ?_
    rintro ⟨y, -, hy, x, -, hx, rfl⟩
    refine ha ?_
    show y * 16 + x < 96 * 16
    omega

end Memory

/-! ## Streams of random words -/

/-- The calls `l` are made, and the state of `rng_next` is `r` afterwards. -/
structure Seeded (s : Seeding) (r : Word) (l : List (Nat × Nat)) (s' : Seeding) : Prop where
  rng : s'.rng = r
  calls : s'.calls = s.calls ++ l
  mem : s'.mem = markAll l s.mem

/-- The cell `k` of a block is not dropped. -/
def kept (r : Word) (k : Nat) : Bool := !decide (below (rngNext^[k + 1] r) seedDropoutThreshold)

theorem kept_iff {r : Word} {k : Nat} :
    kept r k = true ↔ ¬ below (rngNext^[k + 1] r) seedDropoutThreshold := by
  rw [kept, Bool.not_eq_true', decide_eq_false_iff_not]

/-- The first `n` cells of a block, without the dropped ones. -/
def blockCells (r : Word) (x0 y0 n : Nat) : List (Nat × Nat) :=
  ((List.range n).filter (kept r)).map fun k => (x0 + k % 4, y0 + k / 4)

section Blocks
variable {s s' s'' : Seeding} {r r' : Word} {l l' : List (Nat × Nat)}

theorem Seeded.refl (s : Seeding) : Seeded s s.rng [] s := ⟨rfl, by simp, rfl⟩

theorem Seeded.trans (h : Seeded s r l s') (h' : Seeded s' r' l' s'') :
    Seeded s r' (l ++ l') s'' := by
  refine ⟨h'.rng, ?_, ?_⟩
  · rw [h'.calls, h.calls, List.append_assoc]
  · rw [h'.mem, h.mem, markAll_append]

theorem blockCells_succ (r : Word) (x0 y0 n : Nat) : blockCells r x0 y0 (n + 1) =
    blockCells r x0 y0 n ++ if kept r n = true then [(x0 + n % 4, y0 + n / 4)] else [] := by
  rw [blockCells, List.range_succ, List.filter_append, List.map_append, blockCells]
  by_cases hk : kept r n = true
  · simp [hk]
  · simp [hk]

/-- One cell of a block. -/
theorem seedCell_spec (x0 y0 y x : Nat) (s : Seeding) :
    Seeded s (rngNext s.rng)
      (if below (rngNext s.rng) seedDropoutThreshold then [] else [(x0 + x, y0 + y)])
      (seedCell x0 y0 seedDropoutThreshold y x s) := by
  have hthreshold : seedDropoutThreshold ≠ 0#8 := by decide
  rw [seedCell, if_pos hthreshold]
  by_cases hb : below (rngNext s.rng) seedDropoutThreshold
  · simp only [if_pos hb]
    exact ⟨rfl, by simp, rfl⟩
  · simp only [if_neg hb]
    exact ⟨rfl, rfl, rfl⟩

theorem seedBlock_spec (x0 y0 : Nat) (s : Seeding) :
    Seeded s (rngNext^[16] s.rng) (blockCells s.rng x0 y0 16)
      (seedBlock x0 y0 seedDropoutThreshold s) := by
  have h4 : seedBlockSize = 4 := rfl
  refine forUpto_inv (P := fun y s' => Seeded s (rngNext^[4 * y] s.rng)
    (blockCells s.rng x0 y0 (4 * y)) s') (Nat.zero_le 4) (Seeded.refl s) fun y t _ _ ht => ?_
  refine forUpto_inv (P := fun x s' => Seeded s (rngNext^[4 * y + x] s.rng)
    (blockCells s.rng x0 y0 (4 * y + x)) s') (Nat.zero_le 4) ht fun x u _ hx hu => ?_
  have hcell := hu.trans (seedCell_spec x0 y0 y x u)
  have hmod : (4 * y + x) % 4 = x := by omega
  have hdiv : (4 * y + x) / 4 = y := by omega
  rw [hu.rng, ← Function.iterate_succ_apply' rngNext] at hcell
  rw [← Nat.add_assoc, blockCells_succ, hmod, hdiv]
  by_cases hb : below (rngNext^[4 * y + x + 1] s.rng) seedDropoutThreshold
  · have hkept : ¬ kept s.rng (4 * y + x) = true := fun h => kept_iff.1 h hb
    rw [if_pos hb] at hcell
    rw [if_neg hkept]
    exact hcell
  · rw [if_neg hb] at hcell
    rw [if_pos (kept_iff.2 hb)]
    exact hcell

end Blocks

/-! ## The grid -/

/-- The state of `rng_next` after a block of the grid. -/
def blockStep (density : Byte) (r : Word) : Word :=
  if below (rngNext r) density then rngNext^[16] (rngNext r) else rngNext r

/-- The state before block `j` of the grid, counted row by row. -/
def gridRng (density : Byte) (r : Word) (j : Nat) : Word := (blockStep density)^[j] r

/-- Block `j` is drawn. -/
def drawn (density : Byte) (r : Word) (j : Nat) : Prop :=
  below (rngNext (gridRng density r j)) density

instance (density : Byte) (r : Word) (j : Nat) : Decidable (drawn density r j) :=
  inferInstanceAs (Decidable (below (rngNext (gridRng density r j)) density))

/-- The cells of block `j` that are set. -/
def gridBlock (density : Byte) (xOffset yOffset : Nat) (r : Word) (j : Nat) : List (Nat × Nat) :=
  if drawn density r j then
    blockCells (rngNext (gridRng density r j)) (j % 32 * 4 + xOffset) (j / 32 * 4 + yOffset) 16
  else []

def gridCells (density : Byte) (xOffset yOffset : Nat) (r : Word) (n : Nat) : List (Nat × Nat) :=
  (List.range n).flatMap (gridBlock density xOffset yOffset r)

section Grid
variable {density : Byte} {xOffset yOffset : Nat} {s : Seeding}

theorem gridCells_succ (density : Byte) (xOffset yOffset : Nat) (r : Word) (n : Nat) :
    gridCells density xOffset yOffset r (n + 1) =
      gridCells density xOffset yOffset r n ++ gridBlock density xOffset yOffset r n := by
  rw [gridCells, List.range_succ, List.flatMap_append, List.flatMap_singleton, gridCells]

theorem gridRng_succ (density : Byte) (r : Word) (j : Nat) :
    gridRng density r (j + 1) = blockStep density (gridRng density r j) :=
  Function.iterate_succ_apply' (blockStep density) j r

/-- The origin of a block is on the board, so the wrap is never made. -/
theorem wrapPos_eq {pos limit : Nat} (h : pos < limit) : wrapPos pos limit = pos :=
  if_neg (by omega)

/-- One block of the grid. -/
theorem seedGridBlock_spec {i k : Nat} {r : Word} (hi : i < 24) (hk : k < 32) (hx : xOffset < 4)
    (hy : yOffset < 4) (hs : s.rng = gridRng density r (32 * i + k)) :
    Seeded s (gridRng density r (32 * i + k + 1))
      (gridBlock density xOffset yOffset r (32 * i + k))
      (seedGridBlock density xOffset yOffset i k s) := by
  have h4 : seedBlockSize = 4 := rfl
  have h96 : cellH = 96 := rfl
  have h128 : cellW = 128 := rfl
  have hmod : (32 * i + k) % 32 = k := by omega
  have hdiv : (32 * i + k) / 32 = i := by omega
  have hxPos : wrapPos (k * seedBlockSize + xOffset) cellW = k * 4 + xOffset := by
    rw [h4, wrapPos_eq (by omega)]
  have hyPos : wrapPos (i * seedBlockSize + yOffset) cellH = i * 4 + yOffset := by
    rw [h4, wrapPos_eq (by omega)]
  rw [seedGridBlock, hxPos, hyPos, gridRng_succ, blockStep, gridBlock, hmod, hdiv]
  simp only [drawn, ← hs]
  by_cases hb : below (rngNext s.rng) density
  · simp only [if_pos hb]
    obtain ⟨h1, h2, h3⟩ := seedBlock_spec (k * 4 + xOffset) (i * 4 + yOffset)
      { s with rng := rngNext s.rng }
    exact ⟨h1, h2, h3⟩
  · simp only [if_neg hb]
    exact ⟨rfl, by simp, rfl⟩

/-- All blocks of the grid. -/
theorem seedGrid_spec (density : Byte) (hx : xOffset < 4) (hy : yOffset < 4) (s : Seeding) :
    Seeded s (gridRng density s.rng 768) (gridCells density xOffset yOffset s.rng 768)
      (forUpto 0 (cellH / seedBlockSize) (fun i =>
        forUpto 0 (cellW / seedBlockSize) (seedGridBlock density xOffset yOffset i)) s) := by
  have hrows : cellH / seedBlockSize = 24 := rfl
  have hcols : cellW / seedBlockSize = 32 := rfl
  have hblocks : 768 = 32 * 24 := rfl
  rw [hrows, hcols, hblocks]
  refine forUpto_inv (P := fun i s' => Seeded s (gridRng density s.rng (32 * i))
    (gridCells density xOffset yOffset s.rng (32 * i)) s') (Nat.zero_le 24) (Seeded.refl s)
    fun i t _ hi ht => ?_
  refine forUpto_inv (P := fun k s' => Seeded s (gridRng density s.rng (32 * i + k))
    (gridCells density xOffset yOffset s.rng (32 * i + k)) s') (Nat.zero_le 32) ht
    fun k u _ hk hu => ?_
  rw [← Nat.add_assoc, gridCells_succ]
  exact hu.trans (seedGridBlock_spec hi hk hx hy hu.rng)

end Grid

/-! ## The whole board -/

def xOffset (r : Word) : Nat := (rngNext r &&& 3#16).toNat

def yOffset (r : Word) : Nat := (rngNext (rngNext r) &&& 3#16).toNat

/-- The state of `rng_next` before the first block. -/
def gridStart (r : Word) : Word := rngNext (rngNext r)

/-- Block `j` is drawn and its cell `k` is not dropped. -/
def setsCell (density : Byte) (r : Word) (j k : Nat) : Prop :=
  drawn density (gridStart r) j ∧ kept (rngNext (gridRng density (gridStart r) j)) k = true

instance (density : Byte) (r : Word) (j k : Nat) : Decidable (setsCell density r j k) :=
  inferInstanceAs (Decidable (_ ∧ _))

/-- No cell of a block of the last column is set behind the right edge, and none
of the last row below the bottom edge. -/
def EdgesClear (density : Byte) (r : Word) : Prop :=
  ∀ j < 768, ∀ k < 16, setsCell density r j k →
    (j % 32 = 31 → xOffset r + k % 4 < 4) ∧ (j / 32 = 23 → yOffset r + k / 4 < 4)

/-- What seeding should do: every call is on the board, nothing behind the board
is written, exactly the cells of the calls are set, and the cells of the blocks
are wrapped onto the torus. -/
structure StaysOnBoard (mem : Nat → Byte) (r : Word) (density : Byte) : Prop where
  calls : ∀ c ∈ (seedBoard density ⟨mem, r, []⟩).calls, c.1 < cellW ∧ c.2 < cellH
  behind : ∀ a, cellH * cellRowBytes ≤ a → (seedBoard density ⟨mem, r, []⟩).mem a = mem a
  cells : ∀ y < cellH, ∀ x < cellW, (cellAt (seedBoard density ⟨mem, r, []⟩).mem y x = true ↔
    (x, y) ∈ (seedBoard density ⟨mem, r, []⟩).calls)
  wrapped : ∀ j < 768, ∀ k < 16, setsCell density r j k →
    ((j % 32 * 4 + xOffset r + k % 4) % cellW, (j / 32 * 4 + yOffset r + k / 4) % cellH) ∈
      (seedBoard density ⟨mem, r, []⟩).calls

section Board
variable {s : Seeding} {density : Byte} {r : Word} {mem : Nat → Byte} {x y x0 y0 : Nat}

theorem and_toNat_le (a m : Word) : (a &&& m).toNat ≤ m.toNat := by
  rw [BitVec.toNat_and]
  exact Nat.and_le_right

theorem xOffset_lt (r : Word) : xOffset r < 4 := Nat.lt_succ_of_le (and_toNat_le _ 3#16)

theorem yOffset_lt (r : Word) : yOffset r < 4 := Nat.lt_succ_of_le (and_toNat_le _ 3#16)

theorem mem_blockCells {n : Nat} : (x, y) ∈ blockCells r x0 y0 n ↔
    ∃ k < n, kept r k = true ∧ x = x0 + k % 4 ∧ y = y0 + k / 4 := by
  simp only [blockCells, List.mem_map, List.mem_filter, List.mem_range, Prod.mk.injEq]
  constructor
  · rintro ⟨k, ⟨hk, hkept⟩, rfl, rfl⟩
    exact ⟨k, hk, hkept, rfl, rfl⟩
  · rintro ⟨k, hk, hkept, rfl, rfl⟩
    exact ⟨k, ⟨hk, hkept⟩, rfl, rfl⟩

/-- A block whose origin is four cells from the edges. -/
theorem blockCells_inside (hx : x0 ≤ 124) (hy : y0 ≤ 92) :
    ∀ c ∈ blockCells r x0 y0 16, c.1 < cellW ∧ c.2 < cellH := by
  rintro ⟨x, y⟩ hc
  obtain ⟨k, hk, -, rfl, rfl⟩ := mem_blockCells.1 hc
  have h96 : cellH = 96 := rfl
  have h128 : cellW = 128 := rfl
  exact ⟨by omega, by omega⟩

theorem mem_gridCells :
    (x, y) ∈ gridCells density (xOffset r) (yOffset r) (gridStart r) 768 ↔
      ∃ j < 768, ∃ k < 16, setsCell density r j k ∧
        x = j % 32 * 4 + xOffset r + k % 4 ∧ y = j / 32 * 4 + yOffset r + k / 4 := by
  simp only [gridCells, List.mem_flatMap, List.mem_range, gridBlock]
  constructor
  · rintro ⟨j, hj, hc⟩
    by_cases hd : drawn density (gridStart r) j
    · rw [if_pos hd] at hc
      obtain ⟨k, hk, hkept, hxk, hyk⟩ := mem_blockCells.1 hc
      exact ⟨j, hj, k, hk, ⟨hd, hkept⟩, hxk, hyk⟩
    · rw [if_neg hd] at hc
      cases hc
  · rintro ⟨j, hj, k, hk, ⟨hd, hkept⟩, hxk, hyk⟩
    refine ⟨j, hj, ?_⟩
    rw [if_pos hd]
    exact mem_blockCells.2 ⟨k, hk, hkept, hxk, hyk⟩

/-- The blocks at the edges are inside. -/
theorem seedEdges_spec (s : Seeding) : ∃ r l, Seeded s r l (seedEdges s) ∧
    ∀ c ∈ l, c.1 < cellW ∧ c.2 < cellH := by
  have hx := and_toNat_le (rngNext s.rng) (0x7F#16 &&& ~~~3#16)
  have hy := and_toNat_le (rngNext (rngNext s.rng)) (0x5F#16 &&& ~~~3#16)
  have h0 : Seeded s (rngNext (rngNext s.rng)) [] { s with rng := rngNext (rngNext s.rng) } :=
    ⟨rfl, by simp, rfl⟩
  have hxm : (0x7F#16 &&& ~~~3#16 : Word).toNat = 124 := by decide
  have hym : (0x5F#16 &&& ~~~3#16 : Word).toNat = 92 := by decide
  rw [hxm] at hx
  rw [hym] at hy
  have h1 := h0.trans (seedBlock_spec 0 (rngNext (rngNext s.rng) &&& (0x5F#16 &&& ~~~3#16)).toNat _)
  have h2 := h1.trans (seedBlock_spec (cellW - seedBlockSize)
    (rngNext (rngNext s.rng) &&& (0x5F#16 &&& ~~~3#16)).toNat _)
  have h3 := h2.trans (seedBlock_spec (rngNext s.rng &&& (0x7F#16 &&& ~~~3#16)).toNat 0 _)
  have h4 := h3.trans (seedBlock_spec (rngNext s.rng &&& (0x7F#16 &&& ~~~3#16)).toNat
    (cellH - seedBlockSize) _)
  refine ⟨_, _, h4, ?_⟩
  simp only [List.nil_append, List.forall_mem_append]
  exact ⟨⟨⟨blockCells_inside (by decide) hy, blockCells_inside (by decide) hy⟩,
    blockCells_inside hx (by decide)⟩, blockCells_inside hx (by decide)⟩

theorem seedBoard_eq (density : Byte) (mem : Nat → Byte) (r : Word) :
    seedBoard density ⟨mem, r, []⟩ = seedEdges (forUpto 0 (cellH / seedBlockSize) (fun i =>
      forUpto 0 (cellW / seedBlockSize) (seedGridBlock density (xOffset r) (yOffset r) i))
        ⟨clearBoard mem, gridStart r, []⟩) := rfl

/-- The calls of `seed_board` are those of the grid and others on the board. -/
theorem seedBoard_spec (mem : Nat → Byte) (r : Word) (density : Byte) : ∃ edges,
    (∀ c ∈ edges, c.1 < cellW ∧ c.2 < cellH) ∧
      (seedBoard density ⟨mem, r, []⟩).calls =
        gridCells density (xOffset r) (yOffset r) (gridStart r) 768 ++ edges ∧
      (seedBoard density ⟨mem, r, []⟩).mem =
        markAll (seedBoard density ⟨mem, r, []⟩).calls (clearBoard mem) := by
  have hgrid := seedGrid_spec density (xOffset_lt r) (yOffset_lt r)
    ⟨clearBoard mem, gridStart r, []⟩
  obtain ⟨r', edges, hedges, hinside⟩ := seedEdges_spec
    (forUpto 0 (cellH / seedBlockSize) (fun i => forUpto 0 (cellW / seedBlockSize)
      (seedGridBlock density (xOffset r) (yOffset r) i)) ⟨clearBoard mem, gridStart r, []⟩)
  obtain ⟨-, hcalls, hmem⟩ := hgrid.trans hedges
  refine ⟨edges, hinside, ?_⟩
  dsimp only at hcalls hmem
  rw [List.nil_append] at hcalls
  rw [seedBoard_eq, hcalls]
  exact ⟨rfl, hmem⟩

end Board

section Edges
variable {density : Byte} {r : Word} {mem : Nat → Byte}

/-- A cell of the grid is on the board unless its block crosses an edge. -/
theorem grid_inside {j k : Nat} (hj : j < 768)
    (hx : j % 32 = 31 → xOffset r + k % 4 < 4) (hy : j / 32 = 23 → yOffset r + k / 4 < 4)
    (hk : k < 16) :
    j % 32 * 4 + xOffset r + k % 4 < cellW ∧ j / 32 * 4 + yOffset r + k / 4 < cellH := by
  have h1 := xOffset_lt r
  have h2 := yOffset_lt r
  have h96 : cellH = 96 := rfl
  have h128 : cellW = 128 := rfl
  constructor
  · by_cases hlast : j % 32 = 31
    · have := hx hlast
      omega
    · omega
  · by_cases hlast : j / 32 = 23
    · have := hy hlast
      omega
    · omega

theorem stays_of_edgesClear (mem : Nat → Byte) (h : EdgesClear density r) :
    StaysOnBoard mem r density := by
  obtain ⟨edges, hedges, hcalls, hmem⟩ := seedBoard_spec mem r density
  have hinside : ∀ c ∈ (seedBoard density ⟨mem, r, []⟩).calls, c.1 < cellW ∧ c.2 < cellH := by
    rw [hcalls]
    refine List.forall_mem_append.2 ⟨?_, hedges⟩
    rintro ⟨x, y⟩ hc
    obtain ⟨j, hj, k, hk, hset, rfl, rfl⟩ := mem_gridCells.1 hc
    obtain ⟨hx, hy⟩ := h j hj k hk hset
    exact grid_inside hj hx hy hk
  obtain ⟨hbehind, hcells⟩ := markAll_spec (clearBoard mem) hinside
  refine ⟨hinside, fun a ha => ?_, fun y hy x hx => ?_, fun j hj k hk hset => ?_⟩
  · rw [hmem, hbehind a ha, clearBoard_spec, if_neg (by omega)]
  · have hclear : ¬ cellAt (clearBoard mem) y x = true := by
      have h96 : y < 96 := hy
      have h128 : x < 128 := hx
      have hin : y * cellRowBytes + x / 8 < cellH * cellRowBytes := by
        show y * 16 + x / 8 < 96 * 16
        omega
      rw [cellAt, clearBoard_spec, if_pos hin, BitVec.getLsbD_zero]
      decide
    rw [hmem, hcells y x hx]
    exact or_iff_right hclear
  · obtain ⟨hx, hy⟩ := h j hj k hk hset
    obtain ⟨hxin, hyin⟩ := grid_inside hj hx hy hk
    rw [Nat.mod_eq_of_lt hxin, Nat.mod_eq_of_lt hyin, hcalls]
    exact List.mem_append_left edges (mem_gridCells.2 ⟨j, hj, k, hk, hset, rfl, rfl⟩)

theorem edgesClear_of_stays (h : StaysOnBoard mem r density) : EdgesClear density r := by
  intro j hj k hk hset
  obtain ⟨edges, -, hcalls, -⟩ := seedBoard_spec mem r density
  have hmem : (j % 32 * 4 + xOffset r + k % 4, j / 32 * 4 + yOffset r + k / 4) ∈
      (seedBoard density ⟨mem, r, []⟩).calls := by
    rw [hcalls]
    exact List.mem_append_left edges (mem_gridCells.2 ⟨j, hj, k, hk, hset, rfl, rfl⟩)
  obtain ⟨hx, hy⟩ := h.calls _ hmem
  have hx' : j % 32 * 4 + xOffset r + k % 4 < 128 := hx
  have hy' : j / 32 * 4 + yOffset r + k / 4 < 96 := hy
  exact ⟨fun _ => by omega, fun _ => by omega⟩

end Edges

/-- Seeding stays on the board exactly when no cell is set that a block of the
last column or row has behind the edge. -/
theorem staysOnBoard_iff (mem : Nat → Byte) (r : Word) (density : Byte) :
    StaysOnBoard mem r density ↔ EdgesClear density r :=
  ⟨edgesClear_of_stays, stays_of_edgesClear mem⟩

/-- Without an offset the grid of blocks is the board. -/
theorem edgesClear_of_offsets_zero {density : Byte} {r : Word} (hx : xOffset r = 0)
    (hy : yOffset r = 0) : EdgesClear density r := by
  intro j _ k hk _
  rw [hx, hy]
  exact ⟨fun _ => by omega, fun _ => by omega⟩

/-- At density zero no block is drawn. -/
theorem edgesClear_of_density_zero (r : Word) : EdgesClear 0#8 r := by
  rintro j - k - ⟨hdrawn, -⟩
  exact absurd hdrawn BitVec.not_lt_zero

/-- The first seeding after reset sets a cell behind the right edge: block 63 is
the last of the second row. -/
theorem reset_leaves_board : ¬ StaysOnBoard (fun _ => 0#8) 0x1D2B#16 70#8 := by
  intro h
  have hset : setsCell 70#8 0x1D2B#16 63 3 := by decide +kernel
  have hx := ((edgesClear_of_stays h) 63 (by decide) 3 (by decide) hset).1 rfl
  exact absurd hx (by decide)

end LlvmTms9900.Life.Seed2x
