import LlvmTms9900.Isa.Word

/-!
# The heap_4 allocator (tests/benchmarks/heap4.c)

A heap of 2048 bytes with a free list threaded through the headers of the free
blocks, in address order between the sentinels `xStart` and `xEnd`. Addresses
and sizes are 16-bit numbers; the arithmetic of the code wraps around. The two
walks along the list take a number of steps after which they are given up.
-/

namespace LlvmTms9900.Heap4
open LlvmTms9900.Isa

abbrev Mem := Nat → Byte

/-- Where the linker put `ucHeap`, `xStart` and `xEnd`. -/
structure Layout where
  ucHeap : Nat
  xStart : Nat
  xEnd : Nat
  even : ucHeap % 2 = 0
  start_outside : xStart + 4 ≤ ucHeap ∨ ucHeap + 2048 ≤ xStart
  end_above : ucHeap + 2048 ≤ xEnd
  start_bound : xStart + 4 ≤ 65536
  end_bound : xEnd + 4 ≤ 65536
  sentinels : xStart + 4 ≤ xEnd ∨ xEnd + 4 ≤ xStart

/-- The big-endian word at `a`. -/
def loadWord (m : Mem) (a : Nat) : Nat := (m a).toNat * 256 + (m (a + 1)).toNat

def storeWord (m : Mem) (a v : Nat) : Mem :=
  fun x => if x = a then BitVec.ofNat 8 (v / 256) else if x = a + 1 then BitVec.ofNat 8 v else m x

/-- `a->pxNextFreeBlock`. -/
def nextFree (m : Mem) (a : Nat) : Nat := loadWord m a

/-- `a->xBlockSize`. -/
def blockSize (m : Mem) (a : Nat) : Nat := loadWord m (a + 2)

def setNextFree (m : Mem) (a v : Nat) : Mem := storeWord m a v

def setBlockSize (m : Mem) (a v : Nat) : Mem := storeWord m (a + 2) v

/-- Addition and subtraction of `unsigned int`. -/
def add16 (a b : Nat) : Nat := (a + b) % 65536

def sub16 (a b : Nat) : Nat := (a + 65536 - b) % 65536

/-- The memory and `xFreeBytesRemaining`. -/
structure Heap where
  mem : Mem
  freeBytes : Nat

def headerSize : Nat := 4
def minBlockSize : Nat := 6

/-- `heap4.c:54-58`: walk to the last node in front of `blk`. -/
def walkTo (m : Mem) (blk : Nat) : Nat → Nat → Option Nat
  | 0, _ => none
  | fuel + 1, it => if nextFree m it < blk then walkTo m blk fuel (nextFree m it) else some it

/-- `heap4.c:61-68`: coalesce with the block before. -/
def coalesceBefore (m : Mem) (it blk : Nat) : Mem × Nat :=
  if add16 it (blockSize m it) = blk then
    (setBlockSize m it (add16 (blockSize m it) (blockSize m blk)), it)
  else (m, blk)

/-- `heap4.c:71-87`: coalesce with the block after, or link to it. -/
def coalesceAfter (xEnd : Nat) (m : Mem) (it blk : Nat) : Mem :=
  if add16 blk (blockSize m blk) = nextFree m it then
    if nextFree m it ≠ xEnd then
      let m := setBlockSize m blk (add16 (blockSize m blk) (blockSize m (nextFree m it)))
      setNextFree m blk (nextFree m (nextFree m it))
    else setNextFree m blk xEnd
  else setNextFree m blk (nextFree m it)

/-- `prvInsertBlockIntoFreeList`. -/
def prvInsertBlockIntoFreeList (L : Layout) (fuel : Nat) (m : Mem) (blk : Nat) : Option Mem :=
  match walkTo m blk fuel L.xStart with
  | none => none
  | some it =>
    let (m, blk) := coalesceBefore m it blk
    let m := coalesceAfter L.xEnd m it blk
    some (if it ≠ blk then setNextFree m it blk else m)

/-- `heap_init`. The first value of `uxAddress` is overwritten before it is
used. -/
def heapInit (L : Layout) (m : Mem) : Heap :=
  let m := setBlockSize m L.xStart 0
  let uxAddress := sub16 (add16 L.ucHeap 2048) headerSize / 2 * 2
  let m := setBlockSize m L.xEnd 0
  let m := setNextFree m L.xEnd 0
  let m := setBlockSize m L.ucHeap (sub16 uxAddress L.ucHeap)
  let m := setNextFree m L.ucHeap L.xEnd
  let m := setNextFree m L.xStart L.ucHeap
  ⟨m, blockSize m L.ucHeap⟩

/-- `heap4.c:150-154`: the first block that is large enough, or `xEnd`, and the
node before it. -/
def firstFit (m : Mem) (wanted : Nat) : Nat → Nat → Nat → Option (Nat × Nat)
  | 0, _, _ => none
  | fuel + 1, prev, blk =>
    if blockSize m blk < wanted ∧ nextFree m blk ≠ 0 then
      firstFit m wanted fuel blk (nextFree m blk)
    else some (prev, blk)

/-- `heap4.c:136-140`: the size with the header, rounded up. -/
def wantedSize (n : Nat) : Nat :=
  let w := add16 n headerSize
  if w % 2 ≠ 0 then add16 w 2 / 2 * 2 else w

/-- `heap4.c:164-173`: cut off what is not wanted, if it is large enough. -/
def splitBlock (L : Layout) (fuel : Nat) (m : Mem) (blk wanted : Nat) : Option Mem :=
  if minBlockSize ≤ sub16 (blockSize m blk) wanted then
    let new := add16 blk wanted
    let m := setBlockSize m new (sub16 (blockSize m blk) wanted)
    let m := setBlockSize m blk wanted
    prvInsertBlockIntoFreeList L fuel m new
  else some m

/-- `heap_malloc`: the pointer and the heap. -/
def heapMalloc (L : Layout) (fuel : Nat) (h : Heap) (n : Nat) : Option (Nat × Heap) :=
  if n = 0 then some (0, h)
  else if wantedSize n ≤ h.freeBytes then
    match firstFit h.mem (wantedSize n) fuel L.xStart (nextFree h.mem L.xStart) with
    | none => none
    | some (prev, blk) =>
      if blk ≠ L.xEnd then
        match splitBlock L fuel (setNextFree h.mem prev (nextFree h.mem blk)) blk (wantedSize n) with
        | none => none
        | some m =>
          some (add16 blk headerSize,
            ⟨setNextFree m blk 0, sub16 h.freeBytes (blockSize m blk)⟩)
      else some (0, h)
  else some (0, h)

/-- `heap_free`. -/
def heapFree (L : Layout) (fuel : Nat) (h : Heap) (pv : Nat) : Option Heap :=
  if pv = 0 then some h
  else
    let link := sub16 pv headerSize
    match prvInsertBlockIntoFreeList L fuel h.mem link with
    | none => none
    | some m => some ⟨m, add16 h.freeBytes (blockSize h.mem link)⟩

/-! ## Headers -/

section Headers
variable (m : Mem) {a b v : Nat}

theorem storeWord_frame {x : Nat} (h : x < a ∨ a + 2 ≤ x) (v : Nat) : storeWord m a v x = m x := by
  rw [storeWord, if_neg (by omega), if_neg (by omega)]

theorem loadWord_storeWord (hv : v < 65536) : loadWord (storeWord m a v) a = v := by
  have h1 : storeWord m a v a = BitVec.ofNat 8 (v / 256) := if_pos rfl
  have h2 : storeWord m a v (a + 1) = BitVec.ofNat 8 v := by
    rw [storeWord, if_neg (by omega), if_pos rfl]
  rw [loadWord, h1, h2, BitVec.toNat_ofNat, BitVec.toNat_ofNat]
  omega

theorem loadWord_congr {m m' : Mem} (h0 : m' a = m a) (h1 : m' (a + 1) = m (a + 1)) :
    loadWord m' a = loadWord m a := by
  rw [loadWord, loadWord, h0, h1]

theorem loadWord_storeWord_of_far (h : b + 2 ≤ a ∨ a + 2 ≤ b) (v : Nat) :
    loadWord (storeWord m a v) b = loadWord m b :=
  loadWord_congr (storeWord_frame m (by omega) v) (storeWord_frame m (by omega) v)

theorem nextFree_lt (m : Mem) (a : Nat) : nextFree m a < 65536 := by
  have h1 := (m a).isLt
  have h2 := (m (a + 1)).isLt
  rw [nextFree, loadWord]
  omega

theorem nextFree_setNextFree (hv : v < 65536) : nextFree (setNextFree m a v) a = v :=
  loadWord_storeWord m hv

theorem blockSize_setBlockSize (hv : v < 65536) : blockSize (setBlockSize m a v) a = v :=
  loadWord_storeWord m hv

theorem nextFree_setBlockSize (a v : Nat) : nextFree (setBlockSize m a v) a = nextFree m a :=
  loadWord_storeWord_of_far m (by omega) v

theorem blockSize_setNextFree (a v : Nat) : blockSize (setNextFree m a v) a = blockSize m a :=
  loadWord_storeWord_of_far m (by omega) v

/-- Nothing but the header at `a` is changed. -/
def OnlyHeader (a : Nat) (m m' : Mem) : Prop := ∀ x, x < a ∨ a + 4 ≤ x → m' x = m x

theorem onlyHeader_setNextFree (a v : Nat) : OnlyHeader a m (setNextFree m a v) :=
  fun _ hx => storeWord_frame m (by omega) v

theorem onlyHeader_setBlockSize (a v : Nat) : OnlyHeader a m (setBlockSize m a v) :=
  fun _ hx => storeWord_frame m (by omega) v

theorem OnlyHeader.trans {m m' m'' : Mem} (h : OnlyHeader a m m') (h' : OnlyHeader a m' m'') :
    OnlyHeader a m m'' := fun x hx => (h' x hx).trans (h x hx)

/-- Headers do not overlap. -/
def Far (a b : Nat) : Prop := a + 4 ≤ b ∨ b + 4 ≤ a

theorem OnlyHeader.nextFree {m m' : Mem} (h : OnlyHeader a m m') (hf : Far a b) :
    nextFree m' b = nextFree m b := by
  rcases hf with hf | hf <;> exact loadWord_congr (h _ (by omega)) (h _ (by omega))

theorem OnlyHeader.blockSize {m m' : Mem} (h : OnlyHeader a m m') (hf : Far a b) :
    blockSize m' b = blockSize m b := by
  rcases hf with hf | hf <;> exact loadWord_congr (h _ (by omega)) (h _ (by omega))

end Headers
end LlvmTms9900.Heap4
