import LlvmTms9900.Heap4.FreeList

/-!
# Runs of the heap_4 allocator (tests/benchmarks/heap4.c)

A client calls `heap_malloc` and `heap_free` and writes into the blocks it
holds. In every state the free list and the blocks that are held make up the
heap: a call of `heap_malloc` takes a block out of the list and puts back what it
cuts off, a call of `heap_free` puts the block back.
-/

namespace LlvmTms9900.Heap4
open LlvmTms9900.Isa LlvmTms9900.Arith LlvmTms9900.Arith.Block

/-- The heap and, as history, the pointers that were returned and not freed. -/
structure World where
  heap : Heap
  held : List Nat

/-- The block behind a pointer, by its header. -/
def heldBlock (m : Mem) (p : Nat) : Block := ⟨p - headerSize, blockSize m (p - headerSize)⟩

def World.taken (w : World) : List Block := w.held.map (heldBlock w.heap.mem)

/-- The states that calls and writes of the client lead to. -/
inductive Reachable (L : Layout) (fuel : Nat) (m₀ : Mem) : World → Prop
  | init : Reachable L fuel m₀ ⟨heapInit L m₀, []⟩
  | malloc {w : World} {n p : Nat} {h : Heap} : Reachable L fuel m₀ w → n ≤ 0xFFFA →
      heapMalloc L fuel w.heap n = some (p, h) →
      Reachable L fuel m₀ ⟨h, if p = 0 then w.held else p :: w.held⟩
  | free {w : World} {p : Nat} {h : Heap} : Reachable L fuel m₀ w → p = 0 ∨ p ∈ w.held →
      heapFree L fuel w.heap p = some h → Reachable L fuel m₀ ⟨h, w.held.erase p⟩
  | write {w : World} {p a : Nat} (v : Byte) : Reachable L fuel m₀ w → p ∈ w.held → p ≤ a →
      a < (heldBlock w.heap.mem p).stop →
      Reachable L fuel m₀ ⟨⟨fun x => if x = a then v else w.heap.mem x, w.heap.freeBytes⟩, w.held⟩

/-! ## The invariant -/

/-- Blocks are aligned and have room for a header and a payload. -/
def Fit (b : Block) : Prop := 6 ≤ b.size ∧ b.start % 2 = 0 ∧ b.size % 2 = 0

theorem Fit.join {a b : Block} (ha : Fit a) (hb : Fit b) : Fit ⟨a.start, a.size + b.size⟩ := by
  obtain ⟨h1, h2, h3⟩ := ha
  obtain ⟨h4, h5, h6⟩ := hb
  refine ⟨Nat.le_add_right_of_le h1, h2, ?_⟩
  show (a.size + b.size) % 2 = 0
  omega

structure Inv (L : Layout) (w : World) (free : List Block) : Prop where
  links : Links w.heap.mem L.xStart (free ++ [endBlock L.xEnd])
  startSize : blockSize w.heap.mem L.xStart = 0
  endNext : nextFree w.heap.mem L.xEnd = 0
  tiling : Tiling L.ucHeap (L.ucHeap + 2044) free w.taken
  fitFree : ∀ b ∈ free, Fit b
  fitTaken : ∀ b ∈ w.taken, Fit b
  pointers : ∀ p ∈ w.held, 4 ≤ p
  sum : w.heap.freeBytes = total free

/-- The header at `a` is unchanged. -/
def SameHeader (m m' : Mem) (a : Nat) : Prop := ∀ x, a ≤ x → x < a + 4 → m' x = m x

section Frame
variable {L : Layout} {m m' : Mem} {w : World} {free : List Block} {a : Nat} {b : Block}

theorem SameHeader.nextFree (h : SameHeader m m' a) : nextFree m' a = nextFree m a :=
  loadWord_congr (h a (by omega) (by omega)) (h (a + 1) (by omega) (by omega))

theorem SameHeader.blockSize (h : SameHeader m m' a) : blockSize m' a = blockSize m a :=
  loadWord_congr (h (a + 2) (by omega) (by omega)) (h (a + 2 + 1) (by omega) (by omega))

theorem Links.same {l : List Block} (h : Links m a l) (ha : SameHeader m m' a)
    (hl : ∀ c ∈ l, SameHeader m m' c.start) : Links m' a l :=
  h.move ha.nextFree fun c hc => ⟨(hl c hc).nextFree, (hl c hc).blockSize⟩

theorem heldBlock_same {p : Nat} (h : SameHeader m m' (p - headerSize)) :
    heldBlock m' p = heldBlock m p := by
  rw [heldBlock, heldBlock, h.blockSize]

theorem Inv.inHeap (h : Inv L w free) (hb : b ∈ free ∨ b ∈ w.taken) : InHeap L b := by
  obtain ⟨h1, h2⟩ := h.tiling.inside hb
  have hfit : Fit b := hb.elim (h.fitFree b) (h.fitTaken b)
  have h6 := hfit.1
  exact ⟨h1, h2, by omega⟩

theorem Inv.heldBlock_mem (h : Inv L w free) {p : Nat} (hp : p ∈ w.held) :
    heldBlock w.heap.mem p ∈ w.taken ∧ (heldBlock w.heap.mem p).start + 4 = p := by
  have h4 := h.pointers p hp
  refine ⟨List.mem_map_of_mem hp, ?_⟩
  show p - 4 + 4 = p
  omega

/-- Pointers that differ have blocks apart. -/
theorem Inv.heldBlock_apart (h : Inv L w free) {p q : Nat} (hp : p ∈ w.held) (hq : q ∈ w.held)
    (hne : p ≠ q) : (heldBlock w.heap.mem p).Apart (heldBlock w.heap.mem q) := by
  obtain ⟨hpt, hps⟩ := h.heldBlock_mem hp
  obtain ⟨hqt, hqs⟩ := h.heldBlock_mem hq
  refine h.tiling.apart.forall hpt hqt fun heq => hne ?_
  rw [← hps, ← hqs, heq]

/-- The free list is short. -/
theorem Inv.length_lt (h : Inv L w free) : free.length < 1024 := by
  have hsum : ∀ l : List Block, (∀ b ∈ l, Fit b) → 6 * l.length ≤ total l := by
    intro l
    induction l with
    | nil => intro _; simp [total]
    | cons c l ih =>
      intro hl
      have h1 := ih fun b hb => hl b (List.mem_cons_of_mem c hb)
      have h2 := (hl c List.mem_cons_self).1
      rw [total_cons, List.length_cons]
      omega
  have h1 := hsum free h.fitFree
  have h2 := total_le h.tiling.separated (fun c hc => h.tiling.inside (Or.inl hc)) (by omega)
  omega

theorem Inv.freeBytes_le (h : Inv L w free) : w.heap.freeBytes ≤ 2044 := by
  have := total_le h.tiling.separated (fun c hc => h.tiling.inside (Or.inl hc)) (by omega)
  rw [h.sum]
  omega

end Frame

/-! ## heap_free -/

section Free
variable {L : Layout} {w : World} {free : List Block} {p fuel : Nat}

/-- What has an address outside the free blocks and `xStart` keeps it. -/
theorem sameHeader_of_frame {m m' : Mem} {blocks : List Block} {b : Block}
    (hframe : ∀ x, (x < L.xStart ∨ L.xStart + 4 ≤ x) → (∀ c ∈ blocks, ¬ c.Has x) → m' x = m x)
    (hb : InHeap L b) (hap : ∀ c ∈ blocks, b.Apart c) : SameHeader m m' b.start := by
  intro x h1 h2
  obtain ⟨h3, h4, h5⟩ := hb
  have hS := L.start_outside
  simp only [stop] at h4
  refine hframe x (by omega) fun c hc hx => ?_
  have h6 := hap c hc
  simp only [Apart, Has, stop] at h6 hx
  omega

theorem sameHeader_xEnd {m m' : Mem} {blocks : List Block}
    (hframe : ∀ x, (x < L.xStart ∨ L.xStart + 4 ≤ x) → (∀ c ∈ blocks, ¬ c.Has x) → m' x = m x)
    (hin : ∀ c ∈ blocks, InHeap L c) : SameHeader m m' L.xEnd := by
  intro x h1 h2
  have hSE := L.sentinels
  have hE := L.end_above
  refine hframe x (by omega) fun c hc hx => ?_
  have h3 := (hin c hc).2.1
  simp only [Has, stop] at h3 hx
  omega

/-- `heap_free` ends and keeps the invariant. -/
theorem heapFree_spec (h : Inv L w free) (hp : p ∈ w.held) (hfuel : 1024 ≤ fuel) :
    ∃ h', heapFree L fuel w.heap p = some h' ∧
      Inv L ⟨h', w.held.erase p⟩ (insertBlock (heldBlock w.heap.mem p) free) := by
  obtain ⟨hmem, hstart⟩ := h.heldBlock_mem hp
  have hb := h.inHeap (Or.inr hmem)
  have hE := L.end_above
  have hE' := L.end_bound
  obtain ⟨b, hbdef⟩ : ∃ b, b = heldBlock w.heap.mem p := ⟨_, rfl⟩
  rw [← hbdef] at hmem hstart hb ⊢
  have hlink : sub16 p headerSize = b.start := by
    have h1 := hb.2.1
    have h2 := hb.2.2
    simp only [stop] at h1
    simp only [sub16, headerSize]
    omega
  have hperm : w.taken.Perm (b :: (w.held.erase p).map (heldBlock w.heap.mem)) := by
    rw [hbdef, ← List.map_cons]
    exact (List.perm_cons_erase hp).map _
  have htiling := h.tiling.perm hperm
  have hrest := (List.pairwise_cons.1 htiling.apart).1
  have hins : Insertable L w.heap.mem free b := by
    refine ⟨h.links, h.startSize, h.tiling.separated, fun c hc => h.inHeap (Or.inl hc), hb,
      fun c hc => h.tiling.cross b hmem c hc, ?_⟩
    rw [hbdef]
    rfl
  obtain ⟨m', hm', hdone⟩ := prvInsert_spec fuel hins (by have := h.length_lt; omega)
  -- the headers of the blocks that are still held are not touched
  have hsame : (w.held.erase p).map (heldBlock m') =
      (w.held.erase p).map (heldBlock w.heap.mem) := by
    refine List.map_congr_left fun q hq => heldBlock_same ?_
    have hqb : heldBlock w.heap.mem q ∈ (w.held.erase p).map (heldBlock w.heap.mem) :=
      List.mem_map_of_mem hq
    have hqt : heldBlock w.heap.mem q ∈ w.taken := hperm.mem_iff.2 (List.mem_cons_of_mem b hqb)
    refine sameHeader_of_frame (b := heldBlock w.heap.mem q) hdone.frame (h.inHeap (Or.inr hqt)) ?_
    exact List.forall_mem_cons.2 ⟨(hrest _ hqb).symm, fun c hc => h.tiling.cross _ hqt c hc⟩
  have hend : SameHeader w.heap.mem m' L.xEnd := sameHeader_xEnd hdone.frame
    (List.forall_mem_cons.2 ⟨hb, fun c hc => h.inHeap (Or.inl hc)⟩)
  refine ⟨⟨m', add16 w.heap.freeBytes b.size⟩, ?_, ?_⟩
  · have hp0 : p ≠ 0 := by omega
    have hsize : blockSize w.heap.mem b.start = b.size := hins.size
    simp only [heapFree, if_neg hp0, hlink, hm', hsize]
  · have hnew : Tiling L.ucHeap (L.ucHeap + 2044) (insertBlock b free)
        ((w.held.erase p).map (heldBlock m')) := by
      rw [hsame]
      exact htiling.release
    refine ⟨hdone.links, hdone.startSize, hend.nextFree.trans h.endNext, hnew, ?_, ?_, ?_, ?_⟩
    · exact insertBlock_forall (fun _ _ ha hb _ => ha.join hb) (h.fitTaken b hmem) h.fitFree
    · intro c hc
      have hc' : c ∈ (w.held.erase p).map (heldBlock m') := hc
      rw [hsame] at hc'
      exact h.fitTaken c (hperm.mem_iff.2 (List.mem_cons_of_mem b hc'))
    · exact fun q hq => h.pointers q (List.mem_of_mem_erase hq)
    · have hle := total_le hnew.separated (fun c hc => hnew.inside (Or.inl hc)) (by omega)
      rw [total_insertBlock] at hle
      show add16 w.heap.freeBytes b.size = total (insertBlock b free)
      rw [total_insertBlock, h.sum, add16]
      omega

end Free

/-! ## heap_malloc -/

/-- `n` bytes and a header, rounded up to even. -/
def roundUp (n : Nat) : Nat := (n + 4 + 1) / 2 * 2

theorem wantedSize_eq {n : Nat} (hn : n ≤ 0xFFFA) : wantedSize n = roundUp n := by
  have hadd : add16 n headerSize = n + 4 := Nat.mod_eq_of_lt (by rw [headerSize]; omega)
  rw [wantedSize, hadd, roundUp]
  by_cases hodd : (n + 4) % 2 ≠ 0
  · rw [if_pos hodd, add16]
    omega
  · rw [if_neg hodd]
    omega

section Malloc
variable {L : Layout} {w : World} {l₁ l₂ : List Block} {b : Block} {n fuel : Nat}

/-- What is known once the block has left the list and was cut. -/
structure Split (L : Layout) (w : World) (l₁ l₂ : List Block) (b : Block) (n : Nat) (m : Mem)
    (k : Nat) (free : List Block) : Prop where
  links : Links m L.xStart (free ++ [endBlock L.xEnd])
  startSize : blockSize m L.xStart = 0
  size : blockSize m b.start = k
  enough : n ≤ k
  tiling : Tiling L.ucHeap (L.ucHeap + 2044) free (⟨b.start, k⟩ :: w.taken)
  fitFree : ∀ c ∈ free, Fit c
  fit : Fit ⟨b.start, k⟩
  sum : total free + k = total (l₁ ++ b :: l₂)
  frame : ∀ x, (x < L.xStart ∨ L.xStart + 4 ≤ x) → (∀ c ∈ l₁ ++ b :: l₂, ¬ c.Has x) →
    m x = w.heap.mem x

/-- The block leaves the list. -/
theorem unlink_spec (h : Inv L w (l₁ ++ b :: l₂)) :
    let m := setNextFree w.heap.mem (lastNode L.xStart l₁) (nextFree w.heap.mem b.start)
    Links m L.xStart (l₁ ++ l₂ ++ [endBlock L.xEnd]) ∧ blockSize m L.xStart = 0 ∧
      blockSize m b.start = b.size ∧ OnlyHeader (lastNode L.xStart l₁) w.heap.mem m := by
  intro m
  have hin : ∀ c ∈ l₁ ++ b :: l₂, InHeap L c := fun c hc => h.inHeap (Or.inl hc)
  have hin₁ : ∀ c ∈ l₁, InHeap L c := fun c hc => hin c (by simp [hc])
  obtain ⟨hsep₁, hsep₂, hcross⟩ := List.pairwise_append.1 h.tiling.separated
  have hlinks := h.links
  rw [List.append_assoc] at hlinks
  obtain ⟨hfront, -, hbsize, hrest⟩ := links_append.1 hlinks
  have hm : OnlyHeader (lastNode L.xStart l₁) w.heap.mem m := onlyHeader_setNextFree _ _ _
  obtain ⟨hfront', hstart'⟩ := setNextFree_last (nextFree w.heap.mem b.start) hfront h.startSize
    hsep₁ hin₁
  -- every block behind the last one in front is far from it
  have hfar : ∀ c ∈ b :: l₂, Far (lastNode L.xStart l₁) c.start := fun c hc =>
    Or.symm (lastNode_far hin₁ (hin c (List.mem_append_right l₁ hc))
      fun d hd => Or.inr (Nat.le_of_lt (hcross d hd c hc)))
  refine ⟨?_, hstart', (hm.blockSize (hfar b List.mem_cons_self)).trans hbsize, hm⟩
  rw [List.append_assoc]
  refine links_append.2 ⟨hfront', hrest.move (nextFree_setNextFree _ (nextFree_lt _ _)) ?_⟩
  intro c hc
  have hf : Far (lastNode L.xStart l₁) c.start := by
    rcases List.mem_append.1 hc with hc | hc
    · exact hfar c (List.mem_cons_of_mem b hc)
    · rw [List.mem_singleton.1 hc]
      exact lastNode_far_xEnd hin₁
  exact ⟨hm.nextFree hf, hm.blockSize hf⟩

theorem splitBlock_spec (h : Inv L w (l₁ ++ b :: l₂)) (hn : 6 ≤ n) (hn2 : n % 2 = 0)
    (hb : n ≤ b.size) (hfuel : 1024 ≤ fuel) :
    ∃ m k free, splitBlock L fuel (setNextFree w.heap.mem (lastNode L.xStart l₁)
      (nextFree w.heap.mem b.start)) b.start n = some m ∧ Split L w l₁ l₂ b n m k free := by
  obtain ⟨hlinks, hstart, hsize, hm⟩ := unlink_spec h
  generalize setNextFree w.heap.mem (lastNode L.xStart l₁) (nextFree w.heap.mem b.start) = m₁ at *
  have hbmem : b ∈ l₁ ++ b :: l₂ := by simp
  have hmem : ∀ c ∈ l₁ ++ l₂, c ∈ l₁ ++ b :: l₂ := fun c hc => by
    simp only [List.mem_append, List.mem_cons] at hc ⊢
    tauto
  have hinb := h.inHeap (Or.inl hbmem)
  obtain ⟨hb1, hb2, hb3⟩ := hinb
  simp only [stop] at hb2
  obtain ⟨hfit1, hfit2, hfit3⟩ := h.fitFree b hbmem
  have hE := L.end_above
  have hE' := L.end_bound
  have htake := h.tiling.take
  have htotal : total (l₁ ++ b :: l₂) = b.size + total (l₁ ++ l₂) := by
    rw [total_append, total_cons, total_append]
    omega
  have hframe₁ : ∀ x, (x < L.xStart ∨ L.xStart + 4 ≤ x) → (∀ c ∈ l₁ ++ b :: l₂, ¬ c.Has x) →
      m₁ x = w.heap.mem x := fun x hx hno => by
    refine hm x ?_
    rcases lastNode_mem L.xStart l₁ with he | ⟨c, hc, he⟩
    · rw [he]
      exact hx
    · have hc' : c ∈ l₁ ++ b :: l₂ := by simp [hc]
      rw [he]
      exact off_header (h.inHeap (Or.inl hc')) (hno c hc')
  have hsub : sub16 (blockSize m₁ b.start) n = b.size - n := by
    rw [hsize, sub16]
    omega
  rw [splitBlock, hsub]
  by_cases hsplit : minBlockSize ≤ b.size - n
  · have h6 : 6 ≤ b.size - n := hsplit
    have hnew : add16 b.start n = b.start + n := Nat.mod_eq_of_lt (by omega)
    rw [if_pos hsplit, hnew]
    -- the part that is cut off
    obtain ⟨r, hr⟩ : ∃ r : Block, r = ⟨b.start + n, b.size - n⟩ := ⟨_, rfl⟩
    have hrs : r.start = b.start + n := by rw [hr]
    have hrz : r.size = b.size - n := by rw [hr]
    have hcut := htake.cut (k := n) (by omega) (by omega)
    rw [← hr] at hcut
    have hinr : InHeap L r := ⟨by omega, by simp only [stop]; omega, by omega⟩
    have hapr : ∀ c ∈ l₁ ++ l₂, r.Apart c := fun c hc => hcut.cross r List.mem_cons_self c hc
    have hapb : ∀ c ∈ l₁ ++ l₂, b.Apart c := fun c hc => htake.cross b List.mem_cons_self c hc
    have hin' : ∀ c ∈ l₁ ++ l₂, InHeap L c := fun c hc => h.inHeap (Or.inl (hmem c hc))
    have hinb : InHeap L b := h.inHeap (Or.inl hbmem)
    have hfarbr : Far b.start r.start := by
      unfold Far
      omega
    rw [← hrs, ← hrz]
    have ho₂ := onlyHeader_setBlockSize m₁ r.start r.size
    have ho₃ := onlyHeader_setBlockSize (setBlockSize m₁ r.start r.size) b.start n
    have hfarAll : ∀ (d : Block), InHeap L d → (∀ c ∈ l₁ ++ l₂, d.Apart c) →
        ∀ c ∈ l₁ ++ l₂ ++ [endBlock L.xEnd], Far d.start c.start := fun d hd hap c hc => by
      rcases List.mem_append.1 hc with hc | hc
      · exact far_of_apart hd (hin' c hc) (hap c hc)
      · rw [List.mem_singleton.1 hc]
        exact hd.far_xEnd
    have hins : Insertable L (setBlockSize (setBlockSize m₁ r.start r.size) b.start n)
        (l₁ ++ l₂) r := by
      refine ⟨?_, ?_, htake.separated, hin', hinr, hapr, ?_⟩
      · exact (hlinks.frame ho₂ hinr.far_xStart (hfarAll r hinr hapr)).frame ho₃ hinb.far_xStart
          (hfarAll b hinb hapb)
      · rw [ho₃.blockSize hinb.far_xStart, ho₂.blockSize hinr.far_xStart, hstart]
      · rw [ho₃.blockSize hfarbr, blockSize_setBlockSize _ (by omega)]
    have hlen : (l₁ ++ l₂).length < fuel := by
      have := h.length_lt
      simp only [List.length_append, List.length_cons] at this ⊢
      omega
    obtain ⟨m', hm', hdone⟩ := prvInsert_spec fuel hins hlen
    refine ⟨m', n, insertBlock r (l₁ ++ l₂), hm', hdone.links, hdone.startSize, ?_, Nat.le_refl n,
      hcut.release, ?_, ⟨hn, hfit2, hn2⟩, ?_, ?_⟩
    · have hhead : SameHeader (setBlockSize (setBlockSize m₁ r.start r.size) b.start n) m'
          b.start := by
        refine sameHeader_of_frame (b := ⟨b.start, n⟩) hdone.frame ⟨hb1, ?_, ?_⟩ ?_
        · simp only [stop]
          omega
        · show 4 ≤ n
          omega
        · refine List.forall_mem_cons.2 ⟨Or.inl (Nat.le_of_eq hrs.symm), fun c hc => ?_⟩
          exact hcut.cross _ (by simp) c hc
      rw [hhead.blockSize, blockSize_setBlockSize _ (by omega)]
    · refine insertBlock_forall (fun _ _ ha hb _ => ha.join hb) ?_
        fun c hc => h.fitFree c (hmem c hc)
      exact ⟨by omega, by omega, by omega⟩
    · rw [total_insertBlock, htotal]
      omega
    · intro x hx hno
      have hxb : ¬ b.Has x := hno b hbmem
      have hxr : ¬ r.Has x := fun hxr => hxb (by
        simp only [Has, stop] at hxr ⊢
        omega)
      rw [hdone.frame x hx (List.forall_mem_cons.2 ⟨hxr, fun c hc => hno c (hmem c hc)⟩),
        ho₃ x (off_header hinb hxb), ho₂ x (off_header hinr hxr), hframe₁ x hx hno]
  · rw [if_neg hsplit]
    refine ⟨m₁, b.size, l₁ ++ l₂, rfl, hlinks, hstart, hsize, hb, htake,
      fun c hc => h.fitFree c (hmem c hc), h.fitFree b hbmem, ?_, hframe₁⟩
    rw [htotal]
    omega

/-- The block is handed out. -/
theorem handOut_inv (h : Inv L w (l₁ ++ b :: l₂)) {m : Mem} {k : Nat} {free : List Block}
    (hs : Split L w l₁ l₂ b n m k free) :
    Inv L ⟨⟨setNextFree m b.start 0, sub16 w.heap.freeBytes k⟩, add16 b.start headerSize :: w.held⟩
      free ∧ add16 b.start headerSize = b.start + 4 ∧
      heldBlock (setNextFree m b.start 0) (b.start + 4) = ⟨b.start, k⟩ := by
  have hbmem : b ∈ l₁ ++ b :: l₂ := by simp
  have hinb : InHeap L b := h.inHeap (Or.inl hbmem)
  obtain ⟨hb1, hb2, hb3⟩ := hinb
  simp only [stop] at hb2
  have hE := L.end_above
  have hE' := L.end_bound
  have hptr : add16 b.start headerSize = b.start + 4 :=
    Nat.mod_eq_of_lt (by rw [headerSize]; omega)
  have ho := onlyHeader_setNextFree m b.start 0
  have hkpos := hs.fit.1
  have hheld : heldBlock (setNextFree m b.start 0) (b.start + 4) = ⟨b.start, k⟩ := by
    have hsub : b.start + 4 - headerSize = b.start := by rw [headerSize]; omega
    rw [heldBlock, hsub, blockSize_setNextFree, hs.size]
  have hbin : InHeap L ⟨b.start, k⟩ := by
    obtain ⟨h1, h2⟩ := hs.tiling.inside (b := ⟨b.start, k⟩) (Or.inr List.mem_cons_self)
    exact ⟨h1, h2, Nat.le_trans (by decide) hkpos⟩
  have hinf : ∀ c ∈ free, InHeap L c := fun c hc => by
    obtain ⟨h1, h2⟩ := hs.tiling.inside (Or.inl hc)
    have h3 := (hs.fitFree c hc).1
    exact ⟨h1, h2, by omega⟩
  -- the blocks that were held before keep their headers
  have hold : w.held.map (heldBlock (setNextFree m b.start 0)) = w.taken := by
    refine List.map_congr_left fun q hq => heldBlock_same ?_
    obtain ⟨hqt, -⟩ := h.heldBlock_mem hq
    have hqin := h.inHeap (Or.inr hqt)
    have hqap : ∀ c ∈ l₁ ++ b :: l₂, (heldBlock w.heap.mem q).Apart c :=
      fun c hc => h.tiling.cross _ hqt c hc
    have h1 : SameHeader w.heap.mem m (heldBlock w.heap.mem q).start :=
      sameHeader_of_frame hs.frame hqin hqap
    have hfar : Far b.start (q - headerSize) :=
      far_of_apart (h.inHeap (Or.inl hbmem)) hqin (hqap b hbmem).symm
    intro x hx1 hx2
    rw [ho x (by unfold Far at hfar; omega)]
    exact h1 x hx1 hx2
  have htaken : World.taken ⟨⟨setNextFree m b.start 0, sub16 w.heap.freeBytes k⟩,
      (b.start + 4) :: w.held⟩ = ⟨b.start, k⟩ :: w.taken := by
    rw [World.taken, List.map_cons, hheld, hold]
  rw [hptr]
  refine ⟨⟨?_, ?_, ?_, ?_, hs.fitFree, ?_, ?_, ?_⟩, rfl, hheld⟩
  · refine hs.links.frame ho hbin.far_xStart fun c hc => ?_
    rcases List.mem_append.1 hc with hc | hc
    · have hap := hs.tiling.cross ⟨b.start, k⟩ List.mem_cons_self c hc
      have hfar : Far (Block.mk b.start k).start c.start := far_of_apart hbin (hinf c hc) hap
      exact hfar
    · rw [List.mem_singleton.1 hc]
      exact hbin.far_xEnd
  · exact (ho.blockSize hbin.far_xStart).trans hs.startSize
  · have hend : SameHeader w.heap.mem m L.xEnd :=
      sameHeader_xEnd hs.frame fun c hc => h.inHeap (Or.inl hc)
    exact (ho.nextFree hbin.far_xEnd).trans (hend.nextFree.trans h.endNext)
  · rw [htaken]
    exact hs.tiling
  · rw [htaken]
    exact List.forall_mem_cons.2 ⟨hs.fit, h.fitTaken⟩
  · exact List.forall_mem_cons.2 ⟨by omega, h.pointers⟩
  · have hle := h.freeBytes_le
    have hsum := hs.sum
    rw [← h.sum] at hsum
    show sub16 w.heap.freeBytes k = total free
    rw [sub16]
    omega

/-- The first block that is large enough. -/
theorem exists_first {free : List Block} (h : ∃ b ∈ free, n ≤ b.size) :
    ∃ l₁ b l₂, free = l₁ ++ b :: l₂ ∧ (∀ c ∈ l₁, c.size < n) ∧ n ≤ b.size := by
  induction free with
  | nil =>
    obtain ⟨b, hb, -⟩ := h
    cases hb
  | cons c free ih =>
    by_cases hc : n ≤ c.size
    · exact ⟨[], c, free, rfl, by simp, hc⟩
    · obtain ⟨b, hb, hbn⟩ := h
      rcases List.mem_cons.1 hb with rfl | hb
      · exact absurd hbn hc
      · obtain ⟨l₁, d, l₂, rfl, h1, h2⟩ := ih ⟨b, hb, hbn⟩
        exact ⟨c :: l₁, d, l₂, rfl, List.forall_mem_cons.2 ⟨by omega, h1⟩, h2⟩

theorem Inv.sorted {free : List Block} (h : Inv L w free) :
    (free ++ [endBlock L.xEnd]).Pairwise fun c d => c.start < d.start := by
  refine List.pairwise_append.2 ⟨h.tiling.separated.imp fun {c d} hcd => ?_,
    List.pairwise_singleton _ _, fun c hc d hd => ?_⟩
  · simp only [Before, stop] at hcd
    omega
  · rw [List.mem_singleton.1 hd]
    obtain ⟨-, h2, -⟩ := h.inHeap (Or.inl hc)
    have hE := L.end_above
    simp only [stop] at h2
    show c.start < L.xEnd
    omega

/-- Both outcomes of `heap_malloc`. -/
theorem heapMalloc_spec {free : List Block} (h : Inv L w free) (hn0 : 0 < n) (hn : n ≤ 0xFFFA)
    (hfuel : 1024 ≤ fuel) :
    ((∀ b ∈ free, b.size < roundUp n) ∧ heapMalloc L fuel w.heap n = some (0, w.heap)) ∨
    (∃ b ∈ free, roundUp n ≤ b.size) ∧ ∃ p h' free', p ≠ 0 ∧
      heapMalloc L fuel w.heap n = some (p, h') ∧ Inv L ⟨h', p :: w.held⟩ free' ∧
      p + n ≤ (heldBlock h'.mem p).stop ∧
      ∃ b ∈ free, b.start + headerSize = p ∧ p + n ≤ b.stop := by
  have hlen := h.length_lt
  have hw := wantedSize_eq hn
  have hr1 : 6 ≤ roundUp n ∧ roundUp n % 2 = 0 ∧ n + 4 ≤ roundUp n := by
    rw [roundUp]
    omega
  obtain ⟨hr6, hr2, hrn⟩ := hr1
  have hn0' : n ≠ 0 := by omega
  by_cases hbig : ∃ b ∈ free, roundUp n ≤ b.size
  · right
    refine ⟨hbig, ?_⟩
    obtain ⟨l₁, b, l₂, rfl, hl₁, hb⟩ := exists_first hbig
    have hbmem : b ∈ l₁ ++ b :: l₂ := by simp
    have hle : roundUp n ≤ w.heap.freeBytes := by
      have := size_le_total hbmem
      rw [h.sum]
      omega
    have hsorted : (l₁ ++ [b]).Pairwise fun c d => c.start < d.start :=
      h.sorted.sublist (by
        rw [List.append_assoc]
        exact List.Sublist.append_left (List.singleton_sublist.2 (by simp)) l₁)
    have hlinks := h.links
    rw [List.append_assoc] at hlinks
    have hfit : firstFit w.heap.mem (roundUp n) fuel L.xStart (nextFree w.heap.mem L.xStart) =
        some (lastNode L.xStart l₁, b.start) := by
      refine firstFit_eq hlinks hl₁ (fun hno => by omega) hsorted ?_
      simp only [List.length_append, List.length_cons] at hlen
      omega
    obtain ⟨m, k, free', hsplit, hs⟩ := splitBlock_spec h hr6 hr2 hb hfuel
    obtain ⟨hinv, hptr, hheld⟩ := handOut_inv h hs
    have hne : b.start ≠ L.xEnd := by
      have hfar := (h.inHeap (Or.inl hbmem)).far_xEnd
      unfold Far at hfar
      omega
    refine ⟨_, _, free', ?_, ?_, hinv, ?_, b, hbmem, hptr.symm, ?_⟩
    · rw [hptr]
      omega
    · rw [heapMalloc, if_neg hn0', hw, if_pos hle, hfit]
      simp only [if_pos hne, hsplit, hs.size]
    · rw [hptr]
      simp only [hheld, stop]
      have := hs.enough
      omega
    · rw [hptr, stop]
      omega
  · left
    have hsmall : ∀ b ∈ free, b.size < roundUp n := fun b hb => by
      by_contra hge
      exact hbig ⟨b, hb, by omega⟩
    refine ⟨hsmall, ?_⟩
    rw [heapMalloc, if_neg hn0', hw]
    by_cases hle : roundUp n ≤ w.heap.freeBytes
    · have hfit : firstFit w.heap.mem (roundUp n) fuel L.xStart (nextFree w.heap.mem L.xStart) =
          some (lastNode L.xStart free, L.xEnd) :=
        firstFit_eq (b := endBlock L.xEnd) h.links hsmall (fun hno => hno.2 h.endNext) h.sorted
          (by omega)
      rw [if_pos hle, hfit]
      simp only [ne_eq, not_true_eq_false, if_false]
    · rw [if_neg hle]

end Malloc

/-! ## heap_init -/

theorem heapInit_inv (L : Layout) (m₀ : Mem) :
    Inv L ⟨heapInit L m₀, []⟩ [⟨L.ucHeap, 2044⟩] := by
  have heven := L.even
  have hE := L.end_above
  have hE' := L.end_bound
  have hS := L.start_outside
  have hS' := L.start_bound
  have hSE : Far L.xStart L.xEnd := L.sentinels
  have hSB : Far L.xStart L.ucHeap := by unfold Far; omega
  have hBE : Far L.ucHeap L.xEnd := by unfold Far; omega
  have hsize : sub16 (sub16 (add16 L.ucHeap 2048) headerSize / 2 * 2) L.ucHeap = 2044 := by
    simp only [sub16, add16, headerSize]
    omega
  -- the stores of `heap_init`, in order
  obtain ⟨m₁, h₁⟩ : ∃ m, m = setBlockSize m₀ L.xStart 0 := ⟨_, rfl⟩
  obtain ⟨m₂, h₂⟩ : ∃ m, m = setBlockSize m₁ L.xEnd 0 := ⟨_, rfl⟩
  obtain ⟨m₃, h₃⟩ : ∃ m, m = setNextFree m₂ L.xEnd 0 := ⟨_, rfl⟩
  obtain ⟨m₄, h₄⟩ : ∃ m, m = setBlockSize m₃ L.ucHeap 2044 := ⟨_, rfl⟩
  obtain ⟨m₅, h₅⟩ : ∃ m, m = setNextFree m₄ L.ucHeap L.xEnd := ⟨_, rfl⟩
  obtain ⟨m₆, h₆⟩ : ∃ m, m = setNextFree m₅ L.xStart L.ucHeap := ⟨_, rfl⟩
  have o₂ : OnlyHeader L.xEnd m₁ m₂ := h₂ ▸ onlyHeader_setBlockSize _ _ _
  have o₃ : OnlyHeader L.xEnd m₂ m₃ := h₃ ▸ onlyHeader_setNextFree _ _ _
  have o₄ : OnlyHeader L.ucHeap m₃ m₄ := h₄ ▸ onlyHeader_setBlockSize _ _ _
  have o₅ : OnlyHeader L.ucHeap m₄ m₅ := h₅ ▸ onlyHeader_setNextFree _ _ _
  have o₆ : OnlyHeader L.xStart m₅ m₆ := h₆ ▸ onlyHeader_setNextFree _ _ _
  have hinit : heapInit L m₀ = ⟨m₆, blockSize m₆ L.ucHeap⟩ := by
    simp only [heapInit, hsize, h₆, h₅, h₄, h₃, h₂, h₁]
  have hB : blockSize m₆ L.ucHeap = 2044 := by
    rw [o₆.blockSize hSB, h₅, blockSize_setNextFree, h₄, blockSize_setBlockSize _ (by decide)]
  have hBnext : nextFree m₆ L.ucHeap = L.xEnd := by
    rw [o₆.nextFree hSB, h₅, nextFree_setNextFree _ (by omega)]
  have hEsize : blockSize m₆ L.xEnd = 0 := by
    rw [o₆.blockSize hSE, o₅.blockSize hBE, o₄.blockSize hBE, h₃, blockSize_setNextFree, h₂,
      blockSize_setBlockSize _ (by decide)]
  have hEnext : nextFree m₆ L.xEnd = 0 := by
    rw [o₆.nextFree hSE, o₅.nextFree hBE, o₄.nextFree hBE, h₃, nextFree_setNextFree _ (by decide)]
  have hSsize : blockSize m₆ L.xStart = 0 := by
    rw [h₆, blockSize_setNextFree, o₅.blockSize (Or.symm hSB), o₄.blockSize (Or.symm hSB),
      o₃.blockSize (Or.symm hSE), o₂.blockSize (Or.symm hSE), h₁,
      blockSize_setBlockSize _ (by decide)]
  have hSnext : nextFree m₆ L.xStart = L.ucHeap := by
    rw [h₆, nextFree_setNextFree _ (by omega)]
  rw [hinit, hB]
  refine ⟨⟨hSnext, hB, hBnext, hEsize, trivial⟩, hSsize, hEnext, ?_, ?_, ?_, ?_, rfl⟩
  · refine ⟨List.pairwise_singleton _ _, List.Pairwise.nil, fun a ha => (by cases ha), fun x => ?_,
      fun b hb => ?_, fun b hb => (by cases hb)⟩
    · simp [Spanned, World.taken, Has, stop]
    · rw [List.mem_singleton.1 hb]
      exact Nat.succ_pos _
  · intro b hb
    rw [List.mem_singleton.1 hb]
    exact ⟨(by decide : 6 ≤ 2044), heven, (by decide : 2044 % 2 = 0)⟩
  · intro b hb
    cases hb
  · intro p hp
    cases hp

/-! ## Whole runs -/

/-- A client writes into a block it holds. -/
theorem write_inv {L : Layout} {w : World} {free : List Block} {p a : Nat} (h : Inv L w free)
    (v : Byte) (hp : p ∈ w.held) (hpa : p ≤ a) (ha : a < (heldBlock w.heap.mem p).stop) :
    Inv L ⟨⟨fun x => if x = a then v else w.heap.mem x, w.heap.freeBytes⟩, w.held⟩ free := by
  obtain ⟨hmem, hstart⟩ := h.heldBlock_mem hp
  have hin := h.inHeap (Or.inr hmem)
  have hother : ∀ x, x ≠ a → (if x = a then v else w.heap.mem x) = w.heap.mem x :=
    fun x hx => if_neg hx
  obtain ⟨h1, h2, h3⟩ := hin
  have hS := L.start_outside
  have hE := L.end_above
  -- no header contains the address
  have hblock : ∀ c, InHeap L c → (heldBlock w.heap.mem p).Apart c →
      SameHeader w.heap.mem (fun x => if x = a then v else w.heap.mem x) c.start := by
    intro c hc hap x hx1 hx2
    have hc3 := hc.2.2
    refine hother x ?_
    simp only [Apart, stop] at hap ha
    omega
  have hheld : w.held.map (heldBlock fun x => if x = a then v else w.heap.mem x) = w.taken := by
    refine List.map_congr_left fun q hq => heldBlock_same ?_
    obtain ⟨hqt, hqs⟩ := h.heldBlock_mem hq
    by_cases hqp : q = p
    · subst hqp
      intro x hx1 hx2
      have h4 := h.pointers q hp
      have h5 : headerSize = 4 := rfl
      exact hother x (by omega)
    · exact hblock _ (h.inHeap (Or.inr hqt)) (h.heldBlock_apart hp hq (Ne.symm hqp))
  have hfree : ∀ c ∈ free, SameHeader w.heap.mem
      (fun x => if x = a then v else w.heap.mem x) c.start := fun c hc =>
    hblock c (h.inHeap (Or.inl hc)) (h.tiling.cross _ hmem c hc)
  have hstart' : SameHeader w.heap.mem (fun x => if x = a then v else w.heap.mem x) L.xStart :=
    fun x hx1 hx2 => hother x (by omega)
  have hend : SameHeader w.heap.mem (fun x => if x = a then v else w.heap.mem x) L.xEnd :=
    fun x hx1 hx2 => hother x (by omega)
  refine ⟨h.links.same hstart' fun c hc => ?_, hstart'.blockSize.trans h.startSize,
    hend.nextFree.trans h.endNext, ?_, h.fitFree, ?_, h.pointers, h.sum⟩
  · rcases List.mem_append.1 hc with hc | hc
    · exact hfree c hc
    · rw [List.mem_singleton.1 hc]
      exact hend
  · rw [World.taken, hheld]
    exact h.tiling
  · rw [World.taken, hheld]
    exact h.fitTaken

/-- The invariant holds in every state of every run. -/
theorem Reachable.inv {L : Layout} {fuel : Nat} {m₀ : Mem} {w : World} (hfuel : 1024 ≤ fuel)
    (h : Reachable L fuel m₀ w) : ∃ free, Inv L w free := by
  induction h with
  | init => exact ⟨_, heapInit_inv L m₀⟩
  | @malloc w n p h' _ hn heq ih =>
    obtain ⟨free, ih⟩ := ih
    rcases Nat.eq_zero_or_pos n with rfl | hn0
    · rw [heapMalloc, if_pos rfl, Option.some.injEq, Prod.mk.injEq] at heq
      obtain ⟨rfl, rfl⟩ := heq
      exact ⟨free, ih⟩
    · rcases heapMalloc_spec ih hn0 hn hfuel with ⟨-, hnull⟩ | ⟨-, q, h₂, free', hq, hsome, hinv, -⟩
      · rw [hnull, Option.some.injEq, Prod.mk.injEq] at heq
        obtain ⟨rfl, rfl⟩ := heq
        exact ⟨free, ih⟩
      · rw [hsome, Option.some.injEq, Prod.mk.injEq] at heq
        obtain ⟨rfl, rfl⟩ := heq
        rw [if_neg hq]
        exact ⟨free', hinv⟩
  | @free w p h' _ hp heq ih =>
    obtain ⟨free, ih⟩ := ih
    by_cases hp0 : p = 0
    · have hnot : p ∉ w.held := fun hmem => by
        have := ih.pointers p hmem
        omega
      rw [heapFree, if_pos hp0, Option.some.injEq] at heq
      rw [← heq, List.erase_of_not_mem hnot]
      exact ⟨free, ih⟩
    · obtain ⟨h₂, hsome, hinv⟩ := heapFree_spec ih (hp.resolve_left hp0) hfuel
      rw [hsome, Option.some.injEq] at heq
      rw [← heq]
      exact ⟨_, hinv⟩
  | write v _ hp hpa ha ih =>
    obtain ⟨free, ih⟩ := ih
    exact ⟨free, write_inv ih v hp hpa ha⟩

/-- The free list of a memory, from `xStart` to `xEnd`. -/
def FreeList (L : Layout) (m : Mem) (free : List Block) : Prop :=
  Links m L.xStart (free ++ [endBlock L.xEnd]) ∧ nextFree m L.xEnd = 0

/-- What a call of `heap_malloc` with `n > 0` does in a state with the given
free list: it returns null exactly when no block is large enough, and then
changes nothing; otherwise the payload has room for `n` bytes and is apart from
every payload that is held. -/
def MallocRight (L : Layout) (fuel : Nat) (w : World) (free : List Block) (n : Nat) : Prop :=
  ∃ p h', heapMalloc L fuel w.heap n = some (p, h') ∧
    (p = 0 ↔ ∀ b ∈ free, b.size < roundUp n) ∧ (p = 0 → h' = w.heap) ∧
    (p ≠ 0 → p + n ≤ (heldBlock h'.mem p).stop ∧ ∀ q ∈ w.held,
      (heldBlock h'.mem p).stop ≤ q ∨ (heldBlock h'.mem q).stop ≤ p)

theorem Inv.mallocRight {L : Layout} {w : World} {free : List Block} {n fuel : Nat}
    (h : Inv L w free) (hn0 : 0 < n) (hn : n ≤ 0xFFFA) (hfuel : 1024 ≤ fuel) :
    MallocRight L fuel w free n := by
  rcases heapMalloc_spec h hn0 hn hfuel with ⟨hsmall, hnull⟩ | ⟨⟨b, hb, hbn⟩, p, h', free', hp, hsome,
    hinv, hroom, -⟩
  · exact ⟨0, w.heap, hnull, ⟨fun _ => hsmall, fun _ => rfl⟩, fun _ => rfl, fun h0 => absurd rfl h0⟩
  · refine ⟨p, h', hsome, ⟨fun h0 => absurd h0 hp, fun hsmall => ?_⟩, fun h0 => absurd h0 hp,
      fun _ => ⟨hroom, fun q hq => ?_⟩⟩
    · have := hsmall b hb
      omega
    · have hpair := hinv.tiling.apart
      rw [World.taken, List.map_cons] at hpair
      have hap : (heldBlock h'.mem p).Apart (heldBlock h'.mem q) :=
        (List.pairwise_cons.1 hpair).1 (heldBlock h'.mem q) (List.mem_map_of_mem hq)
      obtain ⟨-, hps⟩ := hinv.heldBlock_mem (p := p) List.mem_cons_self
      obtain ⟨-, hqs⟩ := hinv.heldBlock_mem (p := q) (List.mem_cons_of_mem p hq)
      simp only at hps hqs
      unfold Apart at hap
      omega

/-- In every state that calls of `heap_malloc` and `heap_free` and writes into
held blocks lead to: the free list is in address order with a gap between any
two blocks; it and the held blocks make up the heap; `xFreeBytesRemaining` is
its total; every further call ends, `heap_malloc` as it should; and when nothing
is held there is one free block again. -/
theorem reachable_heap {L : Layout} {fuel : Nat} {m₀ : Mem} {w : World} (hfuel : 1024 ≤ fuel)
    (h : Reachable L fuel m₀ w) :
    ∃ free, FreeList L w.heap.mem free ∧ Separated free ∧
      (free ++ w.taken).Pairwise Apart ∧
      (∀ x, (L.ucHeap ≤ x ∧ x < L.ucHeap + 2044) ↔ Spanned (free ++ w.taken) x) ∧
      w.heap.freeBytes = total free ∧
      (∀ n, 0 < n → n ≤ 0xFFFA → MallocRight L fuel w free n) ∧
      (∀ p, p = 0 ∨ p ∈ w.held → ∃ h', heapFree L fuel w.heap p = some h') ∧
      (w.held = [] → free = [⟨L.ucHeap, 2044⟩]) := by
  obtain ⟨free, hinv⟩ := h.inv hfuel
  refine ⟨free, ⟨hinv.links, hinv.endNext⟩, hinv.tiling.separated, ?_, fun x => ?_, hinv.sum,
    fun n hn0 hn => hinv.mallocRight hn0 hn hfuel, fun p hp => ?_, fun hheld => ?_⟩
  · refine List.pairwise_append.2 ⟨hinv.tiling.separated.imp fun hb => ?_, hinv.tiling.apart,
      fun c hc d hd => (hinv.tiling.cross d hd c hc).symm⟩
    exact Or.inl (Nat.le_of_lt hb)
  · rw [hinv.tiling.spans x, spanned_append]
  · by_cases hp0 : p = 0
    · exact ⟨w.heap, by rw [heapFree, if_pos hp0]⟩
    · obtain ⟨h', hsome, -⟩ := heapFree_spec hinv (hp.resolve_left hp0) hfuel
      exact ⟨h', hsome⟩
  · have htiling := hinv.tiling
    rw [World.taken, hheld, List.map_nil] at htiling
    have hone := htiling.free_eq_of_taken_nil (by omega)
    rwa [Nat.add_sub_cancel_left] at hone

/-- A layout in the RAM of the memory expansion. -/
def ramLayout : Layout := ⟨0xA000, 0x9FF8, 0xA804, by decide, by decide, by decide, by decide,
  by decide, by decide⟩

/-- On a fresh heap a request for ten bytes is served, and after it is freed
the heap is one block again. -/
theorem ramLayout_serves : ∃ p h₁ h₂,
    heapMalloc ramLayout 1024 (heapInit ramLayout fun _ => 0#8) 10 = some (p, h₁) ∧ p ≠ 0 ∧
      heapFree ramLayout 1024 h₁ p = some h₂ ∧ FreeList ramLayout h₂.mem [⟨0xA000, 2044⟩] := by
  have hinit : Reachable ramLayout 1024 (fun _ => 0#8) ⟨heapInit ramLayout fun _ => 0#8, []⟩ :=
    Reachable.init
  obtain ⟨free₀, -, -, -, -, -, hmalloc, -, hone₀⟩ := reachable_heap (Nat.le_refl 1024) hinit
  obtain ⟨p, h₁, heq₁, hnull, -, -⟩ := hmalloc 10 (by decide) (by decide)
  have hp : p ≠ 0 := fun h0 => by
    have hsmall := hnull.1 h0
    rw [hone₀ rfl] at hsmall
    exact absurd (hsmall _ List.mem_cons_self) (by decide)
  have hmid := Reachable.malloc hinit (by decide) heq₁
  rw [if_neg hp] at hmid
  obtain ⟨-, -, -, -, -, -, -, hfree, -⟩ := reachable_heap (Nat.le_refl 1024) hmid
  obtain ⟨h₂, heq₂⟩ := hfree p (Or.inr List.mem_cons_self)
  have hlast := Reachable.free hmid (Or.inr List.mem_cons_self) heq₂
  obtain ⟨free, hlist, -, -, -, -, -, -, hone⟩ := reachable_heap (Nat.le_refl 1024) hlast
  rw [hone (by simp)] at hlist
  exact ⟨p, h₁, h₂, heq₁, hp, heq₂, hlist⟩

end LlvmTms9900.Heap4
