import LlvmTms9900.Arith.BlockList
import LlvmTms9900.Heap4.Model

/-!
# The free list in memory (tests/benchmarks/heap4.c)

`Links m a l` says that the nodes after `a` are the blocks of `l`. With the
sentinel `xEnd` as a last block of size zero the list from `xStart` is
`Links m xStart (free ++ [xEnd])`, and `prvInsertBlockIntoFreeList` turns it into
the list with the block put back.
-/

namespace LlvmTms9900.Heap4
open LlvmTms9900.Isa LlvmTms9900.Arith LlvmTms9900.Arith.Block

/-- The nodes that follow `a` are the headers of `l`. -/
def Links (m : Mem) : Nat → List Block → Prop
  | _, [] => True
  | a, b :: l => nextFree m a = b.start ∧ blockSize m b.start = b.size ∧ Links m b.start l

/-- The last node of the list that starts with the node `a`. -/
def lastNode : Nat → List Block → Nat
  | a, [] => a
  | _, b :: l => lastNode b.start l

section Links
variable {m m' : Mem} {a z : Nat} {b : Block} {l l' : List Block}

theorem lastNode_append_singleton (a : Nat) (l : List Block) (b : Block) :
    lastNode a (l ++ [b]) = b.start := by
  induction l generalizing a with
  | nil => rfl
  | cons c l ih => exact ih c.start

theorem links_append : Links m a (l ++ l') ↔ Links m a l ∧ Links m (lastNode a l) l' := by
  induction l generalizing a with
  | nil => simp [Links, lastNode]
  | cons c l ih =>
    rw [List.cons_append, Links, Links, lastNode, ih, and_assoc, and_assoc]

/-- The links after `z` become links after `a`. -/
theorem Links.move (h : Links m z l) (hnext : nextFree m' a = nextFree m z)
    (hl : ∀ c ∈ l, nextFree m' c.start = nextFree m c.start ∧
      blockSize m' c.start = blockSize m c.start) : Links m' a l := by
  induction l generalizing a z with
  | nil => trivial
  | cons c l ih =>
    obtain ⟨h1, h2, h3⟩ := h
    obtain ⟨hc1, hc2⟩ := hl c List.mem_cons_self
    exact ⟨hnext.trans h1, hc2.trans h2, ih h3 hc1 fun d hd => hl d (List.mem_cons_of_mem c hd)⟩

/-- A header that no node of the list has is changed. -/
theorem Links.frame (h : Links m a l) (hm : OnlyHeader z m m') (ha : Far z a)
    (hl : ∀ c ∈ l, Far z c.start) : Links m' a l :=
  h.move (hm.nextFree ha) fun c hc => ⟨hm.nextFree (hl c hc), hm.blockSize (hl c hc)⟩

theorem lastNode_mem (a : Nat) (l : List Block) : lastNode a l = a ∨ ∃ c ∈ l, lastNode a l = c.start := by
  rcases List.eq_nil_or_concat l with rfl | ⟨l', c, rfl⟩
  · exact Or.inl rfl
  · rw [List.concat_eq_append, lastNode_append_singleton]
    exact Or.inr ⟨c, List.mem_append_right l' (List.mem_singleton_self c), rfl⟩

/-- The link of the last node is changed. -/
theorem Links.frame_last (h : Links m a (l ++ [b])) (hm : OnlyHeader b.start m m')
    (hsize : blockSize m' b.start = blockSize m b.start) (ha : Far b.start a)
    (hl : ∀ c ∈ l, Far b.start c.start) : Links m' a (l ++ [b]) := by
  obtain ⟨hfront, hnext, hb, -⟩ := links_append.1 h
  refine links_append.2 ⟨hfront.frame hm ha hl, ?_, hsize.trans hb, trivial⟩
  have hfar : Far b.start (lastNode a l) := by
    rcases lastNode_mem a l with he | ⟨c, hc, he⟩
    · rw [he]
      exact ha
    · rw [he]
      exact hl c hc
  exact (hm.nextFree hfar).trans hnext

/-! ## The walk -/

/-- The walk ends at the last node in front of the block. -/
theorem walkTo_eq {p fuel : Nat} (h : Links m a (l ++ b :: l')) (hl : ∀ c ∈ l, c.start < p)
    (hb : p ≤ b.start) (hfuel : l.length < fuel) : walkTo m p fuel a = some (lastNode a l) := by
  induction l generalizing a fuel with
  | nil =>
    obtain ⟨f, rfl⟩ : ∃ f, fuel = f + 1 := ⟨fuel - 1, by simp at hfuel; omega⟩
    rw [walkTo, h.1, if_neg (by omega), lastNode]
  | cons c l ih =>
    obtain ⟨f, rfl⟩ : ∃ f, fuel = f + 1 := ⟨fuel - 1, by simp at hfuel; omega⟩
    rw [walkTo, h.1, if_pos (hl c List.mem_cons_self), lastNode]
    exact ih h.2.2 (fun d hd => hl d (List.mem_cons_of_mem c hd)) (by simp at hfuel; omega)

/-- The search ends at the first node where the loop condition fails. -/
theorem firstFit_eq {n fuel : Nat} (h : Links m a (l ++ b :: l')) (hl : ∀ c ∈ l, c.size < n)
    (hb : ¬ (b.size < n ∧ nextFree m b.start ≠ 0))
    (hsorted : (l ++ [b]).Pairwise fun c d => c.start < d.start) (hfuel : l.length < fuel) :
    firstFit m n fuel a (nextFree m a) = some (lastNode a l, b.start) := by
  induction l generalizing a fuel with
  | nil =>
    obtain ⟨f, rfl⟩ : ∃ f, fuel = f + 1 := ⟨fuel - 1, by simp at hfuel; omega⟩
    obtain ⟨h1, h2, -⟩ := h
    rw [firstFit, h1, h2, if_neg hb, lastNode]
  | cons c l ih =>
    obtain ⟨f, rfl⟩ : ∃ f, fuel = f + 1 := ⟨fuel - 1, by simp at hfuel; omega⟩
    obtain ⟨h1, h2, h3⟩ := h
    obtain ⟨hc, hsorted'⟩ := List.pairwise_cons.1 hsorted
    -- the next node has a larger address, so it is not null
    have hnext : nextFree m c.start ≠ 0 := by
      cases l with
      | nil =>
        have hlt := hc b (by simp)
        have heq : nextFree m c.start = b.start := h3.1
        omega
      | cons d l =>
        have hlt := hc d (by simp)
        have heq : nextFree m c.start = d.start := h3.1
        omega
    rw [firstFit, h1, h2, if_pos ⟨hl c List.mem_cons_self, hnext⟩, lastNode]
    exact ih h3 (fun d hd => hl d (List.mem_cons_of_mem c hd)) hsorted' (by simp at hfuel; omega)

end Links

/-! ## Coalescing -/

/-- The block that the sentinel `xEnd` stands for. -/
def endBlock (xEnd : Nat) : Block := ⟨xEnd, 0⟩

section Coalesce
variable {m : Mem} {xEnd it a s : Nat} {l : List Block}

/-- The block `⟨a, s⟩`, linked after `it` in front of `l`, takes in the first
block of `l` if it touches it. -/
theorem coalesceAfter_spec (hsize : blockSize m a = s) (hlinks : Links m it (l ++ [endBlock xEnd]))
    (hit : it = a ∨ Far a it) (hfar : ∀ c ∈ l, Far a c.start) (hfarEnd : Far a xEnd)
    (hend : a + s < xEnd) (hbound : xEnd < 65536)
    (hl : ∀ c ∈ l, c.start < xEnd ∧ s + c.size < 65536) :
    OnlyHeader a m (coalesceAfter xEnd m it a) ∧ ∃ s' l', joinNext ⟨a, s⟩ l = ⟨a, s'⟩ :: l' ∧
      blockSize (coalesceAfter xEnd m it a) a = s' ∧
      Links (coalesceAfter xEnd m it a) a (l' ++ [endBlock xEnd]) := by
  have hadd : add16 a s = a + s := Nat.mod_eq_of_lt (by omega)
  -- without a join the block is linked to the node after `it`
  have hlink : OnlyHeader a m (setNextFree m a (nextFree m it)) ∧
      blockSize (setNextFree m a (nextFree m it)) a = s ∧
      Links (setNextFree m a (nextFree m it)) a (l ++ [endBlock xEnd]) := by
    have hm := onlyHeader_setNextFree m a (nextFree m it)
    refine ⟨hm, (blockSize_setNextFree m a _).trans hsize, ?_⟩
    refine hlinks.move (nextFree_setNextFree m (nextFree_lt m it)) fun c hc => ?_
    have hf : Far a c.start := by
      rcases List.mem_append.1 hc with hc | hc
      · exact hfar c hc
      · rw [List.mem_singleton.1 hc]
        exact hfarEnd
    exact ⟨hm.nextFree hf, hm.blockSize hf⟩
  cases l with
  | nil =>
    have hnext : nextFree m it = xEnd := hlinks.1
    have hne : ¬ add16 a (blockSize m a) = nextFree m it := by
      rw [hsize, hadd, hnext]
      omega
    obtain ⟨h1, h2, h3⟩ := hlink
    rw [coalesceAfter, if_neg hne]
    exact ⟨h1, s, [], rfl, h2, h3⟩
  | cons d l =>
    obtain ⟨hnext, hdsize, hrest⟩ := hlinks
    obtain ⟨hd1, hd2⟩ := hl d List.mem_cons_self
    by_cases htouch : a + s = d.start
    · have hjoin : add16 s d.size = s + d.size := Nat.mod_eq_of_lt hd2
      -- the first block is taken in and its link is taken over
      have hm1 := onlyHeader_setBlockSize m a (s + d.size)
      have hit1 : nextFree (setBlockSize m a (s + d.size)) it = d.start := by
        rcases hit with rfl | hf
        · rw [nextFree_setBlockSize, hnext]
        · rw [hm1.nextFree hf, hnext]
      have hd : Far a d.start := hfar d List.mem_cons_self
      have heq : coalesceAfter xEnd m it a =
          setNextFree (setBlockSize m a (s + d.size)) a (nextFree m d.start) := by
        rw [coalesceAfter, hsize, hadd, hnext, if_pos htouch, if_pos (by omega), hdsize, hjoin]
        simp only [hit1, hm1.nextFree hd]
      have hm2 := onlyHeader_setNextFree (setBlockSize m a (s + d.size)) a (nextFree m d.start)
      have hm := hm1.trans hm2
      rw [heq]
      refine ⟨hm, s + d.size, l, if_pos htouch, ?_, ?_⟩
      · rw [blockSize_setNextFree, blockSize_setBlockSize m hd2]
      · refine hrest.move (nextFree_setNextFree _ (nextFree_lt m d.start)) fun c hc => ?_
        have hf : Far a c.start := by
          rcases List.mem_append.1 hc with hc | hc
          · exact hfar c (List.mem_cons_of_mem d hc)
          · rw [List.mem_singleton.1 hc]
            exact hfarEnd
        exact ⟨hm.nextFree hf, hm.blockSize hf⟩
    · have hne : ¬ add16 a (blockSize m a) = nextFree m it := by
        rw [hsize, hadd, hnext]
        exact htouch
      obtain ⟨h1, h2, h3⟩ := hlink
      rw [coalesceAfter, if_neg hne]
      exact ⟨h1, s, d :: l, if_neg htouch, h2, h3⟩

end Coalesce

/-! ## Putting a block back -/

/-- A block of the heap with room for a header. -/
def InHeap (L : Layout) (b : Block) : Prop :=
  L.ucHeap ≤ b.start ∧ b.stop ≤ L.ucHeap + 2044 ∧ 4 ≤ b.size

section Insert
variable {L : Layout} {m : Mem} {b c : Block} {free : List Block}

theorem InHeap.far_xStart (h : InHeap L b) : Far b.start L.xStart := by
  obtain ⟨h1, h2, h3⟩ := h
  have h4 := L.start_outside
  simp only [stop] at h2
  unfold Far
  omega

theorem InHeap.far_xEnd (h : InHeap L b) : Far b.start L.xEnd := by
  obtain ⟨h1, h2, h3⟩ := h
  have h4 := L.end_above
  simp only [stop] at h2
  unfold Far
  omega

theorem far_of_apart (hb : InHeap L b) (hc : InHeap L c) (h : b.Apart c) : Far b.start c.start := by
  have h1 := hb.2.2
  have h2 := hc.2.2
  simp only [Apart, stop] at h
  unfold Far
  omega

/-- What the list looks like before a block is put back. -/
structure Insertable (L : Layout) (m : Mem) (free : List Block) (b : Block) : Prop where
  links : Links m L.xStart (free ++ [endBlock L.xEnd])
  startSize : blockSize m L.xStart = 0
  separated : Separated free
  inHeap : ∀ c ∈ free, InHeap L c
  block : InHeap L b
  apart : ∀ c ∈ free, b.Apart c
  size : blockSize m b.start = b.size

/-- What it looks like afterwards: only headers of the list, of the block and
of `xStart` are changed. -/
structure Inserted (L : Layout) (m : Mem) (free : List Block) (b : Block) (m' : Mem) : Prop where
  links : Links m' L.xStart (insertBlock b free ++ [endBlock L.xEnd])
  startSize : blockSize m' L.xStart = 0
  frame : ∀ x, (x < L.xStart ∨ L.xStart + 4 ≤ x) → (∀ c ∈ b :: free, ¬ c.Has x) → m' x = m x

/-! The node at which the walk ends is `xStart` or the last block in front. -/

theorem lastNode_far {l : List Block} (hl : ∀ c ∈ l, InHeap L c) (hb : InHeap L b)
    (hap : ∀ c ∈ l, b.Apart c) : Far b.start (lastNode L.xStart l) := by
  rcases lastNode_mem L.xStart l with he | ⟨c, hc, he⟩
  · rw [he]
    exact hb.far_xStart
  · rw [he]
    exact far_of_apart hb (hl c hc) (hap c hc)

theorem lastNode_far_xEnd {l : List Block} (hl : ∀ c ∈ l, InHeap L c) :
    Far (lastNode L.xStart l) L.xEnd := by
  rcases lastNode_mem L.xStart l with he | ⟨c, hc, he⟩
  · rw [he]
    exact L.sentinels
  · rw [he]
    exact (hl c hc).far_xEnd

/-- A new link at the end of the list changes nothing else of it. -/
theorem setNextFree_last {l : List Block} (v : Nat) (hlinks : Links m L.xStart l)
    (hstart : blockSize m L.xStart = 0) (hsep : Separated l) (hl : ∀ c ∈ l, InHeap L c) :
    Links (setNextFree m (lastNode L.xStart l) v) L.xStart l ∧
      blockSize (setNextFree m (lastNode L.xStart l) v) L.xStart = 0 := by
  have hm := onlyHeader_setNextFree m (lastNode L.xStart l) v
  have hsize := blockSize_setNextFree m (lastNode L.xStart l) v
  rcases List.eq_nil_or_concat l with rfl | ⟨l', c, rfl⟩
  · exact ⟨trivial, hsize.trans hstart⟩
  · rw [List.concat_eq_append] at *
    rw [lastNode_append_singleton] at *
    have hc : InHeap L c := hl c (by simp)
    refine ⟨hlinks.frame_last hm hsize hc.far_xStart fun d hd => ?_,
      (hm.blockSize hc.far_xStart).trans hstart⟩
    have hbefore := (List.pairwise_append.1 hsep).2.2 d hd c (by simp)
    exact far_of_apart hc (hl d (by simp [hd])) (Or.inr (Nat.le_of_lt hbefore))

/-- The bytes outside `xStart` and the blocks are not in the header of a node. -/
theorem off_header (hb : InHeap L b) {x : Nat} (hx : ¬ b.Has x) : x < b.start ∨ b.start + 4 ≤ x := by
  have h := hb.2.2
  simp only [Has, stop] at hx
  omega

section Cases
variable {l₁ l₂ : List Block}

/-- The block touches no block in front of it. -/
theorem insert_apart (h : Insertable L m (l₁ ++ l₂) b) (hl₁ : ∀ c ∈ l₁, c.stop < b.start)
    (hl₂ : ∀ c ∈ l₂, b.start ≤ c.start) (it : Nat) (hit : it = lastNode L.xStart l₁) :
    coalesceBefore m it b.start = (m, b.start) ∧
      Inserted L m (l₁ ++ l₂) b (setNextFree (coalesceAfter L.xEnd m it b.start) it b.start) := by
  subst hit
  have hb := h.block
  have hEnd := L.end_above
  have hEnd' := L.end_bound
  have hin₁ : ∀ c ∈ l₁, InHeap L c := fun c hc => h.inHeap c (List.mem_append_left l₂ hc)
  have hin₂ : ∀ c ∈ l₂, InHeap L c := fun c hc => h.inHeap c (List.mem_append_right l₁ hc)
  have hap₁ : ∀ c ∈ l₁, b.Apart c := fun c hc => h.apart c (List.mem_append_left l₂ hc)
  have hap₂ : ∀ c ∈ l₂, b.Apart c := fun c hc => h.apart c (List.mem_append_right l₁ hc)
  have hcross := (List.pairwise_append.1 h.separated).2.2
  have hitb : Far b.start (lastNode L.xStart l₁) := lastNode_far hin₁ hb hap₁
  have hitc : ∀ c ∈ l₂, Far (lastNode L.xStart l₁) c.start := fun c hc =>
    Or.symm (lastNode_far hin₁ (hin₂ c hc) fun d hd => Or.inr (Nat.le_of_lt (hcross d hd c hc)))
  have hlinks := h.links
  rw [List.append_assoc] at hlinks
  obtain ⟨hfront, hrest⟩ := links_append.1 hlinks
  have hbstart := hb.1
  have hbstop := hb.2.1
  simp only [stop] at hbstop
  constructor
  · have hne : ¬ add16 (lastNode L.xStart l₁) (blockSize m (lastNode L.xStart l₁)) = b.start := by
      rcases List.eq_nil_or_concat l₁ with rfl | ⟨l, c, rfl⟩
      · have hfar := hb.far_xStart
        have hbound := L.start_bound
        rw [lastNode, h.startSize, add16]
        unfold Far at hfar
        omega
      · rw [List.concat_eq_append] at *
        have hc := hl₁ c (by simp)
        have hsize : blockSize m c.start = c.size := (links_append.1 hfront).2.2.1
        rw [lastNode_append_singleton, hsize, add16]
        simp only [stop] at hc
        omega
    rw [coalesceBefore, if_neg hne]
  · obtain ⟨hm, s', l', hjoin, hs', hl'⟩ := coalesceAfter_spec h.size hrest (Or.inr hitb)
      (fun c hc => far_of_apart hb (hin₂ c hc) (hap₂ c hc)) hb.far_xEnd (by omega) (by omega)
      fun c hc => by
        obtain ⟨h1, h2, h3⟩ := hin₂ c hc
        simp only [stop] at h2
        omega
    generalize coalesceAfter L.xEnd m (lastNode L.xStart l₁) b.start = m₂ at hm hs' hl' ⊢
    have hfar₁ : ∀ c ∈ l₁, Far b.start c.start := fun c hc => far_of_apart hb (hin₁ c hc) (hap₁ c hc)
    obtain ⟨hfront', hstart'⟩ := setNextFree_last b.start (hfront.frame hm hb.far_xStart hfar₁)
      ((hm.blockSize hb.far_xStart).trans h.startSize) (List.pairwise_append.1 h.separated).1 hin₁
    have hm₃ := onlyHeader_setNextFree m₂ (lastNode L.xStart l₁) b.start
    refine ⟨?_, hstart', fun x hx hno => ?_⟩
    · have hjoin' : joinNext b l₂ = ⟨b.start, s'⟩ :: l' := hjoin
      have hlt₂ : ∀ c ∈ l₂, b.start < c.start := fun c hc => by
        have h1 := hl₂ c hc
        have h2 := far_of_apart hb (hin₂ c hc) (hap₂ c hc)
        unfold Far at h2
        omega
      rw [insertBlock_append hl₁, insertBlock_before hlt₂, hjoin', List.append_assoc]
      refine links_append.2 ⟨hfront', nextFree_setNextFree m₂ (by omega), ?_, ?_⟩
      · exact (hm₃.blockSize (Or.symm hitb)).trans hs'
      · refine hl'.frame hm₃ (Or.symm hitb) fun c hc => ?_
        rcases List.mem_append.1 hc with hc | hc
        · exact hitc c (mem_of_joinNext_eq hjoin' c hc)
        · rw [List.mem_singleton.1 hc]
          exact lastNode_far_xEnd hin₁
    · have hxb := off_header hb (hno b List.mem_cons_self)
      have hxit : x < lastNode L.xStart l₁ ∨ lastNode L.xStart l₁ + 4 ≤ x := by
        rcases lastNode_mem L.xStart l₁ with he | ⟨c, hc, he⟩
        · rw [he]
          exact hx
        · rw [he]
          exact off_header (hin₁ c hc) (hno c (by simp [hc]))
      rw [hm₃ x hxit, hm x hxb]

/-- The block touches the last block in front of it. -/
theorem insert_merge (h : Insertable L m (l₁ ++ c :: l₂) b) (hc : c.stop = b.start) :
    coalesceBefore m c.start b.start =
        (setBlockSize m c.start (c.size + b.size), c.start) ∧
      Inserted L m (l₁ ++ c :: l₂) b
        (coalesceAfter L.xEnd (setBlockSize m c.start (c.size + b.size)) c.start c.start) := by
  have hb := h.block
  have hEnd := L.end_above
  have hEnd' := L.end_bound
  have hin₁ : ∀ d ∈ l₁, InHeap L d := fun d hd => h.inHeap d (by simp [hd])
  have hinc : InHeap L c := h.inHeap c (by simp)
  have hin₂ : ∀ d ∈ l₂, InHeap L d := fun d hd => h.inHeap d (by simp [hd])
  obtain ⟨hsep₁, hsepc, hcross⟩ := List.pairwise_append.1 h.separated
  have hbefore₁ : ∀ d ∈ l₁, d.stop < c.start := fun d hd => hcross d hd c List.mem_cons_self
  have hbefore₂ := (List.pairwise_cons.1 hsepc).1
  have hfar₁ : ∀ d ∈ l₁, Far c.start d.start := fun d hd =>
    far_of_apart hinc (hin₁ d hd) (Or.inr (Nat.le_of_lt (hbefore₁ d hd)))
  have hfar₂ : ∀ d ∈ l₂, Far c.start d.start := fun d hd =>
    far_of_apart hinc (hin₂ d hd) (Or.inl (Nat.le_of_lt (hbefore₂ d hd)))
  have hlinks := h.links
  rw [List.append_assoc] at hlinks
  obtain ⟨hfront, hnextc, hsizec, hrest⟩ := links_append.1 hlinks
  have hbstop := hb.2.1
  simp only [stop] at hc hbstop
  have hsum : c.size + b.size < 65536 := by omega
  constructor
  · have htouch : add16 c.start (blockSize m c.start) = b.start := by
      rw [hsizec, add16, hc]
      omega
    have hadd : add16 c.size b.size = c.size + b.size := Nat.mod_eq_of_lt hsum
    rw [coalesceBefore, if_pos htouch, hsizec, h.size, hadd]
  · have hm₁ := onlyHeader_setBlockSize m c.start (c.size + b.size)
    have hrest₁ : Links (setBlockSize m c.start (c.size + b.size)) c.start
        (l₂ ++ [endBlock L.xEnd]) := by
      refine hrest.move (nextFree_setBlockSize m c.start _) fun d hd => ?_
      have hf : Far c.start d.start := by
        rcases List.mem_append.1 hd with hd | hd
        · exact hfar₂ d hd
        · rw [List.mem_singleton.1 hd]
          exact hinc.far_xEnd
      exact ⟨hm₁.nextFree hf, hm₁.blockSize hf⟩
    obtain ⟨hm₂, s', l', hjoin, hs', hl'⟩ := coalesceAfter_spec
      (blockSize_setBlockSize m hsum) hrest₁ (Or.inl rfl) hfar₂ hinc.far_xEnd (by omega) (by omega)
      fun d hd => by
        obtain ⟨h1, h2, h3⟩ := hin₂ d hd
        have h4 := hbefore₂ d hd
        have h5 := hinc.1
        simp only [stop, Before] at h2 h4
        omega
    have hm := hm₁.trans hm₂
    refine ⟨?_, (hm.blockSize hinc.far_xStart).trans h.startSize, fun x hx hno => ?_⟩
    · have hlt₁ : ∀ d ∈ l₁, d.stop < b.start := fun d hd => by
        have := hbefore₁ d hd
        omega
      rw [insertBlock_append hlt₁, insertBlock_merge hc, hjoin, List.append_assoc]
      have hfarLast : Far c.start (lastNode L.xStart l₁) :=
        lastNode_far hin₁ hinc fun d hd => Or.inr (Nat.le_of_lt (hbefore₁ d hd))
      exact links_append.2 ⟨hfront.frame hm hinc.far_xStart hfar₁,
        (hm.nextFree hfarLast).trans hnextc, hs', hl'⟩
    · exact hm x (off_header hinc (hno c (by simp)))

end Cases

/-- `prvInsertBlockIntoFreeList` ends and puts the block back. -/
theorem prvInsert_spec (fuel : Nat) (h : Insertable L m free b) (hfuel : free.length < fuel) :
    ∃ m', prvInsertBlockIntoFreeList L fuel m b.start = some m' ∧ Inserted L m free b m' := by
  obtain ⟨l₁, l₂, rfl, hl₁, hl₂⟩ := h.separated.split b.start
  have hb := h.block
  have hend := L.end_above
  have hwalk : walkTo m b.start fuel L.xStart = some (lastNode L.xStart l₁) := by
    have hlen : l₁.length < fuel := by
      rw [List.length_append] at hfuel
      omega
    have hlinks := h.links
    rw [List.append_assoc] at hlinks
    cases l₂ with
    | nil =>
      refine walkTo_eq hlinks hl₁ ?_ hlen
      have h2 := hb.2.1
      simp only [endBlock, stop] at h2 ⊢
      omega
    | cons d l₂ => exact walkTo_eq hlinks hl₁ (hl₂ d List.mem_cons_self) hlen
  by_cases htouch : ∀ c ∈ l₁, c.stop < b.start
  · obtain ⟨hbefore, hins⟩ := insert_apart h htouch hl₂ _ rfl
    have hne : lastNode L.xStart l₁ ≠ b.start := fun he => by
      have hfar : Far b.start (lastNode L.xStart l₁) :=
        lastNode_far (fun c hc => h.inHeap c (by simp [hc])) hb fun c hc => h.apart c (by simp [hc])
      rw [he] at hfar
      unfold Far at hfar
      omega
    refine ⟨_, ?_, hins⟩
    rw [prvInsertBlockIntoFreeList, hwalk]
    simp only [hbefore, if_pos hne]
  · -- only the last block in front can touch the new one
    obtain ⟨l₁', c, rfl, hc⟩ : ∃ l₁' c, l₁ = l₁' ++ [c] ∧ c.stop = b.start := by
      rcases List.eq_nil_or_concat l₁ with rfl | ⟨l₁', c, rfl⟩
      · exact absurd (by simp) htouch
      · rw [List.concat_eq_append] at *
        refine ⟨l₁', c, rfl, ?_⟩
        by_contra hne
        refine htouch fun d hd => ?_
        have hlt := hl₁ c (by simp)
        rcases List.mem_append.1 hd with hd | hd
        · have hsep := (List.pairwise_append.1 (List.pairwise_append.1 h.separated).1).2.2
          exact Nat.lt_trans (hsep d hd c (by simp)) hlt
        · rw [List.mem_singleton.1 hd]
          have hap := h.apart c (by simp)
          have hbsize := hb.2.2
          simp only [Apart, stop] at hap hne ⊢
          omega
    rw [List.append_assoc, List.singleton_append] at h
    obtain ⟨hbefore, hins⟩ := insert_merge h hc
    refine ⟨_, ?_, by rw [List.append_assoc, List.singleton_append]; exact hins⟩
    rw [prvInsertBlockIntoFreeList, hwalk, lastNode_append_singleton]
    simp only [hbefore, ne_eq, not_true_eq_false, if_false]

end Insert
end LlvmTms9900.Heap4
