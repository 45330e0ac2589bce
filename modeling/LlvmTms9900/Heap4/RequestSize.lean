import LlvmTms9900.Heap4.Run

/-!
# Request sizes of heap_malloc (tests/benchmarks/heap4.c)

The header and the alignment are added in 16-bit arithmetic before the size is
checked. From `0xFFFB` on the sum wraps around to at most 4, so that any free
block seems large enough.
-/

namespace LlvmTms9900.Heap4
open LlvmTms9900.Isa LlvmTms9900.Arith LlvmTms9900.Arith.Block

/-- The request is one that the size computation gets right, or there is no
free block to hand out. -/
def Servable (L : Layout) (w : World) (n : Nat) : Prop :=
  n ≤ 0xFFFA ∨ nextFree w.heap.mem L.xStart = L.xEnd

/-- The states that servable requests, calls of `heap_free` and writes of the
client lead to. -/
inductive ValidUse (L : Layout) (fuel : Nat) (m₀ : Mem) : World → Prop
  | init : ValidUse L fuel m₀ ⟨heapInit L m₀, []⟩
  | malloc {w : World} {n p : Nat} {h : Heap} : ValidUse L fuel m₀ w → n < 65536 →
      Servable L w n → heapMalloc L fuel w.heap n = some (p, h) →
      ValidUse L fuel m₀ ⟨h, if p = 0 then w.held else p :: w.held⟩
  | free {w : World} {p : Nat} {h : Heap} : ValidUse L fuel m₀ w → p = 0 ∨ p ∈ w.held →
      heapFree L fuel w.heap p = some h → ValidUse L fuel m₀ ⟨h, w.held.erase p⟩
  | write {w : World} {p a : Nat} (v : Byte) : ValidUse L fuel m₀ w → p ∈ w.held → p ≤ a →
      a < (heldBlock w.heap.mem p).stop →
      ValidUse L fuel m₀ ⟨⟨fun x => if x = a then v else w.heap.mem x, w.heap.freeBytes⟩, w.held⟩

/-- A request is refused and changes nothing, or a block leaves the free list
that holds the payload, inside the heap. -/
def MallocSafe (L : Layout) (fuel : Nat) (w : World) (n : Nat) : Prop :=
  ∃ free, FreeList L w.heap.mem free ∧ ∃ p h', heapMalloc L fuel w.heap n = some (p, h') ∧
    (p = 0 ∧ h' = w.heap ∨
      p ≠ 0 ∧ L.ucHeap ≤ p ∧ p + n ≤ L.ucHeap + 2048 ∧
        ∃ free', FreeList L h'.mem free' ∧ (∀ c ∈ free', minBlockSize ≤ c.size) ∧
          ∃ b ∈ free, b.start ≤ p ∧ p + n ≤ b.stop ∧ ∀ c ∈ free', c.start ≠ b.start)

/-- A wrapped size. -/
theorem wantedSize_wraps {n : Nat} (hn : 0xFFFB ≤ n) (hlt : n < 65536) : wantedSize n ≤ 4 := by
  have h : ∀ k < 5, wantedSize (0xFFFB + k) ≤ 4 := by decide
  have h1 := h (n - 0xFFFB) (by omega)
  rwa [Nat.add_sub_cancel' hn] at h1

section Requests
variable {L : Layout} {w : World} {free : List Block} {b : Block} {n p fuel : Nat} {h' : Heap}

theorem Inv.freeList (h : Inv L w free) : FreeList L w.heap.mem free := ⟨h.links, h.endNext⟩

/-- The list is empty when `xStart` is linked to `xEnd`. -/
theorem Inv.empty_iff (h : Inv L w free) : nextFree w.heap.mem L.xStart = L.xEnd ↔ free = [] := by
  have hlinks := h.links
  cases free with
  | nil => exact iff_of_true hlinks.1 rfl
  | cons b l =>
    have hnext : nextFree w.heap.mem L.xStart = b.start := hlinks.1
    have hfar := (h.inHeap (b := b) (Or.inl List.mem_cons_self)).far_xEnd
    refine iff_of_false (fun he => ?_) (List.cons_ne_nil b l)
    unfold Far at hfar
    omega

/-- From an empty list nothing is handed out. -/
theorem heapMalloc_empty (h : Inv L w []) (hfuel : 0 < fuel) :
    heapMalloc L fuel w.heap n = some (0, w.heap) := by
  have hfit : firstFit w.heap.mem (wantedSize n) fuel L.xStart (nextFree w.heap.mem L.xStart) =
      some (L.xStart, L.xEnd) :=
    firstFit_eq (l := []) (b := endBlock L.xEnd) h.links (fun c hc => by cases hc)
      (fun hno => hno.2 h.endNext) (List.pairwise_singleton _ _) hfuel
  rw [heapMalloc, hfit]
  simp only [ne_eq, not_true_eq_false, if_false, ite_self]

/-- With a wrapped size the first block is handed out, whatever its size. -/
theorem heapMalloc_wrapped (h : Inv L w (b :: free)) (hn : 0xFFFB ≤ n) (hlt : n < 65536)
    (hfuel : 0 < fuel) (heq : heapMalloc L fuel w.heap n = some (p, h')) : p = b.start + 4 := by
  have hsmall := wantedSize_wraps hn hlt
  have hmem : b ∈ b :: free := List.mem_cons_self
  have h6 := (h.fitFree b hmem).1
  have hin := h.inHeap (Or.inl hmem)
  have hstop := hin.2.1
  have hE := L.end_above
  have hE' := L.end_bound
  simp only [stop] at hstop
  have hfit : firstFit w.heap.mem (wantedSize n) fuel L.xStart (nextFree w.heap.mem L.xStart) =
      some (L.xStart, b.start) :=
    firstFit_eq (l := []) h.links (fun c hc => by cases hc) (fun hno => by omega)
      (List.pairwise_singleton _ _) hfuel
  have hle : wantedSize n ≤ w.heap.freeBytes := by
    have hsize := size_le_total hmem
    rw [h.sum]
    omega
  have hne : b.start ≠ L.xEnd := by
    have hfar := hin.far_xEnd
    unfold Far at hfar
    omega
  have hptr : add16 b.start headerSize = b.start + 4 := Nat.mod_eq_of_lt (by
    rw [headerSize]
    omega)
  rw [heapMalloc, if_neg (by omega), if_pos hle, hfit] at heq
  simp only [if_pos hne] at heq
  cases hsplit : splitBlock L fuel (setNextFree w.heap.mem L.xStart
      (nextFree w.heap.mem b.start)) b.start (wantedSize n) with
  | none =>
    rw [hsplit] at heq
    cases heq
  | some m =>
    rw [hsplit] at heq
    rw [← hptr]
    exact (congrArg Prod.fst (Option.some.inj heq)).symm

/-- Every request whose size does not wrap. -/
theorem Inv.mallocSafe (h : Inv L w free) (hn : n ≤ 0xFFFA) (hfuel : 1024 ≤ fuel) :
    MallocSafe L fuel w n := by
  refine ⟨free, h.freeList, ?_⟩
  rcases Nat.eq_zero_or_pos n with rfl | hn0
  · exact ⟨0, w.heap, if_pos rfl, Or.inl ⟨rfl, rfl⟩⟩
  · rcases heapMalloc_spec h hn0 hn hfuel with
      ⟨-, hnull⟩ | ⟨-, p, h', free', hp, hsome, hinv, -, b, hb, hbp, hroom⟩
    · exact ⟨0, w.heap, hnull, Or.inl ⟨rfl, rfl⟩⟩
    · obtain ⟨hb1, hb2, -⟩ := h.inHeap (Or.inl hb)
      have hhead : headerSize = 4 := rfl
      refine ⟨p, h', hsome, Or.inr ⟨hp, by omega, by omega, free', hinv.freeList,
        fun c hc => (hinv.fitFree c hc).1, b, hb, by omega, hroom, fun c hc hcb => ?_⟩⟩
      -- the block of the pointer is apart from every block of the list
      obtain ⟨hmem, hstart⟩ := hinv.heldBlock_mem (p := p) List.mem_cons_self
      have hap := hinv.tiling.cross _ hmem c hc
      have h6 := (hinv.fitTaken _ hmem).1
      have h6' := (hinv.fitFree c hc).1
      simp only [Apart, stop] at hap
      simp only at hstart hap h6
      omega

/-- A request that wraps while there is a free block. -/
theorem Inv.not_mallocSafe (h : Inv L w (b :: free)) (hn : 0xFFFB ≤ n) (hlt : n < 65536)
    (hfuel : 0 < fuel) : ¬ MallocSafe L fuel w n := by
  rintro ⟨_, _, p, h', heq, hcase⟩
  have hp := heapMalloc_wrapped h hn hlt hfuel heq
  have hstart := (h.inHeap (b := b) (Or.inl List.mem_cons_self)).1
  have hE := L.end_above
  have hE' := L.end_bound
  rcases hcase with ⟨h0, -⟩ | ⟨-, -, hroom, -⟩
  · omega
  · omega

/-- Servable requests lead to states that requests of checked sizes reach. -/
theorem ValidUse.reachable {m₀ : Mem} (hfuel : 1024 ≤ fuel) (h : ValidUse L fuel m₀ w) :
    Reachable L fuel m₀ w := by
  induction h with
  | init => exact Reachable.init
  | @malloc w n p h' _ hlt hserv heq ih =>
    by_cases hn : n ≤ 0xFFFA
    · exact Reachable.malloc ih hn heq
    · obtain ⟨free, hinv⟩ := ih.inv hfuel
      have hempty := hinv.empty_iff.1 (hserv.resolve_left hn)
      rw [hempty] at hinv
      rw [heapMalloc_empty hinv (by omega), Option.some.injEq, Prod.mk.injEq] at heq
      obtain ⟨rfl, rfl⟩ := heq
      exact ih
  | free _ hp heq ih => exact Reachable.free ih hp heq
  | write v _ hp hpa ha ih => exact Reachable.write v ih hp hpa ha

end Requests

/-- In every state of a run whose requests are servable, `heap_malloc` does what
it should for a request of any size exactly when that request is servable. -/
theorem mallocSafe_iff {L : Layout} {fuel : Nat} {m₀ : Mem} {w : World} {n : Nat}
    (hfuel : 1024 ≤ fuel) (h : ValidUse L fuel m₀ w) (hn : n < 65536) :
    MallocSafe L fuel w n ↔ Servable L w n := by
  obtain ⟨free, hinv⟩ := (h.reachable hfuel).inv hfuel
  by_cases hle : n ≤ 0xFFFA
  · exact iff_of_true (hinv.mallocSafe hle hfuel) (Or.inl hle)
  · cases free with
    | nil =>
      refine iff_of_true ⟨[], hinv.freeList, 0, w.heap, ?_, Or.inl ⟨rfl, rfl⟩⟩
        (Or.inr (hinv.empty_iff.2 rfl))
      exact heapMalloc_empty hinv (by omega)
    | cons b free =>
      refine iff_of_false (hinv.not_mallocSafe (by omega) hn (by omega)) ?_
      rintro (h1 | h1)
      · exact hle h1
      · exact List.cons_ne_nil b free (hinv.empty_iff.1 h1)

/-- A request for ten bytes of a fresh heap. -/
theorem ramLayout_mallocSafe :
    MallocSafe ramLayout 1024 ⟨heapInit ramLayout fun _ => 0#8, []⟩ 10 :=
  (mallocSafe_iff (Nat.le_refl 1024) ValidUse.init (by decide)).2 (Or.inl (by decide))

/-- A request for 65535 bytes of a fresh heap is not refused. -/
theorem ramLayout_not_mallocSafe :
    ValidUse ramLayout 1024 (fun _ => 0#8) ⟨heapInit ramLayout fun _ => 0#8, []⟩ ∧
      ¬ MallocSafe ramLayout 1024 ⟨heapInit ramLayout fun _ => 0#8, []⟩ 0xFFFF :=
  ⟨ValidUse.init,
    Inv.not_mallocSafe (heapInit_inv ramLayout fun _ => 0#8) (by decide) (by decide) (by decide)⟩

end LlvmTms9900.Heap4
