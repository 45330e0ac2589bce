import LlvmTms9900.Isa.Word

/-!
# The bump allocator (libtms9900/builtins/malloc.c)

`malloc` rounds the size up to a word, adds it to `heap_ptr` and compares the
sum with `__heap_end`; all of it on 16 bits. `free` does nothing. A run is a
sequence of calls from `heap_ptr = &__heap_start`.
-/

namespace LlvmTms9900.Builtins.Malloc
open LlvmTms9900.Isa

/-- `__heap_start` and `__heap_end` of the linker script. -/
structure Heap where
  heapStart : Word
  heapEnd : Word
  start_le : heapStart.toNat ≤ heapEnd.toNat

/-- `malloc.c:13-26`; the returned pointer and the new `heap_ptr`. -/
def malloc (h : Heap) (heapPtr size : Word) : Word × Word :=
  let size := (size + 1#16) &&& ~~~1#16
  let p := heapPtr
  let next := p + size
  if h.heapEnd < next then (0#16, heapPtr) else (p, next)

inductive Op where
  | malloc (size : Word)
  | free (p : Word)
  deriving DecidableEq, Repr

/-- One call: its argument, `heap_ptr` before and after, and the result. -/
structure Call where
  op : Op
  before : Word
  result : Word
  after : Word
  deriving DecidableEq, Repr

def call (h : Heap) (heapPtr : Word) : Op → Call
  | .malloc size => ⟨.malloc size, heapPtr, (malloc h heapPtr size).1, (malloc h heapPtr size).2⟩
  | .free p => ⟨.free p, heapPtr, 0#16, heapPtr⟩

/-- The calls of a run, in order. -/
def trace (h : Heap) (heapPtr : Word) : List Op → List Call
  | [] => []
  | op :: ops => call h heapPtr op :: trace h (call h heapPtr op).after ops

/-- Byte `a` is in the block the call returned. -/
def Call.Covers (c : Call) (a : Nat) : Prop :=
  match c.op with
  | .malloc size => c.result ≠ 0#16 ∧ c.result.toNat ≤ a ∧ a < c.result.toNat + size.toNat
  | .free _ => False

/-- What one call promises: a block inside the heap, or null and `heap_ptr`
as it was; `heap_ptr` moves up and stays inside the heap. -/
structure Call.Sound (h : Heap) (c : Call) : Prop where
  inside : ∀ size, c.op = .malloc size → c.result ≠ 0#16 →
    h.heapStart.toNat ≤ c.result.toNat ∧ c.result.toNat + size.toNat ≤ h.heapEnd.toNat
  null : ∀ size, c.op = .malloc size → c.result = 0#16 → c.after = c.before
  mono : c.before.toNat ≤ c.after.toNat
  bounds : h.heapStart.toNat ≤ c.after.toNat ∧ c.after.toNat ≤ h.heapEnd.toNat

/-- What a run promises: sound calls and disjoint blocks. -/
structure RunSound (h : Heap) (ops : List Op) : Prop where
  sound : ∀ c ∈ trace h h.heapStart ops, c.Sound h
  disjoint : (trace h h.heapStart ops).Pairwise fun c d => ∀ a, ¬ (c.Covers a ∧ d.Covers a)

/-- The size rounded up to a word, without wrap-around. -/
def rounded (size : Word) : Nat := (size.toNat + 1) / 2 * 2

/-- The sum that `malloc` compares does not wrap around, and a block at
address zero is not taken for null. -/
def Call.Fits (h : Heap) (c : Call) : Prop :=
  ∀ size, c.op = .malloc size →
    (c.before ≠ 0#16 ∧ c.before.toNat + rounded size < 65536) ∨
    (c.before = 0#16 ∧ (size = 0#16 ∨ h.heapEnd.toNat < rounded size))

theorem rounded_toNat (size : Word) :
    ((size + 1#16) &&& ~~~1#16).toNat = rounded size % 65536 := by
  have hsize := size.isLt
  have hclear : ∀ x : Word, x &&& ~~~1#16 = (x >>> 1) <<< 1 := fun x => by
    apply BitVec.eq_of_getLsbD_eq
    intro i hi
    interval_cases i <;> simp
  rw [hclear, BitVec.toNat_shiftLeft, BitVec.toNat_ushiftRight, Nat.shiftRight_eq_div_pow,
    Nat.shiftLeft_eq, BitVec.toNat_add, rounded]
  simp only [BitVec.toNat_ofNat]
  omega

section Step
variable {h : Heap} {p size : Word}

/-- Both outcomes of `malloc`, over natural numbers. -/
theorem malloc_cases (h : Heap) (p size : Word) :
    (h.heapEnd.toNat < (p.toNat + rounded size) % 65536 ∧ malloc h p size = (0#16, p)) ∨
    ((p.toNat + rounded size) % 65536 ≤ h.heapEnd.toNat ∧ (malloc h p size).1 = p ∧
      (malloc h p size).2.toNat = (p.toNat + rounded size) % 65536) := by
  have hnext : (p + ((size + 1#16) &&& ~~~1#16)).toNat = (p.toNat + rounded size) % 65536 := by
    rw [BitVec.toNat_add, rounded_toNat]
    omega
  simp only [malloc, BitVec.lt_def]
  rw [hnext]
  by_cases hc : h.heapEnd.toNat < (p.toNat + rounded size) % 65536
  · exact Or.inl ⟨hc, if_pos hc⟩
  · refine Or.inr ⟨by omega, ?_, ?_⟩
    · rw [if_neg hc]
    · rw [if_neg hc]
      exact hnext

theorem call_before (h : Heap) (p : Word) (op : Op) : (call h p op).before = p := by
  cases op <;> rfl

theorem sound_free (h : Heap) (p q : Word) :
    (call h p (.free q)).Sound h ↔ h.heapStart.toNat ≤ p.toNat ∧ p.toNat ≤ h.heapEnd.toNat := by
  constructor
  · intro hs
    exact hs.bounds
  · intro hb
    exact ⟨nofun, nofun, le_rfl, hb⟩

theorem sound_malloc (h : Heap) (p size : Word) :
    (call h p (.malloc size)).Sound h ↔
      ((malloc h p size).1 ≠ 0#16 → h.heapStart.toNat ≤ (malloc h p size).1.toNat ∧
        (malloc h p size).1.toNat + size.toNat ≤ h.heapEnd.toNat) ∧
      ((malloc h p size).1 = 0#16 → (malloc h p size).2 = p) ∧
      p.toNat ≤ (malloc h p size).2.toNat ∧
      h.heapStart.toNat ≤ (malloc h p size).2.toNat ∧
      (malloc h p size).2.toNat ≤ h.heapEnd.toNat := by
  constructor
  · intro hs
    exact ⟨hs.inside size rfl, hs.null size rfl, hs.mono, hs.bounds⟩
  · rintro ⟨hin, hnull, hmono, hb⟩
    refine ⟨?_, ?_, hmono, hb⟩
    · rintro size' ⟨⟩
      exact hin
    · rintro size' ⟨⟩
      exact hnull

theorem fits_malloc (h : Heap) (p size : Word) :
    (call h p (.malloc size)).Fits h ↔
      (p ≠ 0#16 ∧ p.toNat + rounded size < 65536) ∨
      (p = 0#16 ∧ (size = 0#16 ∨ h.heapEnd.toNat < rounded size)) := by
  constructor
  · intro hf
    exact hf size rfl
  · rintro hf size' ⟨⟩
    exact hf

/-- A call from inside the heap is sound exactly when it fits. -/
theorem sound_iff_fits {op : Op} (h0 : h.heapStart.toNat ≤ p.toNat)
    (h1 : p.toNat ≤ h.heapEnd.toNat) : (call h p op).Sound h ↔ (call h p op).Fits h := by
  cases op with
  | free q => exact ⟨fun _ => nofun, fun _ => (sound_free h p q).2 ⟨h0, h1⟩⟩
  | malloc size =>
    have hlt := h.heapEnd.isLt
    have hround : rounded size = (size.toNat + 1) / 2 * 2 := rfl
    have hsz := size.isLt
    have hp0 : p = 0#16 ↔ p.toNat = 0 := by rw [← BitVec.toNat_inj]; rfl
    have hz0 : size = 0#16 ↔ size.toNat = 0 := by rw [← BitVec.toNat_inj]; rfl
    rw [sound_malloc, fits_malloc]
    rcases malloc_cases h p size with ⟨hc, he⟩ | ⟨hc, hres, hnew⟩
    · -- null: the sum did not wrap around, or `heap_ptr` is zero
      simp only [he, hp0, hz0, ne_eq, not_true_eq_false, false_implies, true_implies, true_and]
      omega
    · rw [← BitVec.toNat_inj (x := (malloc h p size).2), hres, hnew]
      simp only [hp0, hz0, ne_eq]
      omega

end Step

section Run
variable {h : Heap}

theorem trace_sound_iff {p : Word} (ops : List Op) (h0 : h.heapStart.toNat ≤ p.toNat)
    (h1 : p.toNat ≤ h.heapEnd.toNat) :
    (∀ c ∈ trace h p ops, c.Sound h) ↔ ∀ c ∈ trace h p ops, c.Fits h := by
  induction ops generalizing p with
  | nil => simp [trace]
  | cons op ops ih =>
    simp only [trace, List.forall_mem_cons]
    rw [← sound_iff_fits h0 h1]
    refine and_congr_right fun hs => ?_
    exact ih hs.bounds.1 hs.bounds.2

/-- A block lies between the values of `heap_ptr` around its call. -/
theorem covers_between {p : Word} {op : Op} {a : Nat} (hf : (call h p op).Fits h)
    (hc : (call h p op).Covers a) : p.toNat ≤ a ∧ a < (call h p op).after.toNat := by
  cases op with
  | free q => exact absurd hc id
  | malloc size =>
    obtain ⟨hne, hlo, hhi⟩ := hc
    have hround : size.toNat ≤ rounded size := by
      rw [rounded]
      omega
    rcases malloc_cases h p size with ⟨-, he⟩ | ⟨-, hres, hnew⟩
    · rw [call, he] at hne
      exact absurd rfl hne
    · simp only [call, hres] at hne hlo hhi
      rcases hf size rfl with ⟨-, hfit⟩ | ⟨hz, -⟩
      · simp only [call] at hfit ⊢
        omega
      · exact absurd hz hne

theorem covers_above {p : Word} {ops : List Op} (hf : ∀ c ∈ trace h p ops, c.Fits h)
    (hs : ∀ c ∈ trace h p ops, c.Sound h) :
    ∀ c ∈ trace h p ops, ∀ a, c.Covers a → p.toNat ≤ a := by
  induction ops generalizing p with
  | nil => simp [trace]
  | cons op ops ih =>
    simp only [trace, List.forall_mem_cons] at hf hs ⊢
    refine ⟨fun a ha => (covers_between hf.1 ha).1, fun c hc a ha => ?_⟩
    have hmono := hs.1.mono
    rw [call_before] at hmono
    exact hmono.trans (ih hf.2 hs.2 c hc a ha)

theorem blocks_disjoint {p : Word} {ops : List Op} (hf : ∀ c ∈ trace h p ops, c.Fits h)
    (hs : ∀ c ∈ trace h p ops, c.Sound h) :
    (trace h p ops).Pairwise fun c d => ∀ a, ¬ (c.Covers a ∧ d.Covers a) := by
  induction ops generalizing p with
  | nil => exact List.Pairwise.nil
  | cons op ops ih =>
    simp only [trace, List.forall_mem_cons] at hf hs ⊢
    refine List.Pairwise.cons ?_ (ih hf.2 hs.2)
    rintro d hd a ⟨hca, hda⟩
    have hbelow := (covers_between hf.1 hca).2
    have habove := covers_above hf.2 hs.2 d hd a hda
    omega

end Run

/-- A run keeps the contract exactly when every call fits. -/
theorem runSound_iff (h : Heap) (ops : List Op) :
    RunSound h ops ↔ ∀ c ∈ trace h h.heapStart ops, c.Fits h := by
  have hiff := trace_sound_iff ops (le_refl h.heapStart.toNat) h.start_le
  constructor
  · intro hrun
    exact hiff.1 hrun.sound
  · intro hf
    exact ⟨hiff.2 hf, blocks_disjoint hf (hiff.2 hf)⟩

/-- The heap of `bench.ld`, for a program that ends at `0x2000`. -/
def benchHeap : Heap := ⟨0x2000#16, 0xEFFE#16, by decide⟩

/-- The second request wraps `heap_ptr` back to the first block, and the third
is given that block again. -/
theorem benchHeap_wraps :
    ¬ RunSound benchHeap [.malloc 0x100#16, .malloc 0xFF00#16, .malloc 0x100#16] := by
  intro hrun
  have hd := hrun.disjoint
  simp only [trace, List.pairwise_cons] at hd
  refine hd.1 (call benchHeap 0x2000#16 (.malloc 0x100#16)) ?_ 0x2000 ?_
  · decide
  · exact ⟨⟨by decide, by decide, by decide⟩, ⟨by decide, by decide, by decide⟩⟩

end LlvmTms9900.Builtins.Malloc
