import Mathlib

/-!
# Lists of blocks

Blocks of consecutive addresses and lists of them in address order with a gap
between any two. Putting a block back joins it with the block that ends where
it starts and with the one that starts where it ends. `Tiling` says that such a
list and a set of blocks taken from it make up an interval.
-/

namespace LlvmTms9900.Arith

structure Block where
  start : Nat
  size : Nat
  deriving DecidableEq, Repr

namespace Block

def stop (b : Block) : Nat := b.start + b.size

def Has (b : Block) (x : Nat) : Prop := b.start ≤ x ∧ x < b.stop

def Apart (a b : Block) : Prop := a.stop ≤ b.start ∨ b.stop ≤ a.start

/-- `a` ends before `b` starts, with a gap. -/
def Before (a b : Block) : Prop := a.stop < b.start

theorem Apart.symm {a b : Block} (h : a.Apart b) : b.Apart a := Or.symm h

instance : Std.Symm Apart := ⟨fun _ _ => Apart.symm⟩

theorem apart_iff {a b : Block} (ha : 0 < a.size) (hb : 0 < b.size) :
    a.Apart b ↔ ∀ x, ¬ (a.Has x ∧ b.Has x) := by
  simp only [Apart, Has, stop]
  constructor
  · rintro h x ⟨h1, h2⟩
    omega
  · intro h
    by_contra hno
    refine h (max a.start b.start) ⟨⟨?_, ?_⟩, ?_, ?_⟩ <;> omega

end Block

open Block

/-- Address `x` is in one of the blocks. -/
def Spanned (l : List Block) (x : Nat) : Prop := ∃ b ∈ l, b.Has x

/-- In address order, no two blocks adjacent. -/
def Separated (l : List Block) : Prop := l.Pairwise Before

def total (l : List Block) : Nat := (l.map Block.size).sum

/-- `b` in front of `l`, joined with the first block if they touch. -/
def joinNext (b : Block) : List Block → List Block
  | [] => [b]
  | c :: l => if b.stop = c.start then ⟨b.start, b.size + c.size⟩ :: l else b :: c :: l

/-- `b` put back into `l`. -/
def insertBlock (b : Block) : List Block → List Block
  | [] => [b]
  | c :: l =>
    if b.start < c.start then joinNext b (c :: l)
    else if c.stop = b.start then joinNext ⟨c.start, c.size + b.size⟩ l
    else c :: insertBlock b l

section Lists
variable {a b c : Block} {l l' : List Block} {lo hi x : Nat}

theorem spanned_cons : Spanned (b :: l) x ↔ b.Has x ∨ Spanned l x := by
  simp [Spanned]

theorem spanned_append : Spanned (l ++ l') x ↔ Spanned l x ∨ Spanned l' x := by
  simp only [Spanned, List.mem_append, or_and_right, exists_or]

theorem total_cons : total (b :: l) = b.size + total l := by
  simp [total]

theorem total_append : total (l ++ l') = total l + total l' := by
  simp [total]

theorem size_le_total (h : b ∈ l) : b.size ≤ total l := by
  induction l with
  | nil => cases h
  | cons c l ih =>
    rw [total_cons]
    rcases List.mem_cons.1 h with rfl | h
    · omega
    · have := ih h
      omega

/-! ## Putting a block back -/

theorem spanned_joinNext : Spanned (joinNext b l) x ↔ b.Has x ∨ Spanned l x := by
  cases l with
  | nil => exact spanned_cons
  | cons c l =>
    by_cases h : b.stop = c.start
    · rw [joinNext, if_pos h, spanned_cons, spanned_cons, ← or_assoc]
      refine or_congr_left ?_
      simp only [Has, stop] at h ⊢
      omega
    · rw [joinNext, if_neg h, spanned_cons]

/-- What is behind the joined block was in the list. -/
theorem mem_of_joinNext_eq (h : joinNext b l = c :: l') : ∀ d ∈ l', d ∈ l := by
  cases l with
  | nil =>
    rw [joinNext, List.cons.injEq] at h
    rw [← h.2]
    simp
  | cons e l =>
    intro d hd
    rw [joinNext] at h
    split_ifs at h
    · rw [(List.cons.inj h).2]
      exact List.mem_cons_of_mem e hd
    · rw [(List.cons.inj h).2]
      exact hd

theorem spanned_insertBlock : Spanned (insertBlock b l) x ↔ b.Has x ∨ Spanned l x := by
  induction l with
  | nil => exact spanned_cons
  | cons c l ih =>
    rw [insertBlock]
    split_ifs with h1 h2
    · exact spanned_joinNext
    · rw [spanned_joinNext, spanned_cons, ← or_assoc]
      refine or_congr_left ?_
      simp only [Has, stop] at h2 ⊢
      omega
    · rw [spanned_cons, ih, spanned_cons]
      tauto

theorem total_joinNext : total (joinNext b l) = b.size + total l := by
  cases l with
  | nil => exact total_cons
  | cons c l =>
    by_cases h : b.stop = c.start
    · rw [joinNext, if_pos h, total_cons, total_cons]
      exact Nat.add_assoc _ _ _
    · rw [joinNext, if_neg h, total_cons]

theorem total_insertBlock : total (insertBlock b l) = b.size + total l := by
  induction l with
  | nil => exact total_cons
  | cons c l ih =>
    rw [insertBlock]
    split_ifs with h1 h2
    · exact total_joinNext
    · rw [total_joinNext, total_cons]
      show c.size + b.size + total l = b.size + (c.size + total l)
      omega
    · rw [total_cons, ih, total_cons]
      omega

/-- What joining keeps holds of every block afterwards. -/
theorem joinNext_forall {P : Block → Prop}
    (hjoin : ∀ a b, P a → P b → a.stop = b.start → P ⟨a.start, a.size + b.size⟩)
    (hb : P b) (hl : ∀ c ∈ l, P c) : ∀ c ∈ joinNext b l, P c := by
  cases l with
  | nil =>
    intro c hc
    rw [List.mem_singleton.1 hc]
    exact hb
  | cons d l =>
    intro c hc
    by_cases h : b.stop = d.start
    · rw [joinNext, if_pos h] at hc
      rcases List.mem_cons.1 hc with rfl | hc
      · exact hjoin b d hb (hl d List.mem_cons_self) h
      · exact hl c (List.mem_cons_of_mem d hc)
    · rw [joinNext, if_neg h] at hc
      rcases List.mem_cons.1 hc with rfl | hc
      · exact hb
      · exact hl c hc

theorem insertBlock_forall {P : Block → Prop}
    (hjoin : ∀ a b, P a → P b → a.stop = b.start → P ⟨a.start, a.size + b.size⟩)
    (hb : P b) (hl : ∀ c ∈ l, P c) : ∀ c ∈ insertBlock b l, P c := by
  induction l with
  | nil =>
    intro c hc
    rw [List.mem_singleton.1 hc]
    exact hb
  | cons d l ih =>
    have hd := hl d List.mem_cons_self
    have htail : ∀ c ∈ l, P c := fun c hc => hl c (List.mem_cons_of_mem d hc)
    rw [insertBlock]
    split_ifs with h1 h2
    · exact joinNext_forall hjoin hb hl
    · exact joinNext_forall hjoin (hjoin d b hd hb h2) htail
    · intro c hc
      rcases List.mem_cons.1 hc with rfl | hc
      · exact hd
      · exact ih htail c hc

theorem joinNext_separated (hsep : Separated l) (hb : ∀ c ∈ l, b.stop ≤ c.start)
    (hpos : ∀ c ∈ l, 0 < c.size) : Separated (joinNext b l) := by
  cases l with
  | nil => exact List.pairwise_singleton _ _
  | cons c l =>
    have hcl := (List.pairwise_cons.1 hsep).1
    by_cases h : b.stop = c.start
    · rw [joinNext, if_pos h]
      refine List.pairwise_cons.2 ⟨fun d hd => ?_, (List.pairwise_cons.1 hsep).2⟩
      have := hcl d hd
      simp only [Before, stop] at this h ⊢
      omega
    · rw [joinNext, if_neg h]
      refine List.pairwise_cons.2 ⟨fun d hd => ?_, hsep⟩
      have hc := hb c List.mem_cons_self
      have hcpos := hpos c List.mem_cons_self
      rcases List.mem_cons.1 hd with rfl | hd
      · exact lt_of_le_of_ne hc h
      · have := hcl d hd
        simp only [Before, stop] at this h hc ⊢
        omega

/-- A block apart from those of the list can be put back. -/
theorem insertBlock_separated (hsep : Separated l) (hb : 0 < b.size) (hpos : ∀ c ∈ l, 0 < c.size)
    (hap : ∀ c ∈ l, b.Apart c) : Separated (insertBlock b l) := by
  induction l with
  | nil => exact List.pairwise_singleton _ _
  | cons c l ih =>
    obtain ⟨hcl, hsepl⟩ := List.pairwise_cons.1 hsep
    have hposl : ∀ d ∈ l, 0 < d.size := fun d hd => hpos d (List.mem_cons_of_mem c hd)
    have hapl : ∀ d ∈ l, b.Apart d := fun d hd => hap d (List.mem_cons_of_mem c hd)
    have hc := hap c List.mem_cons_self
    have hcpos := hpos c List.mem_cons_self
    rw [insertBlock]
    split_ifs with h1 h2
    · refine joinNext_separated hsep (fun d hd => ?_) hpos
      have hd' := hap d hd
      rcases List.mem_cons.1 hd with rfl | hd
      · simp only [Apart, stop] at hd' ⊢
        omega
      · have := hcl d hd
        simp only [Apart, Before, stop] at hc this ⊢
        omega
    · refine joinNext_separated hsepl (fun d hd => ?_) hposl
      have h3 := hcl d hd
      have h4 := hapl d hd
      simp only [Apart, Before, stop] at h2 h3 h4 ⊢
      omega
    · have hbc : c.stop < b.start := by
        simp only [Apart, stop] at hc h2 ⊢
        omega
      have hall : ∀ d ∈ insertBlock b l, c.stop < d.start :=
        insertBlock_forall (fun _ _ h _ _ => h) hbc hcl
      exact List.pairwise_cons.2 ⟨hall, ih hsepl hposl hapl⟩

/-! ## Where the block goes -/

/-- The blocks that start below `p` come first. -/
theorem Separated.split (hsep : Separated l) (p : Nat) :
    ∃ l₁ l₂, l = l₁ ++ l₂ ∧ (∀ c ∈ l₁, c.start < p) ∧ ∀ c ∈ l₂, p ≤ c.start := by
  induction l with
  | nil => exact ⟨[], [], rfl, by simp, by simp⟩
  | cons c l ih =>
    obtain ⟨hcl, hsepl⟩ := List.pairwise_cons.1 hsep
    by_cases hc : c.start < p
    · obtain ⟨l₁, l₂, rfl, h1, h2⟩ := ih hsepl
      exact ⟨c :: l₁, l₂, rfl, List.forall_mem_cons.2 ⟨hc, h1⟩, h2⟩
    · refine ⟨[], c :: l, rfl, by simp, List.forall_mem_cons.2 ⟨by omega, fun d hd => ?_⟩⟩
      have := hcl d hd
      simp only [Before, stop] at this
      omega

/-- Blocks that end before `b` starts stay in front. -/
theorem insertBlock_append (h : ∀ c ∈ l, c.stop < b.start) :
    insertBlock b (l ++ l') = l ++ insertBlock b l' := by
  induction l with
  | nil => rfl
  | cons c l ih =>
    have hc := h c List.mem_cons_self
    have h1 : ¬ b.start < c.start := by
      simp only [stop] at hc
      omega
    rw [List.cons_append, insertBlock, if_neg h1, if_neg (by omega),
      ih fun d hd => h d (List.mem_cons_of_mem c hd), List.cons_append]

theorem insertBlock_before (h : ∀ c ∈ l, b.start < c.start) : insertBlock b l = joinNext b l := by
  cases l with
  | nil => rfl
  | cons c l => rw [insertBlock, if_pos (h c List.mem_cons_self)]

theorem insertBlock_merge (h : c.stop = b.start) :
    insertBlock b (c :: l) = joinNext ⟨c.start, c.size + b.size⟩ l := by
  have h1 : ¬ b.start < c.start := by
    simp only [stop] at h
    omega
  rw [insertBlock, if_neg h1, if_pos h]

/-- The blocks of a separated list fit into the interval around them. -/
theorem total_le (hsep : Separated l) (h : ∀ c ∈ l, lo ≤ c.start ∧ c.stop ≤ hi) (hle : lo ≤ hi) :
    lo + total l ≤ hi := by
  induction l generalizing lo with
  | nil => exact hle
  | cons c l ih =>
    obtain ⟨hcl, hsepl⟩ := List.pairwise_cons.1 hsep
    obtain ⟨h1, h2⟩ := h c List.mem_cons_self
    have hrest : c.stop + total l ≤ hi := ih hsepl
      (fun d hd => ⟨Nat.le_of_lt (hcl d hd), (h d (List.mem_cons_of_mem c hd)).2⟩) h2
    rw [total_cons]
    simp only [stop] at hrest
    omega

/-- A separated list that spans an interval is one block. -/
theorem eq_singleton_of_spans (hlt : lo < hi) (hsep : Separated l) (hpos : ∀ c ∈ l, 0 < c.size)
    (hspan : ∀ x, (lo ≤ x ∧ x < hi) ↔ Spanned l x) : l = [⟨lo, hi - lo⟩] := by
  have hin : ∀ c ∈ l, lo ≤ c.start ∧ c.stop ≤ hi := fun c hc => by
    have hp := hpos c hc
    have h1 := (hspan c.start).2 ⟨c, hc, Nat.le_refl _, by simp only [stop]; omega⟩
    have h2 := (hspan (c.stop - 1)).2 ⟨c, hc, by simp only [stop]; omega, by simp only [stop]; omega⟩
    simp only [stop] at h2 ⊢
    omega
  cases l with
  | nil =>
    obtain ⟨b, hb, -⟩ := (hspan lo).1 ⟨Nat.le_refl lo, hlt⟩
    cases hb
  | cons c l =>
    obtain ⟨hcl, hsepl⟩ := List.pairwise_cons.1 hsep
    obtain ⟨h1, h2⟩ := hin c List.mem_cons_self
    have hafter : ∀ x, Spanned l x → c.stop < x := by
      rintro x ⟨d, hd, hx⟩
      exact Nat.lt_of_lt_of_le (hcl d hd) hx.1
    -- the address where `c` stops is in no block, so it is the end
    have hstop : c.stop = hi := by
      by_contra hne
      have hlo : lo ≤ c.stop := by
        simp only [stop]
        omega
      have hin := (hspan c.stop).1 ⟨hlo, by omega⟩
      rcases spanned_cons.1 hin with hc | hl
      · exact Nat.lt_irrefl _ hc.2
      · exact Nat.lt_irrefl _ (hafter _ hl)
    have hstart : c.start = lo := by
      rcases spanned_cons.1 ((hspan lo).1 ⟨Nat.le_refl lo, hlt⟩) with hc | hl
      · exact Nat.le_antisymm hc.1 h1
      · have := hafter lo hl
        omega
    have hnil : l = [] := by
      rw [List.eq_nil_iff_forall_not_mem]
      intro d hd
      have h3 := hcl d hd
      have h4 := (hin d (List.mem_cons_of_mem c hd)).2
      simp only [Before, stop] at h3 h4 hstop
      omega
    simp only [stop] at hstop
    have hsize : c.size = hi - lo := by omega
    rw [hnil, ← hstart]
    cases c
    simp only at hsize hstart ⊢
    rw [hsize, hstart]

end Lists

/-! ## Tilings -/

/-- The blocks of `free` and of `taken` make up the interval from `lo` to `hi`. -/
structure Tiling (lo hi : Nat) (free taken : List Block) : Prop where
  separated : Separated free
  apart : taken.Pairwise Apart
  cross : ∀ a ∈ taken, ∀ b ∈ free, a.Apart b
  spans : ∀ x, (lo ≤ x ∧ x < hi) ↔ Spanned free x ∨ Spanned taken x
  posFree : ∀ b ∈ free, 0 < b.size
  posTaken : ∀ b ∈ taken, 0 < b.size

namespace Tiling
variable {lo hi k : Nat} {b : Block} {free taken taken' l l' : List Block}

/-- Every block lies in the interval. -/
theorem inside (h : Tiling lo hi free taken) (hb : b ∈ free ∨ b ∈ taken) :
    lo ≤ b.start ∧ b.stop ≤ hi := by
  have hpos : 0 < b.size := hb.elim (h.posFree b) (h.posTaken b)
  have hmem : ∀ x, b.Has x → Spanned free x ∨ Spanned taken x := fun x hx =>
    hb.imp (fun hf => ⟨b, hf, hx⟩) fun ht => ⟨b, ht, hx⟩
  have h1 := (h.spans b.start).2 (hmem _ ⟨Nat.le_refl _, by simp only [stop]; omega⟩)
  have h2 := (h.spans (b.stop - 1)).2 (hmem _ ⟨by simp only [stop]; omega, by
    simp only [stop]; omega⟩)
  simp only [stop] at h2 ⊢
  omega

theorem perm (h : Tiling lo hi free taken) (hp : taken.Perm taken') : Tiling lo hi free taken' where
  separated := h.separated
  apart := hp.pairwise h.apart Apart.symm
  cross := fun a ha => h.cross a (hp.mem_iff.2 ha)
  spans := fun x => by
    rw [h.spans x]
    simp only [Spanned, hp.mem_iff]
  posFree := h.posFree
  posTaken := fun b hb => h.posTaken b (hp.mem_iff.2 hb)

/-- A block leaves the free list. -/
theorem take (h : Tiling lo hi (l ++ b :: l') taken) : Tiling lo hi (l ++ l') (b :: taken) := by
  have hmem : ∀ c, c ∈ l ++ l' → c ∈ l ++ b :: l' := fun c hc => by
    simp only [List.mem_append, List.mem_cons] at hc ⊢
    tauto
  have hbmem : b ∈ l ++ b :: l' := by simp
  have hsub : (l ++ l').Sublist (l ++ b :: l') :=
    List.Sublist.append_left (List.sublist_cons_self b l') l
  have hparts := List.pairwise_append.1 h.separated
  have hbl' := (List.pairwise_cons.1 hparts.2.1).1
  refine ⟨h.separated.sublist hsub, ?_, ?_, fun x => ?_, fun c hc => h.posFree c (hmem c hc), ?_⟩
  · exact List.pairwise_cons.2 ⟨fun c hc => (h.cross c hc b hbmem).symm, h.apart⟩
  · intro a ha c hc
    rcases List.mem_cons.1 ha with rfl | ha
    · rcases List.mem_append.1 hc with hc | hc
      · exact Or.inr (Nat.le_of_lt (hparts.2.2 c hc _ List.mem_cons_self))
      · exact Or.inl (Nat.le_of_lt (hbl' c hc))
    · exact h.cross a ha c (hmem c hc)
  · rw [h.spans x]
    simp only [spanned_append, spanned_cons]
    tauto
  · intro c hc
    rcases List.mem_cons.1 hc with rfl | hc
    · exact h.posFree _ hbmem
    · exact h.posTaken c hc

/-- A taken block is cut in two. -/
theorem cut (h : Tiling lo hi free (b :: taken)) (hk : 0 < k) (hkb : k < b.size) :
    Tiling lo hi free (⟨b.start + k, b.size - k⟩ :: ⟨b.start, k⟩ :: taken) := by
  obtain ⟨hb, hrest⟩ := List.pairwise_cons.1 h.apart
  -- what is apart from `b` is apart from both parts
  have hparts : ∀ c, b.Apart c → (⟨b.start + k, b.size - k⟩ : Block).Apart c ∧
      (⟨b.start, k⟩ : Block).Apart c := fun c hc => by
    simp only [Apart, stop] at hc ⊢
    omega
  refine ⟨h.separated, ?_, ?_, fun x => ?_, h.posFree, ?_⟩
  · refine List.pairwise_cons.2 ⟨fun c hc => ?_, List.pairwise_cons.2 ⟨fun c hc => ?_, hrest⟩⟩
    · rcases List.mem_cons.1 hc with rfl | hc
      · exact Or.inr (Nat.le_refl _)
      · exact (hparts c (hb c hc)).1
    · exact (hparts c (hb c hc)).2
  · intro a ha c hc
    have hbc := hparts c (h.cross b List.mem_cons_self c hc)
    rcases List.mem_cons.1 ha with rfl | ha
    · exact hbc.1
    · rcases List.mem_cons.1 ha with rfl | ha
      · exact hbc.2
      · exact h.cross a (List.mem_cons_of_mem b ha) c hc
  · rw [h.spans x]
    simp only [spanned_cons, Has, stop]
    constructor
    · rintro (hx | hx | hx)
      · exact Or.inl hx
      · by_cases hlt : x < b.start + k
        · exact Or.inr (Or.inr (Or.inl ⟨hx.1, hlt⟩))
        · exact Or.inr (Or.inl ⟨by omega, by omega⟩)
      · exact Or.inr (Or.inr (Or.inr hx))
    · rintro (hx | hx | hx | hx)
      · exact Or.inl hx
      · exact Or.inr (Or.inl ⟨by omega, by omega⟩)
      · exact Or.inr (Or.inl ⟨hx.1, by omega⟩)
      · exact Or.inr (Or.inr hx)
  · intro c hc
    rcases List.mem_cons.1 hc with rfl | hc
    · exact Nat.sub_pos_of_lt hkb
    · rcases List.mem_cons.1 hc with rfl | hc
      · exact hk
      · exact h.posTaken c (List.mem_cons_of_mem b hc)

/-- A taken block goes back. -/
theorem release (h : Tiling lo hi free (b :: taken)) :
    Tiling lo hi (insertBlock b free) taken := by
  obtain ⟨hb, hrest⟩ := List.pairwise_cons.1 h.apart
  have hbpos := h.posTaken b List.mem_cons_self
  have hpos : ∀ c ∈ insertBlock b free, 0 < c.size :=
    insertBlock_forall (fun a c ha _ _ => Nat.add_pos_left ha c.size) hbpos h.posFree
  have hposTaken : ∀ c ∈ taken, 0 < c.size := fun c hc => h.posTaken c (List.mem_cons_of_mem b hc)
  refine ⟨?_, hrest, ?_, fun x => ?_, hpos, hposTaken⟩
  · exact insertBlock_separated h.separated hbpos h.posFree
      fun c hc => h.cross b List.mem_cons_self c hc
  · -- no address of a taken block is in `b` or in the old list
    intro a ha c hc
    rw [apart_iff (hposTaken a ha) (hpos c hc)]
    rintro x ⟨hax, hcx⟩
    rcases spanned_insertBlock.1 ⟨c, hc, hcx⟩ with hbx | ⟨d, hd, hdx⟩
    · exact (apart_iff hbpos (hposTaken a ha)).1 (hb a ha) x ⟨hbx, hax⟩
    · exact (apart_iff (hposTaken a ha) (h.posFree d hd)).1
        (h.cross a (List.mem_cons_of_mem b ha) d hd) x ⟨hax, hdx⟩
  · rw [h.spans x, spanned_insertBlock, spanned_cons]
    tauto

/-- When nothing is taken there is one free block. -/
theorem free_eq_of_taken_nil (hlt : lo < hi) (h : Tiling lo hi free []) :
    free = [⟨lo, hi - lo⟩] := by
  refine eq_singleton_of_spans hlt h.separated h.posFree fun x => ?_
  rw [h.spans x]
  simp [Spanned]

end Tiling
end LlvmTms9900.Arith
