import LlvmTms9900.Builtins.Div32Value
import LlvmTms9900.Builtins.MemmoveValue

/-!
# One meaning of `C` for the whole library

All of libtms9900/builtins is assembled by one rule of its Makefile, so that
`C Rx,Ry` means the same in `div32.S` and in `memmove.S`. The comment in
`div32.S` and the comment in `memmove.S` disagree about what that is.
-/

namespace LlvmTms9900.Builtins
open LlvmTms9900.Isa

/-- A call of `UDIV32`, with a frame's room on the stack. -/
structure Udiv32Entry (s : State) : Prop where
  pc : s.pc = Div32.entry .udiv32
  even : (s.regs .r10).toNat % 2 = 0
  room : 4 ≤ (s.regs .r10).toNat
  divisor : s.pair .r2 .r3 ≠ 0

/-- A call of `memmove` from outside `memmove.o`; neither buffer wraps around. -/
structure MemmoveEntry (base : Word) (s : State) : Prop where
  pc : s.pc = Memmove.entry .memmove
  ret : fetch Memmove.text (s.regs .r11 - base).toNat = none
  dest : (s.regs .r0).toNat + (s.regs .r2).toNat ≤ 65536
  src : (s.regs .r1).toNat + (s.regs .r2).toNat ≤ 65536

/-- `UDIV32` returns with the quotient in `R4:R5` and the remainder in `R6:R7`. -/
def Udiv32Right (ord : CompareOrder) (base : Word) (s : State) : Prop :=
  ∃ t, FirstReturn ord (Div32.program base) s t ∧
    t.pair .r4 .r5 = s.pair .r0 .r1 / s.pair .r2 .r3 ∧
    t.pair .r6 .r7 = s.pair .r0 .r1 % s.pair .r2 .r3

/-- `memmove` returns with the old source bytes in the destination. -/
def MemmoveRight (ord : CompareOrder) (base : Word) (s : State) : Prop :=
  ∃ t, Halts ord (Memmove.program base) s t ∧ t.pc = s.regs .r11 - base ∧
    CopyRight (s.regs .r0) (s.regs .r1) (s.regs .r2).toNat s.mem t.mem

section Udiv32
variable {base : Word} {s : State}

theorem udiv32Right_swapped (h : Udiv32Entry s) : Udiv32Right .swapped base s := by
  obtain ⟨t, hret, ht⟩ := Div32.udiv32_returns .swapped base h.pc h.even h.room
  have hval := ht.value
  rw [Div32.udiv32Value_swapped (s.pair_lt .r0 .r1) (Nat.pos_of_ne_zero h.divisor)
    (s.pair_lt .r2 .r3)] at hval
  exact ⟨t, hret, congrArg Prod.fst hval, congrArg Prod.snd hval⟩

theorem not_udiv32Right_manual (h : Udiv32Entry s) : ¬ Udiv32Right .manual base s := by
  rintro ⟨t, hret, hquo, -⟩
  obtain ⟨u, hret', hu⟩ := Div32.udiv32_returns .manual base h.pc h.even h.room
  obtain rfl := hret.unique hret'
  refine Div32.udiv32Value_manual_ne (s.pair_lt .r0 .r1) (Nat.pos_of_ne_zero h.divisor) ?_
  rw [← hu.value]
  exact hquo

end Udiv32

section MemmoveCall
variable {base : Word} {s : State}

theorem MemmoveEntry.halts (ord : CompareOrder) (h : MemmoveEntry base s) :
    ∃ t, Halts ord (Memmove.program base) s t ∧ Memmove.Moved ord base s t := by
  obtain ⟨t, ht⟩ := Memmove.memmove_moved ord base h.pc
  refine ⟨t, ⟨ht.reaches, step_eq_none ?_⟩, ht⟩
  rw [ht.pc]
  exact h.ret

theorem memmoveRight_iff (ord : CompareOrder) (h : MemmoveEntry base s) :
    MemmoveRight ord base s ↔
      CopyRight (s.regs .r0) (s.regs .r1) (s.regs .r2).toNat s.mem
        (Memmove.memmoveMem ord (s.regs .r0) (s.regs .r1) (s.regs .r2).toNat s.mem) := by
  obtain ⟨t, hstop, ht⟩ := h.halts ord
  rw [← ht.mem]
  constructor
  · rintro ⟨u, hstop', -, hcopy⟩
    obtain rfl := hstop.unique hstop'
    exact hcopy
  · intro hcopy
    exact ⟨t, hstop, ht.pc, hcopy⟩

theorem memmoveRight_swapped_iff (h : MemmoveEntry base s) :
    MemmoveRight .swapped base s ↔
      OverlapAgrees (s.regs .r0) (s.regs .r1) (s.regs .r2).toNat s.mem :=
  (memmoveRight_iff .swapped h).trans (Memmove.memmoveMem_swapped_iff h.dest h.src s.mem)

end MemmoveCall

/-- Only the order of `div32.S` makes `UDIV32` divide, and on that order
`memmove` is right exactly when the overlap does not matter. -/
theorem one_reading_serves_both_iff {base base' : Word} {s s' : State}
    (hu : Udiv32Entry s) (hm : MemmoveEntry base' s') :
    (∃ ord, Udiv32Right ord base s ∧ MemmoveRight ord base' s') ↔
      OverlapAgrees (s'.regs .r0) (s'.regs .r1) (s'.regs .r2).toNat s'.mem := by
  constructor
  · rintro ⟨ord, hdiv, hmove⟩
    cases ord with
    | manual => exact absurd hdiv (not_udiv32Right_manual hu)
    | swapped => exact (memmoveRight_swapped_iff hm).1 hmove
  · intro h
    exact ⟨.swapped, udiv32Right_swapped hu, (memmoveRight_swapped_iff hm).2 h⟩

/-- `UDIV32` of 7 by 2, with the stack pointer of the cartridge. -/
def divideSeven : State where
  pc := Div32.entry .udiv32
  regs := fun
    | .r1 => 7#16
    | .r3 => 2#16
    | .r10 => 0x83FE#16
    | .r11 => 0x7000#16
    | _ => 0#16
  mem := fun _ => 0#8
  st := ⟨false, false, false, false⟩

/-- `memmove` of two bytes to `dest`, in a memory whose bytes are their own
addresses. -/
def moveTwo (dest src : Word) : State where
  pc := Memmove.entry .memmove
  regs := fun
    | .r0 => dest
    | .r1 => src
    | .r2 => 2#16
    | .r10 => 0x83FE#16
    | .r11 => 0x7000#16
    | _ => 0#16
  mem := fun a => loByte a
  st := ⟨false, false, false, false⟩

theorem divideSeven_entry : Udiv32Entry divideSeven :=
  ⟨rfl, by decide, by decide, by decide⟩

theorem one_reading_serves_disjoint_move :
    ∃ ord, Udiv32Right ord 0#16 divideSeven ∧ MemmoveRight ord 0#16 (moveTwo 0xB000#16 0xA000#16) :=
  (one_reading_serves_both_iff divideSeven_entry
    ⟨rfl, by decide, by decide, by decide⟩).2 (by
      intro i hi j hj he
      have hi2 : i < 2 := hi
      have hj2 : j < 2 := hj
      interval_cases i <;> interval_cases j <;> revert he <;> decide)

/-- Moving two bytes up by one: the second byte arrives as a copy of the first. -/
theorem no_reading_serves_both :
    ¬ ∃ ord, (∀ base s, Udiv32Entry s → Udiv32Right ord base s) ∧
      (∀ base s, MemmoveEntry base s → MemmoveRight ord base s) := by
  rintro ⟨ord, hdiv, hmove⟩
  cases ord with
  | manual => exact not_udiv32Right_manual divideSeven_entry (hdiv 0#16 _ divideSeven_entry)
  | swapped =>
    have hentry : MemmoveEntry 0#16 (moveTwo 0xA001#16 0xA000#16) :=
      ⟨rfl, by decide, by decide, by decide⟩
    have h := (memmoveRight_swapped_iff hentry).1 (hmove _ _ hentry)
    have hbyte := h 0 (by decide) 1 (by decide) (by decide)
    exact absurd hbyte (by decide)

end LlvmTms9900.Builtins
