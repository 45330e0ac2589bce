import LlvmTms9900.Builtins.Div32Calls
import LlvmTms9900.Builtins.Mul32

/-!
# Calling convention of the 32-bit builtins

`libtms9900/README.md`: arguments in `R0`..`R3`, `R11` the link register, `R10`
the stack pointer. The routines of `mul32.S` and `div32.S` come back to the
`R11` they were entered with, give `R8`, `R9`, `R10` and `R12`..`R15` back and
write nothing but the eight bytes below the stack pointer, whatever the
operands and whichever way the assembler orders the operands of `C`.
-/

namespace LlvmTms9900.Builtins
open LlvmTms9900.Isa

/-- The routine entered in `s` ends in `B *R11` with the entry value of `R11`,
the callee-saved registers restored, and no byte changed outside the `room`
bytes below the entry stack pointer. -/
def KeepsConvention {L : Type} [DecidableEq L] (ord : CompareOrder) (p : Program L) (room : Nat)
    (s : State) : Prop :=
  ∃ u, Returns ord p s u ∧ SameRegs calleeSaved s u ∧
    ∀ a : Word, u.mem a ≠ s.mem a →
      (s.regs .r10).toNat - room ≤ a.toNat ∧ a.toNat < (s.regs .r10).toNat

theorem Called.keepsConvention {L : Type} [DecidableEq L] {ord : CompareOrder} {p : Program L}
    {room room' : Nat} {s u : State} {v : Nat} (h : Called ord p room s u v) (hle : room ≤ room') :
    KeepsConvention ord p room' s := by
  refine ⟨u, h.returns, h.saved, ?_⟩
  intro a ha
  by_contra hout
  exact ha (h.mem a (by omega))

/-- The global symbols of `div32.S`. -/
def div32Globals : List Div32.Label := [.udivsi3, .umodsi3, .divsi3, .modsi3]

theorem builtins_keep_convention (ord : CompareOrder) (base : Word) (s : State)
    (heven : (s.regs .r10).toNat % 2 = 0) (hroom : 8 ≤ (s.regs .r10).toNat) :
    (s.pc = (Mul32.program base).target .mulsi3 → KeepsConvention ord (Mul32.program base) 8 s) ∧
    ∀ l ∈ div32Globals, s.pc = (Div32.program base).target l →
      KeepsConvention ord (Div32.program base) 8 s := by
  constructor
  · intro h
    obtain ⟨u, hu⟩ := Mul32.mulsi3_called ord base h heven (by omega)
    exact Called.keepsConvention hu (by decide)
  · intro l hl h
    rw [Div32.target_eq] at h
    simp only [div32Globals, List.mem_cons, List.not_mem_nil, or_false] at hl
    rcases hl with rfl | rfl | rfl | rfl
    · obtain ⟨u, hu⟩ := Div32.udivsi3_called ord base h heven (by omega)
      exact Called.keepsConvention hu (by decide)
    · obtain ⟨u, hu⟩ := Div32.umodsi3_called ord base h heven (by omega)
      exact Called.keepsConvention hu (by decide)
    · obtain ⟨u, hu⟩ := Div32.divsi3_called ord base h heven hroom
      exact Called.keepsConvention hu le_rfl
    · obtain ⟨u, hu⟩ := Div32.modsi3_called ord base h heven hroom
      exact Called.keepsConvention hu le_rfl

/-- Entry of `__divsi3` at 0x6000 with stack pointer 0xFFF0, called from 0x7000
with dividend -7 and divisor 0. -/
def divByZeroCall : State where
  pc := 32#16
  regs
    | .r0 => 0xFFFF#16
    | .r1 => 0xFFF9#16
    | .r10 => 0xFFF0#16
    | .r11 => 0x7000#16
    | _ => 0#16
  mem := fun _ => 0#8
  st := ⟨false, false, false, false⟩

theorem divByZeroCall_keeps_convention :
    KeepsConvention .manual (Div32.program 0x6000#16) 8 divByZeroCall :=
  (builtins_keep_convention .manual 0x6000#16 divByZeroCall (by decide) (by decide)).2 .divsi3
    (by decide) rfl

end LlvmTms9900.Builtins
