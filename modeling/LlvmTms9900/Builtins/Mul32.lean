import LlvmTms9900.Isa.Run

/-!
# 32-bit multiplication (libtms9900/builtins/mul32.S)

`__mulsi3` is straight-line code around three hardware `MPY` instructions and
one pushed register.
-/

set_option maxRecDepth 8192

namespace LlvmTms9900.Builtins.Mul32
open LlvmTms9900.Isa

inductive Label where
  | mulsi3
  deriving DecidableEq, Repr

def text : List (Line Label) :=
  [ .lab .mulsi3,
    .ins (.dect (.reg .r10)),
    .ins (.mov (.reg .r9) (.ind .r10)),
    .ins (.mov (.reg .r0) (.reg .r9)),
    .ins (.mov (.reg .r1) (.reg .r6)),
    .ins (.mov (.reg .r6) (.reg .r0)),
    .ins (.mpy (.reg .r3) .r0),
    .ins (.mov (.reg .r0) (.reg .r4)),
    .ins (.mov (.reg .r1) (.reg .r5)),
    .ins (.mov (.reg .r9) (.reg .r0)),
    .ins (.mpy (.reg .r3) .r0),
    .ins (.a (.reg .r1) (.reg .r4)),
    .ins (.mov (.reg .r6) (.reg .r0)),
    .ins (.mpy (.reg .r2) .r0),
    .ins (.a (.reg .r1) (.reg .r4)),
    .ins (.mov (.reg .r4) (.reg .r0)),
    .ins (.mov (.reg .r5) (.reg .r1)),
    .ins (.mov (.inc .r10) (.reg .r9)),
    .ins (.b .r11) ]

/-- `mul32.o` loaded at `base`. -/
def program (base : Word) : Program Label := ⟨base, text, fun _ => 0#16⟩

/-- The partial products that reach the lower 32 bits. -/
theorem mul_words (ah al bh bl : Nat) :
    (al * bl / 65536 + ah * bl + al * bh) % 65536 * 65536 + al * bl % 65536 =
      (ah * 65536 + al) * (bh * 65536 + bl) % 2 ^ 32 := by
  have hexp : (ah * 65536 + al) * (bh * 65536 + bl) =
      ah * bh * 2 ^ 32 + ((ah * bl + al * bh) * 65536 + al * bl) := by ring
  rw [hexp, Nat.mul_add_mod_self_right]
  omega

variable (ord : CompareOrder) (base : Word) {s : State}

/-- `mul32.S:29-61`. The pushed `R9` is read back from the stack. -/
theorem reaches_mulsi3 (h : s.pc = (program base).target .mulsi3) :
    ∃ u, Returns ord (program base) s u ∧
      u.pair .r0 .r1 = s.pair .r0 .r1 * s.pair .r2 .r3 % 2 ^ 32 ∧
      u.mem = writeWord s.mem (s.regs .r10 - 2#16) (s.regs .r9) ∧
      u.regs .r9 = readWord u.mem (s.regs .r10 - 2#16) ∧
      SameRegs [.r8, .r10, .r12, .r13, .r14, .r15] s u := by
  have h0 : s.pc = 0#16 := h
  obtain ⟨u, b1, e1⟩ := exists_block ord (program base) 17 h0 rfl rfl (by decide)
  have hpc : u.pc = 34#16 := by simp [e1, h0]
  refine ⟨u, ⟨b1, by rw [hpc]; rfl, by simp [e1]⟩, ?_, by simp [e1], by simp [e1], ?_⟩
  · rw [State.pair, State.pair, State.pair, ← mul_words]
    simp [e1, BitVec.toNat_add]
  · simp [SameRegs, e1]

theorem mulsi3_called (h : s.pc = (program base).target .mulsi3)
    (heven : (s.regs .r10).toNat % 2 = 0) (hroom : 2 ≤ (s.regs .r10).toNat) :
    ∃ u, Called ord (program base) 2 s u (s.pair .r0 .r1 * s.pair .r2 .r3 % 2 ^ 32) := by
  have ev2 : (s.regs .r10 - 2#16).toNat % 2 = 0 := by bv_omega
  obtain ⟨u, hret, hval, hm, h9, hkept⟩ := reaches_mulsi3 ord base h
  rw [hm, readWord_writeWord_same ev2] at h9
  refine ⟨u, hret, ?_, ?_, hval⟩
  · intro r hr
    by_cases hr9 : r = .r9
    · rw [hr9, h9]
    · refine hkept r ?_
      revert r
      decide
  · intro a ha
    rw [hm, writeWord_frame ev2]
    all_goals bv_omega

end LlvmTms9900.Builtins.Mul32
