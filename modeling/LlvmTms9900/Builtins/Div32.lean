import LlvmTms9900.Isa.Activation

/-!
# 32-bit division (libtms9900/builtins/div32.S)

The text of `div32.S`, instruction by instruction, and what the core routine
`UDIV32` and the two negation routines compute, for either operand order of
`C`. `UDIV32` takes the hardware `DIV` when the divisor is a nonzero 16-bit
value and the comparison of the high words allows it, and 32 rounds of
shift-and-subtract otherwise.
-/

set_option maxRecDepth 8192

namespace LlvmTms9900.Builtins.Div32
open LlvmTms9900.Isa

inductive Label where
  | udivsi3 | umodsi3 | divsi3 | divD1 | divD2 | divD3 | modsi3 | modD1 | modD2 | modD3
  | udiv32 | udiv32Sw | udivLoop | udivNc1 | udivR4Done | udivCmp | udivSub | udivNb | udivNext
  | neg3201 | neg01Done | neg3223 | neg23Done
  deriving DecidableEq, Repr

def text : List (Line Label) :=
  [ .lab .udivsi3,
    .ins (.dect (.reg .r10)),
    .ins (.mov (.reg .r11) (.ind .r10)),
    .ins (.bl .udiv32),
    .ins (.mov (.reg .r4) (.reg .r0)),
    .ins (.mov (.reg .r5) (.reg .r1)),
    .ins (.mov (.inc .r10) (.reg .r11)),
    .ins (.b .r11),
    .lab .umodsi3,
    .ins (.dect (.reg .r10)),
    .ins (.mov (.reg .r11) (.ind .r10)),
    .ins (.bl .udiv32),
    .ins (.mov (.reg .r6) (.reg .r0)),
    .ins (.mov (.reg .r7) (.reg .r1)),
    .ins (.mov (.inc .r10) (.reg .r11)),
    .ins (.b .r11),
    .lab .divsi3,
    .ins (.dect (.reg .r10)),
    .ins (.mov (.reg .r11) (.ind .r10)),
    .ins (.dect (.reg .r10)),
    .ins (.mov (.reg .r9) (.ind .r10)),
    .ins (.clr (.reg .r9)),
    .ins (.mov (.reg .r0) (.reg .r0)),
    .ins (.jump .gt .divD1),
    .ins (.jump .eq .divD1),
    .ins (.inv (.reg .r9)),
    .ins (.bl .neg3201),
    .lab .divD1,
    .ins (.mov (.reg .r2) (.reg .r2)),
    .ins (.jump .gt .divD2),
    .ins (.jump .eq .divD2),
    .ins (.inv (.reg .r9)),
    .ins (.bl .neg3223),
    .lab .divD2,
    .ins (.bl .udiv32),
    .ins (.mov (.reg .r4) (.reg .r0)),
    .ins (.mov (.reg .r5) (.reg .r1)),
    .ins (.mov (.reg .r9) (.reg .r9)),
    .ins (.jump .eq .divD3),
    .ins (.bl .neg3201),
    .lab .divD3,
    .ins (.mov (.inc .r10) (.reg .r9)),
    .ins (.mov (.inc .r10) (.reg .r11)),
    .ins (.b .r11),
    .lab .modsi3,
    .ins (.dect (.reg .r10)),
    .ins (.mov (.reg .r11) (.ind .r10)),
    .ins (.dect (.reg .r10)),
    .ins (.mov (.reg .r9) (.ind .r10)),
    .ins (.clr (.reg .r9)),
    .ins (.mov (.reg .r0) (.reg .r0)),
    .ins (.jump .gt .modD1),
    .ins (.jump .eq .modD1),
    .ins (.seto (.reg .r9)),
    .ins (.bl .neg3201),
    .lab .modD1,
    .ins (.mov (.reg .r2) (.reg .r2)),
    .ins (.jump .gt .modD2),
    .ins (.jump .eq .modD2),
    .ins (.bl .neg3223),
    .lab .modD2,
    .ins (.bl .udiv32),
    .ins (.mov (.reg .r6) (.reg .r0)),
    .ins (.mov (.reg .r7) (.reg .r1)),
    .ins (.mov (.reg .r9) (.reg .r9)),
    .ins (.jump .eq .modD3),
    .ins (.bl .neg3201),
    .lab .modD3,
    .ins (.mov (.inc .r10) (.reg .r9)),
    .ins (.mov (.inc .r10) (.reg .r11)),
    .ins (.b .r11),
    .lab .udiv32,
    .ins (.mov (.reg .r2) (.reg .r2)),
    .ins (.jump .ne .udiv32Sw),
    .ins (.mov (.reg .r3) (.reg .r3)),
    .ins (.jump .eq .udiv32Sw),
    .ins (.c (.reg .r0) (.reg .r3)),
    .ins (.jump .le .udiv32Sw),
    .ins (.div (.reg .r3) .r0),
    .ins (.clr (.reg .r4)),
    .ins (.mov (.reg .r0) (.reg .r5)),
    .ins (.clr (.reg .r6)),
    .ins (.mov (.reg .r1) (.reg .r7)),
    .ins (.b .r11),
    .lab .udiv32Sw,
    .ins (.dect (.reg .r10)),
    .ins (.mov (.reg .r11) (.ind .r10)),
    .ins (.dect (.reg .r10)),
    .ins (.mov (.reg .r8) (.ind .r10)),
    .ins (.clr (.reg .r6)),
    .ins (.clr (.reg .r7)),
    .ins (.mov (.reg .r0) (.reg .r4)),
    .ins (.mov (.reg .r1) (.reg .r5)),
    .ins (.li .r8 32#16),
    .lab .udivLoop,
    .ins (.mov (.reg .r7) (.reg .r1)),
    .ins (.srl .r1 15),
    .ins (.mov (.reg .r4) (.reg .r0)),
    .ins (.srl .r0 15),
    .ins (.sla .r5 1),
    .ins (.jump .nc .udivNc1),
    .ins (.sla .r4 1),
    .ins (.inc (.reg .r4)),
    .ins (.jump .always .udivR4Done),
    .lab .udivNc1,
    .ins (.sla .r4 1),
    .lab .udivR4Done,
    .ins (.sla .r7 1),
    .ins (.a (.reg .r0) (.reg .r7)),
    .ins (.sla .r6 1),
    .ins (.a (.reg .r1) (.reg .r6)),
    .lab .udivCmp,
    .ins (.c (.reg .r6) (.reg .r2)),
    .ins (.jump .h .udivNext),
    .ins (.jump .l .udivSub),
    .ins (.c (.reg .r7) (.reg .r3)),
    .ins (.jump .h .udivNext),
    .lab .udivSub,
    .ins (.s (.reg .r3) (.reg .r7)),
    .ins (.jump .oc .udivNb),
    .ins (.dec (.reg .r6)),
    .lab .udivNb,
    .ins (.s (.reg .r2) (.reg .r6)),
    .ins (.ori .r5 1#16),
    .lab .udivNext,
    .ins (.dec (.reg .r8)),
    .ins (.jump .ne .udivLoop),
    .ins (.mov (.inc .r10) (.reg .r8)),
    .ins (.mov (.inc .r10) (.reg .r11)),
    .ins (.b .r11),
    .lab .neg3201,
    .ins (.inv (.reg .r1)),
    .ins (.inv (.reg .r0)),
    .ins (.inc (.reg .r1)),
    .ins (.jump .nc .neg01Done),
    .ins (.inc (.reg .r0)),
    .lab .neg01Done,
    .ins (.b .r11),
    .lab .neg3223,
    .ins (.inv (.reg .r3)),
    .ins (.inv (.reg .r2)),
    .ins (.inc (.reg .r3)),
    .ins (.jump .nc .neg23Done),
    .ins (.inc (.reg .r2)),
    .lab .neg23Done,
    .ins (.b .r11) ]

/-- `div32.o` loaded at `base`; it refers to no symbol of another file. -/
def program (base : Word) : Program Label := ⟨base, text, fun _ => 0#16⟩

/-- Offsets of the labels, as the assembler lays the text out. -/
def entry : Label → Word
  | .udivsi3 => 0#16 | .umodsi3 => 16#16 | .divsi3 => 32#16 | .divD1 => 54#16 | .divD2 => 66#16
  | .divD3 => 82#16 | .modsi3 => 88#16 | .modD1 => 110#16 | .modD2 => 120#16 | .modD3 => 136#16
  | .udiv32 => 142#16 | .udiv32Sw => 166#16 | .udivLoop => 186#16 | .udivNc1 => 204#16
  | .udivR4Done => 206#16 | .udivCmp => 214#16 | .udivSub => 224#16 | .udivNb => 230#16
  | .udivNext => 236#16 | .neg3201 => 246#16 | .neg01Done => 256#16 | .neg3223 => 258#16
  | .neg23Done => 268#16

@[simp] theorem target_eq (base : Word) (l : Label) : (program base).target l = entry l := by
  cases l <;> rfl

@[simp] theorem program_base (base : Word) : (program base).base = base := rfl


variable (ord : CompareOrder) (base : Word)

/-- Registers the shift-and-subtract loop leaves alone. -/
def loopKept : List Reg := [.r2, .r3, .r8, .r9, .r10, .r11, .r12, .r13, .r14, .r15]

theorem shift_words (r4 r5 r6 r7 : Word) (c : Word) (hc : c.toNat = r5.toNat / 32768) :
    (r6 <<< 1 + r7 >>> 15).toNat * 65536 + (r7 <<< 1 + r4 >>> 15).toNat =
      (2 * (r6.toNat * 65536 + r7.toNat) + (r4.toNat * 65536 + r5.toNat) / 2 ^ 31) % 2 ^ 32 ∧
    (r4 <<< 1 + c).toNat * 65536 + (r5 <<< 1).toNat =
      2 * (r4.toNat * 65536 + r5.toNat) % 2 ^ 32 := by
  have h4 := r4.isLt
  have h5 := r5.isLt
  have h6 := r6.isLt
  have h7 := r7.isLt
  simp only [BitVec.toNat_add, BitVec.toNat_shiftLeft, BitVec.toNat_ushiftRight,
    Nat.shiftRight_eq_div_pow, Nat.shiftLeft_eq, hc]
  constructor
  · omega
  · omega

/-- `div32.S:182-218`: the 64-bit value `R6:R7:R4:R5` is shifted left by one. -/
theorem reaches_shift {s : State} (h : s.pc = entry .udivLoop) :
    ∃ t, During ord (program base) s t ∧ t.pc = entry .udivCmp ∧ t.mem = s.mem ∧
      SameRegs loopKept s t ∧
      t.pair .r6 .r7 = (2 * s.pair .r6 .r7 + s.pair .r4 .r5 / 2 ^ 31) % 2 ^ 32 ∧
      t.pair .r4 .r5 = 2 * s.pair .r4 .r5 % 2 ^ 32 := by
  obtain ⟨t1, b1, e1⟩ := during_block ord (program base) 6 h rfl rfl (by decide)
  have h5 := (s.regs .r5).isLt
  by_cases hc : (s.regs .r5)[15] = true
  · have hone : (1#16).toNat = (s.regs .r5).toNat / 32768 := by
      rw [getElem_fifteen, decide_eq_true_eq] at hc
      simp only [BitVec.toNat_ofNat]
      omega
    have hw := shift_words (s.regs .r4) (s.regs .r5) (s.regs .r6) (s.regs .r7) 1#16 hone
    have h1 : t1.pc = 198#16 := by simp [e1, h, entry, hc]
    obtain ⟨t2, b2, e2⟩ := during_block ord (program base) 3 h1 rfl rfl (by decide)
    have h2 : t2.pc = entry .udivR4Done := by simp [e2]
    obtain ⟨t3, b3, e3⟩ := during_block ord (program base) 4 h2 rfl rfl (by decide)
    refine ⟨t3, b1.trans (b2.trans b3), ?_, ?_, ?_, ?_⟩
    · simp [e3, h2, entry]
    · simp [e3, e2, e1, hc]
    · simp [SameRegs, loopKept, e3, e2, e1, hc]
    · simpa [State.pair, e3, e2, e1, hc] using hw
  · have hzero : (0#16).toNat = (s.regs .r5).toNat / 32768 := by
      rw [getElem_fifteen, decide_eq_true_eq] at hc
      simp only [BitVec.toNat_ofNat]
      omega
    have hw := shift_words (s.regs .r4) (s.regs .r5) (s.regs .r6) (s.regs .r7) 0#16 hzero
    have h1 : t1.pc = entry .udivNc1 := by simp [e1, hc]
    obtain ⟨t2, b2, e2⟩ := during_block ord (program base) 5 h1 rfl rfl (by decide)
    refine ⟨t2, b1.trans b2, ?_, ?_, ?_, ?_⟩
    · simp [e2, h1, entry]
    · simp [e2, e1, hc]
    · simp [SameRegs, loopKept, e2, e1, hc]
    · simpa [State.pair, e2, e1, hc] using hw

/-- Two-word comparison from the comparisons of the halves. -/
theorem over_pair (s : State) (a b c d : Reg) :
    ord.over (s.pair a b) (s.pair c d) =
      (ord.over (s.regs a).toNat (s.regs c).toNat ||
        (decide (s.regs a = s.regs c) && ord.over (s.regs b).toNat (s.regs d).toNat)) := by
  have hb := (s.regs b).isLt
  have hd := (s.regs d).isLt
  have heq : s.regs a = s.regs c ↔ (s.regs a).toNat = (s.regs c).toNat := BitVec.toNat_inj.symm
  unfold State.pair
  rw [Bool.eq_iff_iff]
  cases ord with
  | manual =>
    simp only [CompareOrder.over, heq, Bool.or_eq_true, Bool.and_eq_true, decide_eq_true_eq]
    omega
  | swapped =>
    simp only [CompareOrder.over, heq, Bool.or_eq_true, Bool.and_eq_true, decide_eq_true_eq]
    omega

/-- `div32.S:222-230`: the two comparisons only choose where to go on. -/
theorem reaches_compare {s : State} (h : s.pc = entry .udivCmp) :
    ∃ t, During ord (program base) s t ∧ t.mem = s.mem ∧ t.regs = s.regs ∧
      t.pc = if ord.over (s.pair .r6 .r7) (s.pair .r2 .r3) then entry .udivNext
        else entry .udivSub := by
  rw [over_pair]
  obtain ⟨t1, b1, e1⟩ := during_block ord (program base) 2 h rfl rfl (by decide)
  by_cases heq : s.regs .r6 = s.regs .r2
  · -- equal high words: neither jump is taken and the low words decide
    have h1 : t1.pc = 218#16 := by simp [e1, h, entry, heq]
    obtain ⟨t2, b2, e2⟩ := during_block ord (program base) 1 h1 rfl rfl (by decide)
    have h2 : t2.pc = 220#16 := by simp [e2, e1, h, entry, heq, CompareOrder.over_irrefl]
    obtain ⟨t3, b3, e3⟩ := during_block ord (program base) 2 h2 rfl rfl (by decide)
    have hirr := ord.over_irrefl (s.regs .r2).toNat
    have hlo : ord.over (s.regs .r7).toNat (s.regs .r3).toNat = true →
        s.regs .r7 ≠ s.regs .r3 := by
      intro hov he
      rw [he, CompareOrder.over_irrefl] at hov
      exact Bool.noConfusion hov
    by_cases hov : ord.over (s.regs .r7).toNat (s.regs .r3).toNat = true
    · refine ⟨t3, b1.trans (b2.trans b3), ?_, ?_, ?_⟩ <;>
        simp [e3, e2, e1, heq, hirr, hov, hlo hov]
    · refine ⟨t3, b1.trans (b2.trans b3), ?_, ?_, ?_⟩ <;>
        simp [e3, e2, e1, h, heq, hirr, hov, entry]
  · by_cases hov : ord.over (s.regs .r6).toNat (s.regs .r2).toNat = true
    · refine ⟨t1, b1, ?_, ?_, ?_⟩ <;> simp [e1, heq, hov]
    · have h1 : t1.pc = 218#16 := by simp [e1, h, entry, heq, hov]
      obtain ⟨t2, b2, e2⟩ := during_block ord (program base) 1 h1 rfl rfl (by decide)
      refine ⟨t2, b1.trans b2, ?_, ?_, ?_⟩ <;> simp [e2, e1, heq, hov]

theorem or_one_toNat {x : Word} (h : x.toNat % 2 = 0) : (x ||| 1#16).toNat = x.toNat + 1 := by
  have he : x ||| 1#16 = x + 1#16 := by
    rw [BitVec.add_eq_or_of_and_eq_zero]
    apply BitVec.eq_of_getLsbD_eq
    intro i hi
    cases i with
    | zero =>
      have h0 : x.getLsbD 0 = false := by
        rw [BitVec.getLsbD, Nat.testBit_zero]
        simp [h]
      rw [BitVec.getLsbD_and, h0, Bool.false_and]
      rfl
    | succ i => simp
  have hlt := x.isLt
  rw [he, BitVec.toNat_add, BitVec.toNat_ofNat]
  omega

/-- `div32.S:232-239`: the trial subtraction and the new quotient bit. -/
theorem reaches_subtract {s : State} (h : s.pc = entry .udivSub)
    (heven : (s.regs .r5).toNat % 2 = 0) :
    ∃ t, During ord (program base) s t ∧ t.pc = entry .udivNext ∧ t.mem = s.mem ∧
      SameRegs loopKept s t ∧
      t.pair .r6 .r7 = (s.pair .r6 .r7 + (2 ^ 32 - s.pair .r2 .r3)) % 2 ^ 32 ∧
      t.pair .r4 .r5 = s.pair .r4 .r5 + 1 := by
  have h2 := (s.regs .r2).isLt
  have h3 := (s.regs .r3).isLt
  have h6 := (s.regs .r6).isLt
  have h7 := (s.regs .r7).isLt
  have hor := or_one_toNat heven
  obtain ⟨t1, b1, e1⟩ := during_block ord (program base) 2 h rfl rfl (by decide)
  by_cases hc : (s.regs .r3).toNat ≤ (s.regs .r7).toNat
  · have h1 : t1.pc = entry .udivNb := by simp [e1, hc]
    obtain ⟨t2, b2, e2⟩ := during_block ord (program base) 2 h1 rfl rfl (by decide)
    refine ⟨t2, b1.trans b2, ?_, ?_, ?_, ?_, ?_⟩
    · simp [e2, h1, entry]
    · simp [e2, e1, hc]
    · simp [SameRegs, loopKept, e2, e1, hc]
    · simp only [State.pair, e2, e1]
      simp [hc, BitVec.toNat_sub]
      omega
    · simp [State.pair, e2, e1, hc, hor]
      omega
  · have h1 : t1.pc = 228#16 := by simp [e1, h, entry, hc]
    obtain ⟨t2, b2, e2⟩ := during_block ord (program base) 3 h1 rfl rfl (by decide)
    refine ⟨t2, b1.trans b2, ?_, ?_, ?_, ?_, ?_⟩
    · simp [e2, h1, entry]
    · simp [e2, e1, hc]
    · simp [SameRegs, loopKept, e2, e1, hc]
    · simp [State.pair, e2, e1, hc, BitVec.toNat_sub]
      omega
    · simp [State.pair, e2, e1, hc, hor]
      omega

/-- One round of `UDIV_LOOP` on remainder and quotient `(R6:R7, R4:R5)`. -/
def divRound (ord : CompareOrder) (d : Nat) (x : Nat × Nat) : Nat × Nat :=
  let rem := (2 * x.1 + x.2 / 2 ^ 31) % 2 ^ 32
  let quo := 2 * x.2 % 2 ^ 32
  if ord.over rem d then (rem, quo) else ((rem + (2 ^ 32 - d)) % 2 ^ 32, quo + 1)

def remQuo (s : State) : Nat × Nat := (s.pair .r6 .r7, s.pair .r4 .r5)

theorem SameRegs.pair_eq {rs : List Reg} {s t : State} (h : SameRegs rs s t) {a b : Reg}
    (ha : a ∈ rs) (hb : b ∈ rs) : t.pair a b = s.pair a b := by
  rw [State.pair, State.pair, h a ha, h b hb]

/-- `div32.S:222-239`: compare, and subtract when the divisor goes in. -/
theorem reaches_trial {s : State} (h : s.pc = entry .udivCmp)
    (heven : (s.regs .r5).toNat % 2 = 0) :
    ∃ t, During ord (program base) s t ∧ t.pc = entry .udivNext ∧ t.mem = s.mem ∧
      SameRegs loopKept s t ∧
      remQuo t = if ord.over (s.pair .r6 .r7) (s.pair .r2 .r3) then remQuo s
        else ((s.pair .r6 .r7 + (2 ^ 32 - s.pair .r2 .r3)) % 2 ^ 32, s.pair .r4 .r5 + 1) := by
  obtain ⟨u, b1, hmem1, hregs1, hpc1⟩ := reaches_compare ord base h
  have hpair : ∀ a b, u.pair a b = s.pair a b := fun a b => by
    simp only [State.pair, hregs1]
  have hkept1 : SameRegs loopKept s u := fun r _ => by rw [hregs1]
  by_cases hov : ord.over (s.pair .r6 .r7) (s.pair .r2 .r3) = true
  · rw [if_pos hov] at hpc1
    refine ⟨u, b1, hpc1, hmem1, hkept1, ?_⟩
    simp only [remQuo, hpair, hov, if_true]
  · rw [if_neg hov] at hpc1
    rw [← hregs1] at heven
    obtain ⟨v, b2, hpc2, hmem2, hkept2, hrem2, hquo2⟩ := reaches_subtract ord base hpc1 heven
    refine ⟨v, b1.trans b2, hpc2, hmem2.trans hmem1, hkept1.trans hkept2, ?_⟩
    simp only [remQuo, hrem2, hquo2, hpair, hov, if_false, Bool.false_eq_true]

/-- A round, by way of the state `v` after its shift. -/
theorem reaches_round_via {s : State} (h : s.pc = entry .udivLoop) :
    ∃ v t, During ord (program base) s v ∧ v.pc = entry .udivCmp ∧
      v.pair .r6 .r7 = (2 * s.pair .r6 .r7 + s.pair .r4 .r5 / 2 ^ 31) % 2 ^ 32 ∧
      During ord (program base) v t ∧ t.pc = entry .udivNext ∧ t.mem = s.mem ∧
      SameRegs loopKept s t ∧ remQuo t = divRound ord (s.pair .r2 .r3) (remQuo s) := by
  obtain ⟨v, b1, hpc1, hmem1, hkept1, hrem1, hquo1⟩ := reaches_shift ord base h
  have heven : (v.regs .r5).toNat % 2 = 0 := by
    rw [State.pair] at hquo1
    omega
  obtain ⟨t, b2, hpc2, hmem2, hkept2, hval2⟩ := reaches_trial ord base hpc1 heven
  refine ⟨v, t, b1, hpc1, hrem1, b2, hpc2, hmem2.trans hmem1, hkept1.trans hkept2, ?_⟩
  have hd : v.pair .r2 .r3 = s.pair .r2 .r3 :=
    SameRegs.pair_eq hkept1 (by decide) (by decide)
  rw [hd, hrem1, hquo1] at hval2
  rw [hval2]
  by_cases hov :
      ord.over ((2 * s.pair .r6 .r7 + s.pair .r4 .r5 / 2 ^ 31) % 2 ^ 32) (s.pair .r2 .r3) = true
  · simp only [remQuo, divRound, hrem1, hquo1, hov, if_true]
  · simp only [remQuo, divRound, hov, if_false, Bool.false_eq_true]

theorem reaches_round {s : State} (h : s.pc = entry .udivLoop) :
    ∃ t, During ord (program base) s t ∧ t.pc = entry .udivNext ∧ t.mem = s.mem ∧
      SameRegs loopKept s t ∧ remQuo t = divRound ord (s.pair .r2 .r3) (remQuo s) := by
  obtain ⟨v, t, b1, -, -, b2, hpc, hmem, hkept, hval⟩ := reaches_round_via ord base h
  exact ⟨t, b1.trans b2, hpc, hmem, hkept, hval⟩

/-- `div32.S:241-243`. -/
theorem reaches_next {s : State} (h : s.pc = entry .udivNext) :
    ∃ t, During ord (program base) s t ∧ t.mem = s.mem ∧ t.regs .r8 = s.regs .r8 - 1#16 ∧
      (∀ r, r ≠ .r8 → t.regs r = s.regs r) ∧
      t.pc = if s.regs .r8 - 1#16 = 0#16 then 240#16 else entry .udivLoop := by
  obtain ⟨t, b1, e1⟩ := during_block ord (program base) 2 h rfl rfl (by decide)
  by_cases hz : s.regs .r8 - 1#16 = 0#16
  · refine ⟨t, b1, by simp [e1, hz], by simp [e1, hz], ?_, by simp [e1, h, entry, hz]⟩
    intro r hr
    simp [e1, hz, hr]
  · refine ⟨t, b1, by simp [e1, hz], by simp [e1, hz], ?_, by simp [e1, hz]⟩
    intro r hr
    simp [e1, hz, hr]

/-- Registers that keep their value while `R8` counts the rounds. -/
def roundsKept : List Reg := [.r2, .r3, .r9, .r10, .r11, .r12, .r13, .r14, .r15]

theorem mem_roundsKept {r : Reg} (h : r ∈ roundsKept) : r ∈ loopKept ∧ r ≠ .r8 := by
  revert r
  decide

/-- `div32.S:169-243`: `R8` rounds, by induction on the count. -/
theorem reaches_rounds (n : Nat) {s : State} (h : s.pc = entry .udivLoop)
    (hn : (s.regs .r8).toNat = n + 1) :
    ∃ t, During ord (program base) s t ∧ t.pc = 240#16 ∧ t.mem = s.mem ∧
      SameRegs roundsKept s t ∧
      remQuo t = (divRound ord (s.pair .r2 .r3))^[n + 1] (remQuo s) := by
  induction n generalizing s with
  | zero =>
    obtain ⟨t, b1, hpc1, hmem1, hkept1, hval1⟩ := reaches_round ord base h
    obtain ⟨u, b2, hmem2, -, hoth2, hpc2⟩ := reaches_next ord base hpc1
    have h8 : t.regs .r8 - 1#16 = 0#16 := by
      rw [hkept1 .r8 (by decide)]
      bv_omega
    rw [if_pos h8] at hpc2
    refine ⟨u, b1.trans b2, hpc2, hmem2.trans hmem1, ?_, ?_⟩
    · intro r hr
      rw [hoth2 r (mem_roundsKept hr).2, hkept1 r (mem_roundsKept hr).1]
    · rw [Function.iterate_one, ← hval1]
      simp only [remQuo, State.pair, hoth2 _ (by decide : (Reg.r4) ≠ .r8),
        hoth2 _ (by decide : (Reg.r5) ≠ .r8), hoth2 _ (by decide : (Reg.r6) ≠ .r8),
        hoth2 _ (by decide : (Reg.r7) ≠ .r8)]
  | succ n ih =>
    obtain ⟨t, b1, hpc1, hmem1, hkept1, hval1⟩ := reaches_round ord base h
    obtain ⟨u, b2, hmem2, h82, hoth2, hpc2⟩ := reaches_next ord base hpc1
    have h8lt := (s.regs .r8).isLt
    have ht8 : t.regs .r8 = s.regs .r8 := hkept1 .r8 (by decide)
    have h8 : t.regs .r8 - 1#16 ≠ 0#16 := by
      rw [ht8]
      bv_omega
    have hu8 : (u.regs .r8).toNat = n + 1 := by
      rw [h82, ht8]
      bv_omega
    have hkept2 : SameRegs roundsKept s u := by
      intro r hr
      rw [hoth2 r (mem_roundsKept hr).2, hkept1 r (mem_roundsKept hr).1]
    have hval2 : remQuo u = divRound ord (s.pair .r2 .r3) (remQuo s) := by
      rw [← hval1]
      simp only [remQuo, State.pair, hoth2 _ (by decide : (Reg.r4) ≠ .r8),
        hoth2 _ (by decide : (Reg.r5) ≠ .r8), hoth2 _ (by decide : (Reg.r6) ≠ .r8),
        hoth2 _ (by decide : (Reg.r7) ≠ .r8)]
    rw [if_neg h8] at hpc2
    obtain ⟨v, b3, hpc3, hmem3, hkept3, hval3⟩ := ih hpc2 hu8
    refine ⟨v, b1.trans (b2.trans b3), hpc3, hmem3.trans (hmem2.trans hmem1),
      hkept2.trans hkept3, ?_⟩
    rw [hval3, hval2, SameRegs.pair_eq hkept2 (by decide) (by decide),
      ← Function.iterate_succ_apply]

/-- Registers `UDIV32` leaves alone or restores. -/
def udivKept : List Reg := [.r2, .r3, .r8, .r9, .r10, .r11, .r12, .r13, .r14, .r15]

/-- Whether the fast path is taken for high word `hi` and divisor `d`. -/
def hardware (ord : CompareOrder) (hi d : Nat) : Bool :=
  decide (d / 65536 = 0) && decide (d ≠ 0) && ord.over hi d

/-- Quotient and remainder `UDIV32` returns in `R4:R5` and `R6:R7`. -/
def udiv32Value (ord : CompareOrder) (n d : Nat) : Nat × Nat :=
  if hardware ord (n / 65536) d then
    -- the hardware `DIV` keeps its operands on overflow
    if d ≤ n / 65536 then (n / 65536, n % 65536) else (n / d, n % d)
  else ((divRound ord d)^[32] (0, n)).swap

/-- What `UDIV32` does to the machine. -/
structure Divided (ord : CompareOrder) (base : Word) (s t : State) : Prop where
  kept : SameRegs udivKept s t
  mem : ∀ a : Word, a.toNat + 4 < (s.regs .r10).toNat ∨ (s.regs .r10).toNat ≤ a.toNat →
    t.mem a = s.mem a
  value : (t.pair .r4 .r5, t.pair .r6 .r7) = udiv32Value ord (s.pair .r0 .r1) (s.pair .r2 .r3)

/-- `div32.S:167-248`: the software path, with its two-word frame. -/
theorem software_returns {s : State} (h : s.pc = entry .udiv32Sw)
    (heven : (s.regs .r10).toNat % 2 = 0) (hroom : 4 ≤ (s.regs .r10).toNat) :
    ∃ t, FirstReturn ord (program base) s t ∧ SameRegs udivKept s t ∧
      (∀ a : Word, a.toNat + 4 < (s.regs .r10).toNat ∨ (s.regs .r10).toNat ≤ a.toNat →
        t.mem a = s.mem a) ∧
      remQuo t = (divRound ord (s.pair .r2 .r3))^[32] (0, s.pair .r0 .r1) := by
  have h10 := (s.regs .r10).isLt
  have ev2 : (s.regs .r10 - 2#16).toNat % 2 = 0 := by bv_omega
  have ev4 : (s.regs .r10 - 2#16 - 2#16).toNat % 2 = 0 := by bv_omega
  have hne : s.regs .r10 - 2#16 ≠ s.regs .r10 - 2#16 - 2#16 := by bv_omega
  obtain ⟨t, b1, e1⟩ := during_block ord (program base) 9 h rfl rfl (by decide)
  have h1 : t.pc = entry .udivLoop := by simp [e1, h, entry]
  have h8 : (t.regs .r8).toNat = 31 + 1 := by simp [e1]
  obtain ⟨u, b2, hpc2, hmem2, hkept2, hval2⟩ := reaches_rounds ord base 31 h1 h8
  obtain ⟨v, b3, e3⟩ := during_block ord (program base) 2 hpc2 rfl rfl (by decide)
  have hu10 : u.regs .r10 = s.regs .r10 - 2#16 - 2#16 := by
    rw [hkept2 .r10 (by decide)]
    simp [e1]
  have hmem : u.mem = writeWord (writeWord s.mem (s.regs .r10 - 2#16) (s.regs .r11))
      (s.regs .r10 - 2#16 - 2#16) (s.regs .r8) := by
    rw [hmem2]
    simp [e1]
  have hr8 : readWord u.mem (s.regs .r10 - 2#16 - 2#16) = s.regs .r8 := by
    rw [hmem, readWord_writeWord_same ev4]
  have hr11 : readWord u.mem (s.regs .r10 - 2#16) = s.regs .r11 := by
    rw [hmem, readWord_writeWord_ne ev4 ev2 hne, readWord_writeWord_same ev2]
  have hsame : SameRegs [.r2, .r3, .r9, .r12, .r13, .r14, .r15] s u := by
    refine SameRegs.trans ?_ (hkept2.mono (by decide))
    simp [SameRegs, e1]
  have hd := b1.trans (b2.trans b3)
  have hpc3 : v.pc = 244#16 := by simp [e3, hpc2]
  refine ⟨v, ⟨hd, hd.reaches, by rw [hpc3]; rfl, by simp [e3, hu10, hr11]⟩, ?_, ?_, ?_⟩
  · simpa [SameRegs, udivKept, e3, hr8, hr11, hu10] using hsame
  · intro a ha
    have hv : v.mem = u.mem := by simp [e3]
    rw [hv, hmem, writeWord_frame ev4, writeWord_frame ev2]
    all_goals bv_omega
  · have hv : remQuo v = remQuo u := by simp [remQuo, State.pair, e3]
    have hd : t.pair .r2 .r3 = s.pair .r2 .r3 := by simp [State.pair, e1]
    have h0 : remQuo t = (0, s.pair .r0 .r1) := by simp [remQuo, State.pair, e1]
    rw [hv, hval2, hd, h0]

/-- `div32.S:147-248`. -/
theorem udiv32_returns {s : State} (h : s.pc = entry .udiv32)
    (heven : (s.regs .r10).toNat % 2 = 0) (hroom : 4 ≤ (s.regs .r10).toNat) :
    ∃ t, FirstReturn ord (program base) s t ∧ Divided ord base s t := by
  have h2 := (s.regs .r2).isLt
  have h3 := (s.regs .r3).isLt
  -- every way into the software path leaves registers and memory as they were
  have hsw : ∀ u, During ord (program base) s u → u.pc = entry .udiv32Sw → u.regs = s.regs →
      u.mem = s.mem → hardware ord (s.pair .r0 .r1 / 65536) (s.pair .r2 .r3) = false →
      ∃ t, FirstReturn ord (program base) s t ∧ Divided ord base s t := by
    intro u hu hpc hregs hmem hhw
    rw [← hregs] at heven hroom
    obtain ⟨t, ⟨hd, -, hf, h11⟩, hkept, hmem', hval⟩ := software_returns ord base hpc heven hroom
    have hst := hu.trans hd
    have hp : ∀ a b, u.pair a b = s.pair a b := fun a b => by simp only [State.pair, hregs]
    refine ⟨t, ⟨hst, hst.reaches, hf, by rw [h11, hregs]⟩, ?_, ?_, ?_⟩
    · intro r hr
      rw [hkept r hr, hregs]
    · intro a ha
      rw [← hregs] at ha
      rw [hmem' a ha, hmem]
    · rw [hp, hp] at hval
      rw [udiv32Value, hhw, if_neg Bool.false_ne_true, ← hval]
      rfl
  have hdhi : s.pair .r2 .r3 / 65536 = (s.regs .r2).toNat := by unfold State.pair; omega
  have hnhi : s.pair .r0 .r1 / 65536 = (s.regs .r0).toNat := by
    have h1 := (s.regs .r1).isLt
    unfold State.pair
    omega
  obtain ⟨t1, b1, e1⟩ := during_block ord (program base) 2 h rfl rfl (by decide)
  by_cases hz2 : s.regs .r2 = 0#16
  · have hd : s.pair .r2 .r3 = (s.regs .r3).toNat := by simp [State.pair, hz2]
    have h1 : t1.pc = 146#16 := by simp [e1, h, entry, hz2]
    have g1 : t1.regs = s.regs := by
      funext r
      cases r <;> simp [e1, hz2]
    have m1 : t1.mem = s.mem := by simp [e1, hz2]
    obtain ⟨t2, b2, e2⟩ := during_block ord (program base) 2 h1 rfl rfl (by decide)
    have m2 : t2.mem = s.mem := by by_cases hz3 : s.regs .r3 = 0#16 <;> simp [e2, g1, m1, hz3]
    have g2 : t2.regs = s.regs := by
      by_cases hz3 : s.regs .r3 = 0#16 <;> funext r <;> cases r <;> simp [e2, g1, hz3]
    by_cases hz3 : s.regs .r3 = 0#16
    · refine hsw t2 (b1.trans b2) (by simp [e2, g1, hz3]) g2 m2 ?_
      have h0 : s.pair .r2 .r3 = 0 := by
        rw [hd, hz3]
        rfl
      simp [hardware, h0]
    · have hpos : s.pair .r2 .r3 ≠ 0 := by
        rw [hd]
        bv_omega
      have h2' : t2.pc = 150#16 := by simp [e2, h1, g1, hz3]
      obtain ⟨t3, b3, e3⟩ := during_block ord (program base) 2 h2' rfl rfl (by decide)
      by_cases hov : ord.over (s.regs .r0).toNat (s.regs .r3).toNat = true
      · have hneq : s.regs .r0 ≠ s.regs .r3 := by
          intro he
          rw [he, CompareOrder.over_irrefl] at hov
          exact Bool.false_ne_true hov
        have h3' : t3.pc = 154#16 := by simp [e3, h2', g2, hov, hneq]
        have g3 : t3.regs = s.regs := by simp [e3, g2, hov, hneq]
        have m3 : t3.mem = s.mem := by simp [e3, g2, m2, hov, hneq]
        have hhw : hardware ord (s.pair .r0 .r1 / 65536) (s.pair .r2 .r3) = true := by
          simp [hardware, hnhi, hd, hov]
          omega
        obtain ⟨t4, b4, e4⟩ := during_block ord (program base) 5 h3' rfl rfl (by decide)
        have hd4 := b1.trans (b2.trans (b3.trans b4))
        have h4' : t4.pc = 164#16 := by
          by_cases hle : s.regs .r3 ≤ s.regs .r0 <;> simp [e4, h3', g3, hle]
        have h11 : t4.regs .r11 = s.regs .r11 := by
          by_cases hle : s.regs .r3 ≤ s.regs .r0 <;> simp [e4, g3, hle]
        refine ⟨t4, ⟨hd4, hd4.reaches, by rw [h4']; rfl, h11⟩, ?_⟩
        by_cases hle : s.regs .r3 ≤ s.regs .r0
        · have hlen : s.pair .r2 .r3 ≤ s.pair .r0 .r1 / 65536 := by
            rw [hd, hnhi]
            exact hle
          refine ⟨?_, fun a _ => by simp [e4, g3, m3, hle], ?_⟩
          · simp [SameRegs, udivKept, e4, g3, hle]
          · rw [udiv32Value, if_pos hhw, if_pos hlen]
            simp [State.pair, e4, g3, hle]
            omega
        · have hlen : ¬ s.pair .r2 .r3 ≤ s.pair .r0 .r1 / 65536 := by
            rw [hd, hnhi]
            exact hle
          have hq : s.pair .r0 .r1 / (s.regs .r3).toNat < 65536 := by
            rw [Nat.div_lt_iff_lt_mul (by omega)]
            omega
          have hr : s.pair .r0 .r1 % (s.regs .r3).toNat < 65536 :=
            (Nat.mod_lt _ (by omega)).trans h3
          refine ⟨?_, fun a _ => by simp [e4, g3, m3, hle], ?_⟩
          · simp [SameRegs, udivKept, e4, g3, hle]
          · rw [udiv32Value, if_pos hhw, if_neg hlen, hd]
            simp [State.pair, e4, g3, hle]
            exact ⟨hq, hr⟩
      · refine hsw t3 (b1.trans (b2.trans b3)) ?_ ?_ ?_ ?_
        · simp [e3, g2, hov]
        · simp [e3, g2, hov]
        · simp [e3, g2, m2, hov]
        · simp [hardware, hnhi, hd, hov]
  · refine hsw t1 b1 (by simp [e1, hz2]) ?_ (by simp [e1, hz2]) ?_
    · funext r
      cases r <;> simp [e1, hz2]
    · have hne : (s.regs .r2).toNat ≠ 0 := by bv_omega
      simp [hardware, hdhi, hne]

/-- Back at the caller. -/
theorem reaches_udiv32 {s : State} (h : s.pc = entry .udiv32)
    (heven : (s.regs .r10).toNat % 2 = 0) (hroom : 4 ≤ (s.regs .r10).toNat) :
    ∃ t, Reaches ord (program base) s t ∧ t.pc = s.regs .r11 - base ∧ Divided ord base s t := by
  obtain ⟨u, hret, hdiv⟩ := udiv32_returns ord base h heven hroom
  exact ⟨_, hret.2.back, rfl, hdiv.kept, hdiv.mem, hdiv.value⟩

/-- Two's complement negation of a 32-bit value. -/
def neg32 (v : Nat) : Nat := (2 ^ 32 - v) % 2 ^ 32

theorem neg_words (hi lo : Word) :
    (~~~hi + if lo = 0#16 then 1#16 else 0#16).toNat * 65536 + (~~~lo + 1#16).toNat =
      neg32 (hi.toNat * 65536 + lo.toNat) := by
  have hh := hi.isLt
  have hl := lo.isLt
  by_cases h : lo = 0#16
  · subst h
    simp [BitVec.toNat_add, BitVec.toNat_not, neg32]
    omega
  · have hne : lo.toNat ≠ 0 := by bv_omega
    simp [h, BitVec.toNat_add, BitVec.toNat_not, neg32]
    omega

/-- Registers other than `R0` and `R1`. -/
def neg01Kept : List Reg :=
  [.r2, .r3, .r4, .r5, .r6, .r7, .r8, .r9, .r10, .r11, .r12, .r13, .r14, .r15]

/-- `div32.S:254-261`. -/
theorem reaches_neg3201 {s : State} (h : s.pc = entry .neg3201) :
    ∃ t, Reaches ord (program base) s t ∧ t.pc = s.regs .r11 - base ∧ t.mem = s.mem ∧
      SameRegs neg01Kept s t ∧ t.pair .r0 .r1 = neg32 (s.pair .r0 .r1) := by
  have hw := neg_words (s.regs .r0) (s.regs .r1)
  obtain ⟨t1, b1, e1⟩ := exists_block ord (program base) 4 h rfl rfl (by decide)
  by_cases hz : s.regs .r1 = 0#16
  · have h1 : t1.pc = 254#16 := by simp [e1, h, entry, hz]
    obtain ⟨t2, b2, e2⟩ := exists_block ord (program base) 2 h1 rfl rfl (by decide)
    refine ⟨t2, b1.trans b2, ?_, ?_, ?_, ?_⟩
    · simp [e2, e1, hz]
    · simp [e2, e1, hz]
    · simp [SameRegs, neg01Kept, e2, e1, hz]
    · simpa [State.pair, e2, e1, hz] using hw
  · have hc : ¬ 65535 ≤ 65535 - (s.regs .r1).toNat := by bv_omega
    have h1 : t1.pc = entry .neg01Done := by simp [e1, hc]
    obtain ⟨t2, b2, e2⟩ := exists_block ord (program base) 1 h1 rfl rfl (by decide)
    refine ⟨t2, b1.trans b2, ?_, ?_, ?_, ?_⟩
    · simp [e2, e1, hc]
    · simp [e2, e1, hc]
    · simp [SameRegs, neg01Kept, e2, e1, hc]
    · simpa [State.pair, e2, e1, hc, hz] using hw

/-- Registers other than `R2` and `R3`. -/
def neg23Kept : List Reg :=
  [.r0, .r1, .r4, .r5, .r6, .r7, .r8, .r9, .r10, .r11, .r12, .r13, .r14, .r15]

/-- `div32.S:266-273`. -/
theorem reaches_neg3223 {s : State} (h : s.pc = entry .neg3223) :
    ∃ t, Reaches ord (program base) s t ∧ t.pc = s.regs .r11 - base ∧ t.mem = s.mem ∧
      SameRegs neg23Kept s t ∧ t.pair .r2 .r3 = neg32 (s.pair .r2 .r3) := by
  have hw := neg_words (s.regs .r2) (s.regs .r3)
  obtain ⟨t1, b1, e1⟩ := exists_block ord (program base) 4 h rfl rfl (by decide)
  by_cases hz : s.regs .r3 = 0#16
  · have h1 : t1.pc = 266#16 := by simp [e1, h, entry, hz]
    obtain ⟨t2, b2, e2⟩ := exists_block ord (program base) 2 h1 rfl rfl (by decide)
    refine ⟨t2, b1.trans b2, ?_, ?_, ?_, ?_⟩
    · simp [e2, e1, hz]
    · simp [e2, e1, hz]
    · simp [SameRegs, neg23Kept, e2, e1, hz]
    · simpa [State.pair, e2, e1, hz] using hw
  · have hc : ¬ 65535 ≤ 65535 - (s.regs .r3).toNat := by bv_omega
    have h1 : t1.pc = entry .neg23Done := by simp [e1, hc]
    obtain ⟨t2, b2, e2⟩ := exists_block ord (program base) 1 h1 rfl rfl (by decide)
    refine ⟨t2, b1.trans b2, ?_, ?_, ?_, ?_⟩
    · simp [e2, e1, hc]
    · simp [e2, e1, hc]
    · simp [SameRegs, neg23Kept, e2, e1, hc]
    · simpa [State.pair, e2, e1, hc, hz] using hw

end LlvmTms9900.Builtins.Div32
