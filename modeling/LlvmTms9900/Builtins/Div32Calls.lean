import LlvmTms9900.Builtins.Div32

/-!
# The four entry points of div32.S

`__udivsi3`, `__umodsi3`, `__divsi3` and `__modsi3` save `R11` (the signed
ones `R9` too), call `UDIV32` and the negation routines, and return. Each is
described once, with its value and with everything a caller relies on: where
it returns to, which registers survive and which bytes of the stack change.
-/

set_option maxRecDepth 8192

namespace LlvmTms9900.Builtins.Div32
open LlvmTms9900.Isa

variable (ord : CompareOrder) (base : Word)

/-- Words at or above the stack pointer survive a call of `UDIV32`. -/
theorem Divided.readWord_above {ord : CompareOrder} {base : Word} {s t : State}
    (h : Divided ord base s t) {a : Word} (hev : a.toNat % 2 = 0)
    (ha : (s.regs .r10).toNat ≤ a.toNat) : readWord t.mem a = readWord s.mem a := by
  refine readWord_congr hev (h.mem a (.inr ha)) (h.mem (a + 1#16) (.inr ?_))
  bv_omega

/-- The shape of the two unsigned entry points: save `R11`, call `UDIV32`,
move the result pair `hi:lo` to `R0:R1`, return. -/
theorem unsigned_called (k : Nat) (hi lo : Reg) (hlo : lo ≠ .r0) (hk : k + 16 ≤ 65536)
    (hb1 : blockAt text k 3 =
      some [.dect (.reg .r10), .mov (.reg .r11) (.ind .r10), .bl .udiv32])
    (hb2 : blockAt text (k + 8) 3 =
      some [.mov (.reg hi) (.reg .r0), .mov (.reg lo) (.reg .r1), .mov (.inc .r10) (.reg .r11)])
    (hb3 : fetch text (k + 14) = some (.b .r11)) {s : State} (h : s.pc = BitVec.ofNat 16 k)
    (heven : (s.regs .r10).toNat % 2 = 0) (hroom : 6 ≤ (s.regs .r10).toNat) :
    ∃ t u : State, Called ord (program base) 6 s u (t.pair hi lo) ∧
      (t.pair .r4 .r5, t.pair .r6 .r7) = udiv32Value ord (s.pair .r0 .r1) (s.pair .r2 .r3) := by
  have ev2 : (s.regs .r10 - 2#16).toNat % 2 = 0 := by bv_omega
  obtain ⟨t1, b1, e1⟩ := exists_block ord (program base) 3 h hb1 rfl (by simp [blockSize]; omega)
  have h1 : t1.pc = entry .udiv32 := by simp [e1]
  have h10 : t1.regs .r10 = s.regs .r10 - 2#16 := by simp [e1]
  have m1 : t1.mem = writeWord s.mem (s.regs .r10 - 2#16) (s.regs .r11) := by simp [e1]
  obtain ⟨t2, b2, hpc2, hd⟩ := reaches_udiv32 ord base h1 (by rw [h10]; exact ev2)
    (by rw [h10]; bv_omega)
  have h2 : t2.pc = BitVec.ofNat 16 (k + 8) := by
    rw [hpc2]
    simp [e1, h, BitVec.ofNat_add, BitVec.add_assoc]
  obtain ⟨t3, b3, e3⟩ := exists_block ord (program base) 3 h2 hb2 rfl (by simp [blockSize]; omega)
  have h3 : t3.pc.toNat = k + 14 := by
    simp [e3, h2]
    omega
  have k10 : t2.regs .r10 = s.regs .r10 - 2#16 := (hd.kept .r10 (by decide)).trans h10
  have hr11 : readWord t2.mem (s.regs .r10 - 2#16) = s.regs .r11 := by
    rw [hd.readWord_above ev2 (by rw [h10]), m1, readWord_writeWord_same ev2]
  have hsame : SameRegs [.r8, .r9, .r12, .r13, .r14, .r15] s t2 := by
    refine SameRegs.trans ?_ (hd.kept.mono (by decide))
    simp [SameRegs, e1]
  refine ⟨t2, t3, ⟨⟨b1.trans (b2.trans b3), ?_, ?_⟩, ?_, ?_, ?_⟩, ?_⟩
  · rw [h3]
    exact hb3
  · simp [e3, k10, hr11]
  · simpa [SameRegs, calleeSaved, e3, k10] using hsame
  · intro a ha
    have hm : t3.mem = t2.mem := by simp [e3]
    rw [hm, hd.mem a (by rw [h10]; bv_omega), m1, writeWord_frame ev2]
    all_goals bv_omega
  · simp [State.pair, e3, hlo]
  · have hn : t1.pair .r0 .r1 = s.pair .r0 .r1 := by simp [State.pair, e1]
    have hdv : t1.pair .r2 .r3 = s.pair .r2 .r3 := by simp [State.pair, e1]
    rw [hd.value, hn, hdv]

/-- `div32.S:28-35`. -/
theorem udivsi3_called {s : State} (h : s.pc = entry .udivsi3)
    (heven : (s.regs .r10).toNat % 2 = 0) (hroom : 6 ≤ (s.regs .r10).toNat) :
    ∃ u, Called ord (program base) 6 s u
      (udiv32Value ord (s.pair .r0 .r1) (s.pair .r2 .r3)).1 := by
  obtain ⟨t, u, hu, hv⟩ := unsigned_called ord base 0 .r4 .r5 (by decide) (by decide) rfl rfl rfl h
    heven hroom
  rw [← hv]
  exact ⟨u, hu⟩

/-- `div32.S:41-48`. -/
theorem umodsi3_called {s : State} (h : s.pc = entry .umodsi3)
    (heven : (s.regs .r10).toNat % 2 = 0) (hroom : 6 ≤ (s.regs .r10).toNat) :
    ∃ u, Called ord (program base) 6 s u
      (udiv32Value ord (s.pair .r0 .r1) (s.pair .r2 .r3)).2 := by
  obtain ⟨t, u, hu, hv⟩ := unsigned_called ord base 16 .r6 .r7 (by decide) (by decide) rfl rfl rfl h
    heven hroom
  rw [← hv]
  exact ⟨u, hu⟩

/-- Sign bit of a 32-bit value. -/
def isNeg (v : Nat) : Bool := decide (2 ^ 31 ≤ v)

def abs32 (v : Nat) : Nat := if isNeg v then neg32 v else v

/-- What the two signed entry points find on the stack when they return. -/
structure SignedFrame (s t : State) : Prop where
  r10 : t.regs .r10 = s.regs .r10 - 2#16 - 2#16
  saved11 : readWord t.mem (s.regs .r10 - 2#16) = s.regs .r11
  saved9 : readWord t.mem (s.regs .r10 - 2#16 - 2#16) = s.regs .r9
  kept : SameRegs [.r8, .r12, .r13, .r14, .r15] s t
  mem : ∀ a : Word, a.toNat + 8 < (s.regs .r10).toNat ∨ (s.regs .r10).toNat ≤ a.toNat →
    t.mem a = s.mem a

/-- A step that keeps the stack pointer, the saved registers and the memory
outside `UDIV32`'s frame keeps the frame of the caller. -/
theorem SignedFrame.step {s t u : State} (hf : SignedFrame s t)
    (heven : (s.regs .r10).toNat % 2 = 0) (hroom : 8 ≤ (s.regs .r10).toNat)
    (hkept : SameRegs [.r8, .r10, .r12, .r13, .r14, .r15] t u)
    (hmem : ∀ a : Word, a.toNat + 4 < (t.regs .r10).toNat ∨ (t.regs .r10).toNat ≤ a.toNat →
      u.mem a = t.mem a) : SignedFrame s u := by
  have ev2 : (s.regs .r10 - 2#16).toNat % 2 = 0 := by bv_omega
  have ev4 : (s.regs .r10 - 2#16 - 2#16).toNat % 2 = 0 := by bv_omega
  have h10 := hf.r10
  refine ⟨(hkept .r10 (by decide)).trans hf.r10, ?_, ?_, ?_, ?_⟩
  · rw [readWord_congr ev2 (hmem _ (.inr ?_)) (hmem _ (.inr ?_)), hf.saved11]
    all_goals
      rw [h10]
      bv_omega
  · rw [readWord_congr ev4 (hmem _ (.inr ?_)) (hmem _ (.inr ?_)), hf.saved9]
    · rw [h10]
    · rw [h10]
      bv_omega
  · exact hf.kept.trans (hkept.mono (by decide))
  · intro a ha
    rw [hmem a (by rw [h10]; bv_omega), hf.mem a ha]

theorem slt_zero_iff (x : Word) : (0#16).slt x = true ↔ 0 < x.toNat ∧ x.toNat < 32768 := by
  have h := x.isLt
  rw [BitVec.slt_eq_decide, decide_eq_true_eq, BitVec.toInt_eq_toNat_cond x, BitVec.toInt_zero]
  split <;> omega

theorem isNeg_pair (s : State) (a b : Reg) :
    isNeg (s.pair a b) = decide (32768 ≤ (s.regs a).toNat) := by
  have hb := (s.regs b).isLt
  unfold isNeg State.pair
  rw [decide_eq_decide]
  omega

/-- The two pushes of the signed entry points. -/
theorem SignedFrame.build {s t : State} (heven : (s.regs .r10).toNat % 2 = 0)
    (hroom : 8 ≤ (s.regs .r10).toNat) (h10 : t.regs .r10 = s.regs .r10 - 2#16 - 2#16)
    (hm : t.mem = writeWord (writeWord s.mem (s.regs .r10 - 2#16) (s.regs .r11))
      (s.regs .r10 - 2#16 - 2#16) (s.regs .r9))
    (hk : SameRegs [.r8, .r12, .r13, .r14, .r15] s t) : SignedFrame s t := by
  have ev2 : (s.regs .r10 - 2#16).toNat % 2 = 0 := by bv_omega
  have ev4 : (s.regs .r10 - 2#16 - 2#16).toNat % 2 = 0 := by bv_omega
  have hne : s.regs .r10 - 2#16 ≠ s.regs .r10 - 2#16 - 2#16 := by bv_omega
  refine ⟨h10, ?_, ?_, hk, ?_⟩
  · rw [hm, readWord_writeWord_ne ev4 ev2 hne, readWord_writeWord_same ev2]
  · rw [hm, readWord_writeWord_same ev4]
  · intro a ha
    rw [hm, writeWord_frame ev4, writeWord_frame ev2]
    all_goals bv_omega

/-- `div32.S:54-66` and `95-107`: the frame is built and the dividend made
positive; `mark` is the instruction that remembers its sign in `R9`. -/
theorem signed_dividend (k : Nat) (l : Label) (mark : Instr Label) (hk : k + 22 ≤ 65536)
    (hmark : mark = .inv (.reg .r9) ∨ mark = .seto (.reg .r9))
    (hb1 : blockAt text k 7 =
      some [.dect (.reg .r10), .mov (.reg .r11) (.ind .r10), .dect (.reg .r10),
        .mov (.reg .r9) (.ind .r10), .clr (.reg .r9), .mov (.reg .r0) (.reg .r0), .jump .gt l])
    (hb2 : blockAt text (k + 14) 1 = some [.jump .eq l])
    (hb3 : blockAt text (k + 16) 2 = some [mark, .bl .neg3201])
    (hl : entry l = BitVec.ofNat 16 (k + 22)) {s : State} (h : s.pc = BitVec.ofNat 16 k)
    (heven : (s.regs .r10).toNat % 2 = 0) (hroom : 8 ≤ (s.regs .r10).toNat) :
    ∃ t, Reaches ord (program base) s t ∧ t.pc = entry l ∧ SignedFrame s t ∧
      t.regs .r9 = (if isNeg (s.pair .r0 .r1) then 0xFFFF#16 else 0#16) ∧
      t.pair .r0 .r1 = abs32 (s.pair .r0 .r1) ∧ t.pair .r2 .r3 = s.pair .r2 .r3 := by
  have h0 := (s.regs .r0).isLt
  obtain ⟨t1, b1, e1⟩ := exists_block ord (program base) 7 h hb1 rfl (by simp [blockSize]; omega)
  by_cases hgt : (0#16).slt (s.regs .r0) = true
  · have hn : isNeg (s.pair .r0 .r1) = false := by
      rw [slt_zero_iff] at hgt
      rw [isNeg_pair, decide_eq_false_iff_not]
      omega
    rw [abs32, hn]
    refine ⟨t1, b1, by simp [e1, hgt], ?_, by simp [e1, hgt], ?_, ?_⟩
    · refine SignedFrame.build heven hroom ?_ ?_ ?_ <;> simp [SameRegs, e1, hgt]
    · simp [State.pair, e1, hgt]
    · simp [State.pair, e1, hgt]
  · have h1 : t1.pc = BitVec.ofNat 16 (k + 14) := by
      simp [e1, h, hgt, BitVec.ofNat_add, BitVec.add_assoc]
    obtain ⟨t2, b2, e2⟩ := exists_block ord (program base) 1 h1 hb2 rfl
      (by simp [blockSize]; omega)
    by_cases hz : s.regs .r0 = 0#16
    · have hn : isNeg (s.pair .r0 .r1) = false := by simp [isNeg_pair, hz]
      rw [abs32, hn]
      refine ⟨t2, b1.trans b2, by simp [e2, e1, hz], ?_, by simp [e2, e1, hz], ?_, ?_⟩
      · refine SignedFrame.build heven hroom ?_ ?_ ?_ <;> simp [SameRegs, e2, e1, hz]
      · simp [State.pair, e2, e1, hz]
      · simp [State.pair, e2, e1, hz]
    · have hn : isNeg (s.pair .r0 .r1) = true := by
        rw [slt_zero_iff] at hgt
        rw [isNeg_pair, decide_eq_true_eq]
        bv_omega
      rw [abs32, hn]
      have h2 : t2.pc = BitVec.ofNat 16 (k + 16) := by
        simp [e2, e1, h, hgt, hz, BitVec.ofNat_add, BitVec.add_assoc]
      have hstraight : [mark].all Instr.straight = true := by rcases hmark with rfl | rfl <;> rfl
      obtain ⟨t3, b3, e3⟩ := exists_block ord (program base) 2 h2 hb3 hstraight
        (by rcases hmark with rfl | rfl <;> simp [blockSize] <;> omega)
      have h3 : t3.pc = entry .neg3201 := by simp [e3]
      have h11 : t3.regs .r11 = base + entry l := by
        rcases hmark with rfl | rfl <;>
          simp [e3, h2, hl, BitVec.ofNat_add, BitVec.add_assoc]
      obtain ⟨t4, b4, hpc4, hmem4, hkept4, hval4⟩ := reaches_neg3201 ord base h3
      refine ⟨t4, b1.trans (b2.trans (b3.trans b4)), ?_, ?_, ?_, ?_, ?_⟩
      · rw [hpc4, h11]
        simp
      · refine SignedFrame.build heven hroom ?_ ?_ ?_
        · rw [hkept4 .r10 (by decide)]
          rcases hmark with rfl | rfl <;> simp [e3, e2, e1, hgt, hz]
        · rw [hmem4]
          rcases hmark with rfl | rfl <;> simp [e3, e2, e1, hgt, hz]
        · refine SameRegs.trans ?_ (hkept4.mono (by decide))
          rcases hmark with rfl | rfl <;> simp [SameRegs, e3, e2, e1, hgt, hz]
      · rw [hkept4 .r9 (by decide)]
        rcases hmark with rfl | rfl <;> simp [e3, e2, e1, hgt, hz]
      · rw [hval4]
        rcases hmark with rfl | rfl <;> simp [State.pair, e3, e2, e1, hgt, hz]
      · rw [SameRegs.pair_eq hkept4 (by decide) (by decide)]
        rcases hmark with rfl | rfl <;> simp [State.pair, e3, e2, e1, hgt, hz]

/-- Registers that survive making the divisor positive. -/
def divisorKept : List Reg := [.r0, .r1, .r8, .r10, .r12, .r13, .r14, .r15]

/-- `div32.S:67-73` and `108-113`: the divisor made positive; `marks` is
`INV R9` in `__divsi3` and nothing in `__modsi3`. -/
theorem signed_divisor (k : Nat) (l : Label) (marks : List (Instr Label)) (hk : k + 12 ≤ 65536)
    (hmarks : marks = [.inv (.reg .r9)] ∨ marks = [])
    (hb1 : blockAt text k 2 = some [.mov (.reg .r2) (.reg .r2), .jump .gt l])
    (hb2 : blockAt text (k + 4) 1 = some [.jump .eq l])
    (hb3 : blockAt text (k + 6) (marks.length + 1) = some (marks ++ [.bl .neg3223]))
    (hl : entry l = BitVec.ofNat 16 (k + 10 + 2 * marks.length)) {s : State}
    (h : s.pc = BitVec.ofNat 16 k) :
    ∃ t, Reaches ord (program base) s t ∧ t.pc = entry l ∧ t.mem = s.mem ∧
      SameRegs divisorKept s t ∧
      t.regs .r9 = (if isNeg (s.pair .r2 .r3) && decide (marks ≠ []) then ~~~s.regs .r9
        else s.regs .r9) ∧
      t.pair .r2 .r3 = abs32 (s.pair .r2 .r3) := by
  have h0 := (s.regs .r2).isLt
  obtain ⟨t1, b1, e1⟩ := exists_block ord (program base) 2 h hb1 rfl (by simp [blockSize]; omega)
  by_cases hgt : (0#16).slt (s.regs .r2) = true
  · have hn : isNeg (s.pair .r2 .r3) = false := by
      rw [slt_zero_iff] at hgt
      rw [isNeg_pair, decide_eq_false_iff_not]
      omega
    rw [abs32, hn]
    refine ⟨t1, b1, by simp [e1, hgt], by simp [e1, hgt], ?_, by simp [e1, hgt], ?_⟩
    · simp [SameRegs, divisorKept, e1, hgt]
    · simp [State.pair, e1, hgt]
  · have h1 : t1.pc = BitVec.ofNat 16 (k + 4) := by
      simp [e1, h, hgt, BitVec.ofNat_add, BitVec.add_assoc]
    obtain ⟨t2, b2, e2⟩ := exists_block ord (program base) 1 h1 hb2 rfl
      (by simp [blockSize]; omega)
    by_cases hz : s.regs .r2 = 0#16
    · have hn : isNeg (s.pair .r2 .r3) = false := by simp [isNeg_pair, hz]
      rw [abs32, hn]
      refine ⟨t2, b1.trans b2, by simp [e2, e1, hz], by simp [e2, e1, hz], ?_,
        by simp [e2, e1, hz], ?_⟩
      · simp [SameRegs, divisorKept, e2, e1, hz]
      · simp [State.pair, e2, e1, hz]
    · have hn : isNeg (s.pair .r2 .r3) = true := by
        rw [slt_zero_iff] at hgt
        rw [isNeg_pair, decide_eq_true_eq]
        bv_omega
      rw [abs32, hn]
      have h2 : t2.pc = BitVec.ofNat 16 (k + 6) := by
        simp [e2, e1, h, hgt, hz, BitVec.ofNat_add, BitVec.add_assoc]
      obtain ⟨t3, b3, e3⟩ := exists_block ord (program base) (marks.length + 1) h2 hb3
        (by rcases hmarks with rfl | rfl <;> rfl)
        (by rcases hmarks with rfl | rfl <;> simp [blockSize] <;> omega)
      have h3 : t3.pc = entry .neg3223 := by rcases hmarks with rfl | rfl <;> simp [e3]
      have h11 : t3.regs .r11 = base + entry l := by
        rcases hmarks with rfl | rfl <;>
          simp [e3, h2, hl, BitVec.ofNat_add, BitVec.add_assoc]
      obtain ⟨t4, b4, hpc4, hmem4, hkept4, hval4⟩ := reaches_neg3223 ord base h3
      refine ⟨t4, b1.trans (b2.trans (b3.trans b4)), ?_, ?_, ?_, ?_, ?_⟩
      · rw [hpc4, h11]
        simp
      · rw [hmem4]
        rcases hmarks with rfl | rfl <;> simp [e3, e2, e1, hgt, hz]
      · refine SameRegs.trans ?_ (hkept4.mono (by decide))
        rcases hmarks with rfl | rfl <;> simp [SameRegs, divisorKept, e3, e2, e1, hgt, hz]
      · rw [hkept4 .r9 (by decide)]
        rcases hmarks with rfl | rfl <;> simp [e3, e2, e1, hgt, hz]
      · rw [hval4]
        rcases hmarks with rfl | rfl <;> simp [State.pair, e3, e2, e1, hgt, hz]

/-- `div32.S:86-88` and `126-128`: undo the frame and return. -/
theorem signed_epilogue (k : Nat) (hk : k + 6 ≤ 65536)
    (hb1 : blockAt text k 2 = some [.mov (.inc .r10) (.reg .r9), .mov (.inc .r10) (.reg .r11)])
    (hb2 : fetch text (k + 4) = some (.b .r11)) {s t : State} (hst : Reaches ord (program base) s t)
    (h : t.pc = BitVec.ofNat 16 k) (hf : SignedFrame s t) :
    ∃ u, Called ord (program base) 8 s u (t.pair .r0 .r1) := by
  obtain ⟨u, b1, e1⟩ := exists_block ord (program base) 2 h hb1 rfl (by simp [blockSize]; omega)
  have hpc : u.pc.toNat = k + 4 := by
    simp [e1, h]
    omega
  refine ⟨u, ⟨hst.trans b1, by rw [hpc]; exact hb2, ?_⟩, ?_, ?_, ?_⟩
  · simp [e1, hf.r10, hf.saved11]
  · have hkept := hf.kept
    simpa [SameRegs, calleeSaved, e1, hf.r10, hf.saved9] using hkept
  · intro a ha
    have hm : u.mem = t.mem := by simp [e1]
    rw [hm, hf.mem a ha]
  · simp [State.pair, e1]

/-- `div32.S:74-88` and `114-128`: divide, move the pair `hi:lo` to `R0:R1`,
give it the sign kept in `R9`, undo the frame. -/
theorem signed_finish (k : Nat) (l : Label) (hi lo : Reg) (hlo : lo ≠ .r0) (hk : k + 22 ≤ 65536)
    (hb1 : blockAt text k 1 = some [.bl .udiv32])
    (hb2 : blockAt text (k + 4) 4 = some [.mov (.reg hi) (.reg .r0), .mov (.reg lo) (.reg .r1),
      .mov (.reg .r9) (.reg .r9), .jump .eq l])
    (hb3 : blockAt text (k + 12) 1 = some [.bl .neg3201])
    (hb4 : blockAt text (k + 16) 2 =
      some [.mov (.inc .r10) (.reg .r9), .mov (.inc .r10) (.reg .r11)])
    (hb5 : fetch text (k + 20) = some (.b .r11)) (hl : entry l = BitVec.ofNat 16 (k + 16))
    {s t : State} (hst : Reaches ord (program base) s t) (h : t.pc = BitVec.ofNat 16 k)
    (hf : SignedFrame s t) (heven : (s.regs .r10).toNat % 2 = 0)
    (hroom : 8 ≤ (s.regs .r10).toNat) :
    ∃ w u : State,
      (w.pair .r4 .r5, w.pair .r6 .r7) = udiv32Value ord (t.pair .r0 .r1) (t.pair .r2 .r3) ∧
      Called ord (program base) 8 s u
        (if t.regs .r9 = 0#16 then w.pair hi lo else neg32 (w.pair hi lo)) := by
  obtain ⟨t1, b1, e1⟩ := exists_block ord (program base) 1 h hb1 rfl (by simp [blockSize]; omega)
  have h1 : t1.pc = entry .udiv32 := by simp [e1]
  have h10 : t1.regs .r10 = s.regs .r10 - 2#16 - 2#16 := by simp [e1, hf.r10]
  obtain ⟨t2, b2, hpc2, hd⟩ := reaches_udiv32 ord base h1 (by rw [h10]; bv_omega)
    (by rw [h10]; bv_omega)
  have h2 : t2.pc = BitVec.ofNat 16 (k + 4) := by
    rw [hpc2]
    simp [e1, h, BitVec.ofNat_add]
  have hf2 : SignedFrame s t2 := by
    refine hf.step heven hroom ?_ ?_
    · refine SameRegs.trans ?_ (hd.kept.mono (by decide))
      simp [SameRegs, e1]
    · intro a ha
      have hm : t1.mem = t.mem := by simp [e1]
      rw [hd.mem a (by rw [h10, ← hf.r10]; exact ha), hm]
  have h9 : t2.regs .r9 = t.regs .r9 := by
    rw [hd.kept .r9 (by decide)]
    simp [e1]
  have hval : (t2.pair .r4 .r5, t2.pair .r6 .r7) =
      udiv32Value ord (t.pair .r0 .r1) (t.pair .r2 .r3) := by
    have hn : t1.pair .r0 .r1 = t.pair .r0 .r1 := by simp [State.pair, e1]
    have hdv : t1.pair .r2 .r3 = t.pair .r2 .r3 := by simp [State.pair, e1]
    rw [hd.value, hn, hdv]
  obtain ⟨t3, b3, e3⟩ := exists_block ord (program base) 4 h2 hb2 rfl (by simp [blockSize]; omega)
  by_cases hz : t.regs .r9 = 0#16
  · have h3 : t3.pc = BitVec.ofNat 16 (k + 16) := by simp [e3, h9, hz, hl]
    have hf3 : SignedFrame s t3 := by
      refine hf2.step heven hroom ?_ ?_
      · simp [SameRegs, e3, h9, hz]
      · intro a _
        simp [e3, h9, hz]
    have hp : t3.pair .r0 .r1 = t2.pair hi lo := by simp [State.pair, e3, h9, hz, hlo]
    obtain ⟨u, hu⟩ := signed_epilogue ord base (k + 16) (by omega) hb4 hb5
      (hst.trans (b1.trans (b2.trans b3))) h3 hf3
    rw [hp] at hu
    exact ⟨t2, u, hval, by rw [if_pos hz]; exact hu⟩
  · have h3 : t3.pc = BitVec.ofNat 16 (k + 12) := by
      simp [e3, h2, h9, hz, BitVec.ofNat_add, BitVec.add_assoc]
    have hf3 : SignedFrame s t3 := by
      refine hf2.step heven hroom ?_ ?_
      · simp [SameRegs, e3, h9, hz]
      · intro a _
        simp [e3, h9, hz]
    have hp : t3.pair .r0 .r1 = t2.pair hi lo := by simp [State.pair, e3, h9, hz, hlo]
    obtain ⟨t4, b4, e4⟩ := exists_block ord (program base) 1 h3 hb3 rfl
      (by simp [blockSize]; omega)
    have h4 : t4.pc = entry .neg3201 := by simp [e4]
    obtain ⟨t5, b5, hpc5, hmem5, hkept5, hval5⟩ := reaches_neg3201 ord base h4
    have h5 : t5.pc = BitVec.ofNat 16 (k + 16) := by
      rw [hpc5]
      simp [e4, h3, BitVec.ofNat_add, BitVec.add_assoc]
    have hf5 : SignedFrame s t5 := by
      refine hf3.step heven hroom ?_ ?_
      · refine SameRegs.trans ?_ (hkept5.mono (by decide))
        simp [SameRegs, e4]
      · intro a _
        rw [hmem5]
        simp [e4]
    have hp5 : t5.pair .r0 .r1 = neg32 (t2.pair hi lo) := by
      have hp4 : t4.pair .r0 .r1 = t3.pair .r0 .r1 := by simp [State.pair, e4]
      rw [hval5, hp4, hp]
    obtain ⟨u, hu⟩ := signed_epilogue ord base (k + 16) (by omega) hb4 hb5
      (hst.trans (b1.trans (b2.trans (b3.trans (b4.trans b5))))) h5 hf5
    rw [hp5] at hu
    exact ⟨t2, u, hval, by rw [if_neg hz]; exact hu⟩

/-- What `__divsi3` returns: the quotient of the magnitudes, negated when
exactly one operand is negative. -/
def divsi3Value (ord : CompareOrder) (n d : Nat) : Nat :=
  let q := (udiv32Value ord (abs32 n) (abs32 d)).1
  if isNeg n = isNeg d then q else neg32 q

/-- What `__modsi3` returns: the remainder of the magnitudes with the sign of
the dividend. -/
def modsi3Value (ord : CompareOrder) (n d : Nat) : Nat :=
  let r := (udiv32Value ord (abs32 n) (abs32 d)).2
  if isNeg n then neg32 r else r

/-- `div32.S:54-88`. -/
theorem divsi3_called {s : State} (h : s.pc = entry .divsi3)
    (heven : (s.regs .r10).toNat % 2 = 0) (hroom : 8 ≤ (s.regs .r10).toNat) :
    ∃ u, Called ord (program base) 8 s u (divsi3Value ord (s.pair .r0 .r1) (s.pair .r2 .r3)) := by
  obtain ⟨t1, b1, h1, hf1, h91, hn1, hd1⟩ := signed_dividend ord base 32 .divD1 (.inv (.reg .r9))
    (by decide) (.inl rfl) rfl rfl rfl rfl h heven hroom
  obtain ⟨t2, b2, h2, hmem2, hkept2, h92, hd2⟩ := signed_divisor ord base 54 .divD2
    [.inv (.reg .r9)] (by decide) (.inl rfl) rfl rfl rfl rfl h1
  have hf2 : SignedFrame s t2 :=
    hf1.step heven hroom (hkept2.mono (by decide)) (fun a _ => by rw [hmem2])
  obtain ⟨w, u, hw, hu⟩ := signed_finish ord base 66 .divD3 .r4 .r5 (by decide) (by decide) rfl rfl
    rfl rfl rfl rfl (b1.trans b2) h2 hf2 heven hroom
  refine ⟨u, ?_⟩
  have hn2 : t2.pair .r0 .r1 = abs32 (s.pair .r0 .r1) := by
    rw [SameRegs.pair_eq hkept2 (by decide) (by decide), hn1]
  rw [hd1] at hd2 h92
  rw [hn2, hd2] at hw
  have hq : w.pair .r4 .r5 =
      (udiv32Value ord (abs32 (s.pair .r0 .r1)) (abs32 (s.pair .r2 .r3))).1 := by rw [← hw]
  have h9 : t2.regs .r9 = 0#16 ↔ isNeg (s.pair .r0 .r1) = isNeg (s.pair .r2 .r3) := by
    rw [h92, h91]
    cases isNeg (s.pair .r0 .r1) <;> cases isNeg (s.pair .r2 .r3) <;> decide
  simp only [h9, hq] at hu
  exact hu

/-- `div32.S:95-128`. -/
theorem modsi3_called {s : State} (h : s.pc = entry .modsi3)
    (heven : (s.regs .r10).toNat % 2 = 0) (hroom : 8 ≤ (s.regs .r10).toNat) :
    ∃ u, Called ord (program base) 8 s u (modsi3Value ord (s.pair .r0 .r1) (s.pair .r2 .r3)) := by
  obtain ⟨t1, b1, h1, hf1, h91, hn1, hd1⟩ := signed_dividend ord base 88 .modD1 (.seto (.reg .r9))
    (by decide) (.inr rfl) rfl rfl rfl rfl h heven hroom
  obtain ⟨t2, b2, h2, hmem2, hkept2, h92, hd2⟩ := signed_divisor ord base 110 .modD2 []
    (by decide) (.inr rfl) rfl rfl rfl rfl h1
  have hf2 : SignedFrame s t2 :=
    hf1.step heven hroom (hkept2.mono (by decide)) (fun a _ => by rw [hmem2])
  obtain ⟨w, u, hw, hu⟩ := signed_finish ord base 120 .modD3 .r6 .r7 (by decide) (by decide) rfl rfl
    rfl rfl rfl rfl (b1.trans b2) h2 hf2 heven hroom
  refine ⟨u, ?_⟩
  have hn2 : t2.pair .r0 .r1 = abs32 (s.pair .r0 .r1) := by
    rw [SameRegs.pair_eq hkept2 (by decide) (by decide), hn1]
  rw [hd1] at hd2 h92
  rw [hn2, hd2] at hw
  have hr : w.pair .r6 .r7 =
      (udiv32Value ord (abs32 (s.pair .r0 .r1)) (abs32 (s.pair .r2 .r3))).2 := by rw [← hw]
  have h9 : t2.regs .r9 = 0#16 ↔ ¬ isNeg (s.pair .r0 .r1) = true := by
    rw [h92, h91]
    cases isNeg (s.pair .r0 .r1) <;> cases isNeg (s.pair .r2 .r3) <;> decide
  simp only [h9, hr, ite_not] at hu
  exact hu

end LlvmTms9900.Builtins.Div32
