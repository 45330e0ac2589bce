import LlvmTms9900.Builtins.Div32Signed
import LlvmTms9900.Runtime.DivisionLoop

/-!
# The four legacy division routines

The unsigned routines save the link in a scratch word, run the loop and come
back; the signed ones also keep the sign of their result in a scratch word and
call the unsigned ones on the magnitudes.
-/

set_option maxRecDepth 16384

namespace LlvmTms9900.Runtime
open LlvmTms9900.Isa
open LlvmTms9900.Builtins.Div32 (isNeg abs32 neg32 neg_words isNeg_pair slt_zero_iff)

variable (base : Word)

/-- Quotient and remainder that the unsigned routines return. -/
def legacyValue (n d : Nat) : Division := (legacyRound d)^[32] ⟨n, 0, 0⟩

theorem soc_ne_zero {s : State} (hd : s.pair .r2 .r3 ≠ 0) :
    s.regs .r2 ||| s.regs .r3 ≠ 0#16 := by
  intro h
  rw [BitVec.or_eq_zero_iff] at h
  refine hd ?_
  rw [State.pair, h.1, h.2]
  rfl

/-- Memory after a prologue that saves `R11` and `R13`..`R15`. -/
def saveAll (l11 l13 l14 l15 : Label) (s : State) : Memory :=
  writeWord (writeWord (writeWord (writeWord s.mem (base + entry l11) (s.regs .r11))
    (base + entry l13) (s.regs .r13)) (base + entry l14) (s.regs .r14)) (base + entry l15)
    (s.regs .r15)

/-- `tms9900_rt.asm:81-107`, with a divisor that is not zero. -/
theorem reaches_udiv_loop {s : State} (hpc : s.pc = entry .udivsi3) (hd : s.pair .r2 .r3 ≠ 0) :
    ∃ t, Reaches .manual (program base) s t ∧ t.pc = 128#16 ∧ t.regs .r13 = 32#16 ∧
      UdivHolds t ⟨s.pair .r0 .r1, 0, 0⟩ ∧ t.pair .r2 .r3 = s.pair .r2 .r3 ∧
      saved base t .dsav11 = s.regs .r11 ∧
      ∀ l ∈ [Label.sdSign, .sdsav11], saved base t l = saved base s l := by
  have hsoc := soc_ne_zero hd
  have hb1 := (textFrom_udiv base).blockAt (k := 0) (n := 7) rfl
  have hb2 := (textFrom_udiv base).blockAt (k := 28) (n := 5) rfl
  obtain ⟨t, b1, e1⟩ := exists_block .manual (program base) 7 hpc hb1 rfl (by simp [blockSize])
  have hpc1 : t.pc = 116#16 := by simp [e1, hsoc, entry]
  obtain ⟨u, b2, e2⟩ := exists_block .manual (program base) 5 hpc1 hb2 rfl (by simp [blockSize])
  have hmem : u.mem = saveAll base .dsav11 .dsav13 .dsav14 .dsav15 s := by
    simp [saveAll, e2, e1, hsoc]
  refine ⟨u, b1.trans b2, ?_, ?_, ⟨?_, ?_, ?_⟩, ?_, ?_, ?_⟩
  · simp [e2, hpc1]
  · simp [e2]
  · simp [e2, e1, hsoc, State.pair]
  · simp [e2, State.pair]
  · simp [e2, State.pair]
  · simp [e2, e1, hsoc, State.pair]
  · simp (disch := decide) only [saved, hmem, saveAll, readWord_writeWord_self,
      readWord_writeWord_offset]
  · intro l hl
    simp only [List.mem_cons, List.not_mem_nil, or_false] at hl
    rcases hl with rfl | rfl <;>
      simp (disch := decide) only [saved, hmem, saveAll, readWord_writeWord_offset]

/-- `tms9900_rt.asm:260-281`, with a divisor that is not zero. -/
theorem reaches_umod_loop {s : State} (hpc : s.pc = entry .umodsi3) (hd : s.pair .r2 .r3 ≠ 0) :
    ∃ t, Reaches .manual (program base) s t ∧ t.pc = 346#16 ∧ t.regs .r13 = 32#16 ∧
      UmodHolds t ⟨s.pair .r0 .r1, 0, 0⟩ ∧ t.pair .r2 .r3 = s.pair .r2 .r3 ∧
      saved base t .umsav11 = s.regs .r11 ∧
      ∀ l ∈ [Label.smSign, .smsav11], saved base t l = saved base s l := by
  have hsoc := soc_ne_zero hd
  have hb1 := (textFrom_umod base).blockAt (k := 0) (n := 7) rfl
  have hb2 := (textFrom_umod base).blockAt (k := 24) (n := 3) rfl
  obtain ⟨t, b1, e1⟩ := exists_block .manual (program base) 7 hpc hb1 rfl (by simp [blockSize])
  have hpc1 : t.pc = 338#16 := by simp [e1, hsoc, entry]
  obtain ⟨u, b2, e2⟩ := exists_block .manual (program base) 3 hpc1 hb2 rfl (by simp [blockSize])
  have hmem : u.mem = saveAll base .umsav11 .umsav13 .umsav14 .umsav15 s := by
    simp [saveAll, e2, e1, hsoc]
  refine ⟨u, b1.trans b2, ?_, ?_, ⟨?_, ?_⟩, ?_, ?_, ?_⟩
  · simp [e2, hpc1]
  · simp [e2]
  · simp [e2, e1, hsoc, State.pair]
  · simp [e2, State.pair]
  · simp [e2, e1, hsoc, State.pair]
  · simp (disch := decide) only [saved, hmem, saveAll, readWord_writeWord_self,
      readWord_writeWord_offset]
  · intro l hl
    simp only [List.mem_cons, List.not_mem_nil, or_false] at hl
    rcases hl with rfl | rfl <;>
      simp (disch := decide) only [saved, hmem, saveAll, readWord_writeWord_offset]

/-- What an unsigned routine does, as its callers see it: `kept` are the
scratch words it leaves alone. -/
structure Divided (kept : List Label) (value : Nat) (s t : State) : Prop where
  reaches : Reaches .manual (program base) s t
  pc : t.pc = s.regs .r11 - base
  value : t.pair .r0 .r1 = value
  scratch : ∀ l ∈ kept, saved base t l = saved base s l

/-- `tms9900_rt.asm:81-183`. -/
theorem udivsi3_divided {s : State} (hpc : s.pc = entry .udivsi3) (hd : s.pair .r2 .r3 ≠ 0) :
    ∃ t, Divided base [.sdSign, .sdsav11] (legacyValue (s.pair .r0 .r1) (s.pair .r2 .r3)).quo
      s t := by
  obtain ⟨t, b1, hpc1, h13, hx, hdt, hlink, hkept⟩ := reaches_udiv_loop base hpc hd
  obtain ⟨u, m2, -, hq, -⟩ := (udivLoop base).reaches_rounds 31 hpc1 (by rw [h13]; rfl) hx
  have hb3 := (textFrom_udiv base).blockAt (k := 114) (n := 7) rfl
  obtain ⟨v, b3, e3⟩ := exists_block .manual (program base) 7 m2.pc hb3 rfl (by simp [blockSize])
  refine ⟨v, b1.trans (m2.reaches.trans b3), ?_, ?_, ?_⟩
  · rw [← hlink]
    simp [e3, saved, m2.mem]
  · rw [legacyValue, ← hdt, ← hq]
    simp [State.pair, e3]
  · intro l hl
    rw [← hkept l hl]
    simp [e3, saved, m2.mem]

/-- `tms9900_rt.asm:260-342`. -/
theorem umodsi3_divided {s : State} (hpc : s.pc = entry .umodsi3) (hd : s.pair .r2 .r3 ≠ 0) :
    ∃ t, Divided base [.smSign, .smsav11] (legacyValue (s.pair .r0 .r1) (s.pair .r2 .r3)).rem
      s t := by
  obtain ⟨t, b1, hpc1, h13, hx, hdt, hlink, hkept⟩ := reaches_umod_loop base hpc hd
  obtain ⟨u, m2, -, hr⟩ := (umodLoop base).reaches_rounds 31 hpc1 (by rw [h13]; rfl) hx
  have hb3 := (textFrom_umod base).blockAt (k := 92) (n := 7) rfl
  obtain ⟨v, b3, e3⟩ := exists_block .manual (program base) 7 m2.pc hb3 rfl (by simp [blockSize])
  refine ⟨v, b1.trans (m2.reaches.trans b3), ?_, ?_, ?_⟩
  · rw [← hlink]
    simp [e3, saved, m2.mem]
  · rw [legacyValue, ← hdt, ← hr]
    simp [State.pair, e3]
  · intro l hl
    rw [← hkept l hl]
    simp [e3, saved, m2.mem]

section Sign
variable {L : Type} [DecidableEq L] {p : Program L}

/-- `INV hi`, `INV lo`, `INC lo`, `JNC`, `INC hi`. -/
theorem piece_negate (hi lo : Reg) (hne : hi ≠ lo) {k : Nat} {l : L} (hk : k + 10 ≤ 65536)
    (hb1 : blockAt p.text k 4 =
      some [.inv (.reg hi), .inv (.reg lo), .inc (.reg lo), .jump .nc l])
    (hb2 : blockAt p.text (k + 8) 1 = some [.inc (.reg hi)])
    (hl : p.target l = BitVec.ofNat 16 (k + 10)) {s : State} (hpc : s.pc = BitVec.ofNat 16 k) :
    ∃ t, Moves p (k + 10) [hi, lo] s t ∧ t.pair hi lo = neg32 (s.pair hi lo) := by
  have hw := neg_words (s.regs hi) (s.regs lo)
  obtain ⟨t, b1, e1⟩ := exists_block .manual p 4 hpc hb1 rfl (by simp [blockSize]; omega)
  by_cases hz : s.regs lo = 0#16
  · have hpc1 : t.pc = BitVec.ofNat 16 (k + 8) := by
      simp [e1, hpc, hz, hne.symm, BitVec.ofNat_add, BitVec.add_assoc]
    obtain ⟨u, b2, e2⟩ := exists_block .manual p 1 hpc1 hb2 rfl (by simp [blockSize]; omega)
    refine ⟨u, ⟨b1.trans b2, ?_, ?_, ?_⟩, ?_⟩
    · simp [e2, hpc1, BitVec.ofNat_add, BitVec.add_assoc]
    · simp [e2, e1, hz, hne, hne.symm]
    · intro r hr
      simp only [List.mem_cons, List.not_mem_nil, or_false, not_or] at hr
      simp [e2, e1, hz, hne, hne.symm, hr]
    · simpa [State.pair, e2, e1, hz, hne, hne.symm] using hw
  · have hc : ¬ 65535 ≤ 65535 - (s.regs lo).toNat := by bv_omega
    refine ⟨t, ⟨b1, ?_, ?_, ?_⟩, ?_⟩
    · simp [e1, hc, hne.symm, hl]
    · simp [e1, hc, hne.symm]
    · intro r hr
      simp only [List.mem_cons, List.not_mem_nil, or_false, not_or] at hr
      simp [e1, hc, hne.symm, hr]
    · simpa [State.pair, e1, hc, hz, hne, hne.symm] using hw

/-- `MOV hi,hi`, `JGT`, `JEQ`, and the negation of a negative value. -/
theorem piece_abs (hi lo : Reg) (hne : hi ≠ lo) {k : Nat} {pos l : L} (hk : k + 16 ≤ 65536)
    (hb1 : blockAt p.text k 2 = some [.mov (.reg hi) (.reg hi), .jump .gt pos])
    (hb2 : blockAt p.text (k + 4) 1 = some [.jump .eq pos])
    (hb3 : blockAt p.text (k + 6) 4 =
      some [.inv (.reg hi), .inv (.reg lo), .inc (.reg lo), .jump .nc l])
    (hb4 : blockAt p.text (k + 14) 1 = some [.inc (.reg hi)])
    (hl : p.target l = BitVec.ofNat 16 (k + 16)) {s : State} (hpc : s.pc = BitVec.ofNat 16 k) :
    ∃ t, Reaches .manual p s t ∧ t.mem = s.mem ∧
      (∀ r, r ∉ [hi, lo] → t.regs r = s.regs r) ∧ t.pair hi lo = abs32 (s.pair hi lo) ∧
      t.pc = if isNeg (s.pair hi lo) then BitVec.ofNat 16 (k + 16) else p.target pos := by
  have hslt := slt_zero_iff (s.regs hi)
  have hlt := (s.regs hi).isLt
  obtain ⟨t, b1, e1⟩ := exists_block .manual p 2 hpc hb1 rfl (by simp [blockSize]; omega)
  by_cases hs : (0#16).slt (s.regs hi) = true
  · have hn : isNeg (s.pair hi lo) = false := by
      rw [hslt] at hs
      rw [isNeg_pair, decide_eq_false_iff_not]
      omega
    rw [abs32, hn, if_neg Bool.false_ne_true, if_neg Bool.false_ne_true]
    refine ⟨t, b1, by simp [e1, hs], ?_, ?_, by simp [e1, hs]⟩
    · intro r hr
      simp only [List.mem_cons, List.not_mem_nil, or_false, not_or] at hr
      simp [e1, hs, hr]
    · simp [State.pair, e1, hs, hne.symm]
  · have hpc1 : t.pc = BitVec.ofNat 16 (k + 4) := by
      simp [e1, hs, hpc, BitVec.ofNat_add, BitVec.add_assoc]
    have hr1 : t.regs = s.regs := by
      funext r
      by_cases hr : r = hi <;> simp [e1, hs, hr]
    have hm1 : t.mem = s.mem := by simp [e1, hs]
    have hp1 : t.pair hi lo = s.pair hi lo := by rw [State.pair, State.pair, hr1]
    obtain ⟨u, b2, e2⟩ := exists_block .manual p 1 hpc1 hb2 rfl (by simp [blockSize]; omega)
    by_cases hz : s.regs hi = 0#16
    · have hq1 : t.st.eq = true := by simp [e1, hz]
      have hn : isNeg (s.pair hi lo) = false := by simp [isNeg_pair, hz]
      rw [abs32, hn, if_neg Bool.false_ne_true, if_neg Bool.false_ne_true]
      exact ⟨u, b1.trans b2, by simp [e2, hq1, hm1], by simp [e2, hq1, hr1],
        by simpa [State.pair, e2, hq1, hz] using hp1, by simp [e2, hq1]⟩
    · have hq1 : t.st.eq = false := by simp [e1, hs, hz]
      have hn : isNeg (s.pair hi lo) = true := by
        rw [hslt] at hs
        rw [isNeg_pair, decide_eq_true_eq]
        bv_omega
      have hpc2 : u.pc = BitVec.ofNat 16 (k + 6) := by
        simp [e2, hq1, hpc1, BitVec.ofNat_add, BitVec.add_assoc]
      have hr2 : u.regs = s.regs := by simp [e2, hq1, hr1]
      obtain ⟨v, m3, hv⟩ := piece_negate hi lo hne (k := k + 6) (by omega) hb3 hb4 hl hpc2
      rw [abs32, hn, if_pos rfl, if_pos rfl]
      refine ⟨v, b1.trans (b2.trans m3.reaches), ?_, ?_, ?_, m3.pc⟩
      · rw [m3.mem]
        simp [e2, hq1, hm1]
      · intro r hr
        rw [m3.regs r hr, hr2]
      · rw [hv, State.pair, State.pair, hr2]

end Sign

end LlvmTms9900.Runtime
