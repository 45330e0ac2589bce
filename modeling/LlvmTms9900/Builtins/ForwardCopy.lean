import LlvmTms9900.Builtins.ByteCopy
import LlvmTms9900.Isa.Run

/-!
# The ascending copy of memcpy.S and memmove.S

Both files contain the same twenty instructions: a parity test, a leading odd
byte, a word loop, a trailing odd byte, and a byte loop for buffers of
different parity. Wherever they stand, they leave the memory of `copyUp`.
-/

namespace LlvmTms9900.Builtins
open LlvmTms9900.Isa

variable {L : Type} [DecidableEq L]

/-- The ascending copy stands at offset `k`. -/
structure ForwardText (p : Program L) (k : Nat) (words wordLoop tail done byteCopy : L) : Prop where
  room : k + 56 ≤ 65536
  parity : blockAt p.text k 4 =
    some [.mov (.reg .r3) (.reg .r0), .xor (.reg .r1) .r0, .andi .r0 1#16, .jump .ne byteCopy]
  head : blockAt p.text (k + 10) 3 =
    some [.mov (.reg .r3) (.reg .r0), .andi .r0 1#16, .jump .eq words]
  headByte : blockAt p.text (k + 18) 3 =
    some [.movb (.inc .r1) (.inc .r3), .dec (.reg .r2), .jump .eq done]
  count : blockAt p.text (k + 24) 3 =
    some [.mov (.reg .r2) (.reg .r0), .srl .r0 1, .jump .eq tail]
  wordMove : blockAt p.text (k + 30) 3 =
    some [.mov (.inc .r1) (.inc .r3), .dec (.reg .r0), .jump .ne wordLoop]
  tailTest : blockAt p.text (k + 36) 2 = some [.andi .r2 1#16, .jump .eq done]
  tailByte : blockAt p.text (k + 42) 1 = some [.movb (.ind .r1) (.ind .r3)]
  byteMove : blockAt p.text (k + 48) 3 =
    some [.movb (.inc .r1) (.inc .r3), .dec (.reg .r2), .jump .ne byteCopy]
  byteExit : blockAt p.text (k + 54) 1 = some [.jump .always done]
  atWords : p.target words = BitVec.ofNat 16 (k + 24)
  atWordLoop : p.target wordLoop = BitVec.ofNat 16 (k + 30)
  atTail : p.target tail = BitVec.ofNat 16 (k + 36)
  atDone : p.target done = BitVec.ofNat 16 (k + 44)
  atByteCopy : p.target byteCopy = BitVec.ofNat 16 (k + 48)

/-- Registers no copy loop touches. -/
def copyKept : List Reg :=
  [.r4, .r5, .r6, .r7, .r8, .r9, .r10, .r11, .r12, .r13, .r14, .r15]

/-- The copy from `s` is over: control is at `j` and memory is `m`. -/
structure CopiedTo (ord : CompareOrder) (p : Program L) (j : Nat) (s t : State) (m : Memory) :
    Prop where
  reaches : Reaches ord p s t
  pc : t.pc = BitVec.ofNat 16 j
  kept : SameRegs copyKept s t
  mem : t.mem = m

theorem CopiedTo.of_reaches {ord : CompareOrder} {p : Program L} {j : Nat} {s t u : State}
    {m : Memory} (b : Reaches ord p s t) (hk : SameRegs copyKept s t)
    (h : CopiedTo ord p j t u m) : CopiedTo ord p j s u m :=
  ⟨b.trans h.reaches, h.pc, hk.trans h.kept, h.mem⟩

theorem xor_and_one_eq_zero (x y : Word) :
    (x ^^^ y) &&& 1#16 = 0#16 ↔ x.toNat % 2 = y.toNat % 2 := by
  rw [and_one_eq_zero, BitVec.toNat_xor, ← Nat.and_one_is_mod, Nat.and_xor_distrib_right,
    Nat.xor_eq_zero_iff, Nat.and_one_is_mod, Nat.and_one_is_mod]

section Forward
variable {p : Program L} {k : Nat} {words wordLoop tail done byteCopy : L}
variable (ord : CompareOrder) (T : ForwardText p k words wordLoop tail done byteCopy)
include T

theorem ForwardText.reaches_byteCopy (n : Nat) {s : State}
    (h : s.pc = BitVec.ofNat 16 (k + 48)) (hn : (s.regs .r2).toNat = n + 1) :
    ∃ t, CopiedTo ord p (k + 44) s t (copyUp (s.regs .r3) (s.regs .r1) (n + 1) s.mem) := by
  have hroom := T.room
  induction n generalizing s with
  | zero =>
    have hz : s.regs .r2 - 1#16 = 0#16 := by bv_omega
    obtain ⟨t, b1, e1⟩ := exists_block ord p 3 h T.byteMove rfl (by simp [blockSize]; omega)
    have hpc1 : t.pc = BitVec.ofNat 16 (k + 54) := by
      simp [e1, h, hz, BitVec.ofNat_add, BitVec.add_assoc]
    obtain ⟨u, b2, e2⟩ := exists_block ord p 1 hpc1 T.byteExit rfl (by simp [blockSize]; omega)
    refine ⟨u, b1.trans b2, by simp [e2, T.atDone], ?_, by simp [e2, e1, hz, copyUp]⟩
    simp [SameRegs, copyKept, e2, e1, hz]
  | succ n ih =>
    have hz : s.regs .r2 - 1#16 ≠ 0#16 := by bv_omega
    obtain ⟨t, b1, e1⟩ := exists_block ord p 3 h T.byteMove rfl (by simp [blockSize]; omega)
    have hpc1 : t.pc = BitVec.ofNat 16 (k + 48) := by simp [e1, hz, T.atByteCopy]
    have hn1 : (t.regs .r2).toNat = n + 1 := by
      have : t.regs .r2 = s.regs .r2 - 1#16 := by simp [e1, hz]
      bv_omega
    obtain ⟨u, hu⟩ := ih hpc1 hn1
    have hsame : SameRegs copyKept s t := by simp [SameRegs, copyKept, e1, hz]
    refine ⟨u, ?_⟩
    have hcopy := CopiedTo.of_reaches b1 hsame hu
    rw [copyUp]
    simpa [e1, hz] using hcopy

theorem ForwardText.reaches_tail {s : State} (h : s.pc = BitVec.ofNat 16 (k + 36)) :
    ∃ t, CopiedTo ord p (k + 44) s t
      (copyUp (s.regs .r3) (s.regs .r1) ((s.regs .r2).toNat % 2) s.mem) := by
  have hroom := T.room
  obtain ⟨t, b1, e1⟩ := exists_block ord p 2 h T.tailTest rfl (by simp [blockSize]; omega)
  by_cases hz : s.regs .r2 &&& 1#16 = 0#16
  · refine ⟨t, b1, by simp [e1, hz, T.atDone], by simp [SameRegs, copyKept, e1, hz], ?_⟩
    rw [(and_one_eq_zero _).1 hz, copyUp]
    simp [e1, hz]
  · have hodd : (s.regs .r2).toNat % 2 = 1 := by
      rw [and_one_eq_zero] at hz
      omega
    have hpc1 : t.pc = BitVec.ofNat 16 (k + 42) := by
      simp [e1, h, hz, BitVec.ofNat_add, BitVec.add_assoc]
    obtain ⟨u, b2, e2⟩ := exists_block ord p 1 hpc1 T.tailByte rfl (by simp [blockSize]; omega)
    refine ⟨u, b1.trans b2, by simp [e2, hpc1, BitVec.ofNat_add, BitVec.add_assoc], ?_, ?_⟩
    · simp [SameRegs, copyKept, e2, e1, hz]
    · rw [hodd, copyUp, copyUp]
      simp [e2, e1, hz]

/-- The word loop, then the tail. The tail reads only the parity of the byte
count, which the words do not change. -/
theorem ForwardText.reaches_wordLoop (n : Nat) {s : State}
    (h : s.pc = BitVec.ofNat 16 (k + 30)) (hn : (s.regs .r0).toNat = n + 1)
    (hd : (s.regs .r3).toNat % 2 = 0) (hs : (s.regs .r1).toNat % 2 = 0) :
    ∃ t, CopiedTo ord p (k + 44) s t
      (copyUp (s.regs .r3) (s.regs .r1) ((s.regs .r2).toNat % 2 + 2 * (n + 1)) s.mem) := by
  have hroom := T.room
  induction n generalizing s with
  | zero =>
    have hz : s.regs .r0 - 1#16 = 0#16 := by bv_omega
    obtain ⟨t, b1, e1⟩ := exists_block ord p 3 h T.wordMove rfl (by simp [blockSize]; omega)
    have hpc1 : t.pc = BitVec.ofNat 16 (k + 36) := by
      simp [e1, h, hz, BitVec.ofNat_add, BitVec.add_assoc]
    obtain ⟨u, hu⟩ := T.reaches_tail ord hpc1
    have hsame : SameRegs copyKept s t := by simp [SameRegs, copyKept, e1, hz]
    refine ⟨u, ?_⟩
    have hcopy := CopiedTo.of_reaches b1 hsame hu
    rw [copyUp_word hd hs]
    simpa [e1, hz] using hcopy
  | succ n ih =>
    have hz : s.regs .r0 - 1#16 ≠ 0#16 := by bv_omega
    obtain ⟨t, b1, e1⟩ := exists_block ord p 3 h T.wordMove rfl (by simp [blockSize]; omega)
    have hpc1 : t.pc = BitVec.ofNat 16 (k + 30) := by simp [e1, hz, T.atWordLoop]
    have hn1 : (t.regs .r0).toNat = n + 1 := by
      have : t.regs .r0 = s.regs .r0 - 1#16 := by simp [e1, hz]
      bv_omega
    have hd1 : (t.regs .r3).toNat % 2 = 0 := by
      have : t.regs .r3 = s.regs .r3 + 2#16 := by simp [e1, hz]
      bv_omega
    have hs1 : (t.regs .r1).toNat % 2 = 0 := by
      have : t.regs .r1 = s.regs .r1 + 2#16 := by simp [e1, hz]
      bv_omega
    obtain ⟨u, hu⟩ := ih hpc1 hn1 hd1 hs1
    have hsame : SameRegs copyKept s t := by simp [SameRegs, copyKept, e1, hz]
    refine ⟨u, ?_⟩
    have hcopy := CopiedTo.of_reaches b1 hsame hu
    rw [show (s.regs .r2).toNat % 2 + 2 * (n + 1 + 1) = (s.regs .r2).toNat % 2 + 2 * (n + 1) + 2 by
      omega, copyUp_word hd hs]
    simpa [e1, hz] using hcopy

theorem ForwardText.reaches_words {s : State} (h : s.pc = BitVec.ofNat 16 (k + 24))
    (hd : (s.regs .r3).toNat % 2 = 0) (hs : (s.regs .r1).toNat % 2 = 0) :
    ∃ t, CopiedTo ord p (k + 44) s t
      (copyUp (s.regs .r3) (s.regs .r1) (s.regs .r2).toNat s.mem) := by
  have hroom := T.room
  obtain ⟨t, b1, e1⟩ := exists_block ord p 3 h T.count rfl (by simp [blockSize]; omega)
  have hhalf := ushiftRight_one_toNat (s.regs .r2)
  by_cases hz : s.regs .r2 >>> 1 = 0#16
  · have hpc1 : t.pc = BitVec.ofNat 16 (k + 36) := by simp [e1, hz, T.atTail]
    obtain ⟨u, hu⟩ := T.reaches_tail ord hpc1
    have hlen : (s.regs .r2).toNat % 2 = (s.regs .r2).toNat := by
      rw [hz] at hhalf
      simp only [BitVec.toNat_ofNat] at hhalf
      omega
    have hsame : SameRegs copyKept s t := by simp [SameRegs, copyKept, e1, hz]
    refine ⟨u, ?_⟩
    have hcopy := CopiedTo.of_reaches b1 hsame hu
    rw [← hlen]
    simpa [e1, hz] using hcopy
  · have hpos : (s.regs .r2 >>> 1).toNat ≠ 0 := fun he => hz (by bv_omega)
    have hpc1 : t.pc = BitVec.ofNat 16 (k + 30) := by
      simp [e1, h, hz, BitVec.ofNat_add, BitVec.add_assoc]
    have hr0 : t.regs .r0 = s.regs .r2 >>> 1 := by simp [e1, hz]
    have hr1 : t.regs .r1 = s.regs .r1 := by simp [e1, hz]
    have hr2 : t.regs .r2 = s.regs .r2 := by simp [e1, hz]
    have hr3 : t.regs .r3 = s.regs .r3 := by simp [e1, hz]
    have hm : t.mem = s.mem := by simp [e1, hz]
    obtain ⟨u, hu⟩ := T.reaches_wordLoop ord ((s.regs .r2).toNat / 2 - 1) hpc1
      (by rw [hr0]; omega) (by rw [hr3]; exact hd) (by rw [hr1]; exact hs)
    have hsame : SameRegs copyKept s t := by simp [SameRegs, copyKept, e1, hz]
    have hlen : (s.regs .r2).toNat % 2 + 2 * ((s.regs .r2).toNat / 2 - 1 + 1) =
        (s.regs .r2).toNat := by omega
    rw [hr1, hr2, hr3, hm, hlen] at hu
    exact ⟨u, CopiedTo.of_reaches b1 hsame hu⟩

theorem ForwardText.reaches_head {s : State} (h : s.pc = BitVec.ofNat 16 (k + 10))
    (hpar : (s.regs .r3).toNat % 2 = (s.regs .r1).toNat % 2) {n : Nat}
    (hn : (s.regs .r2).toNat = n + 1) :
    ∃ t, CopiedTo ord p (k + 44) s t (copyUp (s.regs .r3) (s.regs .r1) (n + 1) s.mem) := by
  have hroom := T.room
  obtain ⟨t, b1, e1⟩ := exists_block ord p 3 h T.head rfl (by simp [blockSize]; omega)
  by_cases hev : s.regs .r3 &&& 1#16 = 0#16
  · have hd := (and_one_eq_zero _).1 hev
    have hpc1 : t.pc = BitVec.ofNat 16 (k + 24) := by simp [e1, hev, T.atWords]
    have hr1 : t.regs .r1 = s.regs .r1 := by simp [e1, hev]
    have hr3 : t.regs .r3 = s.regs .r3 := by simp [e1, hev]
    have hsame : SameRegs copyKept s t := by simp [SameRegs, copyKept, e1, hev]
    obtain ⟨u, hu⟩ := T.reaches_words ord hpc1 (by rw [hr3]; exact hd) (by rw [hr1]; omega)
    refine ⟨u, ?_⟩
    rw [← hn]
    simpa [e1, hev] using CopiedTo.of_reaches b1 hsame hu
  · have hd : (s.regs .r3).toNat % 2 = 1 := by
      rw [and_one_eq_zero] at hev
      omega
    have hpc1 : t.pc = BitVec.ofNat 16 (k + 18) := by
      simp [e1, h, hev, BitVec.ofNat_add, BitVec.add_assoc]
    obtain ⟨u, b2, e2⟩ := exists_block ord p 3 hpc1 T.headByte rfl (by simp [blockSize]; omega)
    by_cases hz : s.regs .r2 - 1#16 = 0#16
    · have hn0 : n = 0 := by bv_omega
      refine ⟨u, b1.trans b2, by simp [e2, e1, hev, hz, T.atDone], ?_, ?_⟩
      · simp [SameRegs, copyKept, e2, e1, hev, hz]
      · rw [hn0, copyUp, copyUp]
        simp [e2, e1, hev, hz]
    · have hpc2 : u.pc = BitVec.ofNat 16 (k + 24) := by
        simp [e2, e1, h, hev, hz, BitVec.ofNat_add, BitVec.add_assoc]
      have hr1 : u.regs .r1 = s.regs .r1 + 1#16 := by simp [e2, e1, hev, hz]
      have hr2 : u.regs .r2 = s.regs .r2 - 1#16 := by simp [e2, e1, hev, hz]
      have hr3 : u.regs .r3 = s.regs .r3 + 1#16 := by simp [e2, e1, hev, hz]
      have hm : u.mem = writeByte s.mem (s.regs .r3) (s.mem (s.regs .r1)) := by
        simp [e2, e1, hev, hz]
      have hsame : SameRegs copyKept s u := by simp [SameRegs, copyKept, e2, e1, hev, hz]
      have hlen : (s.regs .r2 - 1#16).toNat = n := by bv_omega
      obtain ⟨v, hv⟩ := T.reaches_words ord hpc2 (by rw [hr3]; bv_omega) (by rw [hr1]; bv_omega)
      rw [hr1, hr2, hr3, hm, hlen] at hv
      exact ⟨v, CopiedTo.of_reaches (b1.trans b2) hsame hv⟩

/-- From the parity test on, `R2` bytes are copied upwards. -/
theorem ForwardText.reaches {s : State} (h : s.pc = BitVec.ofNat 16 k) (hn : s.regs .r2 ≠ 0#16) :
    ∃ t, CopiedTo ord p (k + 44) s t
      (copyUp (s.regs .r3) (s.regs .r1) (s.regs .r2).toNat s.mem) := by
  have hroom := T.room
  obtain ⟨n, hk⟩ : ∃ n, (s.regs .r2).toNat = n + 1 := ⟨(s.regs .r2).toNat - 1, by bv_omega⟩
  obtain ⟨t, b1, e1⟩ := exists_block ord p 4 h T.parity rfl (by simp [blockSize]; omega)
  by_cases hpar : (s.regs .r3 ^^^ s.regs .r1) &&& 1#16 = 0#16
  · have hpc1 : t.pc = BitVec.ofNat 16 (k + 10) := by
      simp [e1, h, hpar, BitVec.ofNat_add, BitVec.add_assoc]
    have hr1 : t.regs .r1 = s.regs .r1 := by simp [e1, hpar]
    have hr2 : t.regs .r2 = s.regs .r2 := by simp [e1, hpar]
    have hr3 : t.regs .r3 = s.regs .r3 := by simp [e1, hpar]
    have hm : t.mem = s.mem := by simp [e1, hpar]
    have hsame : SameRegs copyKept s t := by simp [SameRegs, copyKept, e1, hpar]
    obtain ⟨u, hu⟩ := T.reaches_head ord hpc1
      (by rw [hr1, hr3]; exact (xor_and_one_eq_zero _ _).1 hpar) (hr2 ▸ hk)
    rw [hr1, hr3, hm, ← hk] at hu
    exact ⟨u, CopiedTo.of_reaches b1 hsame hu⟩
  · have hpc1 : t.pc = BitVec.ofNat 16 (k + 48) := by simp [e1, hpar, T.atByteCopy]
    have hr1 : t.regs .r1 = s.regs .r1 := by simp [e1, hpar]
    have hr2 : t.regs .r2 = s.regs .r2 := by simp [e1, hpar]
    have hr3 : t.regs .r3 = s.regs .r3 := by simp [e1, hpar]
    have hm : t.mem = s.mem := by simp [e1, hpar]
    have hsame : SameRegs copyKept s t := by simp [SameRegs, copyKept, e1, hpar]
    obtain ⟨u, hu⟩ := T.reaches_byteCopy ord n hpc1 (hr2 ▸ hk)
    rw [hr1, hr3, hm, ← hk] at hu
    exact ⟨u, CopiedTo.of_reaches b1 hsame hu⟩

end Forward
end LlvmTms9900.Builtins
