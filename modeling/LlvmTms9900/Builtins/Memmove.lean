import LlvmTms9900.Builtins.ForwardCopy

/-!
# memmove (libtms9900/builtins/memmove.S)

The text of `memmove.S` and the memory it leaves, for either operand order of
`C`: the direction of the copy is decided by one `C R0,R1`, and each direction
has a byte loop for buffers of different parity and a word loop with an odd
byte at either end for buffers of the same parity.
-/

set_option maxRecDepth 8192

namespace LlvmTms9900.Builtins.Memmove
open LlvmTms9900.Isa

inductive Label where
  | memmove | backWords | backWordLoop | backTail | backByte
  | forward | fwdWords | fwdWordLoop | fwdTail | done | fwdByte
  deriving DecidableEq, Repr

def text : List (Line Label) :=
  [ .lab .memmove,
    .ins (.mov (.reg .r0) (.reg .r4)),
    .ins (.ci .r2 0#16),
    .ins (.jump .eq .done),
    .ins (.c (.reg .r0) (.reg .r1)),
    .ins (.jump .l .forward),
    .ins (.jump .eq .done),
    .ins (.mov (.reg .r0) (.reg .r3)),
    .ins (.a (.reg .r2) (.reg .r3)),
    .ins (.a (.reg .r2) (.reg .r1)),
    .ins (.mov (.reg .r3) (.reg .r0)),
    .ins (.xor (.reg .r1) .r0),
    .ins (.andi .r0 1#16),
    .ins (.jump .ne .backByte),
    .ins (.mov (.reg .r3) (.reg .r0)),
    .ins (.andi .r0 1#16),
    .ins (.jump .eq .backWords),
    .ins (.dec (.reg .r1)),
    .ins (.dec (.reg .r3)),
    .ins (.movb (.ind .r1) (.ind .r3)),
    .ins (.dec (.reg .r2)),
    .ins (.jump .eq .done),
    .lab .backWords,
    .ins (.mov (.reg .r2) (.reg .r0)),
    .ins (.srl .r0 1),
    .ins (.jump .eq .backTail),
    .lab .backWordLoop,
    .ins (.dect (.reg .r1)),
    .ins (.dect (.reg .r3)),
    .ins (.mov (.ind .r1) (.ind .r3)),
    .ins (.dec (.reg .r0)),
    .ins (.jump .ne .backWordLoop),
    .lab .backTail,
    .ins (.andi .r2 1#16),
    .ins (.jump .eq .done),
    .ins (.dec (.reg .r1)),
    .ins (.dec (.reg .r3)),
    .ins (.movb (.ind .r1) (.ind .r3)),
    .ins (.jump .always .done),
    .lab .backByte,
    .ins (.dec (.reg .r1)),
    .ins (.dec (.reg .r3)),
    .ins (.movb (.ind .r1) (.ind .r3)),
    .ins (.dec (.reg .r2)),
    .ins (.jump .ne .backByte),
    .ins (.jump .always .done),
    .lab .forward,
    .ins (.mov (.reg .r0) (.reg .r3)),
    .ins (.mov (.reg .r3) (.reg .r0)),
    .ins (.xor (.reg .r1) .r0),
    .ins (.andi .r0 1#16),
    .ins (.jump .ne .fwdByte),
    .ins (.mov (.reg .r3) (.reg .r0)),
    .ins (.andi .r0 1#16),
    .ins (.jump .eq .fwdWords),
    .ins (.movb (.inc .r1) (.inc .r3)),
    .ins (.dec (.reg .r2)),
    .ins (.jump .eq .done),
    .lab .fwdWords,
    .ins (.mov (.reg .r2) (.reg .r0)),
    .ins (.srl .r0 1),
    .ins (.jump .eq .fwdTail),
    .lab .fwdWordLoop,
    .ins (.mov (.inc .r1) (.inc .r3)),
    .ins (.dec (.reg .r0)),
    .ins (.jump .ne .fwdWordLoop),
    .lab .fwdTail,
    .ins (.andi .r2 1#16),
    .ins (.jump .eq .done),
    .ins (.movb (.ind .r1) (.ind .r3)),
    .lab .done,
    .ins (.mov (.reg .r4) (.reg .r0)),
    .ins (.b .r11),
    .lab .fwdByte,
    .ins (.movb (.inc .r1) (.inc .r3)),
    .ins (.dec (.reg .r2)),
    .ins (.jump .ne .fwdByte),
    .ins (.jump .always .done) ]

/-- `memmove.o` loaded at `base`. -/
def program (base : Word) : Program Label := ⟨base, text, fun _ => 0#16⟩

/-- Offsets of the labels, as the assembler lays the text out. -/
def entry : Label → Word
  | .memmove => 0#16 | .backWords => 48#16 | .backWordLoop => 54#16 | .backTail => 64#16
  | .backByte => 78#16 | .forward => 90#16 | .fwdWords => 116#16 | .fwdWordLoop => 122#16
  | .fwdTail => 128#16 | .done => 136#16 | .fwdByte => 140#16

@[simp] theorem target_eq (base : Word) (l : Label) : (program base).target l = entry l := by
  cases l <;> rfl

@[simp] theorem program_base (base : Word) : (program base).base = base := rfl

variable (ord : CompareOrder) (base : Word)

/-- `memmove.S:82-88`. -/
theorem reaches_backByte (k : Nat) {s : State} (h : s.pc = entry .backByte)
    (hk : (s.regs .r2).toNat = k + 1) :
    ∃ t, CopiedTo ord (program base) 136 s t
      (copyDown (s.regs .r3) (s.regs .r1) (k + 1) s.mem) := by
  induction k generalizing s with
  | zero =>
    have hz : s.regs .r2 - 1#16 = 0#16 := by bv_omega
    obtain ⟨t, b1, e1⟩ := exists_block ord (program base) 5 h rfl rfl (by decide)
    have hpc1 : t.pc = 88#16 := by simp [e1, h, entry, hz]
    obtain ⟨u, b2, e2⟩ := exists_block ord (program base) 1 hpc1 rfl rfl (by decide)
    refine ⟨u, b1.trans b2, by simp [e2, entry], ?_, by simp [e2, e1, hz, copyDown]⟩
    simp [SameRegs, copyKept, e2, e1, hz]
  | succ k ih =>
    have hz : s.regs .r2 - 1#16 ≠ 0#16 := by bv_omega
    obtain ⟨t, b1, e1⟩ := exists_block ord (program base) 5 h rfl rfl (by decide)
    have hpc1 : t.pc = entry .backByte := by simp [e1, hz]
    have hk1 : (t.regs .r2).toNat = k + 1 := by
      have : t.regs .r2 = s.regs .r2 - 1#16 := by simp [e1, hz]
      bv_omega
    obtain ⟨u, hu⟩ := ih hpc1 hk1
    have hsame : SameRegs copyKept s t := by simp [SameRegs, copyKept, e1, hz]
    refine ⟨u, ?_⟩
    have hcopy := CopiedTo.of_reaches b1 hsame hu
    rw [copyDown]
    simpa [e1, hz] using hcopy

/-- `memmove.S:73-79`. -/
theorem reaches_backTail {s : State} (h : s.pc = entry .backTail) :
    ∃ t, CopiedTo ord (program base) 136 s t
      (copyDown (s.regs .r3) (s.regs .r1) ((s.regs .r2).toNat % 2) s.mem) := by
  obtain ⟨t, b1, e1⟩ := exists_block ord (program base) 2 h rfl rfl (by decide)
  by_cases hz : s.regs .r2 &&& 1#16 = 0#16
  · refine ⟨t, b1, by simp [e1, hz, entry], by simp [SameRegs, copyKept, e1, hz], ?_⟩
    rw [(and_one_eq_zero _).1 hz, copyDown]
    simp [e1, hz]
  · have hodd : (s.regs .r2).toNat % 2 = 1 := by
      rw [and_one_eq_zero] at hz
      omega
    have hpc1 : t.pc = 70#16 := by simp [e1, h, entry, hz]
    obtain ⟨u, b2, e2⟩ := exists_block ord (program base) 4 hpc1 rfl rfl (by decide)
    refine ⟨u, b1.trans b2, by simp [e2, entry], ?_, ?_⟩
    · simp [SameRegs, copyKept, e2, e1, hz]
    · rw [hodd, copyDown, copyDown]
      simp [e2, e1, hz]

/-- `memmove.S:64-79`. -/
theorem reaches_backWordLoop (k : Nat) {s : State} (h : s.pc = entry .backWordLoop)
    (hk : (s.regs .r0).toNat = k + 1) (hd : (s.regs .r3).toNat % 2 = 0)
    (hs : (s.regs .r1).toNat % 2 = 0) :
    ∃ t, CopiedTo ord (program base) 136 s t
      (copyDown (s.regs .r3) (s.regs .r1) ((s.regs .r2).toNat % 2 + 2 * (k + 1)) s.mem) := by
  induction k generalizing s with
  | zero =>
    have hz : s.regs .r0 - 1#16 = 0#16 := by bv_omega
    obtain ⟨t, b1, e1⟩ := exists_block ord (program base) 5 h rfl rfl (by decide)
    have hpc1 : t.pc = entry .backTail := by simp [e1, h, entry, hz]
    obtain ⟨u, hu⟩ := reaches_backTail ord base hpc1
    have hsame : SameRegs copyKept s t := by simp [SameRegs, copyKept, e1, hz]
    refine ⟨u, ?_⟩
    have hcopy := CopiedTo.of_reaches b1 hsame hu
    rw [copyDown_word hd hs]
    simpa [e1, hz] using hcopy
  | succ k ih =>
    have hz : s.regs .r0 - 1#16 ≠ 0#16 := by bv_omega
    obtain ⟨t, b1, e1⟩ := exists_block ord (program base) 5 h rfl rfl (by decide)
    have hpc1 : t.pc = entry .backWordLoop := by simp [e1, hz]
    have hk1 : (t.regs .r0).toNat = k + 1 := by
      have : t.regs .r0 = s.regs .r0 - 1#16 := by simp [e1, hz]
      bv_omega
    have hd1 : (t.regs .r3).toNat % 2 = 0 := by
      have : t.regs .r3 = s.regs .r3 - 2#16 := by simp [e1, hz]
      bv_omega
    have hs1 : (t.regs .r1).toNat % 2 = 0 := by
      have : t.regs .r1 = s.regs .r1 - 2#16 := by simp [e1, hz]
      bv_omega
    obtain ⟨u, hu⟩ := ih hpc1 hk1 hd1 hs1
    have hsame : SameRegs copyKept s t := by simp [SameRegs, copyKept, e1, hz]
    refine ⟨u, ?_⟩
    have hcopy := CopiedTo.of_reaches b1 hsame hu
    rw [show (s.regs .r2).toNat % 2 + 2 * (k + 1 + 1) = (s.regs .r2).toNat % 2 + 2 * (k + 1) + 2 by
      omega, copyDown_word hd hs]
    simpa [e1, hz] using hcopy

/-- `memmove.S:59-79`. -/
theorem reaches_backWords {s : State} (h : s.pc = entry .backWords)
    (hd : (s.regs .r3).toNat % 2 = 0) (hs : (s.regs .r1).toNat % 2 = 0) :
    ∃ t, CopiedTo ord (program base) 136 s t
      (copyDown (s.regs .r3) (s.regs .r1) (s.regs .r2).toNat s.mem) := by
  obtain ⟨t, b1, e1⟩ := exists_block ord (program base) 3 h rfl rfl (by decide)
  have hhalf := ushiftRight_one_toNat (s.regs .r2)
  by_cases hz : s.regs .r2 >>> 1 = 0#16
  · have hpc1 : t.pc = entry .backTail := by simp [e1, hz]
    obtain ⟨u, hu⟩ := reaches_backTail ord base hpc1
    have hlen : (s.regs .r2).toNat % 2 = (s.regs .r2).toNat := by
      rw [hz] at hhalf
      simp only [BitVec.toNat_ofNat] at hhalf
      omega
    have hsame : SameRegs copyKept s t := by simp [SameRegs, copyKept, e1, hz]
    refine ⟨u, ?_⟩
    have hcopy := CopiedTo.of_reaches b1 hsame hu
    rw [← hlen]
    simpa [e1, hz] using hcopy
  · have hpos : (s.regs .r2 >>> 1).toNat ≠ 0 := fun he => hz (by bv_omega)
    have hpc1 : t.pc = entry .backWordLoop := by simp [e1, h, entry, hz]
    have hr0 : t.regs .r0 = s.regs .r2 >>> 1 := by simp [e1, hz]
    have hr1 : t.regs .r1 = s.regs .r1 := by simp [e1, hz]
    have hr2 : t.regs .r2 = s.regs .r2 := by simp [e1, hz]
    have hr3 : t.regs .r3 = s.regs .r3 := by simp [e1, hz]
    have hm : t.mem = s.mem := by simp [e1, hz]
    obtain ⟨u, hu⟩ := reaches_backWordLoop ord base ((s.regs .r2).toNat / 2 - 1) hpc1
      (by rw [hr0]; omega) (by rw [hr3]; exact hd) (by rw [hr1]; exact hs)
    have hsame : SameRegs copyKept s t := by simp [SameRegs, copyKept, e1, hz]
    have hlen : (s.regs .r2).toNat % 2 + 2 * ((s.regs .r2).toNat / 2 - 1 + 1) =
        (s.regs .r2).toNat := by omega
    rw [hr1, hr2, hr3, hm, hlen] at hu
    exact ⟨u, CopiedTo.of_reaches b1 hsame hu⟩

/-- `memmove.S:48-79`. -/
theorem reaches_backHead {s : State} (h : s.pc = 30#16)
    (hpar : (s.regs .r3).toNat % 2 = (s.regs .r1).toNat % 2) (hn : s.regs .r2 ≠ 0#16) :
    ∃ t, CopiedTo ord (program base) 136 s t
      (copyDown (s.regs .r3) (s.regs .r1) (s.regs .r2).toNat s.mem) := by
  obtain ⟨k, hk⟩ : ∃ k, (s.regs .r2).toNat = k + 1 := ⟨(s.regs .r2).toNat - 1, by bv_omega⟩
  obtain ⟨t, b1, e1⟩ := exists_block ord (program base) 3 h rfl rfl (by decide)
  by_cases hev : s.regs .r3 &&& 1#16 = 0#16
  · have hd := (and_one_eq_zero _).1 hev
    have hpc1 : t.pc = entry .backWords := by simp [e1, hev]
    have hr1 : t.regs .r1 = s.regs .r1 := by simp [e1, hev]
    have hr3 : t.regs .r3 = s.regs .r3 := by simp [e1, hev]
    have hsame : SameRegs copyKept s t := by simp [SameRegs, copyKept, e1, hev]
    obtain ⟨u, hu⟩ := reaches_backWords ord base hpc1 (by rw [hr3]; exact hd) (by rw [hr1]; omega)
    refine ⟨u, ?_⟩
    simpa [e1, hev] using CopiedTo.of_reaches b1 hsame hu
  · have hd : (s.regs .r3).toNat % 2 = 1 := by
      rw [and_one_eq_zero] at hev
      omega
    have hpc1 : t.pc = 38#16 := by simp [e1, h, hev]
    obtain ⟨u, b2, e2⟩ := exists_block ord (program base) 5 hpc1 rfl rfl (by decide)
    by_cases hz : s.regs .r2 - 1#16 = 0#16
    · have hk0 : k = 0 := by bv_omega
      refine ⟨u, b1.trans b2, by simp [e2, e1, hev, hz, entry], ?_, ?_⟩
      · simp [SameRegs, copyKept, e2, e1, hev, hz]
      · rw [hk, hk0, copyDown, copyDown]
        simp [e2, e1, hev, hz]
    · have hpc2 : u.pc = entry .backWords := by simp [e2, e1, h, entry, hev, hz]
      have hr1 : u.regs .r1 = s.regs .r1 - 1#16 := by simp [e2, e1, hev, hz]
      have hr2 : u.regs .r2 = s.regs .r2 - 1#16 := by simp [e2, e1, hev, hz]
      have hr3 : u.regs .r3 = s.regs .r3 - 1#16 := by simp [e2, e1, hev, hz]
      have hm : u.mem =
          writeByte s.mem (s.regs .r3 - 1#16) (s.mem (s.regs .r1 - 1#16)) := by
        simp [e2, e1, hev, hz]
      have hsame : SameRegs copyKept s u := by simp [SameRegs, copyKept, e2, e1, hev, hz]
      have hlen : (s.regs .r2 - 1#16).toNat = k := by bv_omega
      obtain ⟨v, hv⟩ := reaches_backWords ord base hpc2 (by rw [hr3]; bv_omega)
        (by rw [hr1]; bv_omega)
      rw [hr1, hr2, hr3, hm, hlen] at hv
      rw [hk]
      exact ⟨v, CopiedTo.of_reaches (b1.trans b2) hsame hv⟩

theorem forwardText :
    ForwardText (program base) 92 .fwdWords .fwdWordLoop .fwdTail .done .fwdByte := by
  constructor <;> first | rfl | decide

/-- `memmove.S:89-128`. -/
theorem reaches_forward {s : State} (h : s.pc = entry .forward) (hn : s.regs .r2 ≠ 0#16) :
    ∃ t, CopiedTo ord (program base) 136 s t
      (copyUp (s.regs .r0) (s.regs .r1) (s.regs .r2).toNat s.mem) := by
  obtain ⟨t, b1, e1⟩ := exists_block ord (program base) 1 h rfl rfl (by decide)
  have hpc1 : t.pc = BitVec.ofNat 16 92 := by simp [e1, h, entry]
  have hr1 : t.regs .r1 = s.regs .r1 := by simp [e1]
  have hr2 : t.regs .r2 = s.regs .r2 := by simp [e1]
  have hr3 : t.regs .r3 = s.regs .r0 := by simp [e1]
  have hm : t.mem = s.mem := by simp [e1]
  have hsame : SameRegs copyKept s t := by simp [SameRegs, copyKept, e1]
  obtain ⟨u, hu⟩ := (forwardText base).reaches ord hpc1 (hr2 ▸ hn)
  rw [hr1, hr2, hr3, hm] at hu
  exact ⟨u, CopiedTo.of_reaches b1 hsame hu⟩

/-- `memmove.S:33-88`. -/
theorem reaches_backward {s : State} (h : s.pc = 14#16) (hn : s.regs .r2 ≠ 0#16) :
    ∃ t, CopiedTo ord (program base) 136 s t
      (copyDown (s.regs .r0 + s.regs .r2) (s.regs .r1 + s.regs .r2)
      (s.regs .r2).toNat s.mem) := by
  obtain ⟨t, b1, e1⟩ := exists_block ord (program base) 7 h rfl rfl (by decide)
  by_cases hpar : ((s.regs .r0 + s.regs .r2) ^^^ (s.regs .r1 + s.regs .r2)) &&& 1#16 = 0#16
  · have hpc1 : t.pc = 30#16 := by simp [e1, h, hpar]
    have hr1 : t.regs .r1 = s.regs .r1 + s.regs .r2 := by simp [e1, hpar]
    have hr2 : t.regs .r2 = s.regs .r2 := by simp [e1, hpar]
    have hr3 : t.regs .r3 = s.regs .r0 + s.regs .r2 := by simp [e1, hpar]
    have hm : t.mem = s.mem := by simp [e1, hpar]
    have hsame : SameRegs copyKept s t := by simp [SameRegs, copyKept, e1, hpar]
    obtain ⟨u, hu⟩ := reaches_backHead ord base hpc1
      (by rw [hr1, hr3]; exact (xor_and_one_eq_zero _ _).1 hpar) (by rw [hr2]; exact hn)
    rw [hr1, hr2, hr3, hm] at hu
    exact ⟨u, CopiedTo.of_reaches b1 hsame hu⟩
  · have hpc1 : t.pc = entry .backByte := by simp [e1, hpar]
    have hr1 : t.regs .r1 = s.regs .r1 + s.regs .r2 := by simp [e1, hpar]
    have hr2 : t.regs .r2 = s.regs .r2 := by simp [e1, hpar]
    have hr3 : t.regs .r3 = s.regs .r0 + s.regs .r2 := by simp [e1, hpar]
    have hm : t.mem = s.mem := by simp [e1, hpar]
    have hsame : SameRegs copyKept s t := by simp [SameRegs, copyKept, e1, hpar]
    obtain ⟨k, hk⟩ : ∃ k, (s.regs .r2).toNat = k + 1 := ⟨(s.regs .r2).toNat - 1, by bv_omega⟩
    obtain ⟨u, hu⟩ := reaches_backByte ord base k hpc1 (by rw [hr2]; exact hk)
    rw [hr1, hr3, hm, ← hk] at hu
    exact ⟨u, CopiedTo.of_reaches b1 hsame hu⟩

/-- The memory `memmove` leaves. -/
def memmoveMem (d s : Word) (n : Nat) (m : Memory) : Memory :=
  if n = 0 ∨ d = s then m
  else if ord.over d.toNat s.toNat then copyDown (byteAt d n) (byteAt s n) n m
  else copyUp d s n m

/-- What a caller sees of `memmove`. -/
structure Moved (s t : State) : Prop where
  reaches : Reaches ord (program base) s t
  pc : t.pc = s.regs .r11 - base
  saved : SameRegs calleeSaved s t
  ret : t.regs .r0 = s.regs .r0
  mem : t.mem = memmoveMem ord (s.regs .r0) (s.regs .r1) (s.regs .r2).toNat s.mem

/-- `memmove.S:119-121`. -/
theorem reaches_done {s : State} (h : s.pc = entry .done) :
    ∃ t, Reaches ord (program base) s t ∧ t.pc = s.regs .r11 - base ∧ t.mem = s.mem ∧
      t.regs .r0 = s.regs .r4 ∧ SameRegs calleeSaved s t := by
  obtain ⟨t, b1, e1⟩ := exists_block ord (program base) 2 h rfl rfl (by decide)
  exact ⟨t, b1, by simp [e1], by simp [e1], by simp [e1], by simp [SameRegs, calleeSaved, e1]⟩

theorem exists_moved {s t u : State} {m : Memory} (b : Reaches ord (program base) s t)
    (hret : t.regs .r4 = s.regs .r0) (h11 : t.regs .r11 = s.regs .r11)
    (hsaved : SameRegs calleeSaved s t) (h : CopiedTo ord (program base) 136 t u m)
    (hm : m = memmoveMem ord (s.regs .r0) (s.regs .r1) (s.regs .r2).toNat s.mem) :
    ∃ v, Moved ord base s v := by
  obtain ⟨v, b2, hpc, hmem, hr0, hsv⟩ := reaches_done ord base h.pc
  refine ⟨v, b.trans (h.reaches.trans b2), ?_, ?_, ?_, ?_⟩
  · rw [hpc, h.kept .r11 (by decide), h11]
  · exact hsaved.trans ((h.kept.mono (by decide)).trans hsv)
  · rw [hr0, h.kept .r4 (by decide), hret]
  · rw [hmem, h.mem, hm]

/-- `memmove.S:28-30`: the comparison that picks the direction. -/
theorem reaches_direction {s : State} (h : s.pc = 8#16) :
    ∃ t, Reaches ord (program base) s t ∧ t.regs = s.regs ∧ t.mem = s.mem ∧
      t.pc = if s.regs .r0 = s.regs .r1 then entry .done
        else if ord.over (s.regs .r0).toNat (s.regs .r1).toNat then 14#16 else entry .forward := by
  obtain ⟨t, b1, e1⟩ := exists_block ord (program base) 2 h rfl rfl (by decide)
  by_cases heq : s.regs .r0 = s.regs .r1
  · have hpc1 : t.pc = 12#16 := by simp [e1, h, heq]
    obtain ⟨u, b2, e2⟩ := exists_block ord (program base) 1 hpc1 rfl rfl (by decide)
    refine ⟨u, b1.trans b2, ?_, ?_, ?_⟩
    all_goals simp [e2, e1, heq]
  · by_cases hov : ord.over (s.regs .r0).toNat (s.regs .r1).toNat = true
    · have hpc1 : t.pc = 12#16 := by simp [e1, h, heq, hov]
      obtain ⟨u, b2, e2⟩ := exists_block ord (program base) 1 hpc1 rfl rfl (by decide)
      refine ⟨u, b1.trans b2, ?_, ?_, ?_⟩
      all_goals simp [e2, e1, h, heq, hov]
    · refine ⟨t, b1, ?_, ?_, ?_⟩
      all_goals simp [e1, heq, hov]

/-- `memmove.S:18-128`. -/
theorem memmove_moved {s : State} (h : s.pc = entry .memmove) : ∃ t, Moved ord base s t := by
  obtain ⟨t, b1, e1⟩ := exists_block ord (program base) 3 h rfl rfl (by decide)
  by_cases hn : s.regs .r2 = 0#16
  · refine exists_moved ord base b1 (by simp [e1, hn]) (by simp [e1, hn])
      (by simp [SameRegs, calleeSaved, e1, hn])
      ⟨Reaches.refl _ _ _, by simp [e1, hn, entry], fun _ _ => rfl, rfl⟩ ?_
    rw [memmoveMem, if_pos (Or.inl (by simp [hn]))]
    simp [e1, hn]
  have hn0 : (s.regs .r2).toNat ≠ 0 := fun he => hn (by bv_omega)
  have hpc1 : t.pc = 8#16 := by simp [e1, h, entry, hn]
  have hregs : ∀ r, r ≠ .r4 → t.regs r = s.regs r := fun r hr => by simp [e1, hn, hr]
  have hr0 := hregs .r0 (by decide)
  have hr1 := hregs .r1 (by decide)
  have hr2 := hregs .r2 (by decide)
  have hm : t.mem = s.mem := by simp [e1, hn]
  obtain ⟨u, b2, hregs2, hm2, hpc2⟩ := reaches_direction ord base hpc1
  have hret : u.regs .r4 = s.regs .r0 := by rw [hregs2]; simp [e1, hn]
  have h11 : u.regs .r11 = s.regs .r11 := by rw [hregs2, hregs .r11 (by decide)]
  have hsaved : SameRegs calleeSaved s u := fun r hr => by
    rw [hregs2]
    exact hregs r (fun he => by subst he; exact absurd hr (by decide))
  rw [hr0, hr1] at hpc2
  by_cases heq : s.regs .r0 = s.regs .r1
  · rw [if_pos heq] at hpc2
    refine exists_moved ord base (b1.trans b2) hret h11 hsaved
      ⟨Reaches.refl _ _ _, hpc2, fun _ _ => rfl, rfl⟩ ?_
    rw [memmoveMem, if_pos (Or.inr heq), hm2, hm]
  · rw [if_neg heq] at hpc2
    have hcopy : ¬ ((s.regs .r2).toNat = 0 ∨ s.regs .r0 = s.regs .r1) := by
      rintro (h1 | h1)
      · exact hn0 h1
      · exact heq h1
    have hcount : u.regs .r2 ≠ 0#16 := by rw [hregs2, hr2]; exact hn
    by_cases hov : ord.over (s.regs .r0).toNat (s.regs .r1).toNat = true
    · rw [if_pos hov] at hpc2
      obtain ⟨v, hv⟩ := reaches_backward ord base hpc2 hcount
      refine exists_moved ord base (b1.trans b2) hret h11 hsaved hv ?_
      rw [memmoveMem, if_neg hcopy, if_pos hov, hregs2, hr0, hr1, hr2, hm2, hm]
      simp only [byteAt, BitVec.ofNat_toNat, BitVec.setWidth_eq]
    · rw [if_neg hov] at hpc2
      obtain ⟨v, hv⟩ := reaches_forward ord base hpc2 hcount
      refine exists_moved ord base (b1.trans b2) hret h11 hsaved hv ?_
      rw [memmoveMem, if_neg hcopy, if_neg hov, hregs2, hr0, hr1, hr2, hm2, hm]

end LlvmTms9900.Builtins.Memmove
