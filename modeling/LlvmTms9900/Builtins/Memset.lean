import LlvmTms9900.Builtins.ByteCopy
import LlvmTms9900.Isa.Activation

/-!
# memset (libtms9900/builtins/memset.S and FreeRTOS/minilib.c)

`memset.S` builds the fill word from all sixteen bits of its argument: `SWPB`
and `SOC` give both bytes the value of the high byte or'ed with the low byte.
The byte loop of `minilib.c` converts the argument to a byte first. The two
agree exactly when the high byte has no bit that the low byte lacks.
-/

set_option maxRecDepth 8192

namespace LlvmTms9900.Builtins.Memset
open LlvmTms9900.Isa

inductive Label where
  | memset | words | wordLoop | tail | done
  deriving DecidableEq, Repr

def text : List (Line Label) :=
  [ .lab .memset,
    .ins (.mov (.reg .r0) (.reg .r4)),
    .ins (.mov (.reg .r0) (.reg .r3)),
    .ins (.ci .r2 0#16),
    .ins (.jump .eq .done),
    .ins (.mov (.reg .r1) (.reg .r0)),
    .ins (.swpb (.reg .r0)),
    .ins (.soc (.reg .r1) (.reg .r0)),
    .ins (.mov (.reg .r3) (.reg .r5)),
    .ins (.andi .r5 1#16),
    .ins (.jump .eq .words),
    .ins (.movb (.reg .r0) (.inc .r3)),
    .ins (.dec (.reg .r2)),
    .ins (.jump .eq .done),
    .lab .words,
    .ins (.mov (.reg .r2) (.reg .r5)),
    .ins (.srl .r5 1),
    .ins (.jump .eq .tail),
    .lab .wordLoop,
    .ins (.mov (.reg .r0) (.inc .r3)),
    .ins (.dec (.reg .r5)),
    .ins (.jump .ne .wordLoop),
    .lab .tail,
    .ins (.andi .r2 1#16),
    .ins (.jump .eq .done),
    .ins (.movb (.reg .r0) (.ind .r3)),
    .lab .done,
    .ins (.mov (.reg .r4) (.reg .r0)),
    .ins (.b .r11) ]

/-- `memset.o` loaded at `base`. -/
def program (base : Word) : Program Label := ⟨base, text, fun _ => 0#16⟩

/-- Offsets of the labels, as the assembler lays the text out. -/
def entry : Label → Word
  | .memset => 0#16 | .words => 30#16 | .wordLoop => 36#16 | .tail => 42#16 | .done => 50#16

@[simp] theorem target_eq (base : Word) (l : Label) : (program base).target l = entry l := by
  cases l <;> rfl

@[simp] theorem program_base (base : Word) : (program base).base = base := rfl

/-- `n` bytes `b` from address `d` upwards. -/
def fill (d : Word) (b : Byte) : Nat → Memory → Memory
  | 0, m => m
  | n + 1, m => fill (d + 1#16) b n (writeByte m d b)

/-- `minilib.c:8-18`: the memory after `while (n--) *p++ = (unsigned char)c`. -/
def minilibMemset (s c n : Word) (m : Memory) : Memory := fill s (loByte c) n.toNat m

theorem fill_frame (b : Byte) (n : Nat) (d : Word) (m : Memory) {a : Word}
    (h : ∀ i < n, byteAt d i ≠ a) : fill d b n m a = m a := by
  induction n generalizing d m with
  | zero => rfl
  | succ n ih =>
    have h0 : a ≠ d := fun he => h 0 (by omega) (by rw [byteAt_zero, he])
    rw [fill, ih (d + 1#16) _ fun i hi => by rw [byteAt_succ]; exact h (i + 1) (by omega),
      writeByte_of_ne h0]

theorem fill_at (b : Byte) (n : Nat) (d : Word) (m : Memory) (hd : d.toNat + n ≤ 65536) {i : Nat}
    (hi : i < n) : fill d b n m (byteAt d i) = b := by
  induction n generalizing d m i with
  | zero => omega
  | succ n ih =>
    cases i with
    | zero =>
      have hne : ∀ j < n, byteAt (d + 1#16) j ≠ byteAt d 0 := by
        intro j hj he
        rw [byteAt_succ] at he
        have := byteAt_inj hd (by omega) (by omega) he
        omega
      rw [fill, fill_frame b n _ _ hne, byteAt_zero, writeByte_self]
    | succ i =>
      have hd1 : (d + 1#16).toNat + n ≤ 65536 := by bv_omega
      rw [fill, ← byteAt_succ]
      exact ih (d + 1#16) _ hd1 (by omega)

/-- The byte that both halves of the fill word hold (`memset.S:23-25`). -/
def fillByte (c : Word) : Byte := hiByte c ||| loByte c

theorem hiByte_or (x y : Word) : hiByte (x ||| y) = hiByte x ||| hiByte y := by
  apply BitVec.eq_of_getLsbD_eq
  intro i hi
  simp [hiByte, hi]

theorem loByte_or (x y : Word) : loByte (x ||| y) = loByte x ||| loByte y := by
  apply BitVec.eq_of_getLsbD_eq
  intro i hi
  simp [loByte, hi]

theorem hiByte_fillWord (c : Word) : hiByte ((loByte c ++ hiByte c) ||| c) = fillByte c := by
  rw [hiByte_or, hiByte_append, fillByte, BitVec.or_comm]

theorem loByte_fillWord (c : Word) : loByte ((loByte c ++ hiByte c) ||| c) = fillByte c := by
  rw [loByte_or, loByte_append, fillByte]

/-- A word store of a word with two equal bytes fills two bytes. -/
theorem fill_word {d w : Word} {b : Byte} (hd : d.toNat % 2 = 0) (hh : hiByte w = b)
    (hl : loByte w = b) (k : Nat) (m : Memory) :
    fill d b (k + 2) m = fill (d + 2#16) b k (writeWord m d w) := by
  have hadd : d + 1#16 + 1#16 = d + 2#16 := by bv_omega
  rw [fill, fill, hadd, writeWord, evenAddr_of_even hd, hh, hl]

variable (ord : CompareOrder) (base : Word)

/-- Registers the fill leaves alone. -/
def kept : List Reg := [.r4, .r6, .r7, .r8, .r9, .r10, .r11, .r12, .r13, .r14, .r15]

/-- The fill from `s` is over: control is at `.Ldone` and memory is `m`. -/
structure Filled (s t : State) (m : Memory) : Prop where
  reaches : Reaches ord (program base) s t
  pc : t.pc = entry .done
  kept : SameRegs kept s t
  mem : t.mem = m

variable {ord base}

theorem Filled.of_reaches {s t u : State} {m : Memory} (b : Reaches ord (program base) s t)
    (hk : SameRegs Memset.kept s t) (h : Filled ord base t u m) : Filled ord base s u m :=
  ⟨b.trans h.reaches, h.pc, hk.trans h.kept, h.mem⟩

variable (ord base)

/-- `memset.S:46-49`. -/
theorem reaches_tail {s : State} (h : s.pc = entry .tail) :
    ∃ t, Filled ord base s t
      (fill (s.regs .r3) (hiByte (s.regs .r0)) ((s.regs .r2).toNat % 2) s.mem) := by
  obtain ⟨t, b1, e1⟩ := exists_block ord (program base) 2 h rfl rfl (by decide)
  by_cases hz : s.regs .r2 &&& 1#16 = 0#16
  · refine ⟨t, b1, by simp [e1, hz], by simp [SameRegs, kept, e1, hz], ?_⟩
    rw [(and_one_eq_zero _).1 hz, fill]
    simp [e1, hz]
  · have hodd : (s.regs .r2).toNat % 2 = 1 := by
      rw [and_one_eq_zero] at hz
      omega
    have hpc1 : t.pc = 48#16 := by simp [e1, h, entry, hz]
    obtain ⟨u, b2, e2⟩ := exists_block ord (program base) 1 hpc1 rfl rfl (by decide)
    refine ⟨u, b1.trans b2, by simp [e2, hpc1, entry], ?_, ?_⟩
    · simp [SameRegs, kept, e2, e1, hz]
    · rw [hodd, fill, fill]
      simp [e2, e1, hz]

/-- `memset.S:40-49`: the word loop, then the tail. -/
theorem reaches_wordLoop (k : Nat) {s : State} (h : s.pc = entry .wordLoop)
    (hk : (s.regs .r5).toNat = k + 1) (hd : (s.regs .r3).toNat % 2 = 0)
    (hw : loByte (s.regs .r0) = hiByte (s.regs .r0)) :
    ∃ t, Filled ord base s t
      (fill (s.regs .r3) (hiByte (s.regs .r0)) ((s.regs .r2).toNat % 2 + 2 * (k + 1)) s.mem) := by
  obtain ⟨t, b1, e1⟩ := exists_block ord (program base) 3 h rfl rfl (by decide)
  induction k generalizing s t with
  | zero =>
    have hz : s.regs .r5 - 1#16 = 0#16 := by bv_omega
    have hpc1 : t.pc = entry .tail := by simp [e1, h, entry, hz]
    obtain ⟨u, hu⟩ := reaches_tail ord base hpc1
    have hsame : SameRegs kept s t := by simp [SameRegs, kept, e1, hz]
    refine ⟨u, ?_⟩
    have hfill := Filled.of_reaches b1 hsame hu
    rw [fill_word hd rfl hw]
    simpa [e1, hz] using hfill
  | succ k ih =>
    have hz : s.regs .r5 - 1#16 ≠ 0#16 := by bv_omega
    have hpc1 : t.pc = entry .wordLoop := by simp [e1, hz]
    have hr0 : t.regs .r0 = s.regs .r0 := by simp [e1, hz]
    have hr2 : t.regs .r2 = s.regs .r2 := by simp [e1, hz]
    have hr3 : t.regs .r3 = s.regs .r3 + 2#16 := by simp [e1, hz]
    have hr5 : t.regs .r5 = s.regs .r5 - 1#16 := by simp [e1, hz]
    have hm : t.mem = writeWord s.mem (s.regs .r3) (s.regs .r0) := by simp [e1, hz]
    have hsame : SameRegs kept s t := by simp [SameRegs, kept, e1, hz]
    obtain ⟨v, b2, e2⟩ := exists_block ord (program base) 3 hpc1 rfl rfl (by decide)
    obtain ⟨u, hu⟩ := ih hpc1 (by rw [hr5]; bv_omega) (by rw [hr3]; bv_omega)
      (by rw [hr0]; exact hw) v b2 e2
    rw [hr0, hr2, hr3, hm] at hu
    refine ⟨u, ?_⟩
    rw [show (s.regs .r2).toNat % 2 + 2 * (k + 1 + 1) = (s.regs .r2).toNat % 2 + 2 * (k + 1) + 2 by
      omega, fill_word hd rfl hw]
    exact Filled.of_reaches b1 hsame hu

/-- `memset.S:36-49`. -/
theorem reaches_words {s : State} (h : s.pc = entry .words) (hd : (s.regs .r3).toNat % 2 = 0)
    (hw : loByte (s.regs .r0) = hiByte (s.regs .r0)) :
    ∃ t, Filled ord base s t
      (fill (s.regs .r3) (hiByte (s.regs .r0)) (s.regs .r2).toNat s.mem) := by
  obtain ⟨t, b1, e1⟩ := exists_block ord (program base) 3 h rfl rfl (by decide)
  have hhalf := ushiftRight_one_toNat (s.regs .r2)
  by_cases hz : s.regs .r2 >>> 1 = 0#16
  · have hpc1 : t.pc = entry .tail := by simp [e1, hz]
    obtain ⟨u, hu⟩ := reaches_tail ord base hpc1
    have hlen : (s.regs .r2).toNat % 2 = (s.regs .r2).toNat := by
      rw [hz] at hhalf
      simp only [BitVec.toNat_ofNat] at hhalf
      omega
    have hsame : SameRegs kept s t := by simp [SameRegs, kept, e1, hz]
    refine ⟨u, ?_⟩
    have hfill := Filled.of_reaches b1 hsame hu
    rw [← hlen]
    simpa [e1, hz] using hfill
  · have hpos : (s.regs .r2 >>> 1).toNat ≠ 0 := fun he => hz (by bv_omega)
    have hpc1 : t.pc = entry .wordLoop := by simp [e1, h, entry, hz]
    have hr0 : t.regs .r0 = s.regs .r0 := by simp [e1, hz]
    have hr2 : t.regs .r2 = s.regs .r2 := by simp [e1, hz]
    have hr3 : t.regs .r3 = s.regs .r3 := by simp [e1, hz]
    have hr5 : t.regs .r5 = s.regs .r2 >>> 1 := by simp [e1, hz]
    have hm : t.mem = s.mem := by simp [e1, hz]
    obtain ⟨u, hu⟩ := reaches_wordLoop ord base ((s.regs .r2).toNat / 2 - 1) hpc1
      (by rw [hr5]; omega) (by rw [hr3]; exact hd) (by rw [hr0]; exact hw)
    have hsame : SameRegs kept s t := by simp [SameRegs, kept, e1, hz]
    have hlen : (s.regs .r2).toNat % 2 + 2 * ((s.regs .r2).toNat / 2 - 1 + 1) =
        (s.regs .r2).toNat := by omega
    rw [hr0, hr2, hr3, hm, hlen] at hu
    exact ⟨u, Filled.of_reaches b1 hsame hu⟩

/-- `memset.S:28-49`: the odd byte in front, then the words. -/
theorem reaches_head {s : State} (h : s.pc = 16#16) (hn : s.regs .r2 ≠ 0#16)
    (hw : loByte (s.regs .r0) = hiByte (s.regs .r0)) :
    ∃ t, Filled ord base s t
      (fill (s.regs .r3) (hiByte (s.regs .r0)) (s.regs .r2).toNat s.mem) := by
  obtain ⟨k, hk⟩ : ∃ k, (s.regs .r2).toNat = k + 1 := ⟨(s.regs .r2).toNat - 1, by bv_omega⟩
  obtain ⟨t, b1, e1⟩ := exists_block ord (program base) 3 h rfl rfl (by decide)
  by_cases hev : s.regs .r3 &&& 1#16 = 0#16
  · have hd := (and_one_eq_zero _).1 hev
    have hpc1 : t.pc = entry .words := by simp [e1, hev]
    have hr0 : t.regs .r0 = s.regs .r0 := by simp [e1, hev]
    have hr2 : t.regs .r2 = s.regs .r2 := by simp [e1, hev]
    have hr3 : t.regs .r3 = s.regs .r3 := by simp [e1, hev]
    have hm : t.mem = s.mem := by simp [e1, hev]
    have hsame : SameRegs kept s t := by simp [SameRegs, kept, e1, hev]
    obtain ⟨u, hu⟩ := reaches_words ord base hpc1 (by rw [hr3]; exact hd) (by rw [hr0]; exact hw)
    rw [hr0, hr2, hr3, hm] at hu
    exact ⟨u, Filled.of_reaches b1 hsame hu⟩
  · have hd : (s.regs .r3).toNat % 2 = 1 := by
      rw [and_one_eq_zero] at hev
      omega
    have hpc1 : t.pc = 24#16 := by simp [e1, h, hev]
    obtain ⟨u, b2, e2⟩ := exists_block ord (program base) 3 hpc1 rfl rfl (by decide)
    by_cases hz : s.regs .r2 - 1#16 = 0#16
    · have hk0 : k = 0 := by bv_omega
      refine ⟨u, b1.trans b2, by simp [e2, e1, hev, hz], ?_, ?_⟩
      · simp [SameRegs, kept, e2, e1, hev, hz]
      · rw [hk, hk0, fill, fill]
        simp [e2, e1, hev, hz]
    · have hpc2 : u.pc = entry .words := by simp [e2, e1, h, entry, hev, hz]
      have hr0 : u.regs .r0 = s.regs .r0 := by simp [e2, e1, hev, hz]
      have hr2 : u.regs .r2 = s.regs .r2 - 1#16 := by simp [e2, e1, hev, hz]
      have hr3 : u.regs .r3 = s.regs .r3 + 1#16 := by simp [e2, e1, hev, hz]
      have hm : u.mem = writeByte s.mem (s.regs .r3) (hiByte (s.regs .r0)) := by
        simp [e2, e1, hev, hz]
      have hsame : SameRegs kept s u := by simp [SameRegs, kept, e2, e1, hev, hz]
      have hlen : (s.regs .r2 - 1#16).toNat = k := by bv_omega
      obtain ⟨v, hv⟩ := reaches_words ord base hpc2 (by rw [hr3]; bv_omega)
        (by rw [hr0]; exact hw)
      rw [hr0, hr2, hr3, hm, hlen] at hv
      rw [hk]
      exact ⟨v, Filled.of_reaches (b1.trans b2) hsame hv⟩

/-- `memset.S:51-53`. -/
theorem reaches_done {s : State} (h : s.pc = entry .done) :
    ∃ t, Reaches ord (program base) s t ∧ t.pc = s.regs .r11 - base ∧ t.mem = s.mem ∧
      t.regs .r0 = s.regs .r4 := by
  obtain ⟨t, b1, e1⟩ := exists_block ord (program base) 2 h rfl rfl (by decide)
  exact ⟨t, b1, by simp [e1], by simp [e1], by simp [e1]⟩

/-- `memset.S:13-53`: the run returns `dest` and fills with `fillByte`. -/
theorem memset_fills {s : State} (h : s.pc = entry .memset) :
    ∃ t, Reaches ord (program base) s t ∧ t.pc = s.regs .r11 - base ∧ t.regs .r0 = s.regs .r0 ∧
      t.mem = fill (s.regs .r0) (fillByte (s.regs .r1)) (s.regs .r2).toNat s.mem := by
  obtain ⟨t, b1, e1⟩ := exists_block ord (program base) 4 h rfl rfl (by decide)
  by_cases hn : s.regs .r2 = 0#16
  · obtain ⟨u, b2, hpc2, hm2, hr2⟩ := reaches_done ord base (s := t) (by simp [e1, hn])
    refine ⟨u, b1.trans b2, ?_, ?_, ?_⟩
    · rw [hpc2]
      simp [e1, hn]
    · rw [hr2]
      simp [e1, hn]
    · rw [hm2, hn]
      simp [e1, hn, fill]
  · have hpc1 : t.pc = 10#16 := by simp [e1, h, entry, hn]
    obtain ⟨u, b2, e2⟩ := exists_block ord (program base) 3 hpc1 rfl rfl (by decide)
    have hpc2 : u.pc = 16#16 := by simp [e2, hpc1]
    have hr0 : u.regs .r0 = (loByte (s.regs .r1) ++ hiByte (s.regs .r1)) ||| s.regs .r1 := by
      simp [e2, e1, hn]
    have hr2 : u.regs .r2 = s.regs .r2 := by simp [e2, e1, hn]
    have hr3 : u.regs .r3 = s.regs .r0 := by simp [e2, e1, hn]
    have hr4 : u.regs .r4 = s.regs .r0 := by simp [e2, e1, hn]
    have hr11 : u.regs .r11 = s.regs .r11 := by simp [e2, e1, hn]
    have hm : u.mem = s.mem := by simp [e2, e1, hn]
    obtain ⟨v, hv⟩ := reaches_head ord base hpc2 (by rw [hr2]; exact hn)
      (by rw [hr0, loByte_fillWord, hiByte_fillWord])
    obtain ⟨w, b3, hpc3, hm3, hret⟩ := reaches_done ord base hv.pc
    refine ⟨w, b1.trans (b2.trans (hv.reaches.trans b3)), ?_, ?_, ?_⟩
    · rw [hpc3, hv.kept .r11 (by decide), hr11]
    · rw [hret, hv.kept .r4 (by decide), hr4]
    · rw [hm3, hv.mem, hr0, hiByte_fillWord, hr2, hr3, hm]

section Aligned
variable {ord : CompareOrder} {base : Word} {t u : State}

/-- Offsets at which the pointer is not known to be even, and need not be. -/
def unaligned : List Nat := [0, 2, 4, 8, 10, 12, 14, 42, 46, 48, 50, 52]

/-- Offsets at which the pointer is even. -/
def aligned : List Nat := [26, 28, 30, 32, 34, 36, 38, 40]

/-- What is known about the pointer in `R3` at the instruction about to be
executed. -/
inductive Known (t : State) : Prop where
  | any : t.At unaligned → Known t
  | copy : t.At [16] → Known t
  | mask : t.At [18] → t.regs .r5 = t.regs .r3 → Known t
  | branch : t.At [22] → (t.st.eq = true ↔ (t.regs .r3).toNat % 2 = 0) → Known t
  | head : t.At [24] → (t.regs .r3).toNat % 2 = 1 → Known t
  | even : t.At aligned → (t.regs .r3).toNat % 2 = 0 → Known t

theorem unaligned_leadsTo : leadsTo text unaligned (unaligned ++ [16]) = true := by decide

theorem aligned_leadsTo : leadsTo text aligned (aligned ++ unaligned) = true := by decide

theorem offsets_lt : (∀ k ∈ unaligned, k < 65536) ∧ ∀ k ∈ aligned, k < 65536 := by decide

/-- In the word loop the pointer moves by whole words. -/
theorem aligned_even (hat : t.At aligned) (h : (t.regs .r3).toNat % 2 = 0)
    (hs : step ord (program base) t = some u) : (u.regs .r3).toNat % 2 = 0 := by
  obtain ⟨k, hk, hpc⟩ := hat
  simp only [aligned, List.mem_cons, List.not_mem_nil, or_false] at hk
  rcases hk with rfl | rfl | rfl | rfl | rfl | rfl | rfl | rfl
  all_goals
    have hu := step_at hpc rfl hs
    clear hs
    have hr : u.regs .r3 = t.regs .r3 ∨ u.regs .r3 = t.regs .r3 + 2#16 := by
      simp [hu]
      try (split <;> simp)
    rcases hr with he | he
    · rw [he]
      exact h
    · rw [he]
      bv_omega

theorem Known.step (h : Known t) (hb : fetch text t.pc.toNat ≠ some (.b .r11))
    (hs : Isa.step ord (program base) t = some u) : Known u := by
  cases h with
  | any hat =>
    rcases (leadsTo_step unaligned_leadsTo offsets_lt.1 hat hb hs).of_append with h1 | h1
    · exact .any h1
    · exact .copy h1
  | copy hat =>
    have hu := step_at hat.single rfl hs
    exact .mask (.of_pc (k := 18) (by simp [hu, hat.single]) (by decide)) (by simp [hu])
  | mask hat h5 =>
    have hu := step_at hat.single rfl hs
    have hev := and_one_eq_zero (t.regs .r3)
    exact .branch (.of_pc (k := 22) (by simp [hu, hat.single]) (by decide))
      (by simpa [hu, h5] using hev)
  | branch hat he =>
    have hu := step_at hat.single rfl hs
    cases heq : t.st.eq
    · rw [heq] at he
      simp only [Bool.false_eq_true, false_iff] at he
      exact .head (.of_pc (k := 24) (by simp [hu, hat.single, heq]) (by decide))
        (by simp [hu, heq]; omega)
    · exact .even (.of_pc (k := 30) (by simp [hu, heq, entry]) (by decide))
        (by simpa [hu, heq] using he.1 heq)
  | head hat hodd =>
    have hu := step_at hat.single rfl hs
    have h3 : u.regs .r3 = t.regs .r3 + 1#16 := by simp [hu]
    exact .even (.of_pc (k := 26) (by simp [hu, hat.single]) (by decide)) (by rw [h3]; bv_omega)
  | even hat hev =>
    rcases (leadsTo_step aligned_leadsTo offsets_lt.2 hat hb hs).of_append with h1 | h1
    · exact .even h1 (aligned_even hat hev hs)
    · exact .any h1

theorem Known.movEven (h : Known t) : MovEven text t := by
  have hother : ∀ ks : List Nat, movesThrough text [] ks = true → (∀ k ∈ ks, k < 65536) →
      t.At ks → MovEven text t :=
    fun ks hm hlt hat => movEven_of_through hm hlt hat (by simp)
  cases h with
  | any hat => exact hother _ (by decide) offsets_lt.1 hat
  | copy hat => exact hother _ (by decide) (by decide) hat
  | mask hat _ => exact hother _ (by decide) (by decide) hat
  | branch hat _ => exact hother _ (by decide) (by decide) hat
  | head hat _ => exact hother _ (by decide) (by decide) hat
  | even hat hev =>
    have hm : movesThrough text [.r3] aligned = true := by decide
    exact movEven_of_through hm offsets_lt.2 hat (by simp [hev])

end Aligned

/-- A call of `memset` from outside `memset.o`; the buffer does not wrap around. -/
structure MemsetEntry (base : Word) (s : State) : Prop where
  pc : s.pc = entry .memset
  ret : fetch text (s.regs .r11 - base).toNat = none
  dest : (s.regs .r0).toNat + (s.regs .r2).toNat ≤ 65536

/-- The C contract of `memset(dest, c, n)`: every byte of the buffer is
`(unsigned char)c`, no other byte changes, `dest` is returned and word stores
are at even addresses; the memory is the one the byte loop leaves. -/
def MemsetRight (ord : CompareOrder) (base : Word) (s : State) : Prop :=
  (∃ t, Halts ord (program base) s t ∧ t.pc = s.regs .r11 - base ∧ t.regs .r0 = s.regs .r0 ∧
    (∀ i < (s.regs .r2).toNat, t.mem (byteAt (s.regs .r0) i) = loByte (s.regs .r1)) ∧
    (∀ a : Word, (a.toNat < (s.regs .r0).toNat ∨
      (s.regs .r0).toNat + (s.regs .r2).toNat ≤ a.toNat) → t.mem a = s.mem a) ∧
    t.mem = minilibMemset (s.regs .r0) (s.regs .r1) (s.regs .r2) s.mem) ∧
  ∀ t, During ord (program base) s t → MovEven text t

section Contract
variable {ord : CompareOrder} {base : Word} {s : State}

theorem MemsetEntry.halts (ord : CompareOrder) (h : MemsetEntry base s) :
    ∃ t, Halts ord (program base) s t ∧ t.pc = s.regs .r11 - base ∧ t.regs .r0 = s.regs .r0 ∧
      t.mem = fill (s.regs .r0) (fillByte (s.regs .r1)) (s.regs .r2).toNat s.mem := by
  obtain ⟨t, b, hpc, hret, hmem⟩ := memset_fills ord base h.pc
  exact ⟨t, ⟨b, step_eq_none (by rw [hpc]; exact h.ret)⟩, hpc, hret, hmem⟩

/-- A buffer of at least one byte holds the fill byte, right or wrong. -/
theorem MemsetEntry.fillByte_eq (h : MemsetEntry base s) (hright : MemsetRight ord base s) :
    s.regs .r2 = 0#16 ∨ fillByte (s.regs .r1) = loByte (s.regs .r1) := by
  obtain ⟨t, hstop, -, -, hmem⟩ := h.halts ord
  obtain ⟨⟨u, hstop', -, -, hstored, -, -⟩, -⟩ := hright
  obtain rfl := hstop.unique hstop'
  by_cases hn : s.regs .r2 = 0#16
  · exact .inl hn
  · have hpos : 0 < (s.regs .r2).toNat := by bv_omega
    have hbyte := hstored 0 hpos
    rw [hmem, fill_at _ _ _ _ h.dest hpos] at hbyte
    exact .inr hbyte

theorem MemsetEntry.right (h : MemsetEntry base s)
    (hc : s.regs .r2 = 0#16 ∨ fillByte (s.regs .r1) = loByte (s.regs .r1)) :
    MemsetRight ord base s := by
  obtain ⟨t, hstop, hpc, hret, hmem⟩ := h.halts ord
  have hsame : t.mem = minilibMemset (s.regs .r0) (s.regs .r1) (s.regs .r2) s.mem := by
    rw [hmem, minilibMemset]
    rcases hc with hn | hb
    · rw [hn]
      rfl
    · rw [hb]
  refine ⟨⟨t, hstop, hpc, hret, ?_, ?_, hsame⟩, ?_⟩
  · intro i hi
    rw [hsame, minilibMemset, fill_at _ _ _ _ h.dest hi]
  · intro a ha
    rw [hmem, fill_frame]
    intro i hi he
    have hnat := byteAt_toNat h.dest hi
    rw [he] at hnat
    omega
  · intro u hu
    have hknown : Known u :=
      hu.invariant (.any ⟨0, by decide, h.pc⟩) fun _ _ hk hb hs => hk.step hb hs
    exact hknown.movEven

/-- `memset` meets its contract on an empty buffer, and where the high byte of
the argument has no bit that the low byte lacks. -/
theorem memset_right_iff (h : MemsetEntry base s) :
    MemsetRight ord base s ↔
      s.regs .r2 = 0#16 ∨ hiByte (s.regs .r1) ||| loByte (s.regs .r1) = loByte (s.regs .r1) :=
  ⟨h.fillByte_eq, h.right⟩

end Contract

/-- `memset(0xA001, c, 4)`. -/
def memsetFour (c : Word) : State where
  pc := entry .memset
  regs := fun
    | .r0 => 0xA001#16
    | .r1 => c
    | .r2 => 4#16
    | .r11 => 0x7000#16
    | _ => 0#16
  mem := fun _ => 0#8
  st := ⟨false, false, false, false⟩

theorem memsetFour_entry (c : Word) : MemsetEntry 0#16 (memsetFour c) := by
  refine ⟨rfl, ?_, ?_⟩
  · show fetch text (0x7000#16 - 0#16).toNat = none
    decide
  · show (0xA001#16).toNat + (4#16).toNat ≤ 65536
    decide

theorem memsetFour_minusOne : MemsetRight .manual 0#16 (memsetFour 0xFFFF#16) :=
  (memset_right_iff (memsetFour_entry 0xFFFF#16)).2 (.inr (by decide))

/-- `memset(p, -2, 4)` stores 0xFF. -/
theorem memsetFour_minusTwo_wrong :
    MemsetEntry 0#16 (memsetFour 0xFFFE#16) ∧
      ¬ MemsetRight .manual 0#16 (memsetFour 0xFFFE#16) := by
  refine ⟨memsetFour_entry 0xFFFE#16, ?_⟩
  intro hright
  rcases (memsetFour_entry 0xFFFE#16).fillByte_eq hright with h | h
  · exact absurd h (by decide)
  · exact absurd h (by decide)

end LlvmTms9900.Builtins.Memset
