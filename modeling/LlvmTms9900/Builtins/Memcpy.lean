import LlvmTms9900.Builtins.ForwardCopy

/-!
# memcpy (libtms9900/builtins/memcpy.S, FreeRTOS/minilib.c)

The assembly moves words where both pointers are even. A word move reads two
bytes before it writes any, but two even addresses that differ are at least two
apart, so it is two byte moves all the same: the two versions leave the same
memory for every overlap.
-/

set_option maxRecDepth 8192

namespace LlvmTms9900.Builtins.Memcpy
open LlvmTms9900.Isa LlvmTms9900.Arith

inductive Label where
  | memcpy | words | wordLoop | tail | done | byteCopy
  deriving DecidableEq, Repr

def text : List (Line Label) :=
  [ .lab .memcpy,
    .ins (.mov (.reg .r0) (.reg .r4)),
    .ins (.mov (.reg .r0) (.reg .r3)),
    .ins (.ci .r2 0#16),
    .ins (.jump .eq .done),
    .ins (.mov (.reg .r3) (.reg .r0)),
    .ins (.xor (.reg .r1) .r0),
    .ins (.andi .r0 1#16),
    .ins (.jump .ne .byteCopy),
    .ins (.mov (.reg .r3) (.reg .r0)),
    .ins (.andi .r0 1#16),
    .ins (.jump .eq .words),
    .ins (.movb (.inc .r1) (.inc .r3)),
    .ins (.dec (.reg .r2)),
    .ins (.jump .eq .done),
    .lab .words,
    .ins (.mov (.reg .r2) (.reg .r0)),
    .ins (.srl .r0 1),
    .ins (.jump .eq .tail),
    .lab .wordLoop,
    .ins (.mov (.inc .r1) (.inc .r3)),
    .ins (.dec (.reg .r0)),
    .ins (.jump .ne .wordLoop),
    .lab .tail,
    .ins (.andi .r2 1#16),
    .ins (.jump .eq .done),
    .ins (.movb (.ind .r1) (.ind .r3)),
    .lab .done,
    .ins (.mov (.reg .r4) (.reg .r0)),
    .ins (.b .r11),
    .lab .byteCopy,
    .ins (.movb (.inc .r1) (.inc .r3)),
    .ins (.dec (.reg .r2)),
    .ins (.jump .ne .byteCopy),
    .ins (.jump .always .done) ]

/-- `memcpy.o` loaded at `base`. -/
def program (base : Word) : Program Label := ⟨base, text, fun _ => 0#16⟩

/-- `FreeRTOS/minilib.c:25-28`. -/
def minilibLoop (d s n : Word) (m : Memory) : Memory :=
  if n = 0#16 then m
  else minilibLoop (d + 1#16) (s + 1#16) (n - 1#16) (writeByte m d (m s))
termination_by n.toNat
decreasing_by bv_omega

/-- `memcpy` of `FreeRTOS/minilib.c`: memory and return value. -/
def minilibMemcpy (dest src n : Word) (m : Memory) : Memory × Word :=
  (minilibLoop dest src n m, dest)

theorem minilibLoop_eq (d s n : Word) (m : Memory) : minilibLoop d s n m = copyUp d s n.toNat m := by
  fun_induction minilibLoop d s n m with
  | case1 d s m => rfl
  | case2 d s n m hn ih =>
    obtain ⟨k, hk⟩ : ∃ k, n.toNat = k + 1 := ⟨n.toNat - 1, by bv_omega⟩
    rw [ih, hk, copyUp, show (n - 1#16).toNat = k by bv_omega]

theorem forwardText (base : Word) :
    ForwardText (program base) 10 .words .wordLoop .tail .done .byteCopy := by
  constructor <;> first | rfl | decide

/-- What a caller sees of `memcpy`. -/
structure Returned (ord : CompareOrder) (base : Word) (s t : State) (m : Memory) (ret : Word) :
    Prop where
  reaches : Reaches ord (program base) s t
  pc : t.pc = s.regs .r11 - base
  saved : SameRegs calleeSaved s t
  ret : t.regs .r0 = ret
  mem : t.mem = m

section Run
variable (ord : CompareOrder) (base : Word) {s : State}

/-- `memcpy.S:59-61`. -/
theorem reaches_done {t : State} (b : Reaches ord (program base) s t) (hpc : t.pc = 54#16)
    (h4 : t.regs .r4 = s.regs .r0) (h11 : t.regs .r11 = s.regs .r11)
    (hsaved : SameRegs calleeSaved s t) :
    ∃ u, Returned ord base s u t.mem (s.regs .r0) := by
  obtain ⟨u, b1, e1⟩ := exists_block ord (program base) 2 hpc rfl rfl (by decide)
  have hpcu : u.pc = s.regs .r11 - base := by simp [e1, h11, program]
  have hsv : SameRegs calleeSaved t u := by simp [SameRegs, calleeSaved, e1]
  exact ⟨u, b.trans b1, hpcu, hsaved.trans hsv, by simp [e1, h4], by simp [e1]⟩

/-- `memcpy.S:20-68`. -/
theorem memcpy_returned (h : s.pc = (program base).target .memcpy) :
    ∃ t, Returned ord base s t (copyUp (s.regs .r0) (s.regs .r1) (s.regs .r2).toNat s.mem)
      (s.regs .r0) := by
  have h0 : s.pc = 0#16 := h
  obtain ⟨t, b1, e1⟩ := exists_block ord (program base) 4 h0 rfl rfl (by decide)
  have hdone : (program base).target .done = 54#16 := rfl
  by_cases hn : s.regs .r2 = 0#16
  · have hm : t.mem = copyUp (s.regs .r0) (s.regs .r1) (s.regs .r2).toNat s.mem := by
      rw [hn]
      simp [e1, hn, copyUp]
    rw [← hm]
    exact reaches_done ord base b1 (by simp [e1, hn, hdone]) (by simp [e1, hn]) (by simp [e1, hn])
      (by simp [SameRegs, calleeSaved, e1, hn])
  · have hpc1 : t.pc = BitVec.ofNat 16 10 := by simp [e1, h0, hn]
    have hr1 : t.regs .r1 = s.regs .r1 := by simp [e1, hn]
    have hr2 : t.regs .r2 = s.regs .r2 := by simp [e1, hn]
    have hr3 : t.regs .r3 = s.regs .r0 := by simp [e1, hn]
    have hm1 : t.mem = s.mem := by simp [e1, hn]
    obtain ⟨u, b2, hpc2, hkept, hm2⟩ := (forwardText base).reaches ord hpc1 (hr2 ▸ hn)
    rw [hr1, hr2, hr3, hm1] at hm2
    rw [← hm2]
    have h4 : u.regs .r4 = s.regs .r0 := by
      rw [hkept .r4 (by decide)]
      simp [e1, hn]
    have h11 : u.regs .r11 = s.regs .r11 := by
      rw [hkept .r11 (by decide)]
      simp [e1, hn]
    have hsaved : SameRegs calleeSaved s t := by simp [SameRegs, calleeSaved, e1, hn]
    exact reaches_done ord base (b1.trans b2) hpc2 h4 h11
      (hsaved.trans (hkept.mono (by decide)))

end Run

/-- Only the destination is written. -/
theorem copyUp_frame {d s : Word} {n : Nat} (hd : d.toNat + n ≤ 65536) (m : Memory) {a : Word}
    (ha : a.toNat < d.toNat ∨ d.toNat + n ≤ a.toNat) : copyUp d s n m a = m a := by
  rw [copyUp_eq]
  refine copyAlong_frame _ _ fun i hi he => ?_
  have hnat := byteAt_toNat hd (List.mem_range.1 hi)
  rw [he] at hnat
  have hlt := List.mem_range.1 hi
  omega

/-- Nothing is read after it was written if the destination starts first or the
buffers are disjoint. -/
theorem copyUp_right_of_apart {d s : Word} {n : Nat} (hd : d.toNat + n ≤ 65536)
    (hs : s.toNat + n ≤ 65536) (m : Memory)
    (h : d.toNat ≤ s.toNat ∨ s.toNat + n ≤ d.toNat) : CopyRight d s n m (copyUp d s n m) := by
  rcases h with hle | hdis
  · exact copyUp_right hd hs hle m
  · by_cases hn : n = 0
    · subst hn
      exact fun i hi => absurd hi (by omega)
    · refine (copyUp_right_iff hd hs (by omega) m).2 fun i hi j hj he => ?_
      rw [byteAt_eq_iff hd hs hi hj] at he
      omega

/-- From every state, `memcpy` returns the memory and the pointer that the byte
loop of the FreeRTOS port returns. -/
theorem memcpy_agrees (ord : CompareOrder) (base : Word) {s : State}
    (h : s.pc = (program base).target .memcpy)
    (hd : (s.regs .r0).toNat + (s.regs .r2).toNat ≤ 65536)
    (hs : (s.regs .r1).toNat + (s.regs .r2).toNat ≤ 65536) :
    ∃ t, Returned ord base s t (minilibMemcpy (s.regs .r0) (s.regs .r1) (s.regs .r2) s.mem).1
        (minilibMemcpy (s.regs .r0) (s.regs .r1) (s.regs .r2) s.mem).2 ∧
      t.regs .r0 = s.regs .r0 ∧
      ((s.regs .r0).toNat ≤ (s.regs .r1).toNat ∨
          (s.regs .r0).toNat + (s.regs .r2).toNat ≤ (s.regs .r1).toNat ∨
          (s.regs .r1).toNat + (s.regs .r2).toNat ≤ (s.regs .r0).toNat →
        CopyRight (s.regs .r0) (s.regs .r1) (s.regs .r2).toNat s.mem t.mem) ∧
      ∀ a : Word, a.toNat < (s.regs .r0).toNat ∨
        (s.regs .r0).toNat + (s.regs .r2).toNat ≤ a.toNat → t.mem a = s.mem a := by
  obtain ⟨t, ht⟩ := memcpy_returned ord base h
  rw [minilibMemcpy, minilibLoop_eq]
  refine ⟨t, ht, ht.ret, fun hapart => ?_, fun a ha => ?_⟩
  · rw [ht.mem]
    exact copyUp_right_of_apart hd hs _ (by omega)
  · rw [ht.mem]
    exact copyUp_frame hd _ ha

/-- Seven bytes from 101 to 103: both pointers odd, and the ranges overlap. -/
def overlapping : State where
  pc := 0#16
  regs := fun
    | .r0 => 103#16
    | .r1 => 101#16
    | .r2 => 7#16
    | .r11 => 0x7000#16
    | _ => 0#16
  mem := fun a => a.extractLsb' 0 8
  st := ⟨false, false, false, false⟩

theorem overlapping_agrees :
    ∃ t, Returned .manual 0x6000#16 overlapping t (minilibMemcpy 103#16 101#16 7#16 overlapping.mem).1
      103#16 ∧ t.mem 110#16 = 110#8 := by
  obtain ⟨t, ht, -, -, hout⟩ := memcpy_agrees .manual 0x6000#16 (s := overlapping) rfl
    (by decide) (by decide)
  exact ⟨t, ht, hout 110#16 (by decide)⟩

end LlvmTms9900.Builtins.Memcpy
