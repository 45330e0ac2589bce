import LlvmTms9900.Runtime.DivisionCalls

/-!
# The signed legacy routines and when the four are right

`__divsi3` counts the negative operands in a scratch word, `__modsi3` notes
the sign of the dividend there. The four routines are right for a dividend and
a divisor exactly when no carry is misplaced, for the operands themselves and
for their magnitudes.
-/

set_option maxRecDepth 16384

namespace LlvmTms9900.Runtime
open LlvmTms9900.Isa
open LlvmTms9900.Builtins.Div32 (isNeg abs32 neg32 signed32 word32)

variable (base : Word)

def signWord (b : Bool) : Word := if b then 1#16 else 0#16

/-- Operands, return address and sign word between the stages of a signed
routine entered in `s`. -/
structure Prepared (link sign : Label) (s t : State) (n d : Nat) (v : Word) : Prop where
  num : t.pair .r0 .r1 = n
  den : t.pair .r2 .r3 = d
  link : saved base t link = s.regs .r11
  sign : saved base t sign = v

/-- Save the link, clear the sign word. -/
theorem piece_prologue (link sign : Label) {k : Nat} (hk : k + 8 ≤ 65536)
    (hne : entry link ≠ entry sign)
    (heven : (entry link).toNat % 2 = 0 ∧ (entry sign).toNat % 2 = 0)
    (hb : blockAt (program base).text k 2 =
      some [.mov (.reg .r11) (scratch base link), .clr (scratch base sign)])
    {s : State} (hpc : s.pc = BitVec.ofNat 16 k) :
    ∃ t, Reaches .manual (program base) s t ∧ t.pc = BitVec.ofNat 16 (k + 8) ∧
      Prepared base link sign s t (s.pair .r0 .r1) (s.pair .r2 .r3) 0#16 := by
  obtain ⟨t, b1, e1⟩ := exists_block .manual (program base) 2 hpc hb rfl
    (by simp [blockSize]; omega)
  have hmem : t.mem = writeWord (writeWord s.mem (base + entry link) (s.regs .r11))
      (base + entry sign) 0#16 := by simp [e1]
  refine ⟨t, b1, ?_, ?_, ?_, ?_, ?_⟩
  · simp [e1, hpc, BitVec.ofNat_add, BitVec.add_assoc]
  · simp [e1, State.pair]
  · simp [e1, State.pair]
  · rw [saved, hmem, readWord_writeWord_offset heven.2 heven.1 hne, readWord_writeWord_self]
  · rw [saved, hmem, readWord_writeWord_self]

/-- `INC @sign`. -/
theorem piece_bump {link sign : Label} {k : Nat} (hk : k + 4 ≤ 65536)
    (hne : entry link ≠ entry sign)
    (heven : (entry link).toNat % 2 = 0 ∧ (entry sign).toNat % 2 = 0)
    (hb : blockAt (program base).text k 1 = some [.inc (scratch base sign)])
    {s t : State} {n d : Nat} {v : Word} (hpc : t.pc = BitVec.ofNat 16 k)
    (h : Prepared base link sign s t n d v) :
    ∃ u, Reaches .manual (program base) t u ∧ u.pc = BitVec.ofNat 16 (k + 4) ∧
      Prepared base link sign s u n d (v + 1#16) := by
  obtain ⟨u, b1, e1⟩ := exists_block .manual (program base) 1 hpc hb rfl
    (by simp [blockSize]; omega)
  have hmem : u.mem = writeWord t.mem (base + entry sign) (saved base t sign + 1#16) := by
    simp [e1, saved]
  have hregs : u.regs = t.regs := by simp [e1]
  refine ⟨u, b1, ?_, ?_, ?_, ?_, ?_⟩
  · simp [e1, hpc, BitVec.ofNat_add]
  · rw [State.pair, hregs, ← State.pair, h.num]
  · rw [State.pair, hregs, ← State.pair, h.den]
  · rw [saved, hmem, readWord_writeWord_offset heven.2 heven.1 hne, ← saved, h.link]
  · rw [saved, hmem, readWord_writeWord_self, h.sign]

/-- A call of an unsigned routine: `BL` at `k`. -/
theorem piece_call {l : Label} {k : Nat} (hk : k + 4 ≤ 65536)
    (hb : blockAt (program base).text k 1 = some [.bl l]) {s : State}
    (hpc : s.pc = BitVec.ofNat 16 k) :
    ∃ t, Reaches .manual (program base) s t ∧ t.pc = entry l ∧
      t.regs .r11 - base = BitVec.ofNat 16 (k + 4) ∧ t.mem = s.mem ∧
      ∀ r, r ≠ .r11 → t.regs r = s.regs r := by
  obtain ⟨t, b1, e1⟩ := exists_block .manual (program base) 1 hpc hb rfl
    (by simp [blockSize]; omega)
  refine ⟨t, b1, by simp [e1], ?_, by simp [e1], ?_⟩
  · simp [e1, hpc, BitVec.ofNat_add]
  · intro r hr
    simp [e1, hr]

/-- Fetch the link and return. -/
theorem piece_return {link : Label} {k : Nat} (hk : k + 6 ≤ 65536)
    (hb : blockAt (program base).text k 2 =
      some [.mov (scratch base link) (.reg .r11), .b .r11]) {s : State}
    (hpc : s.pc = BitVec.ofNat 16 k) :
    ∃ t, Reaches .manual (program base) s t ∧ t.pc = saved base s link - base ∧
      t.pair .r0 .r1 = s.pair .r0 .r1 := by
  obtain ⟨t, b1, e1⟩ := exists_block .manual (program base) 2 hpc hb rfl
    (by simp [blockSize]; omega)
  exact ⟨t, b1, by simp [e1, saved], by simp [e1, State.pair]⟩

theorem Prepared.abs_num {link sign : Label} {s t u : State} {n d : Nat} {v : Word}
    (h : Prepared base link sign s t n d v) (hm : u.mem = t.mem)
    (hr : ∀ r, r ∉ [Reg.r0, .r1] → u.regs r = t.regs r)
    (hv : u.pair .r0 .r1 = abs32 (t.pair .r0 .r1)) :
    Prepared base link sign s u (abs32 n) d v where
  num := by rw [hv, h.num]
  den := by rw [State.pair, hr .r2 (by decide), hr .r3 (by decide), ← State.pair, h.den]
  link := by rw [saved, hm, ← saved, h.link]
  sign := by rw [saved, hm, ← saved, h.sign]

theorem Prepared.abs_den {link sign : Label} {s t u : State} {n d : Nat} {v : Word}
    (h : Prepared base link sign s t n d v) (hm : u.mem = t.mem)
    (hr : ∀ r, r ∉ [Reg.r2, .r3] → u.regs r = t.regs r)
    (hv : u.pair .r2 .r3 = abs32 (t.pair .r2 .r3)) :
    Prepared base link sign s u n (abs32 d) v where
  num := by rw [State.pair, hr .r0 (by decide), hr .r1 (by decide), ← State.pair, h.num]
  den := by rw [hv, h.den]
  link := by rw [saved, hm, ← saved, h.link]
  sign := by rw [saved, hm, ← saved, h.sign]

/-- `tms9900_rt.asm:198-231`: the magnitudes, and the count of negative operands. -/
theorem reaches_div_prepared {s : State} (hpc : s.pc = entry .divsi3) :
    ∃ t, Reaches .manual (program base) s t ∧ t.pc = BitVec.ofNat 16 280 ∧
      Prepared base .sdsav11 .sdSign s t (abs32 (s.pair .r0 .r1)) (abs32 (s.pair .r2 .r3))
        (signWord (isNeg (s.pair .r0 .r1)) + signWord (isNeg (s.pair .r2 .r3))) := by
  have hx := textFrom_div base
  obtain ⟨t1, b1, hpc1, h1⟩ := piece_prologue base .sdsav11 .sdSign (k := 232)
    (by decide) (by decide) (by decide) (hx.blockAt (k := 0) rfl) hpc
  obtain ⟨t2, b2, hm2, hr2, hv2, hpc2⟩ := piece_abs .r0 .r1 (by decide) (k := 240) (by decide)
    (hx.blockAt (k := 8) rfl) (hx.blockAt (k := 12) rfl) (hx.blockAt (k := 14) rfl)
    (hx.blockAt (k := 22) rfl) (target_eq base .sdivNd1) hpc1
  have h2 := h1.abs_num base hm2 hr2 hv2
  rw [h1.num] at hpc2
  obtain ⟨t3, b3, hpc3, h3⟩ : ∃ t3, Reaches .manual (program base) t2 t3 ∧
      t3.pc = BitVec.ofNat 16 260 ∧ Prepared base .sdsav11 .sdSign s t3 (abs32 (s.pair .r0 .r1))
        (s.pair .r2 .r3) (signWord (isNeg (s.pair .r0 .r1))) := by
    cases hn : isNeg (s.pair .r0 .r1) with
    | false =>
      rw [hn, if_neg Bool.false_ne_true, target_eq] at hpc2
      exact ⟨t2, Reaches.refl _ _ _, hpc2, h2⟩
    | true =>
      rw [hn, if_pos rfl] at hpc2
      exact piece_bump base (k := 256) (by decide) (by decide) (by decide)
        (hx.blockAt (k := 24) rfl) hpc2 h2
  obtain ⟨t4, b4, hm4, hr4, hv4, hpc4⟩ := piece_abs .r2 .r3 (by decide) (k := 260) (by decide)
    (hx.blockAt (k := 28) rfl) (hx.blockAt (k := 32) rfl) (hx.blockAt (k := 34) rfl)
    (hx.blockAt (k := 42) rfl) (target_eq base .sdivNd2) hpc3
  have h4 := h3.abs_den base hm4 hr4 hv4
  rw [h3.den] at hpc4
  have hb := b1.trans (b2.trans (b3.trans b4))
  cases hn : isNeg (s.pair .r2 .r3) with
  | false =>
    rw [hn, if_neg Bool.false_ne_true, target_eq] at hpc4
    refine ⟨t4, hb, hpc4, ?_⟩
    rw [signWord, signWord, if_neg Bool.false_ne_true, BitVec.add_zero]
    exact h4
  | true =>
    rw [hn, if_pos rfl] at hpc4
    obtain ⟨t5, b5, hpc5, h5⟩ := piece_bump base (k := 276) (by decide) (by decide) (by decide)
      (hx.blockAt (k := 44) rfl) hpc4 h4
    exact ⟨t5, hb.trans b5, hpc5, h5⟩

/-- `tms9900_rt.asm:357-388`: the magnitudes, and the sign of the dividend. -/
theorem reaches_mod_prepared {s : State} (hpc : s.pc = entry .modsi3) :
    ∃ t, Reaches .manual (program base) s t ∧ t.pc = BitVec.ofNat 16 480 ∧
      Prepared base .smsav11 .smSign s t (abs32 (s.pair .r0 .r1)) (abs32 (s.pair .r2 .r3))
        (signWord (isNeg (s.pair .r0 .r1))) := by
  have hx := textFrom_mod base
  obtain ⟨t1, b1, hpc1, h1⟩ := piece_prologue base .smsav11 .smSign (k := 436)
    (by decide) (by decide) (by decide) (hx.blockAt (k := 0) rfl) hpc
  obtain ⟨t2, b2, hm2, hr2, hv2, hpc2⟩ := piece_abs .r0 .r1 (by decide) (k := 444) (by decide)
    (hx.blockAt (k := 8) rfl) (hx.blockAt (k := 12) rfl) (hx.blockAt (k := 14) rfl)
    (hx.blockAt (k := 22) rfl) (target_eq base .smodNd1) hpc1
  have h2 := h1.abs_num base hm2 hr2 hv2
  rw [h1.num] at hpc2
  obtain ⟨t3, b3, hpc3, h3⟩ : ∃ t3, Reaches .manual (program base) t2 t3 ∧
      t3.pc = BitVec.ofNat 16 464 ∧ Prepared base .smsav11 .smSign s t3 (abs32 (s.pair .r0 .r1))
        (s.pair .r2 .r3) (signWord (isNeg (s.pair .r0 .r1))) := by
    cases hn : isNeg (s.pair .r0 .r1) with
    | false =>
      rw [hn, if_neg Bool.false_ne_true, target_eq] at hpc2
      exact ⟨t2, Reaches.refl _ _ _, hpc2, h2⟩
    | true =>
      rw [hn, if_pos rfl] at hpc2
      exact piece_bump base (k := 460) (by decide) (by decide) (by decide)
        (hx.blockAt (k := 24) rfl) hpc2 h2
  obtain ⟨t4, b4, hm4, hr4, hv4, hpc4⟩ := piece_abs .r2 .r3 (by decide) (k := 464) (by decide)
    (hx.blockAt (k := 28) rfl) (hx.blockAt (k := 32) rfl) (hx.blockAt (k := 34) rfl)
    (hx.blockAt (k := 42) rfl) (target_eq base .smodPos2) hpc3
  have h4 := h3.abs_den base hm4 hr4 hv4
  refine ⟨t4, b1.trans (b2.trans (b3.trans b4)), ?_, h4⟩
  rw [hpc4, target_eq]
  exact ite_self _

/-- What `__divsi3` and `__modsi3` return. -/
def legacyDiv (n d : Nat) : Nat :=
  if isNeg n = isNeg d then (legacyValue (abs32 n) (abs32 d)).quo
  else neg32 (legacyValue (abs32 n) (abs32 d)).quo

def legacyMod (n d : Nat) : Nat :=
  if isNeg n then neg32 (legacyValue (abs32 n) (abs32 d)).rem
  else (legacyValue (abs32 n) (abs32 d)).rem

/-- The optional negation of the result, then the return. -/
theorem piece_finish {link l : Label} {k : Nat} (hk : k + 16 ≤ 65536)
    (hb1 : blockAt (program base).text k 4 =
      some [.inv (.reg .r0), .inv (.reg .r1), .inc (.reg .r1), .jump .nc l])
    (hb2 : blockAt (program base).text (k + 8) 1 = some [.inc (.reg .r0)])
    (hb3 : blockAt (program base).text (k + 10) 2 =
      some [.mov (scratch base link) (.reg .r11), .b .r11])
    (hl : entry l = BitVec.ofNat 16 (k + 10)) {negate : Bool} {s : State}
    (hpc : s.pc = if negate then BitVec.ofNat 16 k else entry l) :
    ∃ t, Reaches .manual (program base) s t ∧ t.pc = saved base s link - base ∧
      t.pair .r0 .r1 = if negate then neg32 (s.pair .r0 .r1) else s.pair .r0 .r1 := by
  cases negate with
  | false =>
    rw [if_neg Bool.false_ne_true, hl] at hpc
    rw [if_neg Bool.false_ne_true]
    exact piece_return base (by omega) hb3 hpc
  | true =>
    rw [if_pos rfl] at hpc
    obtain ⟨t, m1, hv⟩ := piece_negate .r0 .r1 (by decide) (by omega) hb1 hb2
      ((target_eq base l).trans hl) hpc
    obtain ⟨u, b2, hpc2, hu⟩ := piece_return base (by omega) hb3 m1.pc
    refine ⟨u, m1.reaches.trans b2, ?_, ?_⟩
    · rw [hpc2, saved, m1.mem, ← saved]
    · rw [hu, hv, if_pos rfl]

theorem signWord_parity (a b : Bool) :
    (signWord a + signWord b) &&& 1#16 = 0#16 ↔ a = b := by
  cases a <;> cases b <;> decide

/-- `tms9900_rt.asm:198-247`. -/
theorem divsi3_returns {s : State} (hpc : s.pc = entry .divsi3) (hd : s.pair .r2 .r3 ≠ 0) :
    ∃ t, Reaches .manual (program base) s t ∧ t.pc = s.regs .r11 - base ∧
      t.pair .r0 .r1 = legacyDiv (s.pair .r0 .r1) (s.pair .r2 .r3) := by
  have hx := textFrom_div base
  have hdlt := s.pair_lt .r2 .r3
  obtain ⟨t1, b1, hpc1, h1⟩ := reaches_div_prepared base hpc
  obtain ⟨t2, b2, hpc2, hlink2, hm2, hr2⟩ := piece_call base (k := 280) (by decide)
    (hx.blockAt (k := 48) rfl) hpc1
  have hnum : t2.pair .r0 .r1 = abs32 (s.pair .r0 .r1) := by
    rw [State.pair, hr2 .r0 (by decide), hr2 .r1 (by decide), ← State.pair, h1.num]
  have hden : t2.pair .r2 .r3 = abs32 (s.pair .r2 .r3) := by
    rw [State.pair, hr2 .r2 (by decide), hr2 .r3 (by decide), ← State.pair, h1.den]
  obtain ⟨t3, h3⟩ := udivsi3_divided base hpc2
    (by rw [hden]; exact Builtins.Div32.abs32_ne_zero hdlt hd)
  have hpc3 : t3.pc = BitVec.ofNat 16 284 := by rw [h3.pc, hlink2]
  have hsign : saved base t3 .sdSign =
      signWord (isNeg (s.pair .r0 .r1)) + signWord (isNeg (s.pair .r2 .r3)) := by
    rw [h3.scratch .sdSign (by simp), saved, hm2, ← saved, h1.sign]
  have hlink : saved base t3 .sdsav11 = s.regs .r11 := by
    rw [h3.scratch .sdsav11 (by simp), saved, hm2, ← saved, h1.link]
  obtain ⟨t4, b4, e4⟩ := exists_block .manual (program base) 3 hpc3 (hx.blockAt (k := 52) rfl) rfl
    (by simp [blockSize])
  have hpc4 : t4.pc = if !decide (isNeg (s.pair .r0 .r1) = isNeg (s.pair .r2 .r3)) then
      BitVec.ofNat 16 294 else entry .sdivRet := by
    have hp := signWord_parity (isNeg (s.pair .r0 .r1)) (isNeg (s.pair .r2 .r3))
    rw [← hsign, saved] at hp
    by_cases hs : isNeg (s.pair .r0 .r1) = isNeg (s.pair .r2 .r3)
    · have hz := hp.2 hs
      simp [e4, hz, hs]
    · have hz := mt hp.1 hs
      simp [e4, hz, hs, hpc3]
  have hm4 : t4.mem = t3.mem := by
    by_cases hz : readWord t3.mem (base + entry .sdSign) &&& 1#16 = 0#16 <;> simp [e4, hz]
  have hp4 : t4.pair .r0 .r1 = t3.pair .r0 .r1 := by
    by_cases hz : readWord t3.mem (base + entry .sdSign) &&& 1#16 = 0#16 <;>
      simp [e4, hz, State.pair]
  obtain ⟨t5, b5, hpc5, hv5⟩ := piece_finish base (k := 294) (by decide)
    (hx.blockAt (k := 62) rfl) (hx.blockAt (k := 70) rfl) (hx.blockAt (k := 72) rfl) rfl hpc4
  refine ⟨t5, b1.trans (b2.trans (h3.reaches.trans (b4.trans b5))), ?_, ?_⟩
  · rw [hpc5, saved, hm4, ← saved, hlink]
  · rw [hv5, hp4, h3.value, hnum, hden, legacyDiv]
    by_cases hs : isNeg (s.pair .r0 .r1) = isNeg (s.pair .r2 .r3) <;> simp [hs]

/-- `tms9900_rt.asm:357-403`. -/
theorem modsi3_returns {s : State} (hpc : s.pc = entry .modsi3) (hd : s.pair .r2 .r3 ≠ 0) :
    ∃ t, Reaches .manual (program base) s t ∧ t.pc = s.regs .r11 - base ∧
      t.pair .r0 .r1 = legacyMod (s.pair .r0 .r1) (s.pair .r2 .r3) := by
  have hx := textFrom_mod base
  have hdlt := s.pair_lt .r2 .r3
  obtain ⟨t1, b1, hpc1, h1⟩ := reaches_mod_prepared base hpc
  obtain ⟨t2, b2, hpc2, hlink2, hm2, hr2⟩ := piece_call base (k := 480) (by decide)
    (hx.blockAt (k := 44) rfl) hpc1
  have hnum : t2.pair .r0 .r1 = abs32 (s.pair .r0 .r1) := by
    rw [State.pair, hr2 .r0 (by decide), hr2 .r1 (by decide), ← State.pair, h1.num]
  have hden : t2.pair .r2 .r3 = abs32 (s.pair .r2 .r3) := by
    rw [State.pair, hr2 .r2 (by decide), hr2 .r3 (by decide), ← State.pair, h1.den]
  obtain ⟨t3, h3⟩ := umodsi3_divided base hpc2
    (by rw [hden]; exact Builtins.Div32.abs32_ne_zero hdlt hd)
  have hpc3 : t3.pc = BitVec.ofNat 16 484 := by rw [h3.pc, hlink2]
  have hsign : saved base t3 .smSign = signWord (isNeg (s.pair .r0 .r1)) := by
    rw [h3.scratch .smSign (by simp), saved, hm2, ← saved, h1.sign]
  have hlink : saved base t3 .smsav11 = s.regs .r11 := by
    rw [h3.scratch .smsav11 (by simp), saved, hm2, ← saved, h1.link]
  obtain ⟨t4, b4, e4⟩ := exists_block .manual (program base) 2 hpc3 (hx.blockAt (k := 48) rfl) rfl
    (by simp [blockSize])
  rw [saved] at hsign
  have hpc4 : t4.pc = if isNeg (s.pair .r0 .r1) then BitVec.ofNat 16 490 else entry .smodRet := by
    cases hn : isNeg (s.pair .r0 .r1) <;> rw [hn] at hsign <;> simp [e4, hsign, signWord, hpc3]
  have hm4 : t4.mem = t3.mem := by
    by_cases hz : readWord t3.mem (base + entry .smSign) = 0#16 <;> simp [e4, hz]
  have hp4 : t4.pair .r0 .r1 = t3.pair .r0 .r1 := by
    by_cases hz : readWord t3.mem (base + entry .smSign) = 0#16 <;> simp [e4, hz, State.pair]
  obtain ⟨t5, b5, hpc5, hv5⟩ := piece_finish base (k := 490) (by decide)
    (hx.blockAt (k := 54) rfl) (hx.blockAt (k := 62) rfl) (hx.blockAt (k := 64) rfl) rfl hpc4
  refine ⟨t5, b1.trans (b2.trans (h3.reaches.trans (b4.trans b5))), ?_, ?_⟩
  · rw [hpc5, saved, hm4, ← saved, hlink]
  · rw [hv5, hp4, h3.value, hnum, hden, legacyMod]

/-- A call from outside the library with a divisor that is not zero. -/
structure DivisionEntry (s : State) : Prop where
  ret : fetch (program base).text (s.regs .r11 - base).toNat = none
  divisor : s.pair .r2 .r3 ≠ 0

/-- The routine `l`, entered with the registers and memory of `s`, comes back
to the caller with `value` in `R0:R1`. -/
def ComesBack (l : Label) (s : State) (value : Nat) : Prop :=
  ∃ t, Halts .manual (program base) { s with pc := entry l } t ∧ t.pc = s.regs .r11 - base ∧
    t.pair .r0 .r1 = value

/-- The four routines return the quotient and the remainder, unsigned and
truncated toward zero. -/
structure DivisionRight (s : State) : Prop where
  udiv : ComesBack base .udivsi3 s (s.pair .r0 .r1 / s.pair .r2 .r3)
  umod : ComesBack base .umodsi3 s (s.pair .r0 .r1 % s.pair .r2 .r3)
  div : ComesBack base .divsi3 s
    (word32 ((signed32 (s.pair .r0 .r1)).tdiv (signed32 (s.pair .r2 .r3))))
  mod : ComesBack base .modsi3 s
    (word32 ((signed32 (s.pair .r0 .r1)).tmod (signed32 (s.pair .r2 .r3))))

variable {base}

/-- The machine is deterministic, so that a routine comes back with one value. -/
theorem comesBack_iff {l : Label} {s : State} {v w : Nat}
    (hret : fetch (program base).text (s.regs .r11 - base).toNat = none)
    (h : ∃ t, Reaches .manual (program base) { s with pc := entry l } t ∧
      t.pc = s.regs .r11 - base ∧ t.pair .r0 .r1 = v) :
    ComesBack base l s w ↔ v = w := by
  obtain ⟨t, b, hpc, hv⟩ := h
  have hstop : Halts .manual (program base) { s with pc := entry l } t :=
    ⟨b, step_eq_none (by rw [hpc]; exact hret)⟩
  constructor
  · rintro ⟨u, hu, -, hw⟩
    rw [← hv, ← hw, hstop.unique hu]
  · rintro rfl
    exact ⟨t, hstop, hpc, hv⟩

theorem neg32_inj {x y : Nat} (hx : x < 2 ^ 32) (hy : y < 2 ^ 32) :
    neg32 x = neg32 y ↔ x = y := by
  unfold neg32
  omega

theorem legacyRound_rem_lt {d : Nat} {x : Division} (h : x.num < 2 ^ 32) :
    (legacyRound d x).rem < 2 ^ 32 := by
  have htrial : x.trial < 2 ^ 32 := by
    unfold Division.trial doubled
    omega
  unfold legacyRound
  split
  · exact htrial
  · exact (Nat.sub_le _ _).trans_lt htrial

theorem legacyValue_lt {n d : Nat} (hn : n < 2 ^ 32) (hd : 0 < d) :
    (legacyValue n d).quo < 2 ^ 32 ∧ (legacyValue n d).rem < 2 ^ 32 := by
  constructor
  · obtain ⟨m, e, h⟩ := legacyInv_iterate hn hd 32 le_rfl
    rw [legacyValue, h.quo]
    omega
  · obtain ⟨m, e, h⟩ := legacyInv_iterate hn hd 31 (by norm_num)
    rw [legacyValue, Function.iterate_succ_apply']
    refine legacyRound_rem_lt ?_
    rw [h.num]
    omega

theorem legacyDiv_iff {n d : Nat} (hn : n < 2 ^ 32) (hd : d < 2 ^ 32) (hd0 : d ≠ 0) :
    legacyDiv n d = word32 ((signed32 n).tdiv (signed32 d)) ↔
      (legacyValue (abs32 n) (abs32 d)).quo = abs32 n / abs32 d := by
  have hnlt := Builtins.Div32.abs32_lt hn
  have hpos := Nat.pos_of_ne_zero (Builtins.Div32.abs32_ne_zero hd hd0)
  have hq : abs32 n / abs32 d < 2 ^ 32 := (Nat.div_le_self _ _).trans_lt hnlt
  rw [Builtins.Div32.word32_tdiv hn hd, legacyDiv]
  split
  · exact Iff.rfl
  · exact neg32_inj (legacyValue_lt hnlt hpos).1 hq

theorem legacyMod_iff {n d : Nat} (hn : n < 2 ^ 32) (hd : d < 2 ^ 32) (hd0 : d ≠ 0) :
    legacyMod n d = word32 ((signed32 n).tmod (signed32 d)) ↔
      (legacyValue (abs32 n) (abs32 d)).rem = abs32 n % abs32 d := by
  have hnlt := Builtins.Div32.abs32_lt hn
  have hpos := Nat.pos_of_ne_zero (Builtins.Div32.abs32_ne_zero hd hd0)
  have hr : abs32 n % abs32 d < 2 ^ 32 := (Nat.mod_le _ _).trans_lt hnlt
  rw [Builtins.Div32.word32_tmod hn hd hd0, legacyMod]
  split
  · exact neg32_inj (legacyValue_lt hnlt hpos).2 hr
  · exact Iff.rfl

/-- What each routine comes back with, right or wrong. -/
theorem division_values {s : State} (h : DivisionEntry base s) :
    (∀ w, ComesBack base .udivsi3 s w ↔ (legacyValue (s.pair .r0 .r1) (s.pair .r2 .r3)).quo = w) ∧
    (∀ w, ComesBack base .umodsi3 s w ↔ (legacyValue (s.pair .r0 .r1) (s.pair .r2 .r3)).rem = w) ∧
    (∀ w, ComesBack base .divsi3 s w ↔ legacyDiv (s.pair .r0 .r1) (s.pair .r2 .r3) = w) ∧
    (∀ w, ComesBack base .modsi3 s w ↔ legacyMod (s.pair .r0 .r1) (s.pair .r2 .r3) = w) := by
  refine ⟨fun w => comesBack_iff h.ret ?_, fun w => comesBack_iff h.ret ?_,
    fun w => comesBack_iff h.ret ?_, fun w => comesBack_iff h.ret ?_⟩
  · obtain ⟨t, ht⟩ := udivsi3_divided base (s := { s with pc := entry .udivsi3 }) rfl h.divisor
    exact ⟨t, ht.reaches, ht.pc, ht.value⟩
  · obtain ⟨t, ht⟩ := umodsi3_divided base (s := { s with pc := entry .umodsi3 }) rfl h.divisor
    exact ⟨t, ht.reaches, ht.pc, ht.value⟩
  · exact divsi3_returns base (s := { s with pc := entry .divsi3 }) rfl h.divisor
  · exact modsi3_returns base (s := { s with pc := entry .modsi3 }) rfl h.divisor

/-- The four routines are right exactly when no carry is misplaced for the
operands and for their magnitudes. -/
theorem divisionRight_iff {s : State} (h : DivisionEntry base s) :
    DivisionRight base s ↔
      LegacyExact (s.pair .r0 .r1) (s.pair .r2 .r3) ∧
        LegacyExact (abs32 (s.pair .r0 .r1)) (abs32 (s.pair .r2 .r3)) := by
  have hn := s.pair_lt .r0 .r1
  have hd := s.pair_lt .r2 .r3
  have hd0 := h.divisor
  obtain ⟨h1, h2, h3, h4⟩ := division_values h
  rw [← legacy_right_iff hn (Nat.pos_of_ne_zero hd0),
    ← legacy_right_iff (Builtins.Div32.abs32_lt hn)
      (Nat.pos_of_ne_zero (Builtins.Div32.abs32_ne_zero hd hd0))]
  constructor
  · rintro ⟨hu, hm, hs, ht⟩
    exact ⟨⟨(h1 _).1 hu, (h2 _).1 hm⟩,
      (legacyDiv_iff hn hd hd0).1 ((h3 _).1 hs), (legacyMod_iff hn hd hd0).1 ((h4 _).1 ht)⟩
  · rintro ⟨⟨hu, hm⟩, hs, ht⟩
    exact ⟨(h1 _).2 hu, (h2 _).2 hm, (h3 _).2 ((legacyDiv_iff hn hd hd0).2 hs),
      (h4 _).2 ((legacyMod_iff hn hd hd0).2 ht)⟩

/-- A division of the value `hi:lo` by 1, called from 0x7000. -/
def divideByOne (hi lo : Word) : State where
  pc := 0#16
  regs := fun
    | .r0 => hi
    | .r1 => lo
    | .r3 => 1#16
    | .r10 => 0xFFF0#16
    | .r11 => 0x7000#16
    | _ => 0#16
  mem := fun _ => 0#8
  st := ⟨false, false, false, false⟩

theorem divideByOne_entry (hi lo : Word) : DivisionEntry 0x6000#16 (divideByOne hi lo) where
  ret := by
    have hoff : ((divideByOne hi lo).regs .r11 - 0x6000#16).toNat = 3484 + 612 := by
      simp [divideByOne]
    rw [hoff, textFrom_ashr]
    decide
  divisor := by
    simp [State.pair, divideByOne]

theorem divideByOne_short : DivisionRight 0x6000#16 (divideByOne 0#16 1000#16) :=
  (divisionRight_iff (divideByOne_entry 0#16 1000#16)).2 (by decide)

/-- 0x10000 / 1 comes out as 0x20000. -/
theorem divideByOne_doubled :
    ComesBack 0x6000#16 .udivsi3 (divideByOne 1#16 0#16) 0x20000 ∧
      ¬ DivisionRight 0x6000#16 (divideByOne 1#16 0#16) := by
  have hentry := divideByOne_entry 1#16 0#16
  have hval := ((division_values hentry).1 0x20000).2 (by decide)
  refine ⟨hval, fun h => ?_⟩
  have h1 := ((division_values hentry).1 _).1 h.udiv
  rw [((division_values hentry).1 _).1 hval] at h1
  exact absurd h1 (by decide)

end LlvmTms9900.Runtime
