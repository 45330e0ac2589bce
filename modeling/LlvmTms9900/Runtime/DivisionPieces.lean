import LlvmTms9900.Builtins.Div32Calls
import LlvmTms9900.Runtime.LegacyDivision

/-!
# The code both legacy divisions share

`__udivsi3` and `__umodsi3` of `runtime/tms9900_rt.asm` contain the same
instructions for the dividend and the remainder, at different offsets and with
different labels. Both are parameters here.
-/

namespace LlvmTms9900.Runtime
open LlvmTms9900.Isa

section
variable {L : Type} [DecidableEq L] {p : Program L}

/-- From `s` the run comes to offset `k`; memory and the registers outside
`changed` are as they were. -/
structure Moves (p : Program L) (k : Nat) (changed : List Reg)
    (s t : State) : Prop where
  reaches : Reaches .manual p s t
  pc : t.pc = BitVec.ofNat 16 k
  mem : t.mem = s.mem
  regs : ∀ r, r ∉ changed → t.regs r = s.regs r

theorem Moves.trans {j k : Nat} {xs ys : List Reg} {s t u : State} (h1 : Moves p j xs s t)
    (h2 : Moves p k ys t u) : Moves p k (xs ++ ys) s u where
  reaches := h1.reaches.trans h2.reaches
  pc := h2.pc
  mem := h2.mem.trans h1.mem
  regs r hr := by
    rw [List.mem_append, not_or] at hr
    rw [h2.regs r hr.2, h1.regs r hr.1]

theorem Moves.mono {k : Nat} {xs ys : List Reg} {s t : State} (h : Moves p k xs s t)
    (hsub : ∀ r ∈ xs, r ∈ ys) : Moves p k ys s t :=
  ⟨h.reaches, h.pc, h.mem, fun r hr => h.regs r fun hx => hr (hsub r hx)⟩

theorem Moves.pair {k : Nat} {xs : List Reg} {s t : State} (h : Moves p k xs s t) {a b : Reg}
    (ha : a ∉ xs) (hb : b ∉ xs) : t.pair a b = s.pair a b := by
  rw [State.pair, State.pair, h.regs a ha, h.regs b hb]

theorem doubled_words (hi lo : Word) :
    ((hi + if 32768 ≤ lo.toNat then 1#16 else 0#16) <<< 1).toNat * 65536 + (lo <<< 1).toNat =
      doubled (hi.toNat * 65536 + lo.toNat) := by
  have hh := hi.isLt
  have hl := lo.isLt
  unfold doubled
  rw [BitVec.toNat_shiftLeft, BitVec.toNat_shiftLeft, Nat.shiftLeft_eq, Nat.shiftLeft_eq,
    BitVec.toNat_add]
  split
  · simp only [BitVec.toNat_ofNat]
    omega
  · simp only [BitVec.toNat_ofNat]
    omega

/-- `SLA lo`, `JNC`, `INC hi`, `SLA hi`. -/
theorem piece_doubled (hi lo : Reg) (hne : hi ≠ lo) {k : Nat} {l : L} (hk : k + 8 ≤ 65536)
    (hb1 : blockAt p.text k 2 = some [.sla lo 1, .jump .nc l])
    (hb2 : blockAt p.text (k + 4) 1 = some [.inc (.reg hi)])
    (hb3 : blockAt p.text (k + 6) 1 = some [.sla hi 1])
    (hl : p.target l = BitVec.ofNat 16 (k + 6)) {s : State} (hpc : s.pc = BitVec.ofNat 16 k) :
    ∃ t, Moves p (k + 8) [hi, lo] s t ∧ t.pair hi lo = doubled (s.pair hi lo) := by
  have hw := doubled_words (s.regs hi) (s.regs lo)
  have hbit := getElem_fifteen (s.regs lo)
  obtain ⟨t, b1, e1⟩ := exists_block .manual p 2 hpc hb1 rfl (by simp [blockSize]; omega)
  by_cases hc : 32768 ≤ (s.regs lo).toNat
  · rw [if_pos hc] at hw
    have hbit' : (s.regs lo)[15] = true := by simp [hbit, hc]
    have hpc1 : t.pc = BitVec.ofNat 16 (k + 4) := by
      simp [e1, hpc, hbit', BitVec.ofNat_add, BitVec.add_assoc]
    obtain ⟨u, b2, e2⟩ := exists_block .manual p 1 hpc1 hb2 rfl (by simp [blockSize]; omega)
    have hpc2 : u.pc = BitVec.ofNat 16 (k + 6) := by
      simp [e2, hpc1, BitVec.ofNat_add, BitVec.add_assoc]
    obtain ⟨v, b3, e3⟩ := exists_block .manual p 1 hpc2 hb3 rfl (by simp [blockSize]; omega)
    refine ⟨v, ⟨b1.trans (b2.trans b3), ?_, ?_, ?_⟩, ?_⟩
    · simp [e3, hpc2, BitVec.ofNat_add, BitVec.add_assoc]
    · simp [e3, e2, e1, hbit']
    · intro r hr
      simp only [List.mem_cons, List.not_mem_nil, or_false, not_or] at hr
      simp [e3, e2, e1, hbit', hr]
    · simpa [State.pair, e3, e2, e1, hbit', hne, hne.symm] using hw
  · rw [if_neg hc, BitVec.add_zero] at hw
    have hbit' : (s.regs lo)[15] = false := by simp [hbit, hc]
    have hpc1 : t.pc = BitVec.ofNat 16 (k + 6) := by simp [e1, hbit', hl]
    obtain ⟨v, b3, e3⟩ := exists_block .manual p 1 hpc1 hb3 rfl (by simp [blockSize]; omega)
    refine ⟨v, ⟨b1.trans b3, ?_, ?_, ?_⟩, ?_⟩
    · simp [e3, hpc1, BitVec.ofNat_add, BitVec.add_assoc]
    · simp [e3, e1, hbit']
    · intro r hr
      simp only [List.mem_cons, List.not_mem_nil, or_false, not_or] at hr
      simp [e3, e1, hbit', hr]
    · simpa [State.pair, e3, e1, hbit', hne, hne.symm] using hw

/-- The top bit of `R0:R1` goes to `R14`. -/
theorem piece_msb {k : Nat} {setc dshift : L} (hk : k + 12 ≤ 65536)
    (hb1 : blockAt p.text k 3 = some [.clr (.reg .r14), .mov (.reg .r0) (.reg .r0), .jump .lt setc])
    (hb2 : blockAt p.text (k + 6) 1 = some [.jump .always dshift])
    (hb3 : blockAt p.text (k + 8) 1 = some [.li .r14 1#16])
    (hsetc : p.target setc = BitVec.ofNat 16 (k + 8))
    (hdshift : p.target dshift = BitVec.ofNat 16 (k + 12)) {s : State}
    (hpc : s.pc = BitVec.ofNat 16 k) :
    ∃ t, Moves p (k + 12) [.r14] s t ∧
      (t.regs .r14).toNat = s.pair .r0 .r1 / 2 ^ 31 := by
  have h0 := (s.regs .r0).isLt
  have h1 := (s.regs .r1).isLt
  have hslt := Builtins.Div32.slt_zero_iff (s.regs .r0)
  obtain ⟨t, b1, e1⟩ := exists_block .manual p 3 hpc hb1 rfl (by simp [blockSize]; omega)
  by_cases hneg : 32768 ≤ (s.regs .r0).toNat
  · have hs : (0#16).slt (s.regs .r0) = false := by
      rw [← Bool.not_eq_true, hslt]
      omega
    have hz : s.regs .r0 ≠ 0#16 := by bv_omega
    have hpc1 : t.pc = BitVec.ofNat 16 (k + 8) := by simp [e1, hs, hz, hsetc]
    obtain ⟨u, b2, e2⟩ := exists_block .manual p 1 hpc1 hb3 rfl (by simp [blockSize]; omega)
    refine ⟨u, ⟨b1.trans b2, ?_, ?_, ?_⟩, ?_⟩
    · simp [e2, hpc1, BitVec.ofNat_add, BitVec.add_assoc]
    · simp [e2, e1, hs, hz]
    · intro r hr
      rw [List.mem_singleton] at hr
      by_cases hr0 : r = .r0 <;> simp [e2, e1, hs, hz, hr, hr0]
    · simp [e2, State.pair]
      omega
  · have hnot : (0#16).slt (s.regs .r0) = true ∨ s.regs .r0 = 0#16 := by
      rw [hslt]
      bv_omega
    have hpc1 : t.pc = BitVec.ofNat 16 (k + 6) := by
      rcases hnot with hs | hz
      · simp [e1, hs, hpc, BitVec.ofNat_add, BitVec.add_assoc]
      · simp [e1, hz, hpc, BitVec.ofNat_add, BitVec.add_assoc]
    have hregs : t.regs = fun r => if r = .r14 then 0#16 else s.regs r := by
      funext r
      rcases hnot with hs | hz
      · by_cases hr0 : r = .r0 <;> simp [e1, hs, hr0]
      · by_cases hr0 : r = .r0 <;> simp [e1, hz, hr0]
    have hmem : t.mem = s.mem := by
      rcases hnot with hs | hz
      · simp [e1, hs]
      · simp [e1, hz]
    obtain ⟨u, b2, e2⟩ := exists_block .manual p 1 hpc1 hb2 rfl (by simp [blockSize]; omega)
    refine ⟨u, ⟨b1.trans b2, ?_, ?_, ?_⟩, ?_⟩
    · simp [e2, hdshift]
    · simp [e2, hmem]
    · intro r hr
      rw [List.mem_singleton] at hr
      simp [e2, hregs, hr]
    · simp [e2, hregs, State.pair]
      omega

/-- The dividend shifted left by one. -/
theorem piece_dividend {k : Nat} {l : L} (hk : k + 10 ≤ 65536)
    (hb1 : blockAt p.text k 3 = some [.sla .r0 1, .sla .r1 1, .jump .nc l])
    (hb2 : blockAt p.text (k + 6) 1 = some [.ori .r0 1#16])
    (hl : p.target l = BitVec.ofNat 16 (k + 10)) {s : State} (hpc : s.pc = BitVec.ofNat 16 k) :
    ∃ t, Moves p (k + 10) [.r0, .r1] s t ∧
      t.pair .r0 .r1 = 2 * s.pair .r0 .r1 % 2 ^ 32 := by
  have h0 := (s.regs .r0).isLt
  have h1 := (s.regs .r1).isLt
  have hs0 : (s.regs .r0 <<< 1).toNat = 2 * (s.regs .r0).toNat % 65536 := by
    rw [BitVec.toNat_shiftLeft, Nat.shiftLeft_eq]
    omega
  have hs1 : (s.regs .r1 <<< 1).toNat = 2 * (s.regs .r1).toNat % 65536 := by
    rw [BitVec.toNat_shiftLeft, Nat.shiftLeft_eq]
    omega
  have hor := Builtins.Div32.or_one_toNat (x := s.regs .r0 <<< 1) (by omega)
  have hbit := getElem_fifteen (s.regs .r1)
  obtain ⟨t, b1, e1⟩ := exists_block .manual p 3 hpc hb1 rfl (by simp [blockSize]; omega)
  by_cases hc : 32768 ≤ (s.regs .r1).toNat
  · have hbit' : (s.regs .r1)[15] = true := by simp [hbit, hc]
    have hpc1 : t.pc = BitVec.ofNat 16 (k + 6) := by
      simp [e1, hpc, hbit', BitVec.ofNat_add, BitVec.add_assoc]
    obtain ⟨u, b2, e2⟩ := exists_block .manual p 1 hpc1 hb2 rfl (by simp [blockSize]; omega)
    have hu0 : u.regs .r0 = s.regs .r0 <<< 1 ||| 1#16 := by simp [e2, e1, hbit']
    have hu1 : u.regs .r1 = s.regs .r1 <<< 1 := by simp [e2, e1, hbit']
    refine ⟨u, ⟨b1.trans b2, ?_, ?_, ?_⟩, ?_⟩
    · simp [e2, hpc1, BitVec.ofNat_add, BitVec.add_assoc]
    · simp [e2, e1, hbit']
    · intro r hr
      simp only [List.mem_cons, List.not_mem_nil, or_false, not_or] at hr
      simp [e2, e1, hbit', hr]
    · rw [State.pair, State.pair, hu0, hu1, hor, hs0, hs1]
      omega
  · have hbit' : (s.regs .r1)[15] = false := by simp [hbit, hc]
    have hu0 : t.regs .r0 = s.regs .r0 <<< 1 := by simp [e1, hbit']
    have hu1 : t.regs .r1 = s.regs .r1 <<< 1 := by simp [e1, hbit']
    refine ⟨t, ⟨b1, ?_, ?_, ?_⟩, ?_⟩
    · simp [e1, hbit', hl]
    · simp [e1, hbit']
    · intro r hr
      simp only [List.mem_cons, List.not_mem_nil, or_false, not_or] at hr
      simp [e1, hbit', hr]
    · rw [State.pair, State.pair, hu0, hu1, hs0, hs1]
      omega

/-- The bit in `R14` comes in at the bottom of the remainder, which is even. -/
theorem piece_bring {k : Nat} {l : L} (hk : k + 6 ≤ 65536)
    (hb1 : blockAt p.text k 2 = some [.a (.reg .r14) (.reg .r5), .jump .nc l])
    (hl : p.target l = BitVec.ofNat 16 (k + 6)) {s : State} (hpc : s.pc = BitVec.ofNat 16 k)
    (heven : s.pair .r4 .r5 % 2 = 0) (hbit : (s.regs .r14).toNat < 2) :
    ∃ t, Moves p (k + 6) [.r5] s t ∧
      t.pair .r4 .r5 = s.pair .r4 .r5 + (s.regs .r14).toNat := by
  have h5 := (s.regs .r5).isLt
  rw [State.pair] at heven
  obtain ⟨t, b1, e1⟩ := exists_block .manual p 2 hpc hb1 rfl (by simp [blockSize]; omega)
  have hc : ¬ 65536 ≤ (s.regs .r5).toNat + (s.regs .r14).toNat := by omega
  refine ⟨t, ⟨b1, ?_, ?_, ?_⟩, ?_⟩
  · simp [e1, hc, hl]
  · simp [e1, hc]
  · intro r hr
    rw [List.mem_singleton] at hr
    simp [e1, hc, hr]
  · simp [State.pair, e1, hc, BitVec.toNat_add]
    omega

/-- The remainder against the divisor; `C x,y` sets `L>` iff `x > y`. -/
theorem piece_compare {k : Nat} {next sub : L} (hk : k + 10 ≤ 65536)
    (hb1 : blockAt p.text k 2 = some [.c (.reg .r4) (.reg .r2), .jump .l next])
    (hb2 : blockAt p.text (k + 4) 1 = some [.jump .h sub])
    (hb3 : blockAt p.text (k + 6) 2 = some [.c (.reg .r5) (.reg .r3), .jump .l next])
    (hsub : p.target sub = BitVec.ofNat 16 (k + 10)) {s : State}
    (hpc : s.pc = BitVec.ofNat 16 k) :
    ∃ t, Reaches .manual p s t ∧ t.mem = s.mem ∧ t.regs = s.regs ∧
      t.pc = if s.pair .r4 .r5 < s.pair .r2 .r3 then p.target next
        else BitVec.ofNat 16 (k + 10) := by
  have h3 := (s.regs .r3).isLt
  have h5 := (s.regs .r5).isLt
  obtain ⟨t, b1, e1⟩ := exists_block .manual p 2 hpc hb1 rfl (by simp [blockSize]; omega)
  rcases Nat.lt_trichotomy (s.regs .r4).toNat (s.regs .r2).toNat with hlt | heq | hgt
  · have hv : s.pair .r4 .r5 < s.pair .r2 .r3 := by unfold State.pair; omega
    have hne : s.regs .r4 ≠ s.regs .r2 := by bv_omega
    have hno : ¬ (s.regs .r2).toNat < (s.regs .r4).toNat := by omega
    rw [if_pos hv]
    exact ⟨t, b1, by simp [e1, CompareOrder.over, hno, hne], by simp [e1, CompareOrder.over, hno, hne],
      by simp [e1, CompareOrder.over, hno, hne]⟩
  · have hreg : s.regs .r4 = s.regs .r2 := BitVec.eq_of_toNat_eq heq
    have hpc1 : t.pc = BitVec.ofNat 16 (k + 4) := by
      simp [e1, CompareOrder.over, hreg, hpc, BitVec.ofNat_add, BitVec.add_assoc]
    have hr1 : t.regs = s.regs := by simp [e1, CompareOrder.over, hreg]
    have hm1 : t.mem = s.mem := by simp [e1, CompareOrder.over, hreg]
    have hs1 : t.st.eq = true := by simp [e1, CompareOrder.over, hreg]
    obtain ⟨u, b2, e2⟩ := exists_block .manual p 1 hpc1 hb2 rfl (by simp [blockSize]; omega)
    have hpc2 : u.pc = BitVec.ofNat 16 (k + 6) := by
      simp [e2, hs1, hpc1, BitVec.ofNat_add, BitVec.add_assoc]
    have hr2 : u.regs = s.regs := by simp [e2, hs1, hr1]
    have hm2 : u.mem = s.mem := by simp [e2, hs1, hm1]
    obtain ⟨v, b3, e3⟩ := exists_block .manual p 2 hpc2 hb3 rfl (by simp [blockSize]; omega)
    by_cases hlo : (s.regs .r5).toNat < (s.regs .r3).toNat
    · have hv : s.pair .r4 .r5 < s.pair .r2 .r3 := by unfold State.pair; omega
      have hne : s.regs .r5 ≠ s.regs .r3 := by bv_omega
      have hno : ¬ (s.regs .r3).toNat < (s.regs .r5).toNat := by omega
      rw [if_pos hv]
      exact ⟨v, b1.trans (b2.trans b3), by simp [e3, CompareOrder.over, hr2, hm2, hno, hne],
        by simp [e3, CompareOrder.over, hr2, hno, hne],
        by simp [e3, CompareOrder.over, hr2, hno, hne]⟩
    · have hv : ¬ s.pair .r4 .r5 < s.pair .r2 .r3 := by unfold State.pair; omega
      have hor : (s.regs .r3).toNat < (s.regs .r5).toNat ∨ s.regs .r5 = s.regs .r3 := by bv_omega
      rw [if_neg hv]
      rcases hor with hno | hno
      · exact ⟨v, b1.trans (b2.trans b3), by simp [e3, CompareOrder.over, hr2, hm2, hno],
          by simp [e3, CompareOrder.over, hr2, hno],
          by simp [e3, CompareOrder.over, hr2, hno, hpc2, BitVec.ofNat_add, BitVec.add_assoc]⟩
      · exact ⟨v, b1.trans (b2.trans b3), by simp [e3, CompareOrder.over, hr2, hm2, hno],
          by simp [e3, CompareOrder.over, hr2, hno],
          by simp [e3, CompareOrder.over, hr2, hno, hpc2, BitVec.ofNat_add, BitVec.add_assoc]⟩
  · have hv : ¬ s.pair .r4 .r5 < s.pair .r2 .r3 := by unfold State.pair; omega
    have hne : s.regs .r4 ≠ s.regs .r2 := by bv_omega
    have hpc1 : t.pc = BitVec.ofNat 16 (k + 4) := by
      simp [e1, CompareOrder.over, hgt, hpc, BitVec.ofNat_add, BitVec.add_assoc]
    have hr1 : t.regs = s.regs := by simp [e1, CompareOrder.over, hgt]
    have hm1 : t.mem = s.mem := by simp [e1, CompareOrder.over, hgt]
    have hs1 : t.st.lgt = true ∧ t.st.eq = false := by simp [e1, CompareOrder.over, hgt, hne]
    obtain ⟨u, b2, e2⟩ := exists_block .manual p 1 hpc1 hb2 rfl (by simp [blockSize]; omega)
    rw [if_neg hv]
    exact ⟨u, b1.trans b2, by simp [e2, hs1.1, hs1.2, hm1], by simp [e2, hs1.1, hs1.2, hr1],
      by simp [e2, hs1.1, hs1.2, hsub]⟩

/-- The divisor subtracted from the remainder. -/
theorem piece_subtract {k : Nat} {borrow subhi : L} (hk : k + 10 ≤ 65536)
    (hb1 : blockAt p.text k 2 = some [.s (.reg .r3) (.reg .r5), .jump .nc borrow])
    (hb2 : blockAt p.text (k + 4) 1 = some [.jump .always subhi])
    (hb3 : blockAt p.text (k + 6) 1 = some [.dec (.reg .r4)])
    (hb4 : blockAt p.text (k + 8) 1 = some [.s (.reg .r2) (.reg .r4)])
    (hborrow : p.target borrow = BitVec.ofNat 16 (k + 6))
    (hsubhi : p.target subhi = BitVec.ofNat 16 (k + 8)) {s : State}
    (hpc : s.pc = BitVec.ofNat 16 k) (hle : s.pair .r2 .r3 ≤ s.pair .r4 .r5) :
    ∃ t, Moves p (k + 10) [.r4, .r5] s t ∧
      t.pair .r4 .r5 = s.pair .r4 .r5 - s.pair .r2 .r3 := by
  have h2 := (s.regs .r2).isLt
  have h3 := (s.regs .r3).isLt
  have h4 := (s.regs .r4).isLt
  have h5 := (s.regs .r5).isLt
  unfold State.pair at hle
  obtain ⟨t, b1, e1⟩ := exists_block .manual p 2 hpc hb1 rfl (by simp [blockSize]; omega)
  by_cases hc : (s.regs .r3).toNat ≤ (s.regs .r5).toNat
  · have hpc1 : t.pc = BitVec.ofNat 16 (k + 4) := by
      simp [e1, hc, hpc, BitVec.ofNat_add, BitVec.add_assoc]
    obtain ⟨u, b2, e2⟩ := exists_block .manual p 1 hpc1 hb2 rfl (by simp [blockSize]; omega)
    have hpc2 : u.pc = BitVec.ofNat 16 (k + 8) := by simp [e2, hsubhi]
    obtain ⟨v, b3, e3⟩ := exists_block .manual p 1 hpc2 hb4 rfl (by simp [blockSize]; omega)
    refine ⟨v, ⟨b1.trans (b2.trans b3), ?_, ?_, ?_⟩, ?_⟩
    · simp [e3, hpc2, BitVec.ofNat_add, BitVec.add_assoc]
    · simp [e3, e2, e1, hc]
    · intro r hr
      simp only [List.mem_cons, List.not_mem_nil, or_false, not_or] at hr
      simp [e3, e2, e1, hc, hr]
    · simp [State.pair, e3, e2, e1, hc, BitVec.toNat_sub]
      omega
  · have hpc1 : t.pc = BitVec.ofNat 16 (k + 6) := by simp [e1, hc, hborrow]
    obtain ⟨u, b2, e2⟩ := exists_block .manual p 1 hpc1 hb3 rfl (by simp [blockSize]; omega)
    have hpc2 : u.pc = BitVec.ofNat 16 (k + 8) := by
      simp [e2, hpc1, BitVec.ofNat_add, BitVec.add_assoc]
    obtain ⟨v, b3, e3⟩ := exists_block .manual p 1 hpc2 hb4 rfl (by simp [blockSize]; omega)
    refine ⟨v, ⟨b1.trans (b2.trans b3), ?_, ?_, ?_⟩, ?_⟩
    · simp [e3, hpc2, BitVec.ofNat_add, BitVec.add_assoc]
    · simp [e3, e2, e1, hc]
    · intro r hr
      simp only [List.mem_cons, List.not_mem_nil, or_false, not_or] at hr
      simp [e3, e2, e1, hc, hr]
    · simp [State.pair, e3, e2, e1, hc, BitVec.toNat_sub]
      omega

/-- The instructions on dividend and remainder, from offset `k`; a subtraction
is followed by the code at `k + 56`. -/
structure RemainderCode (p : Program L) (k : Nat) where
  setc : L
  dshift : L
  dnc1 : L
  rnc1 : L
  rnc2 : L
  next : L
  sub : L
  borrow : L
  subhi : L
  msb1 : blockAt p.text k 3 =
    some [.clr (.reg .r14), .mov (.reg .r0) (.reg .r0), .jump .lt setc]
  msb2 : blockAt p.text (k + 6) 1 = some [.jump .always dshift]
  msb3 : blockAt p.text (k + 8) 1 = some [.li .r14 1#16]
  dividend1 : blockAt p.text (k + 12) 3 = some [.sla .r0 1, .sla .r1 1, .jump .nc dnc1]
  dividend2 : blockAt p.text (k + 18) 1 = some [.ori .r0 1#16]
  double1 : blockAt p.text (k + 22) 2 = some [.sla .r5 1, .jump .nc rnc1]
  double2 : blockAt p.text (k + 26) 1 = some [.inc (.reg .r4)]
  double3 : blockAt p.text (k + 28) 1 = some [.sla .r4 1]
  bring : blockAt p.text (k + 30) 2 = some [.a (.reg .r14) (.reg .r5), .jump .nc rnc2]
  compare1 : blockAt p.text (k + 36) 2 = some [.c (.reg .r4) (.reg .r2), .jump .l next]
  compare2 : blockAt p.text (k + 40) 1 = some [.jump .h sub]
  compare3 : blockAt p.text (k + 42) 2 = some [.c (.reg .r5) (.reg .r3), .jump .l next]
  sub1 : blockAt p.text (k + 46) 2 = some [.s (.reg .r3) (.reg .r5), .jump .nc borrow]
  sub2 : blockAt p.text (k + 50) 1 = some [.jump .always subhi]
  sub3 : blockAt p.text (k + 52) 1 = some [.dec (.reg .r4)]
  sub4 : blockAt p.text (k + 54) 1 = some [.s (.reg .r2) (.reg .r4)]
  setcAt : p.target setc = BitVec.ofNat 16 (k + 8)
  dshiftAt : p.target dshift = BitVec.ofNat 16 (k + 12)
  dnc1At : p.target dnc1 = BitVec.ofNat 16 (k + 22)
  rnc1At : p.target rnc1 = BitVec.ofNat 16 (k + 28)
  rnc2At : p.target rnc2 = BitVec.ofNat 16 (k + 36)
  subAt : p.target sub = BitVec.ofNat 16 (k + 46)
  borrowAt : p.target borrow = BitVec.ofNat 16 (k + 52)
  subhiAt : p.target subhi = BitVec.ofNat 16 (k + 54)
  bound : k + 56 ≤ 65536

/-- The dividend and the remainder, with any quotient. -/
def divisionOf (s : State) (quo : Nat) : Division := ⟨s.pair .r0 .r1, quo, s.pair .r4 .r5⟩

theorem doubled_even (v : Nat) : doubled v % 2 = 0 := by
  unfold doubled
  omega

/-- Registers that dividend and remainder use. -/
def remainderRegs : List Reg := [.r0, .r1, .r4, .r5, .r14]

/-- Up to the comparison: the dividend shifted and the trial value formed. -/
theorem RemainderCode.reaches_trial {k : Nat} (P : RemainderCode p k) {s : State}
    (hpc : s.pc = BitVec.ofNat 16 k) :
    ∃ t, Moves p (k + 36) remainderRegs s t ∧
      t.pair .r0 .r1 = 2 * s.pair .r0 .r1 % 2 ^ 32 ∧
      t.pair .r4 .r5 = (divisionOf s 0).trial := by
  have hb := P.bound
  have hlt := s.pair_lt .r0 .r1
  obtain ⟨t1, m1, h14⟩ := piece_msb (by omega) P.msb1 P.msb2 P.msb3 P.setcAt P.dshiftAt hpc
  obtain ⟨t2, m2, hnum⟩ := piece_dividend (k := k + 12) (by omega) P.dividend1 P.dividend2 P.dnc1At
    m1.pc
  obtain ⟨t3, m3, hrem⟩ := piece_doubled .r4 .r5 (by decide) (k := k + 22)
    (by omega) P.double1 P.double2 P.double3 P.rnc1At m2.pc
  have h4 : t3.pair .r4 .r5 = doubled (s.pair .r4 .r5) := by
    rw [hrem, m2.pair (by decide) (by decide), m1.pair (by decide) (by decide)]
  have hbit : (t3.regs .r14).toNat = s.pair .r0 .r1 / 2 ^ 31 := by
    rw [m3.regs .r14 (by decide), m2.regs .r14 (by decide), h14]
  obtain ⟨t4, m4, hval⟩ := piece_bring (k := k + 30) (by omega) P.bring P.rnc2At m3.pc
    (by rw [h4]; exact doubled_even _) (by rw [hbit]; omega)
  refine ⟨t4, (m1.trans (m2.trans (m3.trans m4))).mono (by decide), ?_, ?_⟩
  · rw [m4.pair (by decide) (by decide), m3.pair (by decide) (by decide), hnum,
      m1.pair (by decide) (by decide)]
  · rw [hval, h4, hbit]
    rfl

/-- One round without the quotient: to `next`, or with a subtraction to `k + 56`. -/
theorem RemainderCode.reaches_round {k : Nat} (P : RemainderCode p k) {s : State}
    (hpc : s.pc = BitVec.ofNat 16 k) :
    ∃ t, Reaches .manual p s t ∧ t.mem = s.mem ∧
      (∀ r, r ∉ remainderRegs → t.regs r = s.regs r) ∧
      t.pair .r0 .r1 = 2 * s.pair .r0 .r1 % 2 ^ 32 ∧
      if (divisionOf s 0).trial < s.pair .r2 .r3 then
        t.pc = p.target P.next ∧ t.pair .r4 .r5 = (divisionOf s 0).trial
      else t.pc = BitVec.ofNat 16 (k + 56) ∧
        t.pair .r4 .r5 = (divisionOf s 0).trial - s.pair .r2 .r3 := by
  have hb := P.bound
  obtain ⟨t, m1, hnum, htrial⟩ := P.reaches_trial hpc
  have hd : t.pair .r2 .r3 = s.pair .r2 .r3 := m1.pair (by decide) (by decide)
  obtain ⟨u, b2, hm2, hr2, hpc2⟩ := piece_compare (k := k + 36) (by omega) P.compare1 P.compare2
    P.compare3 P.subAt m1.pc
  have hpair : ∀ a b, u.pair a b = t.pair a b := fun a b => by rw [State.pair, State.pair, hr2]
  rw [htrial, hd] at hpc2
  by_cases hlt : (divisionOf s 0).trial < s.pair .r2 .r3
  · rw [if_pos hlt] at hpc2
    refine ⟨u, m1.reaches.trans b2, hm2.trans m1.mem, ?_, by rw [hpair, hnum], ?_⟩
    · intro r hr
      rw [hr2, m1.regs r hr]
    · rw [if_pos hlt]
      exact ⟨hpc2, by rw [hpair, htrial]⟩
  · rw [if_neg hlt] at hpc2
    obtain ⟨v, m3, hval⟩ := piece_subtract (k := k + 46) (by omega) P.sub1 P.sub2
      P.sub3 P.sub4 P.borrowAt P.subhiAt hpc2 (by rw [hpair, hpair, htrial, hd]; omega)
    have hm3 : Moves p (k + 46 + 10) remainderRegs u v := m3.mono (by decide)
    refine ⟨v, m1.reaches.trans (b2.trans m3.reaches), m3.mem.trans (hm2.trans m1.mem), ?_, ?_, ?_⟩
    · intro r hr
      rw [hm3.regs r hr, hr2, m1.regs r hr]
    · rw [m3.pair (by decide) (by decide), hpair, hnum]
    · rw [if_neg hlt]
      refine ⟨m3.pc, ?_⟩
      rw [hval, hpair, hpair, htrial, hd]

end

end LlvmTms9900.Runtime
