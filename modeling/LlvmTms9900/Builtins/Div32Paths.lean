import LlvmTms9900.Builtins.Div32Value
import LlvmTms9900.Isa.Activation

/-!
# The two paths of UDIV32, on the operand order its comment documents

The hardware path is guarded: whenever `DIV R3,R0` is executed, the divisor is
a nonzero 16-bit value above the high word of the dividend, so that the
instruction does not overflow. The shift-and-subtract loop gives the same
answer on the same operands, and none of its 32 shifts loses a bit of the
remainder.
-/

set_option maxRecDepth 8192

namespace LlvmTms9900.Builtins.Div32
open LlvmTms9900.Isa LlvmTms9900.Arith

/-- `DIV R3,R0` fits: the divisor `R2:R3` is a nonzero 16-bit value above `R0`. -/
def DivFits (t : State) : Prop :=
  t.regs .r2 = 0#16 ∧ t.regs .r3 ≠ 0#16 ∧ (t.regs .r0).toNat < (t.regs .r3).toNat

/-- Offsets of the instructions of `UDIV32` outside its guards. -/
def pastGuards : List Nat :=
  [156, 158, 160, 162, 164, 166, 168, 170, 172, 174, 176, 178, 180, 182, 186, 188, 190, 192, 194,
    196, 198, 200, 202, 204, 206, 208, 210, 212, 214, 216, 218, 220, 222, 224, 226, 228, 230, 232,
    236, 238, 240, 242, 244]

/-- What is known at each guard of `UDIV32` (`div32.S:147-160`). -/
inductive AtGuard (t : State) : Prop where
  | start : t.pc = 142#16 → AtGuard t
  | high : t.pc = 144#16 → t.st.eq = decide (t.regs .r2 = 0#16) → AtGuard t
  | low : t.pc = 146#16 → t.regs .r2 = 0#16 → AtGuard t
  | lowTested : t.pc = 148#16 → t.regs .r2 = 0#16 → t.st.eq = decide (t.regs .r3 = 0#16) →
      AtGuard t
  | compare : t.pc = 150#16 → t.regs .r2 = 0#16 → t.regs .r3 ≠ 0#16 → AtGuard t
  | compared : t.pc = 152#16 → t.regs .r2 = 0#16 → t.regs .r3 ≠ 0#16 →
      t.st.lgt = decide ((t.regs .r0).toNat < (t.regs .r3).toNat) →
      t.st.eq = decide (t.regs .r0 = t.regs .r3) → AtGuard t
  | divide : t.pc = 154#16 → DivFits t → AtGuard t

/-- The registers that hold the operands. -/
def operands : List Reg := [.r0, .r1, .r2, .r3]

/-- A state of `UDIV32` entered in `s`: still at the guards, or past them. -/
def Guarded (s t : State) : Prop :=
  (SameRegs operands s t ∧ AtGuard t) ∨ t.At pastGuards

theorem pastGuards_closed : leadsTo text pastGuards pastGuards = true := by decide

theorem pastGuards_lt : ∀ k ∈ pastGuards, k < 65536 := by decide

theorem Guarded.step {base : Word} {s t u : State} (h : Guarded s t)
    (hb : fetch text t.pc.toNat ≠ some (.b .r11))
    (hs : Isa.step .swapped (program base) t = some u) : Guarded s u := by
  have hsw : (∃ k ∈ pastGuards, entry .udiv32Sw = BitVec.ofNat 16 k) := ⟨166, by decide, rfl⟩
  rcases h with ⟨hsame, hat⟩ | hk
  case inr => exact .inr (leadsTo_step pastGuards_closed pastGuards_lt hk hb hs)
  have keep : SameRegs operands t u → AtGuard u → Guarded s u :=
    fun hk hu => .inl ⟨hsame.trans hk, hu⟩
  cases hat with
  | start hpc =>
    have hu := step_at hpc rfl hs
    exact keep (by simp [SameRegs, operands, hu])
      (.high (by simp [hu, hpc]) (by by_cases hz : t.regs .r2 = 0#16 <;> simp [hu, hz]))
  | high hpc he =>
    have hu := step_at hpc rfl hs
    by_cases hz : t.regs .r2 = 0#16
    · exact keep (by simp [SameRegs, operands, hu, he, hz])
        (.low (by simp [hu, hpc, he, hz]) (by simp [hu, he, hz]))
    · exact .inr (by simpa [State.At, hu, he, hz] using hsw)
  | low hpc h2 =>
    have hu := step_at hpc rfl hs
    exact keep (by simp [SameRegs, operands, hu])
      (.lowTested (by simp [hu, hpc]) (by simp [hu, h2])
        (by by_cases hz : t.regs .r3 = 0#16 <;> simp [hu, hz]))
  | lowTested hpc h2 he =>
    have hu := step_at hpc rfl hs
    by_cases hz : t.regs .r3 = 0#16
    · exact .inr (by simpa [State.At, hu, he, hz] using hsw)
    · exact keep (by simp [SameRegs, operands, hu, he, hz])
        (.compare (by simp [hu, hpc, he, hz]) (by simp [hu, he, hz, h2]) (by simp [hu, he, hz]))
  | compare hpc h2 h3 =>
    have hu := step_at hpc rfl hs
    exact keep (by simp [SameRegs, operands, hu])
      (.compared (by simp [hu, hpc]) (by simp [hu, h2]) (by simp [hu, h3])
        (by simp [hu, CompareOrder.over]) (by simp [hu]))
  | compared hpc h2 h3 hl he =>
    have hu := step_at hpc rfl hs
    by_cases hlt : (t.regs .r0).toNat < (t.regs .r3).toNat
    · have hne : t.regs .r0 ≠ t.regs .r3 := by
        intro heq
        rw [heq] at hlt
        exact Nat.lt_irrefl _ hlt
      exact keep (by simp [SameRegs, operands, hu, hl, he, hlt, hne])
        (.divide (by simp [hu, hpc, hl, he, hlt, hne])
          ⟨by simp [hu, hl, he, hlt, hne, h2], by simp [hu, hl, he, hlt, hne, h3],
            by simp [hu, hl, he, hlt, hne]⟩)
    · exact .inr (by simpa [State.At, hu, hl, hlt] using hsw)
  | divide hpc hfit =>
    have hu := step_at hpc rfl hs
    refine .inr ⟨156, by decide, ?_⟩
    rw [hu, exec_pc _ _ _ _ rfl, hpc]
    rfl

/-- Every `DIV` that `UDIV32` executes is on its own operands, and fits. -/
theorem hardware_path_guarded {base : Word} {s t : State} (h : s.pc = entry .udiv32)
    (ht : During .swapped (program base) s t)
    (hdiv : fetch text t.pc.toNat = some (.div (.reg .r3) .r0)) :
    SameRegs operands s t ∧ DivFits t := by
  have hg : Guarded s t :=
    ht.invariant (.inl ⟨fun _ _ => rfl, .start h⟩) fun u v hu hb hs => hu.step hb hs
  have hno : ∀ k : Word, t.pc = k → fetch text k.toNat ≠ some (.div (.reg .r3) .r0) → False :=
    fun k hk hf => hf (hk ▸ hdiv)
  rcases hg with ⟨hsame, hat⟩ | ⟨k, hk, hpc⟩
  · refine ⟨hsame, ?_⟩
    cases hat with
    | divide _ hfit => exact hfit
    | start hpc => exact (hno _ hpc (by decide)).elim
    | high hpc _ => exact (hno _ hpc (by decide)).elim
    | low hpc _ => exact (hno _ hpc (by decide)).elim
    | lowTested hpc _ _ => exact (hno _ hpc (by decide)).elim
    | compare hpc _ _ => exact (hno _ hpc (by decide)).elim
    | compared hpc _ _ _ _ => exact (hno _ hpc (by decide)).elim
  · have hall : ∀ k ∈ pastGuards,
        fetch text (BitVec.ofNat 16 k : Word).toNat ≠ some (.div (.reg .r3) .r0) := by decide
    exact (hno _ hpc (hall k hk)).elim

/-- The head of `UDIV_LOOP` with `k` rounds done of the division of `n` by `d`. -/
structure LoopHead (n d k : Nat) (u : State) : Prop where
  pc : u.pc = entry .udivLoop
  count : (u.regs .r8).toNat = 32 - k
  divisor : u.pair .r2 .r3 = d
  inv : RoundInv 32 d n k (remQuo u)

/-- A round: the shift keeps all 33 bits that it could produce, and the trial
subtraction leads to the next head. -/
theorem LoopHead.round (base : Word) {n d k : Nat} {u : State} (h : LoopHead n d k u)
    (hn : n < 2 ^ 32) (hd0 : 0 < d) (hd : d < 2 ^ 32) (hk : k < 32) :
    ∃ v w, Reaches .swapped (program base) u v ∧ v.pc = entry .udivCmp ∧
      v.pair .r6 .r7 = shiftedRem 32 (remQuo u) ∧ Reaches .swapped (program base) v w ∧
      (k + 1 < 32 → LoopHead n d (k + 1) w) := by
  have hfit := shiftedRem_lt hk hn h.inv
  obtain ⟨v, t, b1, hpc1, hrem1, b2, hpc2, -, hkept, hval2⟩ :=
    reaches_round_via .swapped base h.pc
  obtain ⟨w, b3, -, h8, hoth, hpc3⟩ := reaches_next .swapped base hpc2
  have hrem : v.pair .r6 .r7 = shiftedRem 32 (remQuo u) := by
    rw [hrem1]
    exact Nat.mod_eq_of_lt hfit
  have ht8 : (t.regs .r8).toNat = 32 - k := by rw [hkept .r8 (by decide), h.count]
  refine ⟨v, w, b1.reaches, hpc1, hrem, (b2.trans b3).reaches, fun hk1 => ⟨?_, ?_, ?_, ?_⟩⟩
  · rw [hpc3, if_neg (by bv_omega)]
  · rw [h8]
    bv_omega
  · simp only [State.pair, hoth _ (by decide : (Reg.r2) ≠ .r8),
      hoth _ (by decide : (Reg.r3) ≠ .r8)]
    exact (SameRegs.pair_eq hkept (by decide) (by decide)).trans h.divisor
  · have hsame : remQuo w = remQuo t := by
      simp only [remQuo, State.pair, hoth _ (by decide : (Reg.r4) ≠ .r8),
        hoth _ (by decide : (Reg.r5) ≠ .r8), hoth _ (by decide : (Reg.r6) ≠ .r8),
        hoth _ (by decide : (Reg.r7) ≠ .r8)]
    rw [hsame, hval2, h.divisor, divRound_swapped hd hfit]
    exact h.inv.succ hd0 hk hn

/-- `div32.S:167-178`: the software path sets the loop up. -/
theorem reaches_loopHead {base : Word} {s : State} (h : s.pc = entry .udiv32Sw) :
    ∃ u, Reaches .swapped (program base) s u ∧
      LoopHead (s.pair .r0 .r1) (s.pair .r2 .r3) 0 u := by
  obtain ⟨u, b1, e1⟩ := exists_block .swapped (program base) 9 h rfl rfl (by decide)
  have hrq : remQuo u = (0, s.pair .r0 .r1) := by simp [remQuo, State.pair, e1]
  refine ⟨u, b1, by simp [e1, h, entry], by simp [e1], by simp [State.pair, e1], ?_⟩
  rw [hrq]
  exact roundInv_zero (s.pair_lt .r0 .r1)

theorem reaches_loopHead_round (base : Word) {s : State} (h : s.pc = entry .udiv32Sw)
    (hd : s.pair .r2 .r3 ≠ 0) (k : Nat) (hk : k < 32) :
    ∃ u, Reaches .swapped (program base) s u ∧
      LoopHead (s.pair .r0 .r1) (s.pair .r2 .r3) k u := by
  induction k with
  | zero => exact reaches_loopHead h
  | succ k ih =>
    obtain ⟨u, b, hu⟩ := ih (by omega)
    obtain ⟨v, w, b1, -, -, b2, hw⟩ := hu.round base (s.pair_lt .r0 .r1)
      (Nat.pos_of_ne_zero hd) (s.pair_lt .r2 .r3) (by omega)
    exact ⟨w, b.trans (b1.trans b2), hw hk⟩

/-- `div32.S:28-48` and `147-248`. -/
theorem unsigned_division (base : Word) (s : State) (heven : (s.regs .r10).toNat % 2 = 0)
    (hroom : 6 ≤ (s.regs .r10).toNat) (hd : s.pair .r2 .r3 ≠ 0) :
    (s.pc = entry .udivsi3 →
      ∃ u, Called .swapped (program base) 6 s u (s.pair .r0 .r1 / s.pair .r2 .r3)) ∧
    (s.pc = entry .umodsi3 →
      ∃ u, Called .swapped (program base) 6 s u (s.pair .r0 .r1 % s.pair .r2 .r3)) ∧
    (s.pc = entry .udiv32 →
      (∀ t, During .swapped (program base) s t →
        fetch text t.pc.toNat = some (.div (.reg .r3) .r0) →
          SameRegs operands s t ∧ DivFits t) ∧
      ∃ t t', Reaches .swapped (program base) s t ∧ t.pc = s.regs .r11 - base ∧
        Reaches .swapped (program base) { s with pc := entry .udiv32Sw } t' ∧
        t'.pc = s.regs .r11 - base ∧ remQuo t' = remQuo t ∧
        remQuo t = (s.pair .r0 .r1 % s.pair .r2 .r3, s.pair .r0 .r1 / s.pair .r2 .r3)) ∧
    (s.pc = entry .udiv32Sw → ∀ k < 32, ∃ u v,
      Reaches .swapped (program base) s u ∧ u.pc = entry .udivLoop ∧
      (u.regs .r8).toNat = 32 - k ∧ Reaches .swapped (program base) u v ∧
      v.pc = entry .udivCmp ∧
      v.pair .r6 .r7 = 2 * u.pair .r6 .r7 + u.pair .r4 .r5 / 2 ^ 31) := by
  have hvalue := udiv32Value_swapped (s.pair_lt .r0 .r1) (Nat.pos_of_ne_zero hd)
    (s.pair_lt .r2 .r3)
  refine ⟨?_, ?_, ?_, ?_⟩
  · intro h
    have hq := udivsi3_called .swapped base h heven hroom
    rwa [hvalue] at hq
  · intro h
    have hr := umodsi3_called .swapped base h heven hroom
    rwa [hvalue] at hr
  · intro h
    refine ⟨fun t ht hdiv => hardware_path_guarded h ht hdiv, ?_⟩
    obtain ⟨t, b1, hpc1, hdone⟩ := reaches_udiv32 .swapped base h heven (by omega)
    have hsw : ({ s with pc := entry .udiv32Sw } : State).pc = entry .udiv32Sw := rfl
    obtain ⟨u, hret2, -, -, hval2⟩ := software_returns .swapped base hsw heven
      (by show 4 ≤ (s.regs .r10).toNat; omega)
    have ht : remQuo t = (s.pair .r0 .r1 % s.pair .r2 .r3, s.pair .r0 .r1 / s.pair .r2 .r3) := by
      have hv := hdone.value
      rw [hvalue, Prod.mk.injEq] at hv
      rw [remQuo, hv.1, hv.2]
    have hu : remQuo u = (s.pair .r0 .r1 % s.pair .r2 .r3, s.pair .r0 .r1 / s.pair .r2 .r3) := by
      rw [hval2]
      exact (divRounds_swapped (s.pair_lt .r0 .r1) (Nat.pos_of_ne_zero hd) (s.pair_lt .r2 .r3) 32
        le_rfl).trans (restoring_division (Nat.pos_of_ne_zero hd) (s.pair_lt .r0 .r1))
    exact ⟨t, _, b1, hpc1, hret2.2.back, rfl, hu.trans ht.symm, ht⟩
  · intro h k hk
    obtain ⟨u, b, hu⟩ := reaches_loopHead_round base h hd k hk
    obtain ⟨v, w, b1, hpc1, hrem1, -, -⟩ := hu.round base (s.pair_lt .r0 .r1)
      (Nat.pos_of_ne_zero hd) (s.pair_lt .r2 .r3) hk
    exact ⟨u, v, b, hu.pc, hu.count, b1, hpc1, hrem1⟩

/-- `__udivsi3` of 0x30000 by 3, at 0x6000 with stack pointer 0xFFF0. -/
def divideThree : State where
  pc := entry .udivsi3
  regs := fun
    | .r0 => 3#16
    | .r3 => 3#16
    | .r10 => 0xFFF0#16
    | .r11 => 0x7000#16
    | _ => 0#16
  mem := fun _ => 0#8
  st := ⟨false, false, false, false⟩

theorem divideThree_quotient :
    ∃ u, Called .swapped (program 0x6000#16) 6 divideThree u 0x10000 :=
  (unsigned_division 0x6000#16 divideThree (by decide) (by decide) (by decide)).1 rfl

end LlvmTms9900.Builtins.Div32
