import LlvmTms9900.Runtime.DivisionPieces
import LlvmTms9900.Runtime.Text

/-!
# The two division loops

`__udivsi3` keeps a quotient in `R6:R7`, `__umodsi3` keeps none. Both go
through 32 rounds, counted in `R13`.
-/

set_option maxRecDepth 16384

namespace LlvmTms9900.Runtime
open LlvmTms9900.Isa

section
variable {L : Type} [DecidableEq L] {p : Program L}

/-- A loop counted in `R13`: what it computes is related to the registers by
`rel`, and a round maps the related value by `legacyRound`. -/
structure RoundLoop (p : Program L) (head next : Nat) (changed : List Reg)
    (rel : State → Division → Prop) : Prop where
  round : ∀ (s : State) (x : Division), s.pc = BitVec.ofNat 16 head → rel s x →
    ∃ t, Moves p next changed s t ∧ rel t (legacyRound (s.pair .r2 .r3) x)
  counted : ∃ loop, blockAt p.text next 2 = some [.dec (.reg .r13), .jump .ne loop] ∧
    p.target loop = BitVec.ofNat 16 head
  congr : ∀ (s t : State) (x : Division), (∀ r, r ≠ .r13 → t.regs r = s.regs r) → rel s x → rel t x
  fresh : Reg.r2 ∉ changed ∧ Reg.r3 ∉ changed ∧ Reg.r13 ∉ changed
  bound : next + 4 ≤ 65536

/-- `DEC R13`, `JNE loop`. -/
theorem RoundLoop.reaches_next {head next : Nat} {changed : List Reg}
    {rel : State → Division → Prop} (P : RoundLoop p head next changed rel) {s : State}
    (hpc : s.pc = BitVec.ofNat 16 next) :
    ∃ t, Moves p (if s.regs .r13 - 1#16 = 0#16 then next + 4 else head) [.r13] s t ∧
      t.regs .r13 = s.regs .r13 - 1#16 := by
  have hb := P.bound
  obtain ⟨loop, hblock, htarget⟩ := P.counted
  obtain ⟨t, b1, e1⟩ := exists_block .manual p 2 hpc hblock rfl (by simp [blockSize]; omega)
  by_cases hz : s.regs .r13 - 1#16 = 0#16
  · rw [if_pos hz]
    refine ⟨t, ⟨b1, ?_, by simp [e1, hz], ?_⟩, by simp [e1, hz]⟩
    · simp [e1, hz, hpc, BitVec.ofNat_add, BitVec.add_assoc]
    · intro r hr
      rw [List.mem_singleton] at hr
      simp [e1, hz, hr]
  · rw [if_neg hz]
    refine ⟨t, ⟨b1, by simp [e1, hz, htarget], by simp [e1, hz], ?_⟩, by simp [e1, hz]⟩
    intro r hr
    rw [List.mem_singleton] at hr
    simp [e1, hz, hr]

/-- All the rounds that `R13` counts, by induction on the count. -/
theorem RoundLoop.reaches_rounds {head next : Nat} {changed : List Reg}
    {rel : State → Division → Prop} (P : RoundLoop p head next changed rel) (n : Nat) {s : State}
    {x : Division} (hpc : s.pc = BitVec.ofNat 16 head) (hn : (s.regs .r13).toNat = n + 1)
    (hx : rel s x) :
    ∃ t, Moves p (next + 4) (changed ++ [.r13]) s t ∧
      rel t ((legacyRound (s.pair .r2 .r3))^[n + 1] x) := by
  obtain ⟨h2, h3, h13⟩ := P.fresh
  induction n generalizing s x with
  | zero =>
    obtain ⟨t, m1, hx1⟩ := P.round s x hpc hx
    obtain ⟨u, m2, -⟩ := P.reaches_next m1.pc
    have hz : t.regs .r13 - 1#16 = 0#16 := by
      rw [m1.regs .r13 h13]
      bv_omega
    rw [if_pos hz] at m2
    refine ⟨u, m1.trans m2, ?_⟩
    exact P.congr t u _ (fun r hr => m2.regs r (by simpa using hr)) hx1
  | succ n ih =>
    obtain ⟨t, m1, hx1⟩ := P.round s x hpc hx
    obtain ⟨u, m2, hu13⟩ := P.reaches_next m1.pc
    have hs13 := (s.regs .r13).isLt
    have hz : t.regs .r13 - 1#16 ≠ 0#16 := by
      rw [m1.regs .r13 h13]
      bv_omega
    rw [if_neg hz] at m2
    have hm := m1.trans m2
    have hd : u.pair .r2 .r3 = s.pair .r2 .r3 := hm.pair (by simp [h2]) (by simp [h3])
    obtain ⟨v, m3, hx3⟩ := ih m2.pc (by rw [hu13, m1.regs .r13 h13]; bv_omega)
      (P.congr t u _ (fun r hr => m2.regs r (by simpa using hr)) hx1)
    have hsub : ∀ r ∈ (changed ++ [Reg.r13]) ++ (changed ++ [Reg.r13]), r ∈ changed ++ [Reg.r13] :=
      fun r hr => (List.mem_append.1 hr).elim id id
    refine ⟨v, (hm.trans m3).mono hsub, ?_⟩
    rw [hd, ← Function.iterate_succ_apply] at hx3
    exact hx3

end

section
variable (base : Word)

/-- `tms9900_rt.asm:119-162`. -/
def udivRemainder : RemainderCode (program base) 136 where
  setc := .udivSetc
  dshift := .udivDshift
  dnc1 := .udivDnc1
  rnc1 := .udivRnc1
  rnc2 := .udivRnc2
  next := .udivNext
  sub := .udivSub
  borrow := .udivBorrow
  subhi := .udivSubhi
  msb1 := (textFrom_udiv base).blockAt (k := 48) rfl
  msb2 := (textFrom_udiv base).blockAt (k := 54) rfl
  msb3 := (textFrom_udiv base).blockAt (k := 56) rfl
  dividend1 := (textFrom_udiv base).blockAt (k := 60) rfl
  dividend2 := (textFrom_udiv base).blockAt (k := 66) rfl
  double1 := (textFrom_udiv base).blockAt (k := 70) rfl
  double2 := (textFrom_udiv base).blockAt (k := 74) rfl
  double3 := (textFrom_udiv base).blockAt (k := 76) rfl
  bring := (textFrom_udiv base).blockAt (k := 78) rfl
  compare1 := (textFrom_udiv base).blockAt (k := 84) rfl
  compare2 := (textFrom_udiv base).blockAt (k := 88) rfl
  compare3 := (textFrom_udiv base).blockAt (k := 90) rfl
  sub1 := (textFrom_udiv base).blockAt (k := 94) rfl
  sub2 := (textFrom_udiv base).blockAt (k := 98) rfl
  sub3 := (textFrom_udiv base).blockAt (k := 100) rfl
  sub4 := (textFrom_udiv base).blockAt (k := 102) rfl
  setcAt := target_eq base _
  dshiftAt := target_eq base _
  dnc1At := target_eq base _
  rnc1At := target_eq base _
  rnc2At := target_eq base _
  subAt := target_eq base _
  borrowAt := target_eq base _
  subhiAt := target_eq base _
  bound := by decide

/-- `tms9900_rt.asm:286-327`. -/
def umodRemainder : RemainderCode (program base) 346 where
  setc := .umodSetc
  dshift := .umodDshift
  dnc1 := .umodDnc1
  rnc1 := .umodRnc1
  rnc2 := .umodRnc2
  next := .umodNext
  sub := .umodSub
  borrow := .umodBorrow
  subhi := .umodSubhi
  msb1 := (textFrom_umod base).blockAt (k := 32) rfl
  msb2 := (textFrom_umod base).blockAt (k := 38) rfl
  msb3 := (textFrom_umod base).blockAt (k := 40) rfl
  dividend1 := (textFrom_umod base).blockAt (k := 44) rfl
  dividend2 := (textFrom_umod base).blockAt (k := 50) rfl
  double1 := (textFrom_umod base).blockAt (k := 54) rfl
  double2 := (textFrom_umod base).blockAt (k := 58) rfl
  double3 := (textFrom_umod base).blockAt (k := 60) rfl
  bring := (textFrom_umod base).blockAt (k := 62) rfl
  compare1 := (textFrom_umod base).blockAt (k := 68) rfl
  compare2 := (textFrom_umod base).blockAt (k := 72) rfl
  compare3 := (textFrom_umod base).blockAt (k := 74) rfl
  sub1 := (textFrom_umod base).blockAt (k := 78) rfl
  sub2 := (textFrom_umod base).blockAt (k := 82) rfl
  sub3 := (textFrom_umod base).blockAt (k := 84) rfl
  sub4 := (textFrom_umod base).blockAt (k := 86) rfl
  setcAt := target_eq base _
  dshiftAt := target_eq base _
  dnc1At := target_eq base _
  rnc1At := target_eq base _
  rnc2At := target_eq base _
  subAt := target_eq base _
  borrowAt := target_eq base _
  subhiAt := target_eq base _
  bound := by decide

/-- What `__udivsi3` keeps in its registers. -/
def UdivHolds (s : State) (x : Division) : Prop :=
  s.pair .r0 .r1 = x.num ∧ s.pair .r6 .r7 = x.quo ∧ s.pair .r4 .r5 = x.rem

/-- What `__umodsi3` keeps in its registers. -/
def UmodHolds (s : State) (x : Division) : Prop :=
  s.pair .r0 .r1 = x.num ∧ s.pair .r4 .r5 = x.rem

def udivRegs : List Reg := [.r6, .r7] ++ remainderRegs

theorem legacyRound_trial {x : Division} {s : State} (hn : s.pair .r0 .r1 = x.num)
    (hr : s.pair .r4 .r5 = x.rem) : (divisionOf s 0).trial = x.trial := by
  simp only [divisionOf, Division.trial, hn, hr]

/-- `INC R7`, `JNC`, and `INC R6` that is never reached: the quotient is even. -/
theorem reaches_quotient_bit {s : State} (hpc : s.pc = 192#16) (heven : s.pair .r6 .r7 % 2 = 0) :
    ∃ t, Moves (program base) 198 [.r7] s t ∧ t.pair .r6 .r7 = s.pair .r6 .r7 + 1 := by
  have h7 := (s.regs .r7).isLt
  rw [State.pair] at heven
  have hb := (textFrom_udiv base).blockAt (k := 104) (n := 2) rfl
  obtain ⟨t, b1, e1⟩ := exists_block .manual (program base) 2 hpc hb rfl (by simp [blockSize])
  have hc : ¬ 65535 ≤ (s.regs .r7).toNat := by omega
  refine ⟨t, ⟨b1, ?_, ?_, ?_⟩, ?_⟩
  · simp [e1, hc, entry]
  · simp [e1, hc]
  · intro r hr
    rw [List.mem_singleton] at hr
    simp [e1, hc, hr]
  · simp [State.pair, e1, hc, BitVec.toNat_add]
    omega

theorem udiv_round {s : State} {x : Division} (hpc : s.pc = BitVec.ofNat 16 128)
    (hx : UdivHolds s x) :
    ∃ t, Moves (program base) 198 udivRegs s t ∧
      UdivHolds t (legacyRound (s.pair .r2 .r3) x) := by
  obtain ⟨hn, hq, hr⟩ := hx
  obtain ⟨t, m1, hquo⟩ := piece_doubled .r6 .r7 (by decide) (k := 128) (by decide)
    ((textFrom_udiv base).blockAt (k := 40) rfl) ((textFrom_udiv base).blockAt (k := 44) rfl)
    ((textFrom_udiv base).blockAt (k := 46) rfl) (target_eq base .udivQnc) hpc
  obtain ⟨u, b2, hm2, hk2, hnum2, hcase⟩ := (udivRemainder base).reaches_round m1.pc
  have hd : t.pair .r2 .r3 = s.pair .r2 .r3 := m1.pair (by decide) (by decide)
  have htrial : (divisionOf t 0).trial = x.trial := by
    refine legacyRound_trial ?_ ?_
    · rw [m1.pair (by decide) (by decide), hn]
    · rw [m1.pair (by decide) (by decide), hr]
  have hnum : u.pair .r0 .r1 = 2 * x.num % 2 ^ 32 := by
    rw [hnum2, m1.pair (by decide) (by decide), hn]
  have hquo2 : u.pair .r6 .r7 = doubled x.quo := by
    rw [State.pair, hk2 .r6 (by decide), hk2 .r7 (by decide), ← State.pair, hquo, hq]
  rw [htrial, hd] at hcase
  by_cases hlt : x.trial < s.pair .r2 .r3
  · rw [if_pos hlt] at hcase
    have m2 : Moves (program base) 198 remainderRegs t u :=
      ⟨b2, by rw [hcase.1]; exact target_eq base _, hm2, hk2⟩
    refine ⟨u, (m1.trans m2).mono (by decide), ?_⟩
    rw [legacyRound, if_pos hlt]
    exact ⟨hnum, hquo2, hcase.2⟩
  · rw [if_neg hlt] at hcase
    have m2 : Moves (program base) 192 remainderRegs t u := ⟨b2, hcase.1, hm2, hk2⟩
    obtain ⟨v, m3, hquo3⟩ := reaches_quotient_bit base hcase.1 (by rw [hquo2]; exact doubled_even _)
    refine ⟨v, (m1.trans (m2.trans m3)).mono (by decide), ?_⟩
    rw [legacyRound, if_neg hlt]
    refine ⟨?_, by rw [hquo3, hquo2], ?_⟩
    · rw [m3.pair (by decide) (by decide), hnum]
    · rw [m3.pair (by decide) (by decide), hcase.2]

theorem umod_round {s : State} {x : Division} (hpc : s.pc = BitVec.ofNat 16 346)
    (hx : UmodHolds s x) :
    ∃ t, Moves (program base) 402 remainderRegs s t ∧
      UmodHolds t (legacyRound (s.pair .r2 .r3) x) := by
  obtain ⟨hn, hr⟩ := hx
  obtain ⟨t, b1, hm, hk, hnum, hcase⟩ := (umodRemainder base).reaches_round hpc
  rw [legacyRound_trial hn hr] at hcase
  rw [hn] at hnum
  by_cases hlt : x.trial < s.pair .r2 .r3
  · rw [if_pos hlt] at hcase
    refine ⟨t, ⟨b1, by rw [hcase.1]; exact target_eq base _, hm, hk⟩, ?_⟩
    rw [legacyRound, if_pos hlt]
    exact ⟨hnum, hcase.2⟩
  · rw [if_neg hlt] at hcase
    refine ⟨t, ⟨b1, hcase.1, hm, hk⟩, ?_⟩
    rw [legacyRound, if_neg hlt]
    exact ⟨hnum, hcase.2⟩

theorem pair_of_ne_r13 {s t : State} (h : ∀ r, r ≠ .r13 → t.regs r = s.regs r) {a b : Reg}
    (ha : a ≠ .r13) (hb : b ≠ .r13) : t.pair a b = s.pair a b := by
  rw [State.pair, State.pair, h a ha, h b hb]

theorem udivLoop : RoundLoop (program base) 128 198 udivRegs UdivHolds where
  round _ _ hpc hx := udiv_round base hpc hx
  counted := ⟨.udivLoop, (textFrom_udiv base).blockAt (k := 110) rfl, target_eq base _⟩
  congr s t x h hx := by
    rw [UdivHolds, pair_of_ne_r13 h (by decide) (by decide), pair_of_ne_r13 h (by decide) (by decide),
      pair_of_ne_r13 h (by decide) (by decide)]
    exact hx
  fresh := by decide
  bound := by decide

theorem umodLoop : RoundLoop (program base) 346 402 remainderRegs UmodHolds where
  round _ _ hpc hx := umod_round base hpc hx
  counted := ⟨.umodLoop, (textFrom_umod base).blockAt (k := 88) rfl, target_eq base _⟩
  congr s t x h hx := by
    rw [UmodHolds, pair_of_ne_r13 h (by decide) (by decide), pair_of_ne_r13 h (by decide) (by decide)]
    exact hx
  fresh := by decide
  bound := by decide

end

end LlvmTms9900.Runtime
