import LlvmTms9900.Isa.Run

/-!
# States of one activation

`During s t` says that `t` comes up between the entry `s` of a routine and its
return, so that facts about single instructions (the operands of a `DIV`, the
address of a word access) can be stated of every instruction the routine
executes. The routines concerned call nothing: `B *R11` is where they end.
-/

namespace LlvmTms9900.Isa

variable {L : Type} [DecidableEq L]

inductive During (ord : CompareOrder) (p : Program L) (s : State) : State → Prop where
  | entry : During ord p s s
  | step {t u : State} : During ord p s t → fetch p.text t.pc.toNat ≠ some (.b .r11) →
      Isa.step ord p t = some u → During ord p s u

/-- `u` is the first state from `s` on that is about to execute `B *R11`, with the
`R11` that `s` was entered with. -/
def FirstReturn (ord : CompareOrder) (p : Program L) (s u : State) : Prop :=
  During ord p s u ∧ Returns ord p s u

/-- Memory is addressed through the registers `rs` only. -/
def Opnd.through (rs : List Reg) : Opnd → Bool
  | .reg _ => true
  | .ind r => decide (r ∈ rs)
  | .inc r => decide (r ∈ rs)
  | .sym _ => false

/-- Every `MOV` at the offsets `ks` addresses memory through `rs` only. -/
def movesThrough (text : List (Line L)) (rs : List Reg) (ks : List Nat) : Bool :=
  ks.all fun k =>
    match fetch text k with
    | some (.mov src dst) => src.through rs && dst.through rs
    | _ => true

/-- Where an instruction at offset `k` can lead; `none` for `BL` and `B`. -/
def Instr.successors (text : List (Line L)) (k : Nat) : Instr L → Option (List Nat)
  | .jump cond l =>
    (labelOffset text l).map fun j => if cond = .always then [j] else [k + 2, j]
  | .bl _ => none
  | .b _ => none
  | i => some [k + i.size]

/-- The instructions at the offsets `ks` lead to offsets of `js`, or return. -/
def leadsTo (text : List (Line L)) (ks js : List Nat) : Bool :=
  ks.all fun k =>
    match fetch text k with
    | none => false
    | some i =>
      decide (i = .b .r11) ||
        match i.successors text k with
        | none => false
        | some next => next.all fun j => decide (j ∈ js)

/-- `pc` is at one of the offsets `ks`. -/
def State.At (t : State) (ks : List Nat) : Prop := ∃ k ∈ ks, t.pc = BitVec.ofNat 16 k

/-- The addresses of a word operand are even. -/
def Opnd.EvenAt (s : State) : Opnd → Prop
  | .reg _ => True
  | .ind r => (s.regs r).toNat % 2 = 0
  | .inc r => (s.regs r).toNat % 2 = 0
  | .sym a => a.toNat % 2 = 0

/-- A word `MOV` that is about to be executed is at even addresses. -/
def MovEven (text : List (Line L)) (t : State) : Prop :=
  ∀ src dst, fetch text t.pc.toNat = some (.mov src dst) → src.EvenAt t ∧ dst.EvenAt t

theorem State.At.of_pc {t : State} {k : Nat} {ks : List Nat} (hpc : t.pc = BitVec.ofNat 16 k)
    (hk : k ∈ ks) : t.At ks := ⟨k, hk, hpc⟩

theorem State.At.mono {t : State} {ks js : List Nat} (h : t.At ks) (hsub : ∀ k ∈ ks, k ∈ js) :
    t.At js := by
  obtain ⟨k, hk, hpc⟩ := h
  exact ⟨k, hsub k hk, hpc⟩

theorem State.At.of_append {t : State} {ks js : List Nat} (h : t.At (ks ++ js)) :
    t.At ks ∨ t.At js := by
  obtain ⟨k, hk, hpc⟩ := h
  rcases List.mem_append.1 hk with h1 | h1
  · exact .inl ⟨k, h1, hpc⟩
  · exact .inr ⟨k, h1, hpc⟩

theorem State.At.single {t : State} {k : Nat} (h : t.At [k]) : t.pc = BitVec.ofNat 16 k := by
  obtain ⟨j, hj, hpc⟩ := h
  rwa [List.mem_singleton.1 hj] at hpc

theorem State.At.pair {t : State} {a b : Nat} (h : t.At [a, b]) :
    t.pc = BitVec.ofNat 16 a ∨ t.pc = BitVec.ofNat 16 b := by
  obtain ⟨k, hk, hpc⟩ := h
  simp only [List.mem_cons, List.not_mem_nil, or_false] at hk
  rcases hk with rfl | rfl
  · exact .inl hpc
  · exact .inr hpc

theorem step_successors {ord : CompareOrder} {p : Program L} {t u : State} {k : Nat} {i : Instr L}
    {js : List Nat} (hpc : t.pc = BitVec.ofNat 16 k) (hf : fetch p.text t.pc.toNat = some i)
    (hjs : i.successors p.text k = some js) (h : step ord p t = some u) :
    ∃ j ∈ js, u.pc = BitVec.ofNat 16 j := by
  simp only [step, hf, Option.map_some, Option.some.injEq] at h
  subst h
  by_cases hs : i.straight = true
  · rw [exec_pc ord p _ i hs]
    have hone : i.successors p.text k = some [k + i.size] := by
      cases i <;> first | rfl | cases hs
    rw [hone, Option.some.injEq] at hjs
    subst hjs
    exact ⟨k + i.size, List.mem_singleton_self _, by rw [hpc, BitVec.ofNat_add]⟩
  · cases i with
    | jump c l =>
      simp only [Instr.successors, Option.map_eq_some_iff] at hjs
      obtain ⟨j, hj, rfl⟩ := hjs
      have htarget : p.target l = BitVec.ofNat 16 j := by rw [Program.target, hj]
      by_cases hc : t.st.holds c = true
      · refine ⟨j, ?_, ?_⟩
        · split <;> simp
        · simp only [exec, hc, if_true, htarget]
      · have hnot : c ≠ .always := by
          intro he
          rw [he] at hc
          exact hc rfl
        refine ⟨k + 2, by simp [hnot], ?_⟩
        simp only [exec, hc, Bool.false_eq_true, if_false, hpc, BitVec.ofNat_add, Instr.size]
    | bl l => cases hjs
    | b r => cases hjs
    | _ => exact absurd rfl hs

/-- One step from the offsets `ks`. -/
theorem leadsTo_step {ord : CompareOrder} {p : Program L} {t u : State} {ks js : List Nat}
    (hks : leadsTo p.text ks js = true) (hlt : ∀ k ∈ ks, k < 65536)
    (hat : t.At ks) (hb : fetch p.text t.pc.toNat ≠ some (.b .r11))
    (h : step ord p t = some u) : u.At js := by
  obtain ⟨k, hk, hpc⟩ := hat
  have hnat : t.pc.toNat = k := by
    rw [hpc, BitVec.toNat_ofNat]
    exact Nat.mod_eq_of_lt (hlt k hk)
  have hat := List.all_eq_true.1 hks k hk
  cases hf : fetch p.text k with
  | none => simp [hf] at hat
  | some i =>
    have hft : fetch p.text t.pc.toNat = some i := by rw [hnat, hf]
    have hi : i ≠ .b .r11 := fun he => hb (by rw [hft, he])
    cases hs : i.successors p.text k with
    | none => simp [hf, hi, hs] at hat
    | some next =>
      obtain ⟨j, hj, hu⟩ := step_successors hpc hft hs h
      simp only [hf, hi, hs, decide_false, Bool.false_or, List.all_eq_true,
        decide_eq_true_eq] at hat
      exact ⟨j, hat j hj, hu⟩

theorem Opnd.evenAt_of_through {rs : List Reg} {o : Opnd} {t : State} (h : o.through rs = true)
    (hr : ∀ r ∈ rs, (t.regs r).toNat % 2 = 0) : o.EvenAt t := by
  cases o with
  | reg r => exact trivial
  | ind r => exact hr r (of_decide_eq_true h)
  | inc r => exact hr r (of_decide_eq_true h)
  | sym a => cases h

theorem movEven_of_through {K : Type} {text : List (Line K)} {rs : List Reg} {ks : List Nat}
    {t : State} (h : movesThrough text rs ks = true) (hlt : ∀ k ∈ ks, k < 65536) (hat : t.At ks)
    (hr : ∀ r ∈ rs, (t.regs r).toNat % 2 = 0) : MovEven text t := by
  obtain ⟨k, hk, hpc⟩ := hat
  intro src dst hf
  have hnat : t.pc.toNat = k := by
    rw [hpc, BitVec.toNat_ofNat]
    exact Nat.mod_eq_of_lt (hlt k hk)
  have hone := List.all_eq_true.1 h k hk
  rw [hnat] at hf
  simp only [hf, Bool.and_eq_true] at hone
  exact ⟨Opnd.evenAt_of_through hone.1 hr, Opnd.evenAt_of_through hone.2 hr⟩

theorem step_at {ord : CompareOrder} {p : Program L} {t u : State} {k : Nat} {i : Instr L}
    (hpc : t.pc = BitVec.ofNat 16 k) (hf : fetch p.text (BitVec.ofNat 16 k : Word).toNat = some i)
    (h : step ord p t = some u) :
    u = exec ord p { t with pc := t.pc + BitVec.ofNat 16 i.size } i := by
  rw [step_eq hpc hf] at h
  exact (Option.some.inj h).symm

theorem During.invariant {ord : CompareOrder} {p : Program L} {s t : State} {Inv : State → Prop}
    (h : During ord p s t) (h0 : Inv s)
    (hstep : ∀ u v, Inv u → fetch p.text u.pc.toNat ≠ some (.b .r11) → Isa.step ord p u = some v →
      Inv v) : Inv t := by
  induction h with
  | entry => exact h0
  | step _ hb hs ih => exact hstep _ _ ih hb hs

theorem During.trans {ord : CompareOrder} {p : Program L} {s t u : State}
    (h : During ord p s t) (k : During ord p t u) : During ord p s u := by
  induction k with
  | entry => exact h
  | step _ hb hs ih => exact ih.step hb hs

theorem During.reaches {ord : CompareOrder} {p : Program L} {s t : State}
    (h : During ord p s t) : Reaches ord p s t := by
  induction h with
  | entry => exact Reaches.refl _ _ _
  | step _ _ hs ih => exact ih.trans ⟨1, by simp [run, hs]⟩

theorem During.head {ord : CompareOrder} {p : Program L} {s t : State} (h : During ord p s t) :
    t = s ∨ fetch p.text s.pc.toNat ≠ some (.b .r11) ∧
      ∃ u, Isa.step ord p s = some u ∧ During ord p u t := by
  induction h with
  | entry => exact .inl rfl
  | @step t v _ hb hs ih =>
    rcases ih with rfl | ⟨hb', u, hu, hd⟩
    · exact .inr ⟨hb, v, hs, .entry⟩
    · exact .inr ⟨hb', u, hu, hd.step hb hs⟩

/-- Every state of the activation is on the way to its return. -/
theorem During.to_return {ord : CompareOrder} {p : Program L} {s t u : State}
    (ht : During ord p s t) (hu : During ord p s u)
    (hret : fetch p.text u.pc.toNat = some (.b .r11)) : During ord p t u := by
  induction ht with
  | entry => exact hu
  | @step t v _ hb hs ih =>
    rcases ih.head with rfl | ⟨-, w, hw, hd⟩
    · exact absurd hret hb
    · rw [hs, Option.some.injEq] at hw
      exact hw ▸ hd

theorem FirstReturn.unique {ord : CompareOrder} {p : Program L} {s t u : State}
    (ht : FirstReturn ord p s t) (hu : FirstReturn ord p s u) : t = u := by
  rcases (ht.1.to_return hu.1 hu.2.2.1).head with rfl | ⟨hb, -⟩
  · rfl
  · exact absurd ht.2.2.1 hb

/-- A block without `B *R11` stays in the activation. -/
theorem during_block (ord : CompareOrder) (p : Program L) (n : Nat) {k : Nat} {s : State}
    {is : List (Instr L)} (hpc : s.pc = BitVec.ofNat 16 k) (hb : blockAt p.text k n = some is)
    (hs : (is.dropLast.all Instr.straight && is.all (· ≠ .b .r11)) = true)
    (hk : k + blockSize is ≤ 65536) :
    ∃ t, During ord p s t ∧ t = execBlock ord p s is := by
  induction n generalizing k s is with
  | zero =>
    simp only [blockAt, Option.some.injEq] at hb
    subst hb
    exact ⟨s, .entry, rfl⟩
  | succ n ih =>
    obtain ⟨i, rest, rfl, hf, hrest, hstep, hnext, hroom⟩ := step_block ord p hpc hb hk
    rw [Bool.and_eq_true, List.all_cons, Bool.and_eq_true, decide_eq_true_eq] at hs
    have hb1 : fetch p.text s.pc.toNat ≠ some (.b .r11) := by
      rw [hf]
      exact fun he => hs.2.1 (Option.some.inj he)
    have hfirst := During.step .entry hb1 hstep
    cases rest with
    | nil => exact ⟨_, hfirst, rfl⟩
    | cons j js =>
      rw [List.dropLast_cons_cons, List.all_cons, Bool.and_eq_true] at hs
      obtain ⟨t, hd, ht⟩ := ih (hnext hs.1.1) hrest (Bool.and_eq_true_iff.2 ⟨hs.1.2, hs.2.2⟩) hroom
      exact ⟨t, hfirst.trans hd, ht⟩

end LlvmTms9900.Isa
