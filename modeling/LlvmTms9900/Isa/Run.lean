import LlvmTms9900.Isa.Machine

/-!
# Runs

`Reaches` is "some number of instructions lead from one state to another".
Straight-line code is executed a block at a time: `blockAt` reads the
instructions off the text and `execBlock` folds `exec` over them.
-/

namespace LlvmTms9900.Isa

variable {L : Type} [DecidableEq L]

def Reaches (ord : CompareOrder) (p : Program L) (s t : State) : Prop :=
  ∃ n, run ord p n s = some t

/-- The instruction never changes `pc` itself. -/
def Instr.straight : Instr L → Bool
  | .jump .. | .bl .. | .b .. => false
  | _ => true

/-- `n` consecutive instructions from offset `k`. -/
def blockAt (text : List (Line L)) : Nat → Nat → Option (List (Instr L))
  | _, 0 => some []
  | k, n + 1 =>
    match fetch text k with
    | none => none
    | some i => (blockAt text (k + i.size) n).map (i :: ·)

/-- Bytes a text occupies. -/
def textSize : List (Line L) → Nat
  | [] => 0
  | .lab _ :: ls => textSize ls
  | .ins i :: ls => i.size + textSize ls
  | .data _ :: ls => 2 + textSize ls

omit [DecidableEq L] in
theorem Instr.size_pos (i : Instr L) : 0 < i.size := by cases i <;> simp [Instr.size]

/-- `rest` is the text from offset `m` on. -/
def TextFrom (text : List (Line L)) (m : Nat) (rest : List (Line L)) : Prop :=
  ∀ k, fetch text (k + m) = fetch rest k

omit [DecidableEq L] in
theorem textFrom_append (pre post : List (Line L)) {m : Nat} (hm : textSize pre = m) :
    TextFrom (pre ++ post) m post := by
  intro k
  induction pre generalizing m with
  | nil =>
    subst hm
    rfl
  | cons l ls ih =>
    subst hm
    cases l with
    | lab l => exact ih rfl
    | ins i =>
      have hpos := i.size_pos
      rw [List.cons_append, fetch, textSize, if_neg (by omega), if_pos (by omega),
        show k + (i.size + textSize ls) - i.size = k + textSize ls by omega]
      exact ih rfl
    | data v =>
      rw [List.cons_append, fetch, textSize, if_pos (by omega),
        show k + (2 + textSize ls) - 2 = k + textSize ls by omega]
      exact ih rfl

omit [DecidableEq L] in
theorem TextFrom.next {text pre post : List (Line L)} {m n : Nat}
    (h : TextFrom text m (pre ++ post)) (hn : textSize pre = n) : TextFrom text (n + m) post := by
  intro k
  rw [← Nat.add_assoc, h (k + n), textFrom_append pre post hn k]

omit [DecidableEq L] in
theorem TextFrom.blockAt {text rest : List (Line L)} {m : Nat} (h : TextFrom text m rest)
    {k n : Nat} {is : List (Instr L)} (hb : blockAt rest k n = some is) :
    blockAt text (k + m) n = some is := by
  rw [← hb]
  clear hb
  induction n generalizing k with
  | zero => rfl
  | succ n ih =>
    rw [Isa.blockAt, Isa.blockAt, h k]
    cases fetch rest k with
    | none => rfl
    | some i =>
      have hk : k + m + i.size = k + i.size + m := by omega
      simp only [hk, ih]

def execBlock (ord : CompareOrder) (p : Program L) (s : State) : List (Instr L) → State
  | [] => s
  | i :: is => execBlock ord p (exec ord p { s with pc := s.pc + BitVec.ofNat 16 i.size } i) is

theorem Reaches.refl (ord : CompareOrder) (p : Program L) (s : State) : Reaches ord p s s :=
  ⟨0, rfl⟩

theorem run_add (ord : CompareOrder) (p : Program L) (m n : Nat) (s : State) :
    run ord p (m + n) s = (run ord p m s).bind (run ord p n) := by
  induction m generalizing s with
  | zero => simp [run]
  | succ m ih =>
    rw [Nat.succ_add]
    simp only [run]
    cases step ord p s with
    | none => rfl
    | some u => exact ih u

theorem Reaches.trans {ord : CompareOrder} {p : Program L} {s t u : State}
    (h : Reaches ord p s t) (k : Reaches ord p t u) : Reaches ord p s u := by
  obtain ⟨m, hm⟩ := h
  obtain ⟨n, hn⟩ := k
  exact ⟨m + n, by rw [run_add, hm]; exact hn⟩

/-- What every instruction preserves holds along the whole run. -/
theorem Reaches.invariant {ord : CompareOrder} {p : Program L} {s t : State} {Inv : State → Prop}
    (h : Reaches ord p s t) (h0 : Inv s)
    (hstep : ∀ u v, Inv u → step ord p u = some v → Inv v) : Inv t := by
  obtain ⟨n, hn⟩ := h
  induction n generalizing s with
  | zero =>
    cases hn
    exact h0
  | succ n ih =>
    simp only [run, Option.bind_eq_some_iff] at hn
    obtain ⟨u, hu, hrun⟩ := hn
    exact ih (hstep s u h0 hu) hrun

theorem step_eq {ord : CompareOrder} {p : Program L} {s : State} {k : Nat} {i : Instr L}
    (hpc : s.pc = BitVec.ofNat 16 k) (hf : fetch p.text (BitVec.ofNat 16 k : Word).toNat = some i) :
    step ord p s = some (exec ord p { s with pc := s.pc + BitVec.ofNat 16 i.size } i) := by
  rw [step, hpc, hf, Option.map_some]

/-- The run from `s` stops in `t`, outside the text. -/
def Halts (ord : CompareOrder) (p : Program L) (s t : State) : Prop :=
  Reaches ord p s t ∧ step ord p t = none

theorem run_of_step_none {ord : CompareOrder} {p : Program L} {t u : State} {n : Nat}
    (h : step ord p t = none) (hr : run ord p n t = some u) : u = t := by
  cases n with
  | zero => exact (Option.some.inj hr).symm
  | succ n => simp [run, h] at hr

theorem Halts.unique {ord : CompareOrder} {p : Program L} {s t u : State} (ht : Halts ord p s t)
    (hu : Halts ord p s u) : t = u := by
  obtain ⟨⟨m, hm⟩, hstop⟩ := ht
  obtain ⟨⟨n, hn⟩, hstop'⟩ := hu
  rcases Nat.le_total m n with hle | hle
  · obtain ⟨k, rfl⟩ := Nat.exists_eq_add_of_le hle
    rw [run_add, hm] at hn
    exact (run_of_step_none hstop hn).symm
  · obtain ⟨k, rfl⟩ := Nat.exists_eq_add_of_le hle
    rw [run_add, hn] at hm
    exact run_of_step_none hstop' hm

theorem step_eq_none {ord : CompareOrder} {p : Program L} {t : State}
    (h : fetch p.text t.pc.toNat = none) : step ord p t = none := by
  rw [step, h, Option.map_none]

theorem advance_pc (w : Word) (s : State) (o : Opnd) : (o.advance w s).pc = s.pc := by
  cases o <;> rfl

theorem storeWord_pc (s : State) (v : Word) (l : Loc) : (s.storeWord v l).pc = s.pc := by
  cases l <;> rfl

theorem storeByte_pc (s : State) (v : Byte) (l : Loc) : (s.storeByte v l).pc = s.pc := by
  cases l <;> rfl

theorem modify_pc (s : State) (d : Opnd) (f : Word → Word) : (s.modify d f).pc = s.pc := by
  simp only [State.modify, State.compare, storeWord_pc, advance_pc]

/-- Only jumps, `BL` and `B` touch `pc`. -/
theorem exec_pc (ord : CompareOrder) (p : Program L) (s : State) (i : Instr L)
    (h : i.straight = true) : (exec ord p s i).pc = s.pc := by
  cases i with
  | jump | bl | b => cases h
  | div src d =>
    simp only [exec]
    split
    · exact advance_pc _ _ _
    · exact advance_pc _ _ _
  | c src dst =>
    simp only [exec]
    cases ord <;> simp only [State.compareBy, State.compare, advance_pc]
  | _ =>
    simp only [exec, State.compare, State.setCarry, State.setReg, storeWord_pc, storeByte_pc,
      modify_pc, advance_pc]

def blockSize (is : List (Instr L)) : Nat := (is.map Instr.size).sum

/-- The first instruction of a block. -/
theorem step_block (ord : CompareOrder) (p : Program L) {n k : Nat} {s : State}
    {is : List (Instr L)} (hpc : s.pc = BitVec.ofNat 16 k)
    (hb : blockAt p.text k (n + 1) = some is) (hk : k + blockSize is ≤ 65536) :
    ∃ i rest, is = i :: rest ∧ fetch p.text s.pc.toNat = some i ∧
      blockAt p.text (k + i.size) n = some rest ∧
      step ord p s = some (exec ord p { s with pc := s.pc + BitVec.ofNat 16 i.size } i) ∧
      (i.straight = true → (exec ord p { s with pc := s.pc + BitVec.ofNat 16 i.size } i).pc =
        BitVec.ofNat 16 (k + i.size)) ∧ k + i.size + blockSize rest ≤ 65536 := by
  simp only [blockAt] at hb
  cases hf : fetch p.text k with
  | none => simp [hf] at hb
  | some i =>
    simp only [hf, Option.map_eq_some_iff] at hb
    obtain ⟨rest, hrest, rfl⟩ := hb
    have hsize : blockSize (i :: rest) = i.size + blockSize rest := by
      simp [blockSize]
    have hpos := i.size_pos
    have hkn : s.pc.toNat = k := by
      rw [hpc, BitVec.toNat_ofNat]
      exact Nat.mod_eq_of_lt (by omega)
    refine ⟨i, rest, rfl, by rw [hkn, hf], hrest, ?_, fun hi => ?_, by omega⟩
    · rw [step, hkn, hf, Option.map_some]
    · rw [exec_pc ord p _ i hi, hpc, BitVec.ofNat_add]

/-- A block is straight-line code, ending in at most one jump or branch. -/
theorem run_block (ord : CompareOrder) (p : Program L) (n k : Nat) (s : State)
    (is : List (Instr L)) (hpc : s.pc = BitVec.ofNat 16 k) (hb : blockAt p.text k n = some is)
    (hs : is.dropLast.all Instr.straight = true) (hk : k + blockSize is ≤ 65536) :
    run ord p n s = some (execBlock ord p s is) := by
  induction n generalizing k s is with
  | zero =>
    simp only [blockAt, Option.some.injEq] at hb
    subst hb
    rfl
  | succ n ih =>
    obtain ⟨i, rest, rfl, -, hrest, hstep, hnext, hroom⟩ := step_block ord p hpc hb hk
    simp only [run, hstep, Option.bind_some, execBlock]
    cases rest with
    | nil =>
      cases n with
      | zero => rfl
      | succ n =>
        obtain ⟨j, js, hne, -⟩ := step_block ord p
          (s := { s with pc := BitVec.ofNat 16 (k + i.size) }) rfl hrest hroom
        cases hne
    | cons j js =>
      rw [List.dropLast_cons_cons, List.all_cons, Bool.and_eq_true] at hs
      exact ih _ _ _ (hnext hs.1) hrest hs.2 hroom

theorem exists_block (ord : CompareOrder) (p : Program L) (n : Nat) {k : Nat} {s : State}
    {is : List (Instr L)} (hpc : s.pc = BitVec.ofNat 16 k) (hb : blockAt p.text k n = some is)
    (hs : is.dropLast.all Instr.straight = true) (hk : k + blockSize is ≤ 65536) :
    ∃ t, Reaches ord p s t ∧ t = execBlock ord p s is :=
  ⟨_, ⟨n, run_block ord p n k s is hpc hb hs hk⟩, rfl⟩

/- Symbolic execution: `simp` unfolds a block instruction by instruction. -/
attribute [simp] execBlock exec textSize Instr.size Opnd.extra Opnd.loc Opnd.advance State.loadWord
  State.loadByte State.storeWord State.storeByte State.setReg State.compare State.setCarry
  State.modify State.shiftCount Status.compare Status.holds Reg.next

section Compare
variable (s : State) (ord : CompareOrder) (x y : Word)

@[simp] theorem compareBy_pc : (s.compareBy ord x y).pc = s.pc := by cases ord <;> rfl
@[simp] theorem compareBy_regs : (s.compareBy ord x y).regs = s.regs := by cases ord <;> rfl
@[simp] theorem compareBy_mem : (s.compareBy ord x y).mem = s.mem := by cases ord <;> rfl

@[simp] theorem compareBy_lgt : (s.compareBy ord x y).st.lgt = ord.over x.toNat y.toNat := by
  cases ord <;> rfl

@[simp] theorem compareBy_eq : (s.compareBy ord x y).st.eq = decide (x = y) := by
  cases ord with
  | manual => rfl
  | swapped => simp only [State.compareBy, State.compare, Status.compare, eq_comm]

end Compare

theorem CompareOrder.over_irrefl (ord : CompareOrder) (x : Nat) : ord.over x x = false := by
  cases ord <;> simp [CompareOrder.over]

/-- The registers of `rs` hold in `t` what they held in `s`. -/
def SameRegs (rs : List Reg) (s t : State) : Prop := ∀ r ∈ rs, t.regs r = s.regs r

theorem SameRegs.trans {rs : List Reg} {s t u : State} (h : SameRegs rs s t)
    (k : SameRegs rs t u) : SameRegs rs s u :=
  fun r hr => (k r hr).trans (h r hr)

theorem SameRegs.mono {rs rs' : List Reg} {s t : State} (h : SameRegs rs s t)
    (hsub : ∀ r ∈ rs', r ∈ rs) : SameRegs rs' s t :=
  fun r hr => h r (hsub r hr)

/-- The 32-bit value in a register pair, high word first. -/
def State.pair (s : State) (hi lo : Reg) : Nat := (s.regs hi).toNat * 65536 + (s.regs lo).toNat

theorem State.pair_lt (s : State) (hi lo : Reg) : s.pair hi lo < 2 ^ 32 := by
  have h1 := (s.regs hi).isLt
  have h2 := (s.regs lo).isLt
  unfold State.pair
  omega

/-- `u` is about to execute `B *R11`, with the `R11` that `s` was entered with. -/
def Returns (ord : CompareOrder) (p : Program L) (s u : State) : Prop :=
  Reaches ord p s u ∧ fetch p.text u.pc.toNat = some (.b .r11) ∧ u.regs .r11 = s.regs .r11

theorem Returns.back {ord : CompareOrder} {p : Program L} {s u : State}
    (h : Returns ord p s u) :
    Reaches ord p s { u with pc := s.regs .r11 - p.base } := by
  obtain ⟨hr, hf, h11⟩ := h
  refine hr.trans ⟨1, ?_⟩
  simp [run, step, hf, h11]

/-- The routine entered in `s` comes to its return with `value` in `R0:R1`. -/
def ReturnsValue (ord : CompareOrder) (p : Program L) (s : State) (value : Nat) : Prop :=
  ∃ u, Returns ord p s u ∧ u.pair .r0 .r1 = value

theorem ReturnsValue.of_reaches {ord : CompareOrder} {p : Program L} {s t : State} {v : Nat}
    (b : Reaches ord p s t) (h11 : t.regs .r11 = s.regs .r11) (h : ReturnsValue ord p t v) :
    ReturnsValue ord p s v := by
  obtain ⟨u, ⟨b2, hf, hr⟩, hv⟩ := h
  exact ⟨u, ⟨b.trans b2, hf, hr.trans h11⟩, hv⟩

/-- Registers a routine must give back as it found them. -/
def calleeSaved : List Reg := [.r8, .r9, .r10, .r12, .r13, .r14, .r15]

/-- What a caller sees of a routine that pushes at most `room` bytes and
returns `value` in `R0:R1`. -/
structure Called (ord : CompareOrder) (p : Program L) (room : Nat) (s u : State) (value : Nat) :
    Prop where
  returns : Returns ord p s u
  saved : SameRegs calleeSaved s u
  mem : ∀ a : Word, a.toNat + room < (s.regs .r10).toNat ∨ (s.regs .r10).toNat ≤ a.toNat →
    u.mem a = s.mem a
  value : u.pair .r0 .r1 = value

theorem getElem_fifteen (x : Word) : x[15] = decide (32768 ≤ x.toNat) := by
  have h := BitVec.msb_eq_decide x
  rw [BitVec.msb_eq_getLsbD_last] at h
  simpa using h

end LlvmTms9900.Isa
