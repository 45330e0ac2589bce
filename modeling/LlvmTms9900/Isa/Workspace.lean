import LlvmTms9900.Isa.Run

/-!
# Registers in memory

On the TMS9900 the workspace registers are the sixteen words of memory from the
workspace pointer on. This machine keeps them there, for the instructions of a
start-up routine; a store through a register may hit a register.
-/

namespace LlvmTms9900.Isa.Workspace

variable {L : Type} [DecidableEq L]

/-- Offset of a register from the workspace pointer. -/
def offset : Reg → Word
  | .r0 => 0#16 | .r1 => 2#16 | .r2 => 4#16 | .r3 => 6#16 | .r4 => 8#16 | .r5 => 10#16
  | .r6 => 12#16 | .r7 => 14#16 | .r8 => 16#16 | .r9 => 18#16 | .r10 => 20#16 | .r11 => 22#16
  | .r12 => 24#16 | .r13 => 26#16 | .r14 => 28#16 | .r15 => 30#16

structure State where
  pc : Word
  wp : Word
  mem : Memory
  st : Status

def State.reg (s : State) (r : Reg) : Word := readWord s.mem (s.wp + offset r)

def State.store (s : State) (a v : Word) : State := { s with mem := writeWord s.mem a v }

/-- Every operand is a word of memory. -/
def addr (s : State) : Opnd → Word
  | .reg r => s.wp + offset r
  | .ind r => s.reg r
  | .inc r => s.reg r
  | .sym a => a

/-- `*Rn+` steps its register once the address is formed. -/
def advance (s : State) : Opnd → State
  | .inc r => s.store (s.wp + offset r) (s.reg r + 2#16)
  | _ => s

def State.compare (s : State) (x y : Word) : State := { s with st := s.st.compare x y }

/-- `none` for an instruction that no start-up routine uses. -/
def exec (p : Program L) (s : State) : Instr L → Option State
  | .li r v => some ((s.store (s.wp + offset r) v).compare v 0#16)
  | .clr d => some ((advance s d).store (addr s d) 0#16)
  | .c src dst =>
    let x := readWord s.mem (addr s src)
    let s := advance s src
    let y := readWord s.mem (addr s dst)
    some ((advance s dst).compare x y)
  | .jump cond l => some (if s.st.holds cond then { s with pc := p.target l } else s)
  | .bl l => some { s.store (s.wp + offset .r11) (p.base + s.pc) with pc := p.target l }
  | .limi _ => some s
  | _ => none

def step (p : Program L) (s : State) : Option State :=
  (fetch p.text s.pc.toNat).bind fun i => exec p { s with pc := s.pc + BitVec.ofNat 16 i.size } i

def run (p : Program L) : ℕ → State → Option State
  | 0, s => some s
  | n + 1, s => (step p s).bind (run p n)

def Reaches (p : Program L) (s t : State) : Prop := ∃ n, run p n s = some t

section Run
variable {p : Program L} {s t u : State}

theorem run_add (m n : ℕ) (s : State) : run p (m + n) s = (run p m s).bind (run p n) := by
  induction m generalizing s with
  | zero => simp [run]
  | succ m ih =>
    rw [Nat.succ_add]
    simp only [run]
    cases step p s with
    | none => rfl
    | some u => exact ih u

theorem Reaches.trans (h : Reaches p s t) (k : Reaches p t u) : Reaches p s u := by
  obtain ⟨m, hm⟩ := h
  obtain ⟨n, hn⟩ := k
  exact ⟨m + n, by rw [run_add, hm]; exact hn⟩

end Run

end LlvmTms9900.Isa.Workspace
