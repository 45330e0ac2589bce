import LlvmTms9900.Isa.Word

/-!
# The TMS9900 register machine

The instructions that the hand-written routines use, with the effects of the
TMS9900 data manual. The sixteen workspace registers are kept apart from
memory, and the program text is kept apart from both. Status bits that no
routine tests (overflow, parity) are left out.

The order in which `C` compares its operands is a parameter: the data manual
and the comment in `div32.S` disagree about it.
-/

namespace LlvmTms9900.Isa

inductive Reg where
  | r0 | r1 | r2 | r3 | r4 | r5 | r6 | r7 | r8 | r9 | r10 | r11 | r12 | r13 | r14 | r15
  deriving DecidableEq, Repr

/-- Second register of the pair that `MPY` and `DIV` use. -/
def Reg.next : Reg → Reg
  | .r0 => .r1 | .r1 => .r2 | .r2 => .r3 | .r3 => .r4 | .r4 => .r5 | .r5 => .r6
  | .r6 => .r7 | .r7 => .r8 | .r8 => .r9 | .r9 => .r10 | .r10 => .r11 | .r11 => .r12
  | .r12 => .r13 | .r13 => .r14 | .r14 => .r15 | .r15 => .r0

/-- Status bits `L>`, `A>`, `EQ` and `C`. -/
structure Status where
  lgt : Bool
  agt : Bool
  eq : Bool
  carry : Bool
  deriving DecidableEq, Repr

/-- `pc` is the offset from the address the text is loaded at. -/
structure State where
  pc : Word
  regs : Reg → Word
  mem : Memory
  st : Status

/-- `Rn`, `*Rn`, `*Rn+` and `@address`. -/
inductive Opnd where
  | reg (r : Reg)
  | ind (r : Reg)
  | inc (r : Reg)
  | sym (a : Word)
  deriving DecidableEq, Repr

/-- Conditions of the jump instructions. -/
inductive Cond where
  | always | eq | ne | gt | lt | h | l | he | le | oc | nc
  deriving DecidableEq, Repr

inductive Instr (L : Type) where
  | mov (s d : Opnd)
  | movb (s d : Opnd)
  | a (s d : Opnd)
  | s (s d : Opnd)
  | c (s d : Opnd)
  | soc (s d : Opnd)
  | xor (s : Opnd) (d : Reg)
  | mpy (s : Opnd) (d : Reg)
  | div (s : Opnd) (d : Reg)
  | clr (d : Opnd)
  | seto (d : Opnd)
  | inv (d : Opnd)
  | inc (d : Opnd)
  | dec (d : Opnd)
  | dect (d : Opnd)
  | swpb (d : Opnd)
  | li (r : Reg) (v : Word)
  | ai (r : Reg) (v : Word)
  | andi (r : Reg) (v : Word)
  | ori (r : Reg) (v : Word)
  | ci (r : Reg) (v : Word)
  | sla (r : Reg) (n : Nat)
  | sra (r : Reg) (n : Nat)
  | srl (r : Reg) (n : Nat)
  | jump (c : Cond) (l : L)
  | bl (l : L)
  | b (r : Reg)
  | lwpi (v : Word)
  | limi (v : Word)
  deriving DecidableEq, Repr

/-- Which of the two operands of `C` is compared against the other. -/
inductive CompareOrder where
  /-- Data manual: `C Rx,Ry` sets `L>` iff `Rx > Ry` unsigned. -/
  | manual
  /-- `div32.S`: `C Rx,Ry` sets `L>` iff `Ry > Rx` unsigned. -/
  | swapped
  deriving DecidableEq, Repr

/-- `L>` after `C` of `x` and `y`. -/
def CompareOrder.over (ord : CompareOrder) (x y : Nat) : Bool :=
  match ord with
  | .manual => decide (y < x)
  | .swapped => decide (x < y)

/-- A label, an instruction, or a `DATA` word. -/
inductive Line (L : Type) where
  | lab (l : L)
  | ins (i : Instr L)
  | data (v : Word)

/-- Bytes of the extra word a symbolic address takes. -/
def Opnd.extra : Opnd → Nat
  | .sym _ => 2
  | _ => 0

/-- Bytes an instruction occupies: immediates and symbolic addresses take a
further word each. -/
def Instr.size {L : Type} : Instr L → Nat
  | .li .. | .ai .. | .andi .. | .ori .. | .ci .. | .bl .. | .lwpi .. | .limi .. => 4
  | .mov x y | .movb x y | .a x y | .s x y | .c x y | .soc x y => 2 + x.extra + y.extra
  | .xor x _ | .mpy x _ | .div x _ => 2 + x.extra
  | .clr y | .seto y | .inv y | .inc y | .dec y | .dect y | .swpb y => 2 + y.extra
  | .sla .. | .sra .. | .srl .. | .jump .. | .b .. => 2

structure Program (L : Type) where
  base : Word
  text : List (Line L)
  /-- Addresses of the symbols the text does not define. -/
  symAddr : L → Word

def fetch {L : Type} : List (Line L) → Nat → Option (Instr L)
  | [], _ => none
  | .lab _ :: ls, k => fetch ls k
  | .ins i :: ls, k =>
    if k = 0 then some i else if i.size ≤ k then fetch ls (k - i.size) else none
  | .data _ :: ls, k => if 2 ≤ k then fetch ls (k - 2) else none

def labelOffset {L : Type} [DecidableEq L] : List (Line L) → L → Option Nat
  | [], _ => none
  | .lab l' :: ls, l => if l' = l then some 0 else labelOffset ls l
  | .ins i :: ls, l => (labelOffset ls l).map (· + i.size)
  | .data _ :: ls, l => (labelOffset ls l).map (· + 2)

/-- Value of `pc` at a label. -/
def Program.target {L : Type} [DecidableEq L] (p : Program L) (l : L) : Word :=
  match labelOffset p.text l with
  | some k => BitVec.ofNat 16 k
  | none => p.symAddr l - p.base

def State.setReg (s : State) (r : Reg) (v : Word) : State :=
  { s with regs := fun x => if x = r then v else s.regs x }

/-- Where an operand lives once its address has been formed. -/
inductive Loc where
  | reg (r : Reg)
  | mem (a : Word)

def Opnd.loc (s : State) : Opnd → Loc
  | .reg r => .reg r
  | .ind r => .mem (s.regs r)
  | .inc r => .mem (s.regs r)
  | .sym a => .mem a

/-- `*Rn+` steps its register by the operand width once the address is formed. -/
def Opnd.advance (width : Word) (s : State) : Opnd → State
  | .reg _ => s
  | .ind _ => s
  | .inc r => s.setReg r (s.regs r + width)
  | .sym _ => s

def State.loadWord (s : State) : Loc → Word
  | .reg r => s.regs r
  | .mem a => readWord s.mem a

/-- A byte operand in a register is its more significant half. -/
def State.loadByte (s : State) : Loc → Byte
  | .reg r => hiByte (s.regs r)
  | .mem a => s.mem a

def State.storeWord (s : State) (v : Word) : Loc → State
  | .reg r => s.setReg r v
  | .mem a => { s with mem := writeWord s.mem a v }

def State.storeByte (s : State) (v : Byte) : Loc → State
  | .reg r => s.setReg r (v ++ loByte (s.regs r))
  | .mem a => { s with mem := writeByte s.mem a v }

/-- `L>`, `A>` and `EQ` of comparing `x` with `y`; `C` is kept. -/
def Status.compare (st : Status) (x y : Word) : Status :=
  { st with lgt := decide (y < x), agt := BitVec.slt y x, eq := decide (x = y) }

def State.compare (s : State) (x y : Word) : State := { s with st := s.st.compare x y }

def State.compareBy (s : State) (ord : CompareOrder) (x y : Word) : State :=
  match ord with
  | .manual => s.compare x y
  | .swapped => s.compare y x

def State.setCarry (s : State) (c : Bool) : State := { s with st := { s.st with carry := c } }

def Status.holds (st : Status) : Cond → Bool
  | .always => true
  | .eq => st.eq
  | .ne => !st.eq
  | .gt => st.agt
  | .lt => !st.agt && !st.eq
  | .h => st.lgt && !st.eq
  | .l => !st.lgt && !st.eq
  | .he => st.lgt || st.eq
  | .le => !st.lgt || st.eq
  | .oc => st.carry
  | .nc => !st.carry

/-- Replace a word operand by `f` of it and compare the result with zero. -/
def State.modify (s : State) (d : Opnd) (f : Word → Word) : State :=
  let v := f (s.loadWord (d.loc s))
  ((d.advance 2#16 s).storeWord v (d.loc s)).compare v 0#16

/-- A shift count of zero means the count in `R0`. -/
def State.shiftCount (s : State) (n : Nat) : Nat :=
  if n = 0 then (if (s.regs .r0).toNat % 16 = 0 then 16 else (s.regs .r0).toNat % 16) else n

def exec {L : Type} [DecidableEq L] (ord : CompareOrder) (p : Program L) (s : State) :
    Instr L → State
  | .mov src dst =>
    let v := s.loadWord (src.loc s)
    let s := src.advance 2#16 s
    ((dst.advance 2#16 s).storeWord v (dst.loc s)).compare v 0#16
  | .movb src dst =>
    let v := s.loadByte (src.loc s)
    let s := src.advance 1#16 s
    ((dst.advance 1#16 s).storeByte v (dst.loc s)).compare (v ++ 0#8) 0#16
  | .a src dst =>
    let x := s.loadWord (src.loc s)
    let s := src.advance 2#16 s
    let y := s.loadWord (dst.loc s)
    (s.modify dst (· + x)).setCarry (decide (65536 ≤ y.toNat + x.toNat))
  | .s src dst =>
    let x := s.loadWord (src.loc s)
    let s := src.advance 2#16 s
    let y := s.loadWord (dst.loc s)
    (s.modify dst (· - x)).setCarry (decide (x.toNat ≤ y.toNat))
  | .c src dst =>
    let x := s.loadWord (src.loc s)
    let s := src.advance 2#16 s
    let y := s.loadWord (dst.loc s)
    (dst.advance 2#16 s).compareBy ord x y
  | .soc src dst =>
    let x := s.loadWord (src.loc s)
    (src.advance 2#16 s).modify dst (· ||| x)
  | .xor src d =>
    let x := s.loadWord (src.loc s)
    (src.advance 2#16 s).modify (.reg d) (· ^^^ x)
  | .mpy src d =>
    let x := s.loadWord (src.loc s)
    let s := src.advance 2#16 s
    let prod := (s.regs d).toNat * x.toNat
    (s.setReg d (BitVec.ofNat 16 (prod / 65536))).setReg d.next (BitVec.ofNat 16 prod)
  | .div src d =>
    let x := s.loadWord (src.loc s)
    let s := src.advance 2#16 s
    let n := (s.regs d).toNat * 65536 + (s.regs d.next).toNat
    -- overflow: the operands are left as they were
    if x ≤ s.regs d then s
    else (s.setReg d (BitVec.ofNat 16 (n / x.toNat))).setReg d.next (BitVec.ofNat 16 (n % x.toNat))
  | .clr d => (d.advance 2#16 s).storeWord 0#16 (d.loc s)
  | .seto d => (d.advance 2#16 s).storeWord 0xFFFF#16 (d.loc s)
  | .inv d => s.modify d (~~~ ·)
  | .inc d => (s.modify d (· + 1#16)).setCarry (decide (65535 ≤ (s.loadWord (d.loc s)).toNat))
  | .dec d => (s.modify d (· - 1#16)).setCarry (decide (1 ≤ (s.loadWord (d.loc s)).toNat))
  | .dect d => (s.modify d (· - 2#16)).setCarry (decide (2 ≤ (s.loadWord (d.loc s)).toNat))
  | .swpb d =>
    let x := s.loadWord (d.loc s)
    (d.advance 2#16 s).storeWord (loByte x ++ hiByte x) (d.loc s)
  | .li r v => (s.setReg r v).compare v 0#16
  | .ai r v =>
    (s.modify (.reg r) (· + v)).setCarry (decide (65536 ≤ (s.regs r).toNat + v.toNat))
  | .andi r v => s.modify (.reg r) (· &&& v)
  | .ori r v => s.modify (.reg r) (· ||| v)
  | .ci r v => s.compare (s.regs r) v
  | .sla r n =>
    (s.modify (.reg r) (· <<< s.shiftCount n)).setCarry
      ((s.regs r).getLsbD (16 - s.shiftCount n))
  | .sra r n =>
    (s.modify (.reg r) (·.sshiftRight (s.shiftCount n))).setCarry
      ((s.regs r).getLsbD (s.shiftCount n - 1))
  | .srl r n =>
    (s.modify (.reg r) (· >>> s.shiftCount n)).setCarry
      ((s.regs r).getLsbD (s.shiftCount n - 1))
  | .jump cond l => if s.st.holds cond then { s with pc := p.target l } else s
  | .bl l => { s.setReg .r11 (p.base + s.pc) with pc := p.target l }
  | .b r => { s with pc := s.regs r - p.base }
  -- the workspace pointer and the interrupt mask are not part of the state
  | .lwpi _ => s
  | .limi _ => s

/-- One instruction; `none` when `pc` is outside the text. -/
def step {L : Type} [DecidableEq L] (ord : CompareOrder) (p : Program L) (s : State) :
    Option State :=
  (fetch p.text s.pc.toNat).map fun i =>
    exec ord p { s with pc := s.pc + BitVec.ofNat 16 i.size } i

def run {L : Type} [DecidableEq L] (ord : CompareOrder) (p : Program L) : Nat → State → Option State
  | 0, s => some s
  | n + 1, s => (step ord p s).bind (run ord p n)

end LlvmTms9900.Isa
