import LlvmTms9900.Builtins.Mul32Three
import LlvmTms9900.Builtins.ShiftPieces
import LlvmTms9900.Runtime.Text

/-!
# The 32-bit shifts of both libraries

`libtms9900/builtins/shift32.S` and the shifts of `runtime/tms9900_rt.asm`
instantiate the stages. For every value and every 16-bit count both return
the shifted value.
-/

set_option maxRecDepth 16384

namespace LlvmTms9900.Builtins.Shift
open LlvmTms9900.Isa

inductive Label
  | ashlsi3 | ashlOk | ashlLoop | ashlNc | ashlDone
  | lshrsi3 | lshrOk | lshrLoop | lshrNc | lshrDone
  | ashrsi3 | ashrNeg | ashrOk | ashrNeg16 | ashrCont | ashrLoop | ashrNc | ashrDone
  deriving DecidableEq, Repr

/-- `shift32.S:23-142`. -/
def text : List (Line Label) :=
  [ .lab .ashlsi3,
    .ins (.ci .r2 32#16),
    .ins (.jump .l .ashlOk),
    .ins (.clr (.reg .r0)),
    .ins (.clr (.reg .r1)),
    .ins (.b .r11),
    .lab .ashlOk,
    .ins (.mov (.reg .r2) (.reg .r2)),
    .ins (.jump .eq .ashlDone),
    .ins (.ci .r2 16#16),
    .ins (.jump .l .ashlLoop),
    .ins (.mov (.reg .r1) (.reg .r0)),
    .ins (.clr (.reg .r1)),
    .ins (.ai .r2 0xFFF0#16),
    .ins (.jump .eq .ashlDone),
    .lab .ashlLoop,
    .ins (.sla .r0 1),
    .ins (.sla .r1 1),
    .ins (.jump .nc .ashlNc),
    .ins (.inc (.reg .r0)),
    .lab .ashlNc,
    .ins (.dec (.reg .r2)),
    .ins (.jump .ne .ashlLoop),
    .lab .ashlDone,
    .ins (.b .r11),
    .lab .lshrsi3,
    .ins (.ci .r2 32#16),
    .ins (.jump .l .lshrOk),
    .ins (.clr (.reg .r0)),
    .ins (.clr (.reg .r1)),
    .ins (.b .r11),
    .lab .lshrOk,
    .ins (.mov (.reg .r2) (.reg .r2)),
    .ins (.jump .eq .lshrDone),
    .ins (.ci .r2 16#16),
    .ins (.jump .l .lshrLoop),
    .ins (.mov (.reg .r0) (.reg .r1)),
    .ins (.clr (.reg .r0)),
    .ins (.ai .r2 0xFFF0#16),
    .ins (.jump .eq .lshrDone),
    .lab .lshrLoop,
    .ins (.srl .r1 1),
    .ins (.srl .r0 1),
    .ins (.jump .nc .lshrNc),
    .ins (.ori .r1 0x8000#16),
    .lab .lshrNc,
    .ins (.dec (.reg .r2)),
    .ins (.jump .ne .lshrLoop),
    .lab .lshrDone,
    .ins (.b .r11),
    .lab .ashrsi3,
    .ins (.ci .r2 32#16),
    .ins (.jump .l .ashrOk),
    .ins (.mov (.reg .r0) (.reg .r0)),
    .ins (.jump .lt .ashrNeg),
    .ins (.clr (.reg .r0)),
    .ins (.clr (.reg .r1)),
    .ins (.b .r11),
    .lab .ashrNeg,
    .ins (.seto (.reg .r0)),
    .ins (.seto (.reg .r1)),
    .ins (.b .r11),
    .lab .ashrOk,
    .ins (.mov (.reg .r2) (.reg .r2)),
    .ins (.jump .eq .ashrDone),
    .ins (.ci .r2 16#16),
    .ins (.jump .l .ashrLoop),
    .ins (.mov (.reg .r0) (.reg .r1)),
    .ins (.mov (.reg .r0) (.reg .r0)),
    .ins (.jump .lt .ashrNeg16),
    .ins (.clr (.reg .r0)),
    .ins (.jump .always .ashrCont),
    .lab .ashrNeg16,
    .ins (.seto (.reg .r0)),
    .lab .ashrCont,
    .ins (.ai .r2 0xFFF0#16),
    .ins (.jump .eq .ashrDone),
    .lab .ashrLoop,
    .ins (.srl .r1 1),
    .ins (.sra .r0 1),
    .ins (.jump .nc .ashrNc),
    .ins (.ori .r1 0x8000#16),
    .lab .ashrNc,
    .ins (.dec (.reg .r2)),
    .ins (.jump .ne .ashrLoop),
    .lab .ashrDone,
    .ins (.b .r11) ]

/-- `shift32.o` loaded at `base`. -/
def program (base : Word) : Program Label := ⟨base, text, fun _ => 0#16⟩

variable (ord : CompareOrder) (base : Word)

def ashlStages : Stages ord (program base) shl1 shl16 (fun _ => 0) where
  big := 6
  move := 22
  after := 26
  head := 32
  next := 40
  loop := .ashlLoop
  done := .ashlDone
  bigReturns := returns_clear (by decide) rfl rfl
  movePiece := piece_shl16 (by decide) rfl
  afterBlock := rfl
  headEq := rfl
  bitPiece := piece_shl (by decide) rfl rfl rfl
  nextBlock := rfl
  loopTarget := rfl
  doneTarget := rfl
  doneFetch := rfl
  bigBound := by decide
  bound := by decide
  moveOrder := by decide
  order := by decide

def lshrStages : Stages ord (program base) (· / 2) (· / 2 ^ 16) (fun _ => 0) where
  big := 52
  move := 68
  after := 72
  head := 78
  next := 88
  loop := .lshrLoop
  done := .lshrDone
  bigReturns := returns_clear (by decide) rfl rfl
  movePiece := piece_shr16 (by decide) rfl
  afterBlock := rfl
  headEq := rfl
  bitPiece := piece_shr_carry false (by decide) rfl rfl rfl
  nextBlock := rfl
  loopTarget := rfl
  doneTarget := rfl
  doneFetch := rfl
  bigBound := by decide
  bound := by decide
  moveOrder := by decide
  order := by decide

def ashrStages : Stages ord (program base) sar1 sar16 signFill where
  big := 100
  move := 126
  after := 138
  head := 144
  next := 154
  loop := .ashrLoop
  done := .ashrDone
  bigReturns := returns_signFill (by decide) rfl rfl rfl rfl rfl rfl
  movePiece := piece_sar16 (by decide) rfl rfl rfl rfl rfl
  afterBlock := rfl
  headEq := rfl
  bitPiece := piece_shr_carry true (by decide) rfl rfl rfl
  nextBlock := rfl
  loopTarget := rfl
  doneTarget := rfl
  doneFetch := rfl
  bigBound := by decide
  bound := by decide
  moveOrder := by decide
  order := by decide

def ashlStagesRuntime : Stages ord (Runtime.program base) shl1 shl16 (fun _ => 0) where
  big := 520
  move := 532
  after := 536
  head := 542
  next := 550
  loop := .ashlLoop
  done := .ashlRet
  bigReturns := returns_clear (by decide) ((Runtime.textFrom_ashl base).blockAt (k := 10) rfl)
    (Runtime.textFrom_ashl base 14)
  movePiece := piece_shl16 (by decide) ((Runtime.textFrom_ashl base).blockAt (k := 22) rfl)
  afterBlock := (Runtime.textFrom_ashl base).blockAt (k := 26) rfl
  headEq := rfl
  bitPiece := piece_shl (by decide) ((Runtime.textFrom_ashl base).blockAt (k := 32) rfl)
    ((Runtime.textFrom_ashl base).blockAt (k := 38) rfl) (Runtime.target_eq base _)
  nextBlock := (Runtime.textFrom_ashl base).blockAt (k := 40) rfl
  loopTarget := Runtime.target_eq base _
  doneTarget := Runtime.target_eq base _
  doneFetch := Runtime.textFrom_ashl base 44
  bigBound := by decide
  bound := by decide
  moveOrder := by decide
  order := by decide

def lshrStagesRuntime : Stages ord (Runtime.program base) (· / 2) (· / 2 ^ 16) (fun _ => 0) where
  big := 566
  move := 578
  after := 582
  head := 588
  next := 606
  loop := .lshrLoop
  done := .lshrRet
  bigReturns := returns_clear (by decide) ((Runtime.textFrom_lshr base).blockAt (k := 10) rfl)
    (Runtime.textFrom_lshr base 14)
  movePiece := piece_shr16 (by decide) ((Runtime.textFrom_lshr base).blockAt (k := 22) rfl)
  afterBlock := (Runtime.textFrom_lshr base).blockAt (k := 26) rfl
  headEq := rfl
  bitPiece := piece_shr_saved false (by decide) ((Runtime.textFrom_lshr base).blockAt (k := 32) rfl)
    ((Runtime.textFrom_lshr base).blockAt (k := 46) rfl) (Runtime.target_eq base _)
  nextBlock := (Runtime.textFrom_lshr base).blockAt (k := 50) rfl
  loopTarget := Runtime.target_eq base _
  doneTarget := Runtime.target_eq base _
  doneFetch := Runtime.textFrom_lshr base 54
  bigBound := by decide
  bound := by decide
  moveOrder := by decide
  order := by decide

def ashrStagesRuntime : Stages ord (Runtime.program base) sar1 sar16 signFill where
  big := 622
  move := 644
  after := 656
  head := 662
  next := 680
  loop := .ashrLoop
  done := .ashrRet
  bigReturns := returns_signFill (by decide) ((Runtime.textFrom_ashr base).blockAt (k := 10) rfl)
    ((Runtime.textFrom_ashr base).blockAt (k := 14) rfl) (Runtime.textFrom_ashr base 18)
    ((Runtime.textFrom_ashr base).blockAt (k := 20) rfl) (Runtime.textFrom_ashr base 24)
    (Runtime.target_eq base _)
  movePiece := piece_sar16 (by decide) ((Runtime.textFrom_ashr base).blockAt (k := 32) rfl)
    ((Runtime.textFrom_ashr base).blockAt (k := 38) rfl)
    ((Runtime.textFrom_ashr base).blockAt (k := 42) rfl) (Runtime.target_eq base _)
    (Runtime.target_eq base _)
  afterBlock := (Runtime.textFrom_ashr base).blockAt (k := 44) rfl
  headEq := rfl
  bitPiece := piece_shr_saved true (by decide) ((Runtime.textFrom_ashr base).blockAt (k := 50) rfl)
    ((Runtime.textFrom_ashr base).blockAt (k := 64) rfl) (Runtime.target_eq base _)
  nextBlock := (Runtime.textFrom_ashr base).blockAt (k := 68) rfl
  loopTarget := Runtime.target_eq base _
  doneTarget := Runtime.target_eq base _
  doneFetch := Runtime.textFrom_ashr base 72
  bigBound := by decide
  bound := by decide
  moveOrder := by decide
  order := by decide

section
variable (s : State)

theorem ashlsi3_value (h : s.pc = (program base).target .ashlsi3) :
    ReturnsValue ord (program base) s (s.pair .r0 .r1 * 2 ^ (s.regs .r2).toNat % 2 ^ 32) := by
  rw [← shiftValue_shl _ _ (s.pair_lt .r0 .r1)]
  exact (ashlStages ord base).returns_count_first .ashlOk (m := 0) (j := 12) rfl rfl
    rfl rfl rfl rfl h

theorem lshrsi3_value (h : s.pc = (program base).target .lshrsi3) :
    ReturnsValue ord (program base) s (s.pair .r0 .r1 / 2 ^ (s.regs .r2).toNat) := by
  rw [← shiftValue_shr _ _ (s.pair_lt .r0 .r1)]
  exact (lshrStages ord base).returns_count_first .lshrOk (m := 46) (j := 58) rfl rfl
    rfl rfl rfl rfl h

theorem ashrsi3_value (h : s.pc = (program base).target .ashrsi3) :
    ReturnsValue ord (program base) s
      (Div32.word32 (Div32.signed32 (s.pair .r0 .r1) / 2 ^ (s.regs .r2).toNat)) := by
  rw [← shiftValue_sar _ _ (s.pair_lt .r0 .r1)]
  exact (ashrStages ord base).returns_count_first .ashrOk (m := 94) (j := 116) rfl rfl
    rfl rfl rfl rfl h

theorem ashlsi3_value_runtime (h : s.pc = Runtime.entry .ashlsi3) :
  ReturnsValue ord (Runtime.program base) s (s.pair .r0 .r1 * 2 ^ (s.regs .r2).toNat % 2 ^ 32) := by
  have hx := Runtime.textFrom_ashl base
  rw [← shiftValue_shl _ _ (s.pair_lt .r0 .r1)]
  exact (ashlStagesRuntime ord base).returns_zero_first .ashlOk (m := 510) (j := 526) rfl rfl
    (Runtime.target_eq base _) (hx.blockAt (k := 0) rfl) (hx.blockAt (k := 4) rfl)
    (hx.blockAt (k := 16) rfl) h

theorem lshrsi3_value_runtime (h : s.pc = Runtime.entry .lshrsi3) :
    ReturnsValue ord (Runtime.program base) s (s.pair .r0 .r1 / 2 ^ (s.regs .r2).toNat) := by
  have hx := Runtime.textFrom_lshr base
  rw [← shiftValue_shr _ _ (s.pair_lt .r0 .r1)]
  exact (lshrStagesRuntime ord base).returns_zero_first .lshrOk (m := 556) (j := 572) rfl rfl
    (Runtime.target_eq base _) (hx.blockAt (k := 0) rfl) (hx.blockAt (k := 4) rfl)
    (hx.blockAt (k := 16) rfl) h

theorem ashrsi3_value_runtime (h : s.pc = Runtime.entry .ashrsi3) :
    ReturnsValue ord (Runtime.program base) s
      (Div32.word32 (Div32.signed32 (s.pair .r0 .r1) / 2 ^ (s.regs .r2).toNat)) := by
  have hx := Runtime.textFrom_ashr base
  rw [← shiftValue_sar _ _ (s.pair_lt .r0 .r1)]
  exact (ashrStagesRuntime ord base).returns_zero_first .ashrOk (m := 612) (j := 638) rfl rfl
    (Runtime.target_eq base _) (hx.blockAt (k := 0) rfl) (hx.blockAt (k := 4) rfl)
    (hx.blockAt (k := 26) rfl) h

end

/-- The six shifts return for every value and every count, and the two
libraries return the same value. -/
theorem shifts_agree (ord : CompareOrder) (base : Word) (s : State) :
    (s.pc = (program base).target .ashlsi3 →
      ReturnsValue ord (program base) s
        (s.pair .r0 .r1 * 2 ^ (s.regs .r2).toNat % 2 ^ 32)) ∧
    (s.pc = (program base).target .lshrsi3 →
      ReturnsValue ord (program base) s (s.pair .r0 .r1 / 2 ^ (s.regs .r2).toNat)) ∧
    (s.pc = (program base).target .ashrsi3 →
      ReturnsValue ord (program base) s
        (Div32.word32 (Div32.signed32 (s.pair .r0 .r1) / 2 ^ (s.regs .r2).toNat))) ∧
    (s.pc = (Runtime.program base).target .ashlsi3 →
      ReturnsValue ord (Runtime.program base) s
        (s.pair .r0 .r1 * 2 ^ (s.regs .r2).toNat % 2 ^ 32)) ∧
    (s.pc = (Runtime.program base).target .lshrsi3 →
      ReturnsValue ord (Runtime.program base) s (s.pair .r0 .r1 / 2 ^ (s.regs .r2).toNat)) ∧
    (s.pc = (Runtime.program base).target .ashrsi3 →
      ReturnsValue ord (Runtime.program base) s
        (Div32.word32 (Div32.signed32 (s.pair .r0 .r1) / 2 ^ (s.regs .r2).toNat))) := by
  simp only [Runtime.target_eq]
  exact ⟨ashlsi3_value ord base s, lshrsi3_value ord base s, ashrsi3_value ord base s,
    ashlsi3_value_runtime ord base s, lshrsi3_value_runtime ord base s,
    ashrsi3_value_runtime ord base s⟩

/-- `0x8001_8000`, a count of 17, and the routine at offset `k`. -/
def shiftSeventeen (k : Word) : State where
  pc := k
  regs := fun
    | .r0 => 0x8001#16
    | .r1 => 0x8000#16
    | .r2 => 17#16
    | .r10 => 0xFFF0#16
    | .r11 => 0x7000#16
    | _ => 0#16
  mem := fun _ => 0#8
  st := ⟨false, false, false, false⟩

theorem shiftSeventeen_pair (k : Word) : (shiftSeventeen k).pair .r0 .r1 = 0x80018000 := by
  simp [State.pair, shiftSeventeen]

theorem shiftSeventeen_count (k : Word) : ((shiftSeventeen k).regs .r2).toNat = 17 := by
  simp [shiftSeventeen]

theorem shiftSeventeen_values :
    ReturnsValue .manual (program 0x6000#16) (shiftSeventeen 0#16) 0 ∧
    ReturnsValue .manual (program 0x6000#16) (shiftSeventeen 46#16) 0x4000 ∧
    ReturnsValue .manual (program 0x6000#16) (shiftSeventeen 94#16) 0xFFFFC000 ∧
    ReturnsValue .manual (Runtime.program 0x6000#16) (shiftSeventeen 510#16) 0 ∧
    ReturnsValue .manual (Runtime.program 0x6000#16) (shiftSeventeen 556#16) 0x4000 ∧
    ReturnsValue .manual (Runtime.program 0x6000#16) (shiftSeventeen 612#16) 0xFFFFC000 := by
  have h1 := (shifts_agree .manual 0x6000#16 (shiftSeventeen 0#16)).1 rfl
  have h2 := (shifts_agree .manual 0x6000#16 (shiftSeventeen 46#16)).2.1 rfl
  have h3 := (shifts_agree .manual 0x6000#16 (shiftSeventeen 94#16)).2.2.1 rfl
  have h4 := (shifts_agree .manual 0x6000#16 (shiftSeventeen 510#16)).2.2.2.1
    (Runtime.target_eq _ .ashlsi3).symm
  have h5 := (shifts_agree .manual 0x6000#16 (shiftSeventeen 556#16)).2.2.2.2.1
    (Runtime.target_eq _ .lshrsi3).symm
  have h6 := (shifts_agree .manual 0x6000#16 (shiftSeventeen 612#16)).2.2.2.2.2
    (Runtime.target_eq _ .ashrsi3).symm
  have hsign : Div32.word32 (Div32.signed32 0x80018000 / 2 ^ 17) = 0xFFFFC000 := by decide
  rw [shiftSeventeen_pair, shiftSeventeen_count] at h1 h2 h3 h4 h5 h6
  rw [hsign] at h3 h6
  exact ⟨h1, h2, h3, h4, h5, h6⟩

end LlvmTms9900.Builtins.Shift
