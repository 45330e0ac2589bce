import LlvmTms9900.Isa.Run

/-!
# The legacy runtime library (runtime/tms9900_rt.asm)

The whole text, instruction by instruction, with the scratch words that the
routines keep between their instructions. `@NAME` is the address of a scratch
word of the same text, so that the text depends on where it is loaded.
-/

set_option maxRecDepth 16384

namespace LlvmTms9900.Runtime
open LlvmTms9900.Isa

inductive Label where
  | mulsi3 | mAhi | mAlo | mBhi | mBlo | mReshi | mReslo | msav11 | udivsi3 | udivOk | udivLoop
  | udivQnc | udivSetc | udivDshift | udivDnc1 | udivRnc1 | udivRnc2 | udivSub | udivBorrow
  | udivSubhi | udivNext | udivRet | dsav11 | dsav13 | dsav14 | dsav15 | divsi3 | sdivNd1
  | sdivPos1 | sdivNd2 | sdivPos2 | sdivRet | sdSign | sdsav11 | umodsi3 | umodOk | umodLoop
  | umodSetc | umodDshift | umodDnc1 | umodRnc1 | umodRnc2 | umodSub | umodBorrow | umodSubhi
  | umodNext | umodRet | umsav11 | umsav13 | umsav14 | umsav15 | modsi3 | smodNd1 | smodPos1
  | smodPos2 | smodRet | smSign | smsav11 | ashlsi3 | ashlOk | ashlLoop | ashlNc | ashlRet
  | lshrsi3 | lshrOk | lshrLoop | lshrNc | lshrRet | ashrsi3 | ashrNeg | ashrOk | ashrSext
  | ashrChk16 | ashrLoop | ashrNc | ashrRet
  deriving DecidableEq, Repr

/-- Offsets of the labels, as the assembler lays the text out. -/
def entry : Label → Word
  | .mulsi3 => 0#16 | .mAhi => 74#16 | .mAlo => 76#16 | .mBhi => 78#16 | .mBlo => 80#16
  | .mReshi => 82#16 | .mReslo => 84#16 | .msav11 => 86#16 | .udivsi3 => 88#16 | .udivOk => 116#16
  | .udivLoop => 128#16 | .udivQnc => 134#16 | .udivSetc => 144#16 | .udivDshift => 148#16
  | .udivDnc1 => 158#16 | .udivRnc1 => 164#16 | .udivRnc2 => 172#16 | .udivSub => 182#16
  | .udivBorrow => 188#16 | .udivSubhi => 190#16 | .udivNext => 198#16 | .udivRet => 206#16
  | .dsav11 => 224#16 | .dsav13 => 226#16 | .dsav14 => 228#16 | .dsav15 => 230#16
  | .divsi3 => 232#16 | .sdivNd1 => 256#16 | .sdivPos1 => 260#16 | .sdivNd2 => 276#16
  | .sdivPos2 => 280#16 | .sdivRet => 304#16 | .sdSign => 310#16 | .sdsav11 => 312#16
  | .umodsi3 => 314#16 | .umodOk => 338#16 | .umodLoop => 346#16 | .umodSetc => 354#16
  | .umodDshift => 358#16 | .umodDnc1 => 368#16 | .umodRnc1 => 374#16 | .umodRnc2 => 382#16
  | .umodSub => 392#16 | .umodBorrow => 398#16 | .umodSubhi => 400#16 | .umodNext => 402#16
  | .umodRet => 410#16 | .umsav11 => 428#16 | .umsav13 => 430#16 | .umsav14 => 432#16
  | .umsav15 => 434#16 | .modsi3 => 436#16 | .smodNd1 => 460#16 | .smodPos1 => 464#16
  | .smodPos2 => 480#16 | .smodRet => 500#16 | .smSign => 506#16 | .smsav11 => 508#16
  | .ashlsi3 => 510#16 | .ashlOk => 526#16 | .ashlLoop => 542#16 | .ashlNc => 550#16
  | .ashlRet => 554#16 | .lshrsi3 => 556#16 | .lshrOk => 572#16 | .lshrLoop => 588#16
  | .lshrNc => 606#16 | .lshrRet => 610#16 | .ashrsi3 => 612#16 | .ashrNeg => 632#16
  | .ashrOk => 638#16 | .ashrSext => 654#16 | .ashrChk16 => 656#16 | .ashrLoop => 662#16
  | .ashrNc => 680#16 | .ashrRet => 684#16

/-- `@l`, in the text loaded at `base`. -/
def scratch (base : Word) (l : Label) : Opnd := .sym (base + entry l)

/-- `tms9900_rt.asm:30-68`. -/
def mulText (base : Word) : List (Line Label) :=
  [ .lab .mulsi3,
    .ins (.mov (.reg .r11) (scratch base .msav11)),
    .ins (.mov (.reg .r0) (scratch base .mAhi)),
    .ins (.mov (.reg .r1) (scratch base .mAlo)),
    .ins (.mov (.reg .r2) (scratch base .mBhi)),
    .ins (.mov (.reg .r3) (scratch base .mBlo)),
    .ins (.mov (.reg .r1) (.reg .r0)),
    .ins (.mpy (.reg .r3) .r0),
    .ins (.mov (.reg .r0) (scratch base .mReshi)),
    .ins (.mov (.reg .r1) (scratch base .mReslo)),
    .ins (.mov (scratch base .mAhi) (.reg .r0)),
    .ins (.mov (scratch base .mBlo) (.reg .r2)),
    .ins (.mpy (.reg .r2) .r0),
    .ins (.a (.reg .r1) (scratch base .mReshi)),
    .ins (.mov (scratch base .mAlo) (.reg .r0)),
    .ins (.mov (scratch base .mBhi) (.reg .r2)),
    .ins (.mpy (.reg .r2) .r0),
    .ins (.a (.reg .r1) (scratch base .mReshi)),
    .ins (.mov (scratch base .mReshi) (.reg .r0)),
    .ins (.mov (scratch base .mReslo) (.reg .r1)),
    .ins (.mov (scratch base .msav11) (.reg .r11)),
    .ins (.b .r11),
    .lab .mAhi,
    .data 0#16,
    .lab .mAlo,
    .data 0#16,
    .lab .mBhi,
    .data 0#16,
    .lab .mBlo,
    .data 0#16,
    .lab .mReshi,
    .data 0#16,
    .lab .mReslo,
    .data 0#16,
    .lab .msav11,
    .data 0#16 ]

/-- `tms9900_rt.asm:81-188`. -/
def udivText (base : Word) : List (Line Label) :=
  [ .lab .udivsi3,
    .ins (.mov (.reg .r11) (scratch base .dsav11)),
    .ins (.mov (.reg .r13) (scratch base .dsav13)),
    .ins (.mov (.reg .r14) (scratch base .dsav14)),
    .ins (.mov (.reg .r15) (scratch base .dsav15)),
    .ins (.mov (.reg .r2) (.reg .r4)),
    .ins (.soc (.reg .r3) (.reg .r4)),
    .ins (.jump .ne .udivOk),
    .ins (.seto (.reg .r0)),
    .ins (.seto (.reg .r1)),
    .ins (.jump .always .udivRet),
    .lab .udivOk,
    .ins (.clr (.reg .r4)),
    .ins (.clr (.reg .r5)),
    .ins (.clr (.reg .r6)),
    .ins (.clr (.reg .r7)),
    .ins (.li .r13 32#16),
    .lab .udivLoop,
    .ins (.sla .r7 1),
    .ins (.jump .nc .udivQnc),
    .ins (.inc (.reg .r6)),
    .lab .udivQnc,
    .ins (.sla .r6 1),
    .ins (.clr (.reg .r14)),
    .ins (.mov (.reg .r0) (.reg .r0)),
    .ins (.jump .lt .udivSetc),
    .ins (.jump .always .udivDshift),
    .lab .udivSetc,
    .ins (.li .r14 1#16),
    .lab .udivDshift,
    .ins (.sla .r0 1),
    .ins (.sla .r1 1),
    .ins (.jump .nc .udivDnc1),
    .ins (.ori .r0 1#16),
    .lab .udivDnc1,
    .ins (.sla .r5 1),
    .ins (.jump .nc .udivRnc1),
    .ins (.inc (.reg .r4)),
    .lab .udivRnc1,
    .ins (.sla .r4 1),
    .ins (.a (.reg .r14) (.reg .r5)),
    .ins (.jump .nc .udivRnc2),
    .ins (.inc (.reg .r4)),
    .lab .udivRnc2,
    .ins (.c (.reg .r4) (.reg .r2)),
    .ins (.jump .l .udivNext),
    .ins (.jump .h .udivSub),
    .ins (.c (.reg .r5) (.reg .r3)),
    .ins (.jump .l .udivNext),
    .lab .udivSub,
    .ins (.s (.reg .r3) (.reg .r5)),
    .ins (.jump .nc .udivBorrow),
    .ins (.jump .always .udivSubhi),
    .lab .udivBorrow,
    .ins (.dec (.reg .r4)),
    .lab .udivSubhi,
    .ins (.s (.reg .r2) (.reg .r4)),
    .ins (.inc (.reg .r7)),
    .ins (.jump .nc .udivNext),
    .ins (.inc (.reg .r6)),
    .lab .udivNext,
    .ins (.dec (.reg .r13)),
    .ins (.jump .ne .udivLoop),
    .ins (.mov (.reg .r6) (.reg .r0)),
    .ins (.mov (.reg .r7) (.reg .r1)),
    .lab .udivRet,
    .ins (.mov (scratch base .dsav15) (.reg .r15)),
    .ins (.mov (scratch base .dsav14) (.reg .r14)),
    .ins (.mov (scratch base .dsav13) (.reg .r13)),
    .ins (.mov (scratch base .dsav11) (.reg .r11)),
    .ins (.b .r11),
    .lab .dsav11,
    .data 0#16,
    .lab .dsav13,
    .data 0#16,
    .lab .dsav14,
    .data 0#16,
    .lab .dsav15,
    .data 0#16 ]

/-- `tms9900_rt.asm:198-250`. -/
def divText (base : Word) : List (Line Label) :=
  [ .lab .divsi3,
    .ins (.mov (.reg .r11) (scratch base .sdsav11)),
    .ins (.clr (scratch base .sdSign)),
    .ins (.mov (.reg .r0) (.reg .r0)),
    .ins (.jump .gt .sdivPos1),
    .ins (.jump .eq .sdivPos1),
    .ins (.inv (.reg .r0)),
    .ins (.inv (.reg .r1)),
    .ins (.inc (.reg .r1)),
    .ins (.jump .nc .sdivNd1),
    .ins (.inc (.reg .r0)),
    .lab .sdivNd1,
    .ins (.inc (scratch base .sdSign)),
    .lab .sdivPos1,
    .ins (.mov (.reg .r2) (.reg .r2)),
    .ins (.jump .gt .sdivPos2),
    .ins (.jump .eq .sdivPos2),
    .ins (.inv (.reg .r2)),
    .ins (.inv (.reg .r3)),
    .ins (.inc (.reg .r3)),
    .ins (.jump .nc .sdivNd2),
    .ins (.inc (.reg .r2)),
    .lab .sdivNd2,
    .ins (.inc (scratch base .sdSign)),
    .lab .sdivPos2,
    .ins (.bl .udivsi3),
    .ins (.mov (scratch base .sdSign) (.reg .r4)),
    .ins (.andi .r4 1#16),
    .ins (.jump .eq .sdivRet),
    .ins (.inv (.reg .r0)),
    .ins (.inv (.reg .r1)),
    .ins (.inc (.reg .r1)),
    .ins (.jump .nc .sdivRet),
    .ins (.inc (.reg .r0)),
    .lab .sdivRet,
    .ins (.mov (scratch base .sdsav11) (.reg .r11)),
    .ins (.b .r11),
    .lab .sdSign,
    .data 0#16,
    .lab .sdsav11,
    .data 0#16 ]

/-- `tms9900_rt.asm:260-347`. -/
def umodText (base : Word) : List (Line Label) :=
  [ .lab .umodsi3,
    .ins (.mov (.reg .r11) (scratch base .umsav11)),
    .ins (.mov (.reg .r13) (scratch base .umsav13)),
    .ins (.mov (.reg .r14) (scratch base .umsav14)),
    .ins (.mov (.reg .r15) (scratch base .umsav15)),
    .ins (.mov (.reg .r2) (.reg .r4)),
    .ins (.soc (.reg .r3) (.reg .r4)),
    .ins (.jump .ne .umodOk),
    .ins (.jump .always .umodRet),
    .lab .umodOk,
    .ins (.clr (.reg .r4)),
    .ins (.clr (.reg .r5)),
    .ins (.li .r13 32#16),
    .lab .umodLoop,
    .ins (.clr (.reg .r14)),
    .ins (.mov (.reg .r0) (.reg .r0)),
    .ins (.jump .lt .umodSetc),
    .ins (.jump .always .umodDshift),
    .lab .umodSetc,
    .ins (.li .r14 1#16),
    .lab .umodDshift,
    .ins (.sla .r0 1),
    .ins (.sla .r1 1),
    .ins (.jump .nc .umodDnc1),
    .ins (.ori .r0 1#16),
    .lab .umodDnc1,
    .ins (.sla .r5 1),
    .ins (.jump .nc .umodRnc1),
    .ins (.inc (.reg .r4)),
    .lab .umodRnc1,
    .ins (.sla .r4 1),
    .ins (.a (.reg .r14) (.reg .r5)),
    .ins (.jump .nc .umodRnc2),
    .ins (.inc (.reg .r4)),
    .lab .umodRnc2,
    .ins (.c (.reg .r4) (.reg .r2)),
    .ins (.jump .l .umodNext),
    .ins (.jump .h .umodSub),
    .ins (.c (.reg .r5) (.reg .r3)),
    .ins (.jump .l .umodNext),
    .lab .umodSub,
    .ins (.s (.reg .r3) (.reg .r5)),
    .ins (.jump .nc .umodBorrow),
    .ins (.jump .always .umodSubhi),
    .lab .umodBorrow,
    .ins (.dec (.reg .r4)),
    .lab .umodSubhi,
    .ins (.s (.reg .r2) (.reg .r4)),
    .lab .umodNext,
    .ins (.dec (.reg .r13)),
    .ins (.jump .ne .umodLoop),
    .ins (.mov (.reg .r4) (.reg .r0)),
    .ins (.mov (.reg .r5) (.reg .r1)),
    .lab .umodRet,
    .ins (.mov (scratch base .umsav15) (.reg .r15)),
    .ins (.mov (scratch base .umsav14) (.reg .r14)),
    .ins (.mov (scratch base .umsav13) (.reg .r13)),
    .ins (.mov (scratch base .umsav11) (.reg .r11)),
    .ins (.b .r11),
    .lab .umsav11,
    .data 0#16,
    .lab .umsav13,
    .data 0#16,
    .lab .umsav14,
    .data 0#16,
    .lab .umsav15,
    .data 0#16 ]

/-- `tms9900_rt.asm:357-406`. -/
def modText (base : Word) : List (Line Label) :=
  [ .lab .modsi3,
    .ins (.mov (.reg .r11) (scratch base .smsav11)),
    .ins (.clr (scratch base .smSign)),
    .ins (.mov (.reg .r0) (.reg .r0)),
    .ins (.jump .gt .smodPos1),
    .ins (.jump .eq .smodPos1),
    .ins (.inv (.reg .r0)),
    .ins (.inv (.reg .r1)),
    .ins (.inc (.reg .r1)),
    .ins (.jump .nc .smodNd1),
    .ins (.inc (.reg .r0)),
    .lab .smodNd1,
    .ins (.inc (scratch base .smSign)),
    .lab .smodPos1,
    .ins (.mov (.reg .r2) (.reg .r2)),
    .ins (.jump .gt .smodPos2),
    .ins (.jump .eq .smodPos2),
    .ins (.inv (.reg .r2)),
    .ins (.inv (.reg .r3)),
    .ins (.inc (.reg .r3)),
    .ins (.jump .nc .smodPos2),
    .ins (.inc (.reg .r2)),
    .lab .smodPos2,
    .ins (.bl .umodsi3),
    .ins (.mov (scratch base .smSign) (.reg .r4)),
    .ins (.jump .eq .smodRet),
    .ins (.inv (.reg .r0)),
    .ins (.inv (.reg .r1)),
    .ins (.inc (.reg .r1)),
    .ins (.jump .nc .smodRet),
    .ins (.inc (.reg .r0)),
    .lab .smodRet,
    .ins (.mov (scratch base .smsav11) (.reg .r11)),
    .ins (.b .r11),
    .lab .smSign,
    .data 0#16,
    .lab .smsav11,
    .data 0#16 ]

/-- `tms9900_rt.asm:416-449`. -/
def ashlText : List (Line Label) :=
  [ .lab .ashlsi3,
    .ins (.mov (.reg .r2) (.reg .r2)),
    .ins (.jump .eq .ashlRet),
    .ins (.ci .r2 32#16),
    .ins (.jump .l .ashlOk),
    .ins (.clr (.reg .r0)),
    .ins (.clr (.reg .r1)),
    .ins (.b .r11),
    .lab .ashlOk,
    .ins (.ci .r2 16#16),
    .ins (.jump .l .ashlLoop),
    .ins (.mov (.reg .r1) (.reg .r0)),
    .ins (.clr (.reg .r1)),
    .ins (.ai .r2 0xFFF0#16),
    .ins (.jump .eq .ashlRet),
    .lab .ashlLoop,
    .ins (.sla .r0 1),
    .ins (.sla .r1 1),
    .ins (.jump .nc .ashlNc),
    .ins (.inc (.reg .r0)),
    .lab .ashlNc,
    .ins (.dec (.reg .r2)),
    .ins (.jump .ne .ashlLoop),
    .lab .ashlRet,
    .ins (.b .r11) ]

/-- `tms9900_rt.asm:459-496`. -/
def lshrText : List (Line Label) :=
  [ .lab .lshrsi3,
    .ins (.mov (.reg .r2) (.reg .r2)),
    .ins (.jump .eq .lshrRet),
    .ins (.ci .r2 32#16),
    .ins (.jump .l .lshrOk),
    .ins (.clr (.reg .r0)),
    .ins (.clr (.reg .r1)),
    .ins (.b .r11),
    .lab .lshrOk,
    .ins (.ci .r2 16#16),
    .ins (.jump .l .lshrLoop),
    .ins (.mov (.reg .r0) (.reg .r1)),
    .ins (.clr (.reg .r0)),
    .ins (.ai .r2 0xFFF0#16),
    .ins (.jump .eq .lshrRet),
    .lab .lshrLoop,
    .ins (.mov (.reg .r0) (.reg .r3)),
    .ins (.andi .r3 1#16),
    .ins (.srl .r0 1),
    .ins (.srl .r1 1),
    .ins (.mov (.reg .r3) (.reg .r3)),
    .ins (.jump .eq .lshrNc),
    .ins (.ori .r1 0x8000#16),
    .lab .lshrNc,
    .ins (.dec (.reg .r2)),
    .ins (.jump .ne .lshrLoop),
    .lab .lshrRet,
    .ins (.b .r11) ]

/-- `tms9900_rt.asm:506-556`. -/
def ashrText : List (Line Label) :=
  [ .lab .ashrsi3,
    .ins (.mov (.reg .r2) (.reg .r2)),
    .ins (.jump .eq .ashrRet),
    .ins (.ci .r2 32#16),
    .ins (.jump .l .ashrOk),
    .ins (.mov (.reg .r0) (.reg .r0)),
    .ins (.jump .lt .ashrNeg),
    .ins (.clr (.reg .r0)),
    .ins (.clr (.reg .r1)),
    .ins (.b .r11),
    .lab .ashrNeg,
    .ins (.seto (.reg .r0)),
    .ins (.seto (.reg .r1)),
    .ins (.b .r11),
    .lab .ashrOk,
    .ins (.ci .r2 16#16),
    .ins (.jump .l .ashrLoop),
    .ins (.mov (.reg .r0) (.reg .r1)),
    .ins (.mov (.reg .r0) (.reg .r0)),
    .ins (.jump .lt .ashrSext),
    .ins (.clr (.reg .r0)),
    .ins (.jump .always .ashrChk16),
    .lab .ashrSext,
    .ins (.seto (.reg .r0)),
    .lab .ashrChk16,
    .ins (.ai .r2 0xFFF0#16),
    .ins (.jump .eq .ashrRet),
    .lab .ashrLoop,
    .ins (.mov (.reg .r0) (.reg .r3)),
    .ins (.andi .r3 1#16),
    .ins (.sra .r0 1),
    .ins (.srl .r1 1),
    .ins (.mov (.reg .r3) (.reg .r3)),
    .ins (.jump .eq .ashrNc),
    .ins (.ori .r1 0x8000#16),
    .lab .ashrNc,
    .ins (.dec (.reg .r2)),
    .ins (.jump .ne .ashrLoop),
    .lab .ashrRet,
    .ins (.b .r11) ]

/-- What follows each routine's entry, in the order of the file. -/
def fromLshr : List (Line Label) := lshrText ++ ashrText
def fromAshl : List (Line Label) := ashlText ++ fromLshr
def fromMod (base : Word) : List (Line Label) := modText base ++ fromAshl
def fromUmod (base : Word) : List (Line Label) := umodText base ++ fromMod base
def fromDiv (base : Word) : List (Line Label) := divText base ++ fromUmod base
def fromUdiv (base : Word) : List (Line Label) := udivText base ++ fromDiv base

def text (base : Word) : List (Line Label) := mulText base ++ fromUdiv base

/-- The runtime library loaded at `base`. -/
def program (base : Word) : Program Label := ⟨base, text base, fun _ => 0#16⟩

@[simp] theorem target_eq (base : Word) (l : Label) : (program base).target l = entry l := by
  cases l <;> rfl

@[simp] theorem program_base (base : Word) : (program base).base = base := rfl

attribute [simp] scratch

/-- The word kept in a scratch word. -/
def saved (base : Word) (t : State) (l : Label) : Word := readWord t.mem (base + entry l)

section
variable (base : Word)

theorem textFrom_udiv : TextFrom (program base).text 88 (fromUdiv base) :=
  textFrom_append (mulText base) _ (by simp [textSize, mulText])

theorem textFrom_div : TextFrom (program base).text 232 (fromDiv base) := by
  have h := textFrom_udiv base
  unfold fromUdiv at h
  exact h.next (n := 144) (by simp [textSize, udivText])

theorem textFrom_umod : TextFrom (program base).text 314 (fromUmod base) := by
  have h := textFrom_div base
  unfold fromDiv at h
  exact h.next (n := 82) (by simp [textSize, divText])

theorem textFrom_mod : TextFrom (program base).text 436 (fromMod base) := by
  have h := textFrom_umod base
  unfold fromUmod at h
  exact h.next (n := 122) (by simp [textSize, umodText])

theorem textFrom_ashl : TextFrom (program base).text 510 fromAshl := by
  have h := textFrom_mod base
  unfold fromMod at h
  exact h.next (n := 74) (by simp [textSize, modText])

theorem textFrom_lshr : TextFrom (program base).text 556 fromLshr := by
  have h := textFrom_ashl base
  unfold fromAshl at h
  exact h.next (n := 46) (by simp [textSize, ashlText])

theorem textFrom_ashr : TextFrom (program base).text 612 ashrText := by
  have h := textFrom_lshr base
  unfold fromLshr at h
  exact h.next (n := 56) (by simp [textSize, lshrText])

end

end LlvmTms9900.Runtime
