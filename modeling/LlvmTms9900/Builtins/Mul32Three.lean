import LlvmTms9900.Builtins.Mul32
import LlvmTms9900.Runtime.Text

/-!
# Three versions of `__mulsi3`

`libtms9900/builtins/mul32.S`, `FreeRTOS/builtins.S` and
`runtime/tms9900_rt.asm` schedule the same three partial products through
different registers; the last keeps its operands in scratch words. Each gives
the product modulo `2^32`, from any stack pointer and load address.
-/

set_option maxRecDepth 16384

namespace LlvmTms9900.Builtins.Mul32
open LlvmTms9900.Isa
open LlvmTms9900.Runtime (saved)

/-- `FreeRTOS/builtins.S:17-46`. -/
def freertosText : List (Line Label) :=
  [ .lab .mulsi3,
    .ins (.dect (.reg .r10)),
    .ins (.mov (.reg .r9) (.ind .r10)),
    .ins (.mov (.reg .r0) (.reg .r9)),
    .ins (.mov (.reg .r1) (.reg .r6)),
    .ins (.mov (.reg .r6) (.reg .r4)),
    .ins (.mpy (.reg .r3) .r4),
    .ins (.mov (.reg .r9) (.reg .r0)),
    .ins (.mpy (.reg .r3) .r0),
    .ins (.a (.reg .r1) (.reg .r4)),
    .ins (.mov (.reg .r6) (.reg .r0)),
    .ins (.mpy (.reg .r2) .r0),
    .ins (.a (.reg .r1) (.reg .r4)),
    .ins (.mov (.reg .r4) (.reg .r0)),
    .ins (.mov (.reg .r5) (.reg .r1)),
    .ins (.mov (.inc .r10) (.reg .r9)),
    .ins (.b .r11) ]

/-- `builtins.o` of the FreeRTOS port loaded at `base`. -/
def freertosProgram (base : Word) : Program Label := ⟨base, freertosText, fun _ => 0#16⟩

variable (ord : CompareOrder) (base : Word) {s : State}

theorem mulsi3_value (h : s.pc = (program base).target .mulsi3) :
    ReturnsValue ord (program base) s (s.pair .r0 .r1 * s.pair .r2 .r3 % 2 ^ 32) := by
  obtain ⟨u, hret, hval, -⟩ := reaches_mulsi3 ord base h
  exact ⟨u, hret, hval⟩

theorem freertos_mulsi3_value (h : s.pc = (freertosProgram base).target .mulsi3) :
    ReturnsValue ord (freertosProgram base) s (s.pair .r0 .r1 * s.pair .r2 .r3 % 2 ^ 32) := by
  have h0 : s.pc = 0#16 := h
  obtain ⟨u, b1, e1⟩ := exists_block ord (freertosProgram base) 15 h0 rfl rfl (by decide)
  have hpc : u.pc = 30#16 := by simp [e1, h0]
  refine ⟨u, ⟨b1, by rw [hpc]; rfl, by simp [e1]⟩, ?_⟩
  rw [State.pair, State.pair, State.pair, ← mul_words]
  simp [e1, BitVec.toNat_add]

/-- What the runtime version keeps in its scratch words while it works. -/
structure Operands (s t : State) : Prop where
  ahi : saved base t .mAhi = s.regs .r0
  alo : saved base t .mAlo = s.regs .r1
  bhi : saved base t .mBhi = s.regs .r2
  blo : saved base t .mBlo = s.regs .r3
  link : saved base t .msav11 = s.regs .r11

/-- `runtime/tms9900_rt.asm:31-41`: the operands saved, and the product of
their low words. -/
theorem runtime_reaches_low (h : s.pc = Runtime.entry .mulsi3) :
    ∃ t, Reaches ord (Runtime.program base) s t ∧ t.pc = 32#16 ∧ Operands base s t ∧
      saved base t .mReshi =
        BitVec.ofNat 16 ((s.regs .r1).toNat * (s.regs .r3).toNat / 65536) ∧
      saved base t .mReslo = BitVec.ofNat 16 ((s.regs .r1).toNat * (s.regs .r3).toNat) := by
  obtain ⟨t, b1, e1⟩ := exists_block ord (Runtime.program base) 5 h rfl rfl (by simp [blockSize])
  have hpc1 : t.pc = 20#16 := by simp [e1, h, Runtime.entry]
  have hm1 : Operands base s t := by
    constructor <;> simp (disch := decide) [saved, e1, Runtime.entry, readWord_writeWord_self,
      readWord_writeWord_offset]
  have hr1 : t.regs .r1 = s.regs .r1 := by simp [e1]
  have hr3 : t.regs .r3 = s.regs .r3 := by simp [e1]
  obtain ⟨u, b2, e2⟩ := exists_block ord (Runtime.program base) 4 hpc1 rfl rfl (by simp [blockSize])
  refine ⟨u, b1.trans b2, by simp [e2, hpc1], ?_, ?_, ?_⟩
  · obtain ⟨h1, h2, h3, h4, h5⟩ := hm1
    simp only [saved, Runtime.entry] at h1 h2 h3 h4 h5
    constructor <;> simp (disch := decide) [saved, e2, Runtime.entry, readWord_writeWord_offset,
      h1, h2, h3, h4, h5]
  · simp (disch := decide) [saved, e2, Runtime.entry, readWord_writeWord_self,
      readWord_writeWord_offset, hr1, hr3]
  · simp (disch := decide) [saved, e2, Runtime.entry, readWord_writeWord_self, hr1, hr3]

/-- `runtime/tms9900_rt.asm:43-53`: a cross product of the scratch words `x`
and `y` added to the high word. -/
theorem runtime_reaches_cross (k : Nat) (x y : Runtime.Label) (hk : k + 14 ≤ 65536)
    (hb : blockAt (Runtime.text base) k 4 =
      some [.mov (Runtime.scratch base x) (.reg .r0), .mov (Runtime.scratch base y) (.reg .r2),
        .mpy (.reg .r2) .r0, .a (.reg .r1) (Runtime.scratch base .mReshi)]) {t : State}
    (h : t.pc = BitVec.ofNat 16 k) (hm : Operands base s t) :
    ∃ u, Reaches ord (Runtime.program base) t u ∧ u.pc = BitVec.ofNat 16 (k + 14) ∧
      Operands base s u ∧ saved base u .mReslo = saved base t .mReslo ∧
      saved base u .mReshi = saved base t .mReshi +
        BitVec.ofNat 16 ((saved base t x).toNat * (saved base t y).toNat) := by
  obtain ⟨u, b1, e1⟩ := exists_block ord (Runtime.program base) 4 h hb rfl
    (by simp [blockSize]; omega)
  have hmem : u.mem = writeWord t.mem (base + Runtime.entry .mReshi)
      (saved base t .mReshi +
        BitVec.ofNat 16 ((saved base t x).toNat * (saved base t y).toNat)) := by
    simp [e1, saved]
  refine ⟨u, b1, by simp [e1, h, BitVec.ofNat_add, BitVec.add_assoc], ?_, ?_, ?_⟩
  · obtain ⟨h1, h2, h3, h4, h5⟩ := hm
    simp only [saved, Runtime.entry] at h1 h2 h3 h4 h5
    constructor <;> simp (disch := decide) [saved, hmem, Runtime.entry, readWord_writeWord_offset,
      h1, h2, h3, h4, h5]
  · simp (disch := decide) [saved, hmem, Runtime.entry, readWord_writeWord_offset]
  · simp only [saved, hmem, readWord_writeWord_self]

/-- `runtime/tms9900_rt.asm:30-59`. -/
theorem runtime_mulsi3_value (h : s.pc = Runtime.entry .mulsi3) :
    ReturnsValue ord (Runtime.program base) s (s.pair .r0 .r1 * s.pair .r2 .r3 % 2 ^ 32) := by
  obtain ⟨t1, b1, hpc1, hm1, hhi1, hlo1⟩ := runtime_reaches_low ord base h
  obtain ⟨t2, b2, hpc2, hm2, hlo2, hhi2⟩ := runtime_reaches_cross ord base 32 .mAhi .mBlo
    (by decide) rfl hpc1 hm1
  obtain ⟨t3, b3, hpc3, hm3, hlo3, hhi3⟩ := runtime_reaches_cross ord base 46 .mAlo .mBhi
    (by decide) rfl hpc2 hm2
  obtain ⟨u, b4, e4⟩ := exists_block ord (Runtime.program base) 3 hpc3 rfl rfl (by simp [blockSize])
  have hu0 : u.regs .r0 = saved base t3 .mReshi := by simp [e4, saved]
  have hu1 : u.regs .r1 = saved base t3 .mReslo := by simp [e4, saved]
  have hu11 : u.regs .r11 = saved base t3 .msav11 := by simp [e4, saved]
  have hpc : u.pc = 72#16 := by simp [e4, hpc3]
  refine ⟨u, ⟨b1.trans (b2.trans (b3.trans b4)), by rw [hpc]; rfl, ?_⟩, ?_⟩
  · rw [hu11, hm3.link]
  · rw [State.pair, hu0, hu1, hhi3, hlo3, hhi2, hlo2, hhi1, hlo1, hm1.ahi, hm1.blo, hm2.alo,
      hm2.bhi, State.pair, State.pair, ← mul_words]
    simp [BitVec.toNat_add]

/-- The three versions return the product modulo `2^32`, hence the same value. -/
theorem mulsi3_versions_agree (ord : CompareOrder) (base : Word) (s : State) :
    (s.pc = (program base).target .mulsi3 →
      ReturnsValue ord (program base) s (s.pair .r0 .r1 * s.pair .r2 .r3 % 2 ^ 32)) ∧
    (s.pc = (freertosProgram base).target .mulsi3 →
      ReturnsValue ord (freertosProgram base) s (s.pair .r0 .r1 * s.pair .r2 .r3 % 2 ^ 32)) ∧
    (s.pc = (Runtime.program base).target .mulsi3 →
      ReturnsValue ord (Runtime.program base) s (s.pair .r0 .r1 * s.pair .r2 .r3 % 2 ^ 32)) :=
  ⟨mulsi3_value ord base, freertos_mulsi3_value ord base, fun h =>
    runtime_mulsi3_value ord base (by rw [h, Runtime.target_eq])⟩

/-- 0x12345 times 0x10001: both cross products matter. -/
def multiplyCross : State where
  pc := 0#16
  regs := fun
    | .r0 => 1#16
    | .r1 => 0x2345#16
    | .r2 => 1#16
    | .r3 => 1#16
    | .r10 => 0xFFF0#16
    | .r11 => 0x7000#16
    | _ => 0#16
  mem := fun _ => 0#8
  st := ⟨false, false, false, false⟩

theorem multiplyCross_products :
    ReturnsValue .manual (program 0x6000#16) multiplyCross 0x23462345 ∧
    ReturnsValue .manual (freertosProgram 0x6000#16) multiplyCross 0x23462345 ∧
    ReturnsValue .manual (Runtime.program 0x6000#16) multiplyCross 0x23462345 := by
  obtain ⟨h1, h2, h3⟩ := mulsi3_versions_agree .manual 0x6000#16 multiplyCross
  exact ⟨h1 rfl, h2 rfl, h3 rfl⟩

end LlvmTms9900.Builtins.Mul32
