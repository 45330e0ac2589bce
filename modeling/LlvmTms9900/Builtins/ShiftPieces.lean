import LlvmTms9900.Builtins.ByteCopy
import LlvmTms9900.Builtins.ShiftRoutine

/-!
# The pieces of the shift routines

Each stage as a few instructions at an arbitrary offset of an arbitrary
program. The two libraries move the bit that crosses between the words in
different ways: by the carry of the second shift, or by a copy of the high
word whose low bit is tested afterwards.
-/

namespace LlvmTms9900.Builtins.Shift
open LlvmTms9900.Isa

theorem getElem_zero (x : Word) : x[0] = decide (x.toNat % 2 = 1) := by
  have h : x[0] = x.toNat.testBit 0 := rfl
  rw [h, Nat.testBit_zero]

theorem or_msb_toNat {x : Word} (h : x.toNat < 32768) :
    (x ||| 0x8000#16).toNat = x.toNat + 32768 := by
  have he : x ||| 0x8000#16 = x + 0x8000#16 := by
    rw [BitVec.add_eq_or_of_and_eq_zero]
    apply BitVec.eq_of_toNat_eq
    rw [BitVec.toNat_and]
    have hand : x.toNat &&& 2 ^ 15 = 0 := by
      rw [Nat.and_two_pow, Nat.testBit_lt_two_pow h]
      rfl
    exact hand
  rw [he, BitVec.toNat_add, BitVec.toNat_ofNat]
  omega

theorem sshiftRight_one_toNat (x : Word) :
    (x.sshiftRight 1).toNat = x.toNat / 2 + (if 32768 ≤ x.toNat then 32768 else 0) := by
  have hx := x.isLt
  have h := BitVec.toInt_sshiftRight (x := x) (n := 1)
  rw [BitVec.toInt_eq_toNat_cond, BitVec.toInt_eq_toNat_cond, Int.shiftRight_eq_div_pow] at h
  split at h <;> split at h <;> split <;> omega

theorem sar1_eq {v : Nat} (hv : v < 2 ^ 32) :
    sar1 v = v / 2 + (if 2 ^ 31 ≤ v then 2 ^ 31 else 0) := by
  unfold sar1 Div32.word32 Div32.signed32
  by_cases hn : Div32.isNeg v = true
  · have hge := (Div32.isNeg_iff v).1 hn
    rw [if_pos hn, if_pos hge]
    omega
  · have hlt : ¬ 2 ^ 31 ≤ v := fun h => hn ((Div32.isNeg_iff v).2 h)
    rw [if_neg hn, if_neg hlt]
    omega

/-- The high word, shifted right logically or arithmetically. -/
def shiftHigh (arith : Bool) (x : Word) : Word := if arith then x.sshiftRight 1 else x >>> 1

def shiftHighIns {L : Type} (arith : Bool) : Instr L := if arith then .sra .r0 1 else .srl .r0 1

/-- The value that a one-bit right shift gives. -/
def shr1 (arith : Bool) (v : Nat) : Nat := if arith then sar1 v else v / 2

/-- The low bit of the high word goes to the top of the low word. -/
theorem shr_words (arith : Bool) (hi lo : Word) :
    (shiftHigh arith hi).toNat * 65536 +
        (if hi.toNat % 2 = 1 then lo >>> 1 ||| 0x8000#16 else lo >>> 1).toNat =
      shr1 arith (hi.toNat * 65536 + lo.toNat) := by
  have hh := hi.isLt
  have hl := lo.isLt
  have hlow : (lo >>> 1).toNat = lo.toNat / 2 := by
    rw [BitVec.toNat_ushiftRight, Nat.shiftRight_eq_div_pow]
  have hcross : (if hi.toNat % 2 = 1 then lo >>> 1 ||| 0x8000#16 else lo >>> 1).toNat =
      lo.toNat / 2 + 32768 * (hi.toNat % 2) := by
    split
    · rw [or_msb_toNat (by omega)]
      omega
    · omega
  rw [hcross]
  cases arith with
  | false =>
    have hhigh : (hi >>> 1).toNat = hi.toNat / 2 := by
      rw [BitVec.toNat_ushiftRight, Nat.shiftRight_eq_div_pow]
    simp only [shiftHigh, shr1, Bool.false_eq_true, if_false, hhigh]
    omega
  | true =>
    have hv : hi.toNat * 65536 + lo.toNat < 2 ^ 32 := by omega
    simp only [shiftHigh, shr1, if_true, sar1_eq hv, sshiftRight_one_toNat]
    split <;> split <;> omega

theorem shl_words (hi lo : Word) :
    (if 32768 ≤ lo.toNat then hi <<< 1 + 1#16 else hi <<< 1).toNat * 65536 + (lo <<< 1).toNat =
      shl1 (hi.toNat * 65536 + lo.toNat) := by
  have hh := hi.isLt
  have hl := lo.isLt
  have h1 : (hi <<< 1).toNat = 2 * hi.toNat % 65536 := by
    rw [BitVec.toNat_shiftLeft, Nat.shiftLeft_eq]
    omega
  have h2 : (lo <<< 1).toNat = 2 * lo.toNat % 65536 := by
    rw [BitVec.toNat_shiftLeft, Nat.shiftLeft_eq]
    omega
  unfold shl1
  split
  · rw [BitVec.toNat_add, h1, h2]
    simp only [BitVec.toNat_ofNat]
    omega
  · omega

variable {L : Type} [DecidableEq L] {ord : CompareOrder} {p : Program L}

/-- One bit to the left; the carry of the low word enters the high word. -/
theorem piece_shl {k : Nat} {l : L} (hk : k + 8 ≤ 65536)
    (hb1 : blockAt p.text k 3 = some [.sla .r0 1, .sla .r1 1, .jump .nc l])
    (hb2 : blockAt p.text (k + 6) 1 = some [.inc (.reg .r0)])
    (hl : p.target l = BitVec.ofNat 16 (k + 8)) : Piece ord p k (k + 8) shl1 := by
  intro s hpc
  have hw := shl_words (s.regs .r0) (s.regs .r1)
  have hbit := getElem_fifteen (s.regs .r1)
  obtain ⟨t, b1, e1⟩ := exists_block ord p 3 hpc hb1 rfl (by simp [blockSize]; omega)
  by_cases hc : 32768 ≤ (s.regs .r1).toNat
  · rw [if_pos hc] at hw
    have hbit' : (s.regs .r1)[15] = true := by simp [hbit, hc]
    have hpc1 : t.pc = BitVec.ofNat 16 (k + 6) := by
      simp [e1, hpc, hbit', BitVec.ofNat_add, BitVec.add_assoc]
    obtain ⟨u, b2, e2⟩ := exists_block ord p 1 hpc1 hb2 rfl (by simp [blockSize]; omega)
    refine ⟨u, b1.trans b2, ?_, ?_, ?_, ?_⟩
    · simp [e2, hpc1, BitVec.ofNat_add, BitVec.add_assoc]
    · simp [e2, e1, hbit']
    · simp [e2, e1, hbit']
    · simpa [State.pair, e2, e1, hbit'] using hw
  · rw [if_neg hc] at hw
    have hbit' : (s.regs .r1)[15] = false := by simp [hbit, hc]
    refine ⟨t, b1, ?_, ?_, ?_, ?_⟩
    · simp [e1, hbit', hl]
    · simp [e1, hbit']
    · simp [e1, hbit']
    · simpa [State.pair, e1, hbit'] using hw

/-- One bit to the right; the carry of the high word enters the low word. -/
theorem piece_shr_carry (arith : Bool) {k : Nat} {l : L} (hk : k + 10 ≤ 65536)
    (hb1 : blockAt p.text k 3 = some [.srl .r1 1, shiftHighIns arith, .jump .nc l])
    (hb2 : blockAt p.text (k + 6) 1 = some [.ori .r1 0x8000#16])
    (hl : p.target l = BitVec.ofNat 16 (k + 10)) : Piece ord p k (k + 10) (shr1 arith) := by
  intro s hpc
  have hw := shr_words arith (s.regs .r0) (s.regs .r1)
  have hbit := getElem_zero (s.regs .r0)
  obtain ⟨t, b1, e1⟩ := exists_block ord p 3 hpc hb1 (by cases arith <;> rfl)
    (by cases arith <;> simp [blockSize, shiftHighIns] <;> omega)
  by_cases hc : (s.regs .r0).toNat % 2 = 1
  · rw [if_pos hc] at hw
    have hbit' : (s.regs .r0)[0] = true := by simp [hbit, hc]
    have hpc1 : t.pc = BitVec.ofNat 16 (k + 6) := by
      cases arith <;> simp [e1, shiftHighIns, hpc, hbit', BitVec.ofNat_add, BitVec.add_assoc]
    obtain ⟨u, b2, e2⟩ := exists_block ord p 1 hpc1 hb2 rfl (by simp [blockSize]; omega)
    refine ⟨u, b1.trans b2, ?_, ?_, ?_, ?_⟩
    · simp [e2, hpc1, BitVec.ofNat_add, BitVec.add_assoc]
    · cases arith <;> simp [e2, e1, shiftHighIns, hbit']
    · cases arith <;> simp [e2, e1, shiftHighIns, hbit']
    · cases arith <;> simpa [State.pair, e2, e1, shiftHighIns, shiftHigh, hbit'] using hw
  · rw [if_neg hc] at hw
    have hbit' : (s.regs .r0)[0] = false := by simp [hbit, hc]
    refine ⟨t, b1, ?_, ?_, ?_, ?_⟩
    · cases arith <;> simp [e1, shiftHighIns, hbit', hl]
    · cases arith <;> simp [e1, shiftHighIns, hbit']
    · cases arith <;> simp [e1, shiftHighIns, hbit']
    · cases arith <;> simpa [State.pair, e1, shiftHighIns, shiftHigh, hbit'] using hw

/-- One bit to the right; the low bit of the high word is saved in `R3`. -/
theorem piece_shr_saved (arith : Bool) {k : Nat} {l : L} (hk : k + 18 ≤ 65536)
    (hb1 : blockAt p.text k 6 = some [.mov (.reg .r0) (.reg .r3), .andi .r3 1#16,
      shiftHighIns arith, .srl .r1 1, .mov (.reg .r3) (.reg .r3), .jump .eq l])
    (hb2 : blockAt p.text (k + 14) 1 = some [.ori .r1 0x8000#16])
    (hl : p.target l = BitVec.ofNat 16 (k + 18)) : Piece ord p k (k + 18) (shr1 arith) := by
  intro s hpc
  have hw := shr_words arith (s.regs .r0) (s.regs .r1)
  have hbit := and_one_eq_zero (s.regs .r0)
  obtain ⟨t, b1, e1⟩ := exists_block ord p 6 hpc hb1 (by cases arith <;> rfl)
    (by cases arith <;> simp [blockSize, shiftHighIns] <;> omega)
  by_cases hc : s.regs .r0 &&& 1#16 = 0#16
  · have hev : ¬ (s.regs .r0).toNat % 2 = 1 := by
      rw [hbit] at hc
      omega
    rw [if_neg hev] at hw
    refine ⟨t, b1, ?_, ?_, ?_, ?_⟩
    · cases arith <;> simp [e1, shiftHighIns, hc, hl]
    · cases arith <;> simp [e1, shiftHighIns, hc]
    · cases arith <;> simp [e1, shiftHighIns, hc]
    · cases arith <;> simpa [State.pair, e1, shiftHighIns, shiftHigh, hc] using hw
  · have hodd : (s.regs .r0).toNat % 2 = 1 := by
      rw [hbit] at hc
      omega
    rw [if_pos hodd] at hw
    have hpc1 : t.pc = BitVec.ofNat 16 (k + 14) := by
      cases arith <;> simp [e1, shiftHighIns, hpc, hc, BitVec.ofNat_add, BitVec.add_assoc]
    obtain ⟨u, b2, e2⟩ := exists_block ord p 1 hpc1 hb2 rfl (by simp [blockSize]; omega)
    refine ⟨u, b1.trans b2, ?_, ?_, ?_, ?_⟩
    · simp [e2, hpc1, BitVec.ofNat_add, BitVec.add_assoc]
    · cases arith <;> simp [e2, e1, shiftHighIns, hc]
    · cases arith <;> simp [e2, e1, shiftHighIns, hc]
    · cases arith <;> simpa [State.pair, e2, e1, shiftHighIns, shiftHigh, hc] using hw

theorem piece_shl16 {k : Nat} (hk : k + 4 ≤ 65536)
    (hb : blockAt p.text k 2 = some [.mov (.reg .r1) (.reg .r0), .clr (.reg .r1)]) :
    Piece ord p k (k + 4) shl16 := by
  intro s hpc
  have h0 := (s.regs .r0).isLt
  have h1 := (s.regs .r1).isLt
  obtain ⟨t, b1, e1⟩ := exists_block ord p 2 hpc hb rfl (by simp [blockSize]; omega)
  refine ⟨t, b1, by simp [e1, hpc, BitVec.ofNat_add, BitVec.add_assoc], by simp [e1],
    by simp [e1], ?_⟩
  simp [State.pair, e1, shl16]
  omega

theorem piece_shr16 {k : Nat} (hk : k + 4 ≤ 65536)
    (hb : blockAt p.text k 2 = some [.mov (.reg .r0) (.reg .r1), .clr (.reg .r0)]) :
    Piece ord p k (k + 4) (· / 2 ^ 16) := by
  intro s hpc
  have h1 := (s.regs .r1).isLt
  obtain ⟨t, b1, e1⟩ := exists_block ord p 2 hpc hb rfl (by simp [blockSize]; omega)
  refine ⟨t, b1, by simp [e1, hpc, BitVec.ofNat_add, BitVec.add_assoc], by simp [e1],
    by simp [e1], ?_⟩
  simp [State.pair, e1]
  omega

/-- `JLT` after `MOV R0,R0` tests the sign of the value. -/
theorem not_sgt_iff (s : State) :
    (0#16).slt (s.regs .r0) = false ∧ ¬ s.regs .r0 = 0#16 ↔
      Div32.isNeg (s.pair .r0 .r1) = true := by
  have h0 := (s.regs .r0).isLt
  have hslt := Div32.slt_zero_iff (s.regs .r0)
  rw [Div32.isNeg_pair, decide_eq_true_eq, ← Bool.not_eq_true, hslt]
  bv_omega

theorem sar16_eq {hi lo : Nat} (hh : hi < 65536) (hl : lo < 65536) :
    sar16 (hi * 65536 + lo) =
      (if Div32.isNeg (hi * 65536 + lo) then 65535 else 0) * 65536 + hi := by
  unfold sar16 Div32.word32 Div32.signed32
  by_cases hn : Div32.isNeg (hi * 65536 + lo) = true
  · have hge := (Div32.isNeg_iff _).1 hn
    rw [if_pos hn, if_pos hn]
    omega
  · rw [if_neg hn, if_neg hn]
    omega

/-- The high word moved down and its place filled with the sign. -/
theorem piece_sar16 {k : Nat} {neg cont : L} (hk : k + 12 ≤ 65536)
    (hb1 : blockAt p.text k 3 = some [.mov (.reg .r0) (.reg .r1), .mov (.reg .r0) (.reg .r0),
      .jump .lt neg])
    (hb2 : blockAt p.text (k + 6) 2 = some [.clr (.reg .r0), .jump .always cont])
    (hb3 : blockAt p.text (k + 10) 1 = some [.seto (.reg .r0)])
    (hneg : p.target neg = BitVec.ofNat 16 (k + 10))
    (hcont : p.target cont = BitVec.ofNat 16 (k + 12)) : Piece ord p k (k + 12) sar16 := by
  intro s hpc
  have hw := sar16_eq (s.regs .r0).isLt (s.regs .r1).isLt
  have hs := not_sgt_iff s
  rw [← State.pair] at hw
  obtain ⟨t, b1, e1⟩ := exists_block ord p 3 hpc hb1 rfl (by simp [blockSize]; omega)
  by_cases hn : Div32.isNeg (s.pair .r0 .r1) = true
  · obtain ⟨hs1, hs2⟩ := hs.2 hn
    rw [if_pos hn] at hw
    have hpc1 : t.pc = BitVec.ofNat 16 (k + 10) := by simp [e1, hs1, hs2, hneg]
    obtain ⟨u, b2, e2⟩ := exists_block ord p 1 hpc1 hb3 rfl (by simp [blockSize]; omega)
    refine ⟨u, b1.trans b2, ?_, ?_, ?_, ?_⟩
    · simp [e2, hpc1, BitVec.ofNat_add, BitVec.add_assoc]
    · simp [e2, e1, hs1, hs2]
    · simp [e2, e1, hs1, hs2]
    · rw [hw]
      simp [State.pair, e2, e1, hs1, hs2]
  · have hs' : ¬ ((0#16).slt (s.regs .r0) = false ∧ ¬ s.regs .r0 = 0#16) := fun h => hn (hs.1 h)
    rw [if_neg hn] at hw
    have hpc1 : t.pc = BitVec.ofNat 16 (k + 6) := by
      simp [e1, hs', hpc, BitVec.ofNat_add, BitVec.add_assoc]
    obtain ⟨u, b2, e2⟩ := exists_block ord p 2 hpc1 hb2 rfl (by simp [blockSize]; omega)
    refine ⟨u, b1.trans b2, ?_, ?_, ?_, ?_⟩
    · simp [e2, hcont]
    · simp [e2, e1, hs']
    · simp [e2, e1, hs']
    · rw [hw]
      simp [State.pair, e2, e1, hs']

/-- Both words cleared, then the return. -/
theorem returns_clear {k : Nat} (hk : k + 4 < 65536)
    (hb : blockAt p.text k 2 = some [.clr (.reg .r0), .clr (.reg .r1)])
    (hf : fetch p.text (k + 4) = some (.b .r11)) (s : State) (hpc : s.pc = BitVec.ofNat 16 k) :
    ReturnsValue ord p s 0 := by
  obtain ⟨t, b1, e1⟩ := exists_block ord p 2 hpc hb rfl (by simp [blockSize]; omega)
  have hpc1 : t.pc.toNat = k + 4 := by
    simp [e1, hpc]
    omega
  exact ⟨t, ⟨b1, by rw [hpc1]; exact hf, by simp [e1]⟩, by simp [State.pair, e1]⟩

/-- Both words filled with the sign, then the return. -/
theorem returns_signFill {k : Nat} {neg : L} (hk : k + 14 < 65536)
    (hb1 : blockAt p.text k 2 = some [.mov (.reg .r0) (.reg .r0), .jump .lt neg])
    (hb2 : blockAt p.text (k + 4) 2 = some [.clr (.reg .r0), .clr (.reg .r1)])
    (hf2 : fetch p.text (k + 8) = some (.b .r11))
    (hb3 : blockAt p.text (k + 10) 2 = some [.seto (.reg .r0), .seto (.reg .r1)])
    (hf3 : fetch p.text (k + 14) = some (.b .r11))
    (hneg : p.target neg = BitVec.ofNat 16 (k + 10)) (s : State)
    (hpc : s.pc = BitVec.ofNat 16 k) : ReturnsValue ord p s (signFill (s.pair .r0 .r1)) := by
  have hs := not_sgt_iff s
  obtain ⟨t, b1, e1⟩ := exists_block ord p 2 hpc hb1 rfl (by simp [blockSize]; omega)
  unfold signFill
  by_cases hn : Div32.isNeg (s.pair .r0 .r1) = true
  · obtain ⟨hs1, hs2⟩ := hs.2 hn
    have hpc1 : t.pc = BitVec.ofNat 16 (k + 10) := by simp [e1, hs1, hs2, hneg]
    obtain ⟨u, b2, e2⟩ := exists_block ord p 2 hpc1 hb3 rfl (by simp [blockSize]; omega)
    have hpc2 : u.pc.toNat = k + 14 := by
      simp [e2, hpc1]
      omega
    rw [if_pos hn]
    refine ⟨u, ⟨b1.trans b2, by rw [hpc2]; exact hf3, ?_⟩, ?_⟩
    · simp [e2, e1, hs1, hs2]
    · simp [State.pair, e2]
  · have hs' : (0#16).slt (s.regs .r0) = true ∨ s.regs .r0 = 0#16 := by
      rw [← hs, not_and_or, not_not, Bool.not_eq_false] at hn
      exact hn
    have hpc1 : t.pc = BitVec.ofNat 16 (k + 4) := by
      rcases hs' with hgt | hz
      · simp [e1, hgt, hpc, BitVec.ofNat_add, BitVec.add_assoc]
      · simp [e1, hz, hpc, BitVec.ofNat_add, BitVec.add_assoc]
    have h11 : t.regs .r11 = s.regs .r11 := by
      rcases hs' with hgt | hz
      · simp [e1, hgt]
      · simp [e1, hz]
    rw [if_neg hn]
    exact ReturnsValue.of_reaches b1 h11 (returns_clear (by omega) hb2 hf2 t hpc1)

end LlvmTms9900.Builtins.Shift
