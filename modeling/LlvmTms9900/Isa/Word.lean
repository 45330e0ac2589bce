import Mathlib

/-!
# Words, bytes and byte memory

The TMS9900 is a 16-bit big-endian machine: a word is two bytes, the more
significant one at the even address. A word access does not decode the low
address bit; a byte access uses all sixteen. Memory is a total function on
addresses.
-/

namespace LlvmTms9900.Isa

abbrev Word := BitVec 16
abbrev Byte := BitVec 8
abbrev Memory := Word → Byte

/-- The even address of the word that holds address `a`. -/
def evenAddr (a : Word) : Word := (a >>> 1) <<< 1

def hiByte (w : Word) : Byte := w.extractLsb' 8 8
def loByte (w : Word) : Byte := w.extractLsb' 0 8

def readWord (m : Memory) (a : Word) : Word := m (evenAddr a) ++ m (evenAddr a + 1#16)

def writeByte (m : Memory) (a : Word) (b : Byte) : Memory :=
  fun x => if x = a then b else m x

def writeWord (m : Memory) (a v : Word) : Memory :=
  writeByte (writeByte m (evenAddr a) (hiByte v)) (evenAddr a + 1#16) (loByte v)

theorem hiByte_append_loByte (w : Word) : hiByte w ++ loByte w = w := by
  apply BitVec.eq_of_getLsbD_eq
  intro i hi
  simp only [hiByte, loByte, BitVec.getLsbD_append, BitVec.getLsbD_extractLsb']
  by_cases h : i < 8
  · simp [h]
  · have he : 8 + (i - 8) = i := by omega
    have h8 : i - 8 < 8 := by omega
    simp [h, h8, he]

theorem hiByte_append (a b : Byte) : hiByte (a ++ b) = a := by
  apply BitVec.eq_of_getLsbD_eq
  intro i hi
  have h8 : ¬ 8 + i < 8 := by omega
  have he : 8 + i - 8 = i := by omega
  have happ : (a ++ b).getLsbD (8 + i) = a.getLsbD i := by
    rw [BitVec.getLsbD_append, if_neg h8, he]
  simpa only [hiByte, BitVec.getLsbD_extractLsb', hi, decide_true, Bool.true_and] using happ

theorem loByte_append (a b : Byte) : loByte (a ++ b) = b := by
  apply BitVec.eq_of_getLsbD_eq
  intro i hi
  have happ : (a ++ b).getLsbD (0 + i) = b.getLsbD i := by
    rw [BitVec.getLsbD_append, Nat.zero_add, if_pos hi]
  simpa only [loByte, BitVec.getLsbD_extractLsb', hi, decide_true, Bool.true_and] using happ

theorem evenAddr_toNat (a : Word) : (evenAddr a).toNat = a.toNat / 2 * 2 := by
  have h := a.isLt
  simp only [evenAddr, BitVec.toNat_shiftLeft, BitVec.toNat_ushiftRight,
    Nat.shiftRight_eq_div_pow, Nat.shiftLeft_eq]
  omega

theorem evenAddr_of_even {a : Word} (h : a.toNat % 2 = 0) : evenAddr a = a := by
  apply BitVec.eq_of_toNat_eq
  rw [evenAddr_toNat]
  omega

theorem succ_ne_self (a : Word) : a + 1#16 ≠ a := by
  intro h
  bv_omega

theorem writeByte_self (m : Memory) (a : Word) (b : Byte) : writeByte m a b a = b := if_pos rfl

theorem writeByte_of_ne {a x : Word} (h : x ≠ a) (m : Memory) (b : Byte) :
    writeByte m a b x = m x := if_neg h

theorem writeByte_comm {a b : Word} (h : a ≠ b) (m : Memory) (v w : Byte) :
    writeByte (writeByte m a v) b w = writeByte (writeByte m b w) a v := by
  funext x
  by_cases hb : x = b
  · subst hb
    rw [writeByte_self, writeByte_of_ne h.symm, writeByte_self]
  · by_cases ha : x = a
    · subst ha
      rw [writeByte_of_ne hb, writeByte_self, writeByte_self]
    · simp only [writeByte_of_ne ha, writeByte_of_ne hb]

theorem writeWord_apply {a : Word} (h : a.toNat % 2 = 0) (m : Memory) (v x : Word) :
    writeWord m a v x = if x = a then hiByte v else if x = a + 1#16 then loByte v else m x := by
  simp only [writeWord, writeByte, evenAddr_of_even h]
  by_cases h1 : x = a
  · subst h1
    simp only [ite_true, if_neg (Ne.symm (succ_ne_self x))]
  · simp only [if_neg h1]

theorem readWord_writeWord_same {a : Word} (h : a.toNat % 2 = 0) (m : Memory) (v : Word) :
    readWord (writeWord m a v) a = v := by
  simp only [readWord, evenAddr_of_even h, writeWord_apply h, ite_true, if_neg (succ_ne_self a)]
  exact hiByte_append_loByte v

theorem readWord_writeWord_ne {a b : Word} (ha : a.toNat % 2 = 0) (hb : b.toNat % 2 = 0)
    (hne : b ≠ a) (m : Memory) (v : Word) :
    readWord (writeWord m a v) b = readWord m b := by
  have h1 : b ≠ a + 1#16 := by bv_omega
  have h2 : b + 1#16 ≠ a := by bv_omega
  have h3 : b + 1#16 ≠ a + 1#16 := by bv_omega
  simp only [readWord, evenAddr_of_even hb, writeWord_apply ha, if_neg hne, if_neg h1, if_neg h2,
    if_neg h3]

/-- A word store changes only the two bytes of its word. -/
theorem writeWord_frame {a x : Word} (h : a.toNat % 2 = 0) (m : Memory) (v : Word)
    (h0 : x ≠ a) (h1 : x ≠ a + 1#16) : writeWord m a v x = m x := by
  rw [writeWord_apply h, if_neg h0, if_neg h1]

theorem readWord_congr {m m' : Memory} {a : Word} (h : a.toNat % 2 = 0) (h0 : m' a = m a)
    (h1 : m' (a + 1#16) = m (a + 1#16)) : readWord m' a = readWord m a := by
  simp only [readWord, evenAddr_of_even h, h0, h1]

/-- A word store reads back, whatever the parity of the address. -/
theorem readWord_writeWord_self (m : Memory) (a v : Word) : readWord (writeWord m a v) a = v := by
  have hev : (evenAddr a).toNat % 2 = 0 := by
    rw [evenAddr_toNat]
    omega
  have h := readWord_writeWord_same hev m v
  simpa only [readWord, writeWord, evenAddr_of_even hev] using h

theorem evenAddr_add {a i : Word} (hi : i.toNat % 2 = 0) : evenAddr (a + i) = evenAddr a + i := by
  have ha := a.isLt
  have hil := i.isLt
  apply BitVec.eq_of_toNat_eq
  rw [evenAddr_toNat, BitVec.toNat_add, BitVec.toNat_add, evenAddr_toNat]
  omega

/-- Two words of one table do not overlap, wherever the table lies. -/
theorem readWord_writeWord_offset {i j : Word} (hi : i.toNat % 2 = 0) (hj : j.toNat % 2 = 0)
    (hne : j ≠ i) (m : Memory) (a v : Word) :
    readWord (writeWord m (a + i) v) (a + j) = readWord m (a + j) := by
  have hev : (evenAddr a).toNat % 2 = 0 := by
    rw [evenAddr_toNat]
    omega
  have hei : (evenAddr a + i).toNat % 2 = 0 := by bv_omega
  have hej : (evenAddr a + j).toNat % 2 = 0 := by bv_omega
  have hne' : evenAddr a + j ≠ evenAddr a + i := by bv_omega
  have h := readWord_writeWord_ne hei hej hne' m v
  simpa only [readWord, writeWord, evenAddr_of_even hei, evenAddr_of_even hej, evenAddr_add hi,
    evenAddr_add hj] using h

end LlvmTms9900.Isa
