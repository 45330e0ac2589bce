import LlvmTms9900.Isa.Workspace

/-!
# FreeRTOS startup (FreeRTOS/startup.S, FreeRTOS/linker.ld)

`_start` clears `.bss` a word at a time while `C R0,R1` finds the pointer less
than the end *as a signed number*. The linker script puts the section anywhere
in the 64 KB of RAM and does not pad its bounds; the reset vector puts the
registers in the same RAM, at `0x8300`, and the loop clears them too when the
section covers them.
-/

namespace LlvmTms9900.FreeRTOS.Startup
open LlvmTms9900.Isa hiding State Reaches run run_add step exec
open LlvmTms9900.Isa.Workspace

/-- `__bss_start` and `__bss_end`. -/
structure Bss where
  start : Word
  last : Word
  le : start.toNat ≤ last.toNat

inductive Label where
  | start | bssLoop | bssCheck | main | halt
  deriving DecidableEq, Repr

def text (b : Bss) : List (Line Label) :=
  [ .lab .start,
    .ins (.li .r10 0xF000#16),
    .ins (.li .r0 b.start),
    .ins (.li .r1 b.last),
    .ins (.jump .always .bssCheck),
    .lab .bssLoop,
    .ins (.clr (.inc .r0)),
    .lab .bssCheck,
    .ins (.c (.reg .r0) (.reg .r1)),
    .ins (.jump .lt .bssLoop),
    .ins (.bl .main),
    .ins (.limi 0#16),
    .lab .halt,
    .ins (.jump .always .halt) ]

/-- `.startup` is linked at `0x0100`; `main` is elsewhere in `.text`. -/
def program (b : Bss) (main : Word) : Program Label := ⟨0x0100#16, text b, fun _ => main⟩

/-- The bytes that hold the registers. -/
def InWorkspace (a : Word) : Prop := 0x8300 ≤ a.toNat ∧ a.toNat < 0x8320

/-- Offsets of the labels; `main` is not among them. -/
def entry (main : Word) : Label → Word
  | .start => 0#16 | .bssLoop => 14#16 | .bssCheck => 16#16 | .halt => 28#16
  | .main => main - 0x0100#16

@[simp] theorem target_eq (b : Bss) (main : Word) (l : Label) :
    (program b main).target l = entry main l := by
  cases l <;> rfl

/-- `n` words cleared from word number `w` on. -/
def clearWords (w n : Nat) (m : Memory) : Memory :=
  fun a => if w ≤ a.toNat / 2 ∧ a.toNat / 2 < w + n then 0#8 else m a

/-- `CLR` clears the word that holds the address, odd or even. -/
theorem clear_eq (a : Word) (m : Memory) : writeWord m a 0#16 = clearWords (a.toNat / 2) 1 m := by
  have hev := evenAddr_toNat a
  funext x
  have hx : writeWord m a 0#16 x = writeWord m (evenAddr a) 0#16 x := by
    rw [writeWord, writeWord, evenAddr_of_even (a := evenAddr a) (by omega)]
  have h0 : x = evenAddr a ↔ x.toNat = a.toNat / 2 * 2 := by
    rw [← BitVec.toNat_inj, hev]
  have h1 : x = evenAddr a + 1#16 ↔ x.toNat = a.toNat / 2 * 2 + 1 := by
    rw [← BitVec.toNat_inj]
    bv_omega
  rw [hx, writeWord_apply (by omega), clearWords]
  by_cases hin : a.toNat / 2 ≤ x.toNat / 2 ∧ x.toNat / 2 < a.toNat / 2 + 1
  · rw [if_pos hin]
    by_cases he : x.toNat = a.toNat / 2 * 2
    · rw [if_pos (h0.2 he)]
      rfl
    · rw [if_neg (mt h0.1 he), if_pos (h1.2 (by omega))]
      rfl
  · rw [if_neg hin, if_neg (mt h0.1 (by omega)), if_neg (mt h1.1 (by omega))]

/-- `CLR *R0+` -/
def clearNext (m : Memory) : Memory :=
  writeWord (writeWord m 0x8300#16 (readWord m 0x8300#16 + 2#16)) (readWord m 0x8300#16) 0#16

section Runs
variable {b : Bss} {main : Word} {s t : State}

end Runs

section Sweep
variable {m m' : Memory} {p : Word} {i : ℕ}

theorem readWord_clearWords {w n : ℕ} {a : Word} (h : a.toNat % 2 = 0) (m : Memory) :
    readWord (clearWords w n m) a =
      if w ≤ a.toNat / 2 ∧ a.toNat / 2 < w + n then 0#16 else readWord m a := by
  have hodd : (a + 1#16).toNat / 2 = a.toNat / 2 := by bv_omega
  rw [readWord, readWord, evenAddr_of_even h, clearWords, clearWords, hodd]
  split_ifs <;> rfl

theorem pointer_word : (0x8300#16 : Word).toNat / 2 = 0x4180 := rfl
theorem last_word : (0x8302#16 : Word).toNat / 2 = 0x4181 := rfl

/-- What the loop has done after `i` rounds that started at `p`: the pointer has moved
and `i` words are zero. Of the register `R0` at `0x8300` only the value is told. -/
structure Swept (m : Memory) (p : Word) (i : ℕ) (m' : Memory) : Prop where
  pointer : readWord m' 0x8300#16 = p + BitVec.ofNat 16 (2 * i)
  mem : ∀ a : Word, a.toNat / 2 ≠ 0x4180 → m' a = clearWords (p.toNat / 2) i m a

/-- The bytes outside the register `R0` after `CLR *R0+`. -/
theorem clearNext_apply {a : Word} (ha : a.toNat / 2 ≠ 0x4180) :
    clearNext m a = clearWords ((readWord m 0x8300#16).toNat / 2) 1 m a := by
  rw [clearNext, clear_eq, clearWords, clearWords]
  have hne : ∀ x : Word, x.toNat / 2 = 0x4180 → a ≠ x := by
    rintro x hx rfl
    exact ha hx
  rw [writeWord_frame (by decide) _ _ (hne _ (by decide)) (hne _ (by decide))]

theorem Swept.next (h : Swept m p i m') (hr0 : p.toNat / 2 + i ≠ 0x4180)
    (hroom : p.toNat / 2 + i < 32768) : Swept m p (i + 1) (clearNext m') := by
  have hnat : (p + BitVec.ofNat 16 (2 * i)).toNat / 2 = p.toNat / 2 + i := by
    rw [BitVec.toNat_add, BitVec.toNat_ofNat]
    omega
  constructor
  · have hread : readWord (clearNext m') 0x8300#16 = readWord m' 0x8300#16 + 2#16 := by
      rw [clearNext, clear_eq, h.pointer, hnat, readWord_clearWords (by decide), pointer_word,
        if_neg (by omega), readWord_writeWord_same (by decide)]
    rw [hread, h.pointer, Nat.mul_add, BitVec.ofNat_add, BitVec.add_assoc]
  · intro a ha
    rw [clearNext_apply ha, h.pointer, hnat, clearWords, h.mem a ha, clearWords, clearWords]
    split_ifs <;> first | rfl | omega

/-- The end of the section, until the loop clears `R1`. -/
def lastAt (m : Memory) (p : Word) (i : ℕ) : Word :=
  if p.toNat / 2 ≤ 0x4181 ∧ 0x4181 < p.toNat / 2 + i then 0#16 else readWord m 0x8302#16

theorem Swept.last (h : Swept m p i m') : readWord m' 0x8302#16 = lastAt m p i := by
  have hr : readWord m' 0x8302#16 = readWord (clearWords (p.toNat / 2) i m) 0x8302#16 :=
    readWord_congr (by decide) (h.mem _ (by decide)) (h.mem _ (by decide))
  rw [hr, readWord_clearWords (by decide), last_word, lastAt]

end Sweep

section Loaded
variable (b : Bss) (m : Memory)

end Loaded

/-- `.bss` is zero, and outside it and the registers nothing has changed. -/
def Cleared (b : Bss) (m m' : Memory) : Prop :=
  ∀ a : Word, if b.start.toNat ≤ a.toNat ∧ a.toNat < b.last.toNat then m' a = 0#8
    else ¬ InWorkspace a → m' a = m a

/-- The words from the one that holds `__bss_start` on. -/
def rounds (b : Bss) : ℕ := (b.last.toNat - b.start.toNat + 1) / 2

section Cleared
variable {b : Bss} {main : Word} {s : State} {m m' : Memory}

theorem Cleared.zero (h : Cleared b m m') {a : Word} (h1 : b.start.toNat ≤ a.toNat)
    (h2 : a.toNat < b.last.toNat) : m' a = 0#8 := by
  have ha := h a
  rwa [if_pos ⟨h1, h2⟩] at ha

theorem Cleared.same (h : Cleared b m m') {a : Word}
    (h1 : ¬ (b.start.toNat ≤ a.toNat ∧ a.toNat < b.last.toNat)) (h2 : ¬ InWorkspace a) :
    m' a = m a := by
  have ha := h a
  rw [if_neg h1] at ha
  exact ha h2

end Cleared

end LlvmTms9900.FreeRTOS.Startup
