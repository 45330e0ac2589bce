import LlvmTms9900.Builtins.ByteCopy
import LlvmTms9900.Isa.Run

/-!
# Cartridge startup (cart_example/crt0.s, cart_example/cart.ld)

`_start` copies `.data` from ROM to RAM and clears `.bss`, a word at a time,
and calls `main`. Both loops stop when a pointer *equals* the end of its
section, which the linker script does not pad.
-/

set_option maxRecDepth 8192

namespace LlvmTms9900.Cart.Crt0
open LlvmTms9900.Isa LlvmTms9900.Builtins

/-- The symbols `cart.ld` defines: `.data` at an even address of RAM with its
image at an even address of ROM, and `.bss` behind it. -/
structure Placement where
  dataLoadStart : Word
  dataStart : Word
  dataEnd : Word
  bssStart : Word
  bssEnd : Word
  loadEven : dataLoadStart.toNat % 2 = 0
  dataEven : dataStart.toNat % 2 = 0
  bssEven : bssStart.toNat % 2 = 0
  ram : 0xA000 ≤ dataStart.toNat
  data_le : dataStart.toNat ≤ dataEnd.toNat
  bss_after : dataEnd.toNat ≤ bssStart.toNat
  bss_le : bssStart.toNat ≤ bssEnd.toNat
  rom : 0x6000 ≤ dataLoadStart.toNat
  rom_end : dataLoadStart.toNat + (dataEnd.toNat - dataStart.toNat) ≤ 0x8000

def Placement.dataSize (pl : Placement) : Nat := pl.dataEnd.toNat - pl.dataStart.toNat
def Placement.bssSize (pl : Placement) : Nat := pl.bssEnd.toNat - pl.bssStart.toNat

inductive Label where
  | start | dataLoop | dataDone | bssLoop | bssDone | main | halt
  deriving DecidableEq, Repr

def text (pl : Placement) : List (Line Label) :=
  [ .lab .start,
    .ins (.lwpi 0x8300#16),
    .ins (.limi 0#16),
    .ins (.li .r10 0xFFFE#16),
    .ins (.li .r0 pl.dataLoadStart),
    .ins (.li .r1 pl.dataStart),
    .ins (.li .r2 pl.dataEnd),
    .lab .dataLoop,
    .ins (.c (.reg .r1) (.reg .r2)),
    .ins (.jump .eq .dataDone),
    .ins (.mov (.inc .r0) (.reg .r3)),
    .ins (.mov (.reg .r3) (.inc .r1)),
    .ins (.jump .always .dataLoop),
    .lab .dataDone,
    .ins (.li .r0 pl.bssStart),
    .ins (.li .r1 pl.bssEnd),
    .ins (.clr (.reg .r2)),
    .lab .bssLoop,
    .ins (.c (.reg .r0) (.reg .r1)),
    .ins (.jump .eq .bssDone),
    .ins (.mov (.reg .r2) (.inc .r0)),
    .ins (.jump .always .bssLoop),
    .lab .bssDone,
    .ins (.bl .main),
    .lab .halt,
    .ins (.jump .always .halt) ]

/-- `.cart_entry` is linked at `0x6024`; `main` is elsewhere in `.text`. -/
def program (pl : Placement) (main : Word) : Program Label :=
  ⟨0x6024#16, text pl, fun _ => main⟩

/-- Offsets of the labels; `main` is not among them. -/
def entry (main : Word) : Label → Word
  | .start => 0#16 | .dataLoop => 24#16 | .dataDone => 34#16 | .bssLoop => 44#16
  | .bssDone => 52#16 | .halt => 56#16 | .main => main - 0x6024#16

@[simp] theorem target_eq (pl : Placement) (main : Word) (l : Label) :
    (program pl main).target l = entry main l := by
  cases l <;> rfl

@[simp] theorem program_base (pl : Placement) (main : Word) :
    (program pl main).base = 0x6024#16 := rfl

/-- Clear `k` words from address `a` on. -/
def clearUp (a : Word) : Nat → Memory → Memory
  | 0, m => m
  | k + 1, m => clearUp (a + 2#16) k (writeWord m a 0#16)

theorem clearUp_apply (k : Nat) {a : Word} (ha : a.toNat % 2 = 0) (hk : a.toNat + 2 * k < 65536)
    (m : Memory) (x : Word) :
    clearUp a k m x = if a.toNat ≤ x.toNat ∧ x.toNat < a.toNat + 2 * k then 0#8 else m x := by
  induction k generalizing a m with
  | zero => rw [clearUp, if_neg (by omega)]
  | succ k ih =>
    have hadd : (a + 2#16).toNat = a.toNat + 2 := by bv_omega
    rw [clearUp, ih (by omega) (by omega), hadd, writeWord_apply ha]
    by_cases h0 : x = a
    · subst h0
      rw [if_neg (by omega), if_pos rfl, if_pos (by omega)]
      rfl
    · by_cases h1 : x = a + 1#16
      · have hx : x.toNat = a.toNat + 1 := by bv_omega
        rw [if_neg (by omega), if_neg h0, if_pos h1, if_pos (by omega)]
        rfl
      · have hx0 : x.toNat ≠ a.toNat := fun he => h0 (BitVec.eq_of_toNat_eq he)
        have hx1 : x.toNat ≠ a.toNat + 1 := fun he => h1 (by bv_omega)
        rw [if_neg h0, if_neg h1]
        by_cases hin : a.toNat + 2 ≤ x.toNat ∧ x.toNat < a.toNat + 2 + 2 * k
        · rw [if_pos hin, if_pos (by omega)]
        · rw [if_neg hin, if_neg (by omega)]

section Runs
variable (ord : CompareOrder) (pl : Placement) (main : Word)

/-- `crt0.s:24-28`: one word of `.data`. -/
theorem reaches_dataLoop {s : State} (h : s.pc = entry main .dataLoop)
    (hne : s.regs .r1 ≠ s.regs .r2) :
    ∃ t, Reaches ord (program pl main) s t ∧ t.pc = entry main .dataLoop ∧
      t.regs .r0 = s.regs .r0 + 2#16 ∧ t.regs .r1 = s.regs .r1 + 2#16 ∧
      t.regs .r2 = s.regs .r2 ∧
      t.mem = writeWord s.mem (s.regs .r1) (readWord s.mem (s.regs .r0)) := by
  obtain ⟨t, b1, e1⟩ := exists_block ord (program pl main) 2 h rfl rfl (by decide)
  have hpc1 : t.pc = 28#16 := by simp [e1, h, entry, hne]
  obtain ⟨u, b2, e2⟩ := exists_block ord (program pl main) 3 hpc1 rfl rfl (by decide)
  refine ⟨u, b1.trans b2, by simp [e2], ?_⟩
  simp [e2, e1, hne]

/-- `crt0.s:23-28`, `k` words before the end. -/
theorem reaches_dataDone (k : Nat) {s : State} (h : s.pc = entry main .dataLoop)
    (hk : (s.regs .r1).toNat + 2 * k = (s.regs .r2).toNat)
    (hd : (s.regs .r1).toNat % 2 = 0) (hs : (s.regs .r0).toNat % 2 = 0) :
    ∃ t, Reaches ord (program pl main) s t ∧ t.pc = entry main .dataDone ∧
      t.mem = copyUp (s.regs .r1) (s.regs .r0) (2 * k) s.mem := by
  induction k generalizing s with
  | zero =>
    have heq : s.regs .r1 = s.regs .r2 := BitVec.eq_of_toNat_eq (by omega)
    obtain ⟨t, b1, e1⟩ := exists_block ord (program pl main) 2 h rfl rfl (by decide)
    exact ⟨t, b1, by simp [e1, heq], by simp [e1, heq, copyUp]⟩
  | succ k ih =>
    have hne : s.regs .r1 ≠ s.regs .r2 := fun he => by rw [he] at hk; omega
    obtain ⟨u, b1, hpc1, hr0, hr1, hr2, hm⟩ := reaches_dataLoop ord pl main h hne
    obtain ⟨v, b2, hpc2, hm2⟩ := ih hpc1 (by rw [hr1, hr2]; bv_omega) (by rw [hr1]; bv_omega)
      (by rw [hr0]; bv_omega)
    refine ⟨v, b1.trans b2, hpc2, ?_⟩
    rw [hm2, hr0, hr1, hm, Nat.mul_succ, copyUp_word hd hs]

/-- An even pointer passes an odd end and goes on. -/
theorem reaches_dataRounds (k : Nat) {s : State} (h : s.pc = entry main .dataLoop)
    (hd : (s.regs .r1).toNat % 2 = 0) (hodd : (s.regs .r2).toNat % 2 = 1) :
    ∃ t, Reaches ord (program pl main) s t ∧ t.pc = entry main .dataLoop ∧
      t.regs .r1 = s.regs .r1 + BitVec.ofNat 16 (2 * k) ∧ t.regs .r2 = s.regs .r2 := by
  induction k generalizing s with
  | zero => exact ⟨s, Reaches.refl _ _ _, h, by simp, rfl⟩
  | succ k ih =>
    have hne : s.regs .r1 ≠ s.regs .r2 := fun he => by rw [he] at hd; omega
    obtain ⟨t, b1, hpc1, -, hr1, hr2, -⟩ := reaches_dataLoop ord pl main h hne
    obtain ⟨u, b2, hpc2, hu1, hu2⟩ := ih hpc1 (by rw [hr1]; bv_omega) (by rw [hr2]; exact hodd)
    refine ⟨u, b1.trans b2, hpc2, ?_, hu2.trans hr2⟩
    rw [hu1, hr1, Nat.mul_succ, BitVec.ofNat_add]
    bv_omega

/-- `crt0.s:36-40`, `k` words before the end. -/
theorem reaches_bssDone (k : Nat) {s : State} (h : s.pc = entry main .bssLoop)
    (hk : (s.regs .r0).toNat + 2 * k = (s.regs .r1).toNat) (h2 : s.regs .r2 = 0#16) :
    ∃ t, Reaches ord (program pl main) s t ∧ t.pc = entry main .bssDone ∧
      t.mem = clearUp (s.regs .r0) k s.mem := by
  induction k generalizing s with
  | zero =>
    have heq : s.regs .r0 = s.regs .r1 := BitVec.eq_of_toNat_eq (by omega)
    obtain ⟨t, b1, e1⟩ := exists_block ord (program pl main) 2 h rfl rfl (by decide)
    exact ⟨t, b1, by simp [e1, heq], by simp [e1, heq, clearUp]⟩
  | succ k ih =>
    have hne : s.regs .r0 ≠ s.regs .r1 := fun he => by rw [he] at hk; omega
    obtain ⟨t, b1, e1⟩ := exists_block ord (program pl main) 2 h rfl rfl (by decide)
    have hpc1 : t.pc = 48#16 := by simp [e1, h, entry, hne]
    obtain ⟨u, b2, e2⟩ := exists_block ord (program pl main) 2 hpc1 rfl rfl (by decide)
    have hpc2 : u.pc = entry main .bssLoop := by simp [e2]
    have hr0 : u.regs .r0 = s.regs .r0 + 2#16 := by simp [e2, e1, hne]
    have hr1 : u.regs .r1 = s.regs .r1 := by simp [e2, e1, hne]
    have hr2 : u.regs .r2 = 0#16 := by simp [e2, e1, hne, h2]
    have hm : u.mem = writeWord s.mem (s.regs .r0) 0#16 := by simp [e2, e1, hne, h2]
    obtain ⟨v, b3, hpc3, hm3⟩ := ih hpc2 (by rw [hr0, hr1]; bv_omega) hr2
    refine ⟨v, b1.trans (b2.trans b3), hpc3, ?_⟩
    rw [hm3, hr0, hm, clearUp]

/-- With even section sizes `_start` reaches the call of `main`. -/
theorem reaches_main {s : State} (h : s.pc = entry main .start)
    (hdata : pl.dataSize % 2 = 0) (hbss : pl.bssSize % 2 = 0) :
    ∃ t, Reaches ord (program pl main) s t ∧ t.pc = main - 0x6024#16 ∧
      t.mem = clearUp pl.bssStart (pl.bssSize / 2)
        (copyUp pl.dataStart pl.dataLoadStart pl.dataSize s.mem) := by
  have hdle := pl.data_le
  have hble := pl.bss_le
  unfold Placement.dataSize at hdata
  unfold Placement.bssSize at hbss
  obtain ⟨t, b1, e1⟩ := exists_block ord (program pl main) 6 h rfl rfl (by simp [blockSize])
  have hpc1 : t.pc = entry main .dataLoop := by simp [e1, h, entry]
  have hr0 : t.regs .r0 = pl.dataLoadStart := by simp [e1]
  have hr1 : t.regs .r1 = pl.dataStart := by simp [e1]
  have hr2 : t.regs .r2 = pl.dataEnd := by simp [e1]
  have hm1 : t.mem = s.mem := by simp [e1]
  obtain ⟨u, b2, hpc2, hm2⟩ := reaches_dataDone ord pl main (pl.dataSize / 2) hpc1
    (by rw [hr1, hr2, Placement.dataSize]; omega) (by rw [hr1]; exact pl.dataEven)
    (by rw [hr0]; exact pl.loadEven)
  obtain ⟨v, b3, e3⟩ := exists_block ord (program pl main) 3 hpc2 rfl rfl (by simp [blockSize])
  have hpc3 : v.pc = entry main .bssLoop := by simp [e3, hpc2, entry]
  have hv0 : v.regs .r0 = pl.bssStart := by simp [e3]
  have hv1 : v.regs .r1 = pl.bssEnd := by simp [e3]
  have hm3 : v.mem = u.mem := by simp [e3]
  obtain ⟨w, b4, hpc4, hm4⟩ := reaches_bssDone ord pl main (pl.bssSize / 2) hpc3
    (by rw [hv0, hv1, Placement.bssSize]; omega) (by simp [e3])
  obtain ⟨x, b5, e5⟩ := exists_block ord (program pl main) 1 hpc4 rfl rfl (by decide)
  refine ⟨x, b1.trans (b2.trans (b3.trans (b4.trans b5))), by simp [e5, entry], ?_⟩
  have hsize : 2 * (pl.dataSize / 2) = pl.dataSize := by
    rw [Placement.dataSize]
    omega
  rw [hr0, hr1, hm1, hsize] at hm2
  rw [hv0, hm3, hm2] at hm4
  rw [← hm4]
  simp [e5]

end Runs
section Points
variable (pl : Placement) (main : Word) (D B : Word → Prop)

/-- Where `_start` can be, and what its registers then hold: `D` is to hold of
the pointer into `.data` and `B` of the pointer into `.bss`. -/
inductive Visits (s : State) : Prop where
  | setup (h : s.pc = 0#16 ∨ s.pc = 4#16 ∨ s.pc = 8#16 ∨ s.pc = 12#16 ∨ s.pc = 16#16)
  | dataLimit (h : s.pc = 20#16) (h1 : s.regs .r1 = pl.dataStart)
  | dataTest (h : s.pc = 24#16 ∨ s.pc = 32#16) (hD : D (s.regs .r1)) (h2 : s.regs .r2 = pl.dataEnd)
  | dataExit (h : s.pc = 26#16) (hD : D (s.regs .r1)) (h2 : s.regs .r2 = pl.dataEnd)
      (heq : s.st.eq = decide (s.regs .r1 = pl.dataEnd))
  | dataMove (h : s.pc = 28#16 ∨ s.pc = 30#16) (hD : D (s.regs .r1))
      (h2 : s.regs .r2 = pl.dataEnd) (hne : s.regs .r1 ≠ pl.dataEnd)
  | bssSetup (h : s.pc = 34#16) (hD : D pl.dataEnd)
  | bssLimit (h : s.pc = 38#16) (hD : D pl.dataEnd) (h0 : s.regs .r0 = pl.bssStart)
  | bssZero (h : s.pc = 42#16) (hD : D pl.dataEnd) (h0 : s.regs .r0 = pl.bssStart)
      (h1 : s.regs .r1 = pl.bssEnd)
  | bssTest (h : s.pc = 44#16 ∨ s.pc = 50#16) (hD : D pl.dataEnd) (hB : B (s.regs .r0))
      (h1 : s.regs .r1 = pl.bssEnd)
  | bssExit (h : s.pc = 46#16) (hD : D pl.dataEnd) (hB : B (s.regs .r0))
      (h1 : s.regs .r1 = pl.bssEnd) (heq : s.st.eq = decide (s.regs .r0 = pl.bssEnd))
  | bssClear (h : s.pc = 48#16) (hD : D pl.dataEnd) (hB : B (s.regs .r0))
      (h1 : s.regs .r1 = pl.bssEnd) (hne : s.regs .r0 ≠ pl.bssEnd)
  | call (h : s.pc = 52#16 ∨ s.pc = main - 0x6024#16) (hD : D pl.dataEnd) (hB : B pl.bssEnd)

variable {pl main D B}

/-- One instruction of `_start`, for pointer predicates that a word's step
keeps while the end is not reached. -/
theorem Visits.step {ord : CompareOrder} {s t : State} (hv : Visits pl main D B s)
    (hout : fetch (text pl) (main - 0x6024#16).toNat = none)
    (hD0 : D pl.dataStart) (hD : ∀ x, D x → x ≠ pl.dataEnd → D (x + 2#16))
    (hB0 : B pl.bssStart) (hB : ∀ x, B x → x ≠ pl.bssEnd → B (x + 2#16))
    (hs : step ord (program pl main) s = some t) : Visits pl main D B t := by
  cases hv with
  | setup h =>
    rcases h with h | h | h | h | h
    · obtain rfl := Option.some.inj ((step_eq h rfl).symm.trans hs)
      exact .setup (by simp [h])
    · obtain rfl := Option.some.inj ((step_eq h rfl).symm.trans hs)
      exact .setup (by simp [h])
    · obtain rfl := Option.some.inj ((step_eq h rfl).symm.trans hs)
      exact .setup (by simp [h])
    · obtain rfl := Option.some.inj ((step_eq h rfl).symm.trans hs)
      exact .setup (by simp [h])
    · obtain rfl := Option.some.inj ((step_eq h rfl).symm.trans hs)
      exact .dataLimit (by simp [h]) (by simp)
  | dataLimit h h1 =>
    obtain rfl := Option.some.inj ((step_eq h rfl).symm.trans hs)
    exact .dataTest (by simp [h]) (by simpa [h1] using hD0) (by simp)
  | dataTest h hDr h2 =>
    rcases h with h | h
    · obtain rfl := Option.some.inj ((step_eq h rfl).symm.trans hs)
      exact .dataExit (by simp [h]) (by simpa using hDr) (by simpa using h2) (by simp [h2])
    · obtain rfl := Option.some.inj ((step_eq h rfl).symm.trans hs)
      exact .dataTest (by simp [entry]) (by simpa using hDr) (by simpa using h2)
  | dataExit h hDr h2 heq =>
    obtain rfl := Option.some.inj ((step_eq h rfl).symm.trans hs)
    by_cases he : s.regs .r1 = pl.dataEnd
    · rw [he] at hDr
      exact .bssSetup (by simp [heq, he, entry]) hDr
    · exact .dataMove (by simp [heq, he, h]) (by simpa [heq, he] using hDr)
        (by simpa [heq, he] using h2) (by simp [heq, he])
  | dataMove h hDr h2 hne =>
    rcases h with h | h
    · obtain rfl := Option.some.inj ((step_eq h rfl).symm.trans hs)
      exact .dataMove (by simp [h]) (by simpa using hDr) (by simpa using h2) (by simpa using hne)
    · obtain rfl := Option.some.inj ((step_eq h rfl).symm.trans hs)
      exact .dataTest (by simp [h]) (by simpa using hD _ hDr hne) (by simpa using h2)
  | bssSetup h hDe =>
    obtain rfl := Option.some.inj ((step_eq h rfl).symm.trans hs)
    exact .bssLimit (by simp [h]) hDe (by simp)
  | bssLimit h hDe h0 =>
    obtain rfl := Option.some.inj ((step_eq h rfl).symm.trans hs)
    exact .bssZero (by simp [h]) hDe (by simpa using h0) (by simp)
  | bssZero h hDe h0 h1 =>
    obtain rfl := Option.some.inj ((step_eq h rfl).symm.trans hs)
    exact .bssTest (by simp [h]) hDe (by simpa [h0] using hB0) (by simpa using h1)
  | bssTest h hDe hBr h1 =>
    rcases h with h | h
    · obtain rfl := Option.some.inj ((step_eq h rfl).symm.trans hs)
      exact .bssExit (by simp [h]) hDe (by simpa using hBr) (by simpa using h1) (by simp [h1])
    · obtain rfl := Option.some.inj ((step_eq h rfl).symm.trans hs)
      exact .bssTest (by simp [entry]) hDe (by simpa using hBr) (by simpa using h1)
  | bssExit h hDe hBr h1 heq =>
    obtain rfl := Option.some.inj ((step_eq h rfl).symm.trans hs)
    by_cases he : s.regs .r0 = pl.bssEnd
    · rw [he] at hBr
      exact .call (by simp [heq, he, entry]) hDe hBr
    · exact .bssClear (by simp [heq, he, h]) hDe (by simpa [heq, he] using hBr)
        (by simpa [heq, he] using h1) (by simp [heq, he])
  | bssClear h hDe hBr h1 hne =>
    obtain rfl := Option.some.inj ((step_eq h rfl).symm.trans hs)
    exact .bssTest (by simp [h]) hDe (by simpa using hB _ hBr hne) (by simpa using h1)
  | call h hDe hBe =>
    rcases h with h | h
    · obtain rfl := Option.some.inj ((step_eq h rfl).symm.trans hs)
      exact .call (by simp [entry]) hDe hBe
    · rw [step_eq_none (by rw [h]; exact hout)] at hs
      cases hs

theorem Visits.of_reaches {ord : CompareOrder} {s t : State}
    (hr : Reaches ord (program pl main) s t) (h : s.pc = entry main .start)
    (hout : fetch (text pl) (main - 0x6024#16).toNat = none)
    (hD0 : D pl.dataStart) (hD : ∀ x, D x → x ≠ pl.dataEnd → D (x + 2#16))
    (hB0 : B pl.bssStart) (hB : ∀ x, B x → x ≠ pl.bssEnd → B (x + 2#16)) :
    Visits pl main D B t :=
  hr.invariant (.setup (Or.inl h)) fun _ _ hv hs => hv.step hout hD0 hD hB0 hB hs

/-- The two instructions that store, `crt0.s:27` and `crt0.s:39`. -/
def dataStore : Instr Label := .mov (.reg .r3) (.inc .r1)
def bssStore : Instr Label := .mov (.reg .r2) (.inc .r0)

theorem Visits.of_dataStore {s : State} (hv : Visits pl main D B s)
    (hout : fetch (text pl) (main - 0x6024#16).toNat = none)
    (hf : fetch (text pl) s.pc.toNat = some dataStore) :
    D (s.regs .r1) ∧ s.regs .r1 ≠ pl.dataEnd := by
  cases hv with
  | dataMove h hDr h2 hne => exact ⟨hDr, hne⟩
  | setup h => rcases h with h | h | h | h | h <;> (rw [h] at hf; cases hf)
  | dataTest h | bssTest h => rcases h with h | h <;> (rw [h] at hf; cases hf)
  | call h =>
    rcases h with h | h
    · rw [h] at hf
      cases hf
    · rw [h, hout] at hf
      cases hf
  | dataLimit h | dataExit h | bssSetup h | bssLimit h | bssZero h | bssExit h | bssClear h =>
    rw [h] at hf
    cases hf

theorem Visits.of_bssStore {s : State} (hv : Visits pl main D B s)
    (hout : fetch (text pl) (main - 0x6024#16).toNat = none)
    (hf : fetch (text pl) s.pc.toNat = some bssStore) :
    B (s.regs .r0) ∧ s.regs .r0 ≠ pl.bssEnd := by
  cases hv with
  | bssClear h hDe hBr h1 hne => exact ⟨hBr, hne⟩
  | setup h => rcases h with h | h | h | h | h <;> (rw [h] at hf; cases hf)
  | dataTest h | bssTest h | dataMove h => rcases h with h | h <;> (rw [h] at hf; cases hf)
  | call h =>
    rcases h with h | h
    · rw [h] at hf
      cases hf
    · rw [h, hout] at hf
      cases hf
  | dataLimit h | dataExit h | bssSetup h | bssLimit h | bssZero h | bssExit h =>
    rw [h] at hf
    cases hf

/-- Control leaves the text of `_start` only for `main`, after both loops. -/
theorem Visits.of_fetch_none {s : State} (hv : Visits pl main D B s)
    (hf : fetch (text pl) s.pc.toNat = none) : D pl.dataEnd ∧ B pl.bssEnd := by
  cases hv with
  | call h hDe hBe => exact ⟨hDe, hBe⟩
  | setup h => rcases h with h | h | h | h | h <;> (rw [h] at hf; cases hf)
  | dataTest h | bssTest h | dataMove h => rcases h with h | h <;> (rw [h] at hf; cases hf)
  | dataLimit h | dataExit h | bssSetup h | bssLimit h | bssZero h | bssExit h | bssClear h =>
    rw [h] at hf
    cases hf

end Points

/-- The end of a section rounded up to a word. -/
def roundUp (a : Word) : Nat := (a.toNat + 1) / 2 * 2

/-- `main` is called with `.data` copied and `.bss` cleared, and on the way
there neither loop stores at or beyond the end of its section. -/
def StartsUp (ord : CompareOrder) (pl : Placement) (main : Word) (s : State) : Prop :=
  (∃ t, Halts ord (program pl main) s t ∧ t.pc = main - 0x6024#16 ∧
    CopyRight pl.dataStart pl.dataLoadStart pl.dataSize s.mem t.mem ∧
    ∀ i < pl.bssSize, t.mem (byteAt pl.bssStart i) = 0#8) ∧
  ∀ t, Reaches ord (program pl main) s t →
    (fetch (text pl) t.pc.toNat = some dataStore →
      (t.regs .r1).toNat + 2 ≤ roundUp pl.dataEnd) ∧
    (fetch (text pl) t.pc.toNat = some bssStore →
      (t.regs .r0).toNat + 2 ≤ roundUp pl.bssEnd)

section StartsUp
variable {ord : CompareOrder} {pl : Placement} {main : Word} {s : State}

/-- ROM and RAM do not overlap. -/
theorem data_copied (pl : Placement) (m : Memory) :
    CopyRight pl.dataStart pl.dataLoadStart pl.dataSize m
      (copyUp pl.dataStart pl.dataLoadStart pl.dataSize m) := by
  have hram := pl.ram
  have hend := pl.rom_end
  have hle := pl.data_le
  have hlt := pl.dataEnd.isLt
  have hd : pl.dataStart.toNat + pl.dataSize ≤ 65536 := by
    rw [Placement.dataSize]
    omega
  have hs : pl.dataLoadStart.toNat + pl.dataSize ≤ 65536 := by
    rw [Placement.dataSize]
    omega
  rw [copyUp_right_iff hd hs (by omega)]
  intro i hi j hj he
  rw [byteAt_eq_iff hd hs hi hj] at he
  rw [Placement.dataSize] at hi hj
  omega

/-- Clearing `.bss` does not reach back into `.data`. -/
theorem sections_filled (pl : Placement) (hbss : pl.bssSize % 2 = 0) (m : Memory) :
    CopyRight pl.dataStart pl.dataLoadStart pl.dataSize m (clearUp pl.bssStart (pl.bssSize / 2)
      (copyUp pl.dataStart pl.dataLoadStart pl.dataSize m)) ∧
    ∀ i < pl.bssSize, clearUp pl.bssStart (pl.bssSize / 2)
      (copyUp pl.dataStart pl.dataLoadStart pl.dataSize m) (byteAt pl.bssStart i) = 0#8 := by
  have hdle := pl.data_le
  have hafter := pl.bss_after
  have hble := pl.bss_le
  have hdlt := pl.dataEnd.isLt
  have hblt := pl.bssEnd.isLt
  have hb : pl.bssStart.toNat + 2 * (pl.bssSize / 2) < 65536 := by
    rw [Placement.bssSize] at hbss ⊢
    omega
  constructor
  · intro i hi
    rw [clearUp_apply _ pl.bssEven hb, if_neg, data_copied pl m i hi]
    rw [byteAt_toNat (n := pl.dataSize) (by rw [Placement.dataSize]; omega) hi]
    rw [Placement.dataSize] at hi
    omega
  · intro i hi
    rw [clearUp_apply _ pl.bssEven hb, if_pos]
    rw [byteAt_toNat (n := pl.bssSize) (by rw [Placement.bssSize]; omega) hi]
    omega

theorem startsUp_of_even (hpc : s.pc = entry main .start)
    (hout : fetch (text pl) (main - 0x6024#16).toNat = none)
    (hdata : pl.dataSize % 2 = 0) (hbss : pl.bssSize % 2 = 0) : StartsUp ord pl main s := by
  have hdle := pl.data_le
  have hble := pl.bss_le
  have hdeven := pl.dataEven
  have hbeven := pl.bssEven
  have hsize := hdata
  have hbsize := hbss
  rw [Placement.dataSize] at hsize
  rw [Placement.bssSize] at hbsize
  constructor
  · obtain ⟨t, hr, htpc, hm⟩ := reaches_main ord pl main hpc hdata hbss
    have hfill := sections_filled pl hbss s.mem
    rw [← hm] at hfill
    exact ⟨t, ⟨hr, step_eq_none (by rw [htpc]; exact hout)⟩, htpc, hfill⟩
  · intro t hr
    -- the pointers stay even and at most their ends
    have hv : Visits pl main (fun x => x.toNat % 2 = 0 ∧ x.toNat ≤ pl.dataEnd.toNat)
        (fun x => x.toNat % 2 = 0 ∧ x.toNat ≤ pl.bssEnd.toNat) t := by
      refine Visits.of_reaches hr hpc hout ⟨hdeven, hdle⟩ ?_ ⟨hbeven, hble⟩ ?_
      · intro x hx hne
        bv_omega
      · intro x hx hne
        bv_omega
    constructor
    · intro hf
      obtain ⟨hx, hne⟩ := hv.of_dataStore hout hf
      rw [roundUp]
      bv_omega
    · intro hf
      obtain ⟨hx, hne⟩ := hv.of_bssStore hout hf
      rw [roundUp]
      bv_omega

/-- An even pointer never equals an odd end. -/
theorem even_of_halts (hpc : s.pc = entry main .start)
    (hout : fetch (text pl) (main - 0x6024#16).toNat = none) {t : State}
    (hr : Reaches ord (program pl main) s t) (htpc : t.pc = main - 0x6024#16) :
    pl.dataSize % 2 = 0 ∧ pl.bssSize % 2 = 0 := by
  have hdeven := pl.dataEven
  have hbeven := pl.bssEven
  have hv : Visits pl main (fun x => x.toNat % 2 = 0) (fun x => x.toNat % 2 = 0) t :=
    Visits.of_reaches hr hpc hout hdeven (fun x hx _ => by bv_omega) hbeven
      (fun x hx _ => by bv_omega)
  have hends := hv.of_fetch_none (by rw [htpc]; exact hout)
  rw [Placement.dataSize, Placement.bssSize]
  omega

theorem startsUp_iff (hpc : s.pc = entry main .start)
    (hout : fetch (text pl) (main - 0x6024#16).toNat = none) :
    StartsUp ord pl main s ↔ pl.dataSize % 2 = 0 ∧ pl.bssSize % 2 = 0 := by
  constructor
  · rintro ⟨⟨t, hstop, htpc, -⟩, -⟩
    exact even_of_halts hpc hout hstop.1 htpc
  · rintro ⟨hdata, hbss⟩
    exact startsUp_of_even hpc hout hdata hbss

/-- With an odd `.data` the loop overwrites all of memory. -/
theorem odd_data_stores_everywhere (hpc : s.pc = entry main .start)
    (hodd : pl.dataSize % 2 = 1) (a : Word) (ha : a.toNat % 2 = 0) :
    ∃ t, Reaches ord (program pl main) s t ∧ fetch (text pl) t.pc.toNat = some dataStore ∧
      t.regs .r1 = a := by
  have hdeven := pl.dataEven
  have hdle := pl.data_le
  rw [Placement.dataSize] at hodd
  obtain ⟨t, b1, e1⟩ := exists_block ord (program pl main) 6 hpc rfl rfl (by simp [blockSize])
  have hpc1 : t.pc = entry main .dataLoop := by simp [e1, hpc, entry]
  have hr1 : t.regs .r1 = pl.dataStart := by simp [e1]
  have hr2 : t.regs .r2 = pl.dataEnd := by simp [e1]
  obtain ⟨u, b2, hpc2, hu1, hu2⟩ := reaches_dataRounds ord pl main
    ((a - pl.dataStart).toNat / 2) hpc1 (by rw [hr1]; exact hdeven) (by rw [hr2]; omega)
  have hu1a : u.regs .r1 = a := by
    rw [hu1, hr1]
    bv_omega
  have hne : u.regs .r1 ≠ u.regs .r2 := fun he => by
    rw [hu1a, hu2, hr2] at he
    rw [he] at ha
    omega
  obtain ⟨v, b3, e3⟩ := exists_block ord (program pl main) 2 hpc2 rfl rfl (by decide)
  have hpc3 : v.pc = 28#16 := by simp [e3, hpc2, entry, hne]
  obtain ⟨w, b4, e4⟩ := exists_block ord (program pl main) 1 hpc3 rfl rfl (by decide)
  have hpc4 : w.pc = 30#16 := by simp [e4, hpc3]
  refine ⟨w, b1.trans (b2.trans (b3.trans b4)), by rw [hpc4]; rfl, ?_⟩
  rw [← hu1a]
  simp [e4, e3, hne]

end StartsUp

/-- Reset, with cleared registers and memory. -/
def coldStart : State where
  pc := 0#16
  regs := fun _ => 0#16
  mem := fun _ => 0#8
  st := ⟨false, false, false, false⟩

/-- Four words of `.data` and two of `.bss`. -/
def evenPlacement : Placement :=
  ⟨0x7000#16, 0xA000#16, 0xA008#16, 0xA008#16, 0xA00C#16, by decide, by decide, by decide,
    by decide, by decide, by decide, by decide, by decide, by decide⟩

theorem evenPlacement_starts_up : StartsUp .manual evenPlacement 0x6100#16 coldStart :=
  (startsUp_iff rfl (by decide)).2 (by decide)

/-- The initialised variables of `life2_2x.c` are `rng_state`, `cur`, `next`
and the single byte `seed_density`. -/
def life2Placement : Placement :=
  ⟨0x7000#16, 0xA000#16, 0xA007#16, 0xA008#16, 0xB000#16, by decide, by decide, by decide,
    by decide, by decide, by decide, by decide, by decide, by decide⟩

theorem life2Placement_never_starts :
    ¬ StartsUp .manual life2Placement 0x6100#16 coldStart := by
  rintro ⟨⟨t, hstop, htpc, -⟩, -⟩
  have heven := even_of_halts rfl (by decide) hstop.1 htpc
  exact absurd heven.1 (by decide)

end LlvmTms9900.Cart.Crt0
