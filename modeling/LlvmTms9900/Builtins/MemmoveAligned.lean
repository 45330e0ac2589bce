import LlvmTms9900.Builtins.MemmoveValue
import LlvmTms9900.Isa.Activation

/-!
# Word accesses of memmove

`memmove` moves words only while both pointers are even. The two directions
test the parities with the same seven instructions, so that one list of
assertions covers both; the pointers stay even until the odd byte at the end.
-/

set_option maxRecDepth 8192

namespace LlvmTms9900.Builtins.Memmove
open LlvmTms9900.Isa

/-- Offsets at which nothing about the parities is needed. -/
def unaligned : List Nat :=
  [0, 2, 6, 8, 10, 12, 14, 16, 18, 64, 68, 70, 72, 74, 76, 78, 80, 82, 84, 86, 88, 90, 128, 132,
    134, 136, 138, 140, 142, 144, 146]

/-- Offsets at which both pointers are even. -/
def aligned : List Nat :=
  [42, 44, 46, 48, 50, 52, 54, 56, 58, 60, 62, 112, 114, 116, 118, 120, 122, 124, 126]

def BothEven (t : State) : Prop := (t.regs .r1).toNat % 2 = 0 ∧ (t.regs .r3).toNat % 2 = 0

def SameParity (t : State) : Prop := (t.regs .r3).toNat % 2 = (t.regs .r1).toNat % 2

/-- The parity tests (`memmove.S:41-52` and `90-98`). -/
inductive AtTest (t : State) : Prop where
  | copy : t.At [20, 92] → AtTest t
  | differ : t.At [22, 94] → t.regs .r0 = t.regs .r3 → AtTest t
  | mask : t.At [24, 96] → t.regs .r0 = t.regs .r3 ^^^ t.regs .r1 → AtTest t
  | branch : t.At [28, 100] → (t.st.eq = true → SameParity t) → AtTest t
  | same : t.At [30, 102] → SameParity t → AtTest t
  | maskEnd : t.At [32, 104] → SameParity t → t.regs .r0 = t.regs .r3 → AtTest t
  | branchEnd : t.At [36, 108] → SameParity t →
      (t.st.eq = true ↔ (t.regs .r3).toNat % 2 = 0) → AtTest t
  | head : t.At [38, 110] → SameParity t → (t.regs .r3).toNat % 2 = 1 → AtTest t
  | headDown : t.At [40] → (t.regs .r1).toNat % 2 = 0 → (t.regs .r3).toNat % 2 = 1 → AtTest t

/-- What is known at the instruction about to be executed. -/
def Known (t : State) : Prop := t.At unaligned ∨ (t.At aligned ∧ BothEven t) ∨ AtTest t

/-- Where the instructions of `unaligned` and `aligned` lead. -/
theorem unaligned_leadsTo : leadsTo text unaligned (unaligned ++ [20, 92]) = true := by decide

theorem aligned_leadsTo : leadsTo text aligned (aligned ++ unaligned) = true := by decide

theorem offsets_lt : (∀ k ∈ unaligned, k < 65536) ∧ ∀ k ∈ aligned, k < 65536 := by decide

variable {base : Word} {t u : State}

/-- No instruction of the word loops makes a pointer odd. -/
theorem aligned_bothEven (hat : t.At aligned) (h : BothEven t)
    (hs : step .manual (program base) t = some u) : BothEven u := by
  obtain ⟨k, hk, hpc⟩ := hat
  obtain ⟨h1, h3⟩ := h
  simp only [aligned, List.mem_cons, List.not_mem_nil, or_false] at hk
  rcases hk with rfl | rfl | rfl | rfl | rfl | rfl | rfl | rfl | rfl | rfl | rfl | rfl | rfl | rfl |
    rfl | rfl | rfl | rfl | rfl
  all_goals
    have hu := step_at hpc rfl hs
    clear hs
    have hr : (u.regs .r1 = t.regs .r1 ∨ u.regs .r1 = t.regs .r1 - 2#16 ∨
        u.regs .r1 = t.regs .r1 + 2#16) ∧ (u.regs .r3 = t.regs .r3 ∨
        u.regs .r3 = t.regs .r3 - 2#16 ∨ u.regs .r3 = t.regs .r3 + 2#16) := by
      simp [hu]
      try (split <;> simp)
    constructor
    · rcases hr.1 with he | he | he <;> rw [he] <;> bv_omega
    · rcases hr.2 with he | he | he <;> rw [he] <;> bv_omega

/-- A test keeps the pointers and the conclusion of the test is right. -/
theorem AtTest.step (h : AtTest t) (hs : Isa.step .manual (program base) t = some u) :
    Known u := by
  have test : AtTest u → Known u := fun hu => .inr (.inr hu)
  have even : ∀ {k : Nat}, u.pc = BitVec.ofNat 16 k → k ∈ aligned → BothEven u → Known u :=
    fun hpc hk hu => .inr (.inl ⟨State.At.of_pc hpc hk, hu⟩)
  cases h with
  | copy hat =>
    rcases hat.pair with hpc | hpc
    all_goals
      have hu := step_at hpc rfl hs
    · exact test (.differ (State.At.of_pc (k := 22) (by simp [hu, hpc]) (by decide)) (by simp [hu]))
    · exact test (.differ (State.At.of_pc (k := 94) (by simp [hu, hpc]) (by decide)) (by simp [hu]))
  | differ hat h0 =>
    rcases hat.pair with hpc | hpc
    all_goals
      have hu := step_at hpc rfl hs
    · exact test (.mask (State.At.of_pc (k := 24) (by simp [hu, hpc]) (by decide)) (by simp [hu, h0]))
    · exact test (.mask (State.At.of_pc (k := 96) (by simp [hu, hpc]) (by decide)) (by simp [hu, h0]))
  | mask hat h0 =>
    have hpar : (t.regs .r3 ^^^ t.regs .r1) &&& 1#16 = 0#16 → SameParity t :=
      fun hz => (xor_and_one_eq_zero _ _).1 hz
    rcases hat.pair with hpc | hpc
    all_goals
      have hu := step_at hpc rfl hs
    · exact test (.branch (State.At.of_pc (k := 28) (by simp [hu, hpc]) (by decide))
        (by simpa [hu, h0, SameParity] using hpar))
    · exact test (.branch (State.At.of_pc (k := 100) (by simp [hu, hpc]) (by decide))
        (by simpa [hu, h0, SameParity] using hpar))
  | branch hat he =>
    rcases hat.pair with hpc | hpc
    all_goals
      have hu := step_at hpc rfl hs
      cases heq : t.st.eq
    · exact .inl (State.At.of_pc (k := 78) (by simp [hu, heq, entry]) (by decide))
    · exact test (.same (State.At.of_pc (k := 30) (by simp [hu, hpc, heq]) (by decide))
        (by simpa [hu, heq, SameParity] using he heq))
    · exact .inl (State.At.of_pc (k := 140) (by simp [hu, heq, entry]) (by decide))
    · exact test (.same (State.At.of_pc (k := 102) (by simp [hu, hpc, heq]) (by decide))
        (by simpa [hu, heq, SameParity] using he heq))
  | same hat hp =>
    rcases hat.pair with hpc | hpc
    all_goals
      have hu := step_at hpc rfl hs
      have hp' : SameParity u := by simpa [hu, SameParity] using hp
    · exact test (.maskEnd (State.At.of_pc (k := 32) (by simp [hu, hpc]) (by decide)) hp' (by simp [hu]))
    · exact test (.maskEnd (State.At.of_pc (k := 104) (by simp [hu, hpc]) (by decide)) hp' (by simp [hu]))
  | maskEnd hat hp h0 =>
    have hev := and_one_eq_zero (t.regs .r3)
    rcases hat.pair with hpc | hpc
    all_goals
      have hu := step_at hpc rfl hs
      have hp' : SameParity u := by simpa [hu, SameParity] using hp
    · exact test (.branchEnd (State.At.of_pc (k := 36) (by simp [hu, hpc]) (by decide)) hp'
        (by simpa [hu, h0] using hev))
    · exact test (.branchEnd (State.At.of_pc (k := 108) (by simp [hu, hpc]) (by decide)) hp'
        (by simpa [hu, h0] using hev))
  | branchEnd hat hp he =>
    rcases hat.pair with hpc | hpc
    all_goals
      have hu := step_at hpc rfl hs
      cases heq : t.st.eq
      all_goals
        have hregs : u.regs = t.regs := by simp [hu, heq]
        simp only [heq, true_iff, Bool.false_eq_true, false_iff] at he
    · exact test (.head (State.At.of_pc (k := 38) (by simp [hu, hpc, heq]) (by decide))
        (by rw [SameParity, hregs]; exact hp) (by rw [hregs]; omega))
    · exact even (k := 48) (by simp [hu, heq, entry]) (by decide)
        ⟨by rw [hregs, ← hp]; exact he, by rw [hregs]; exact he⟩
    · exact test (.head (State.At.of_pc (k := 110) (by simp [hu, hpc, heq]) (by decide))
        (by rw [SameParity, hregs]; exact hp) (by rw [hregs]; omega))
    · exact even (k := 116) (by simp [hu, heq, entry]) (by decide)
        ⟨by rw [hregs, ← hp]; exact he, by rw [hregs]; exact he⟩
  | head hat hp hodd =>
    unfold SameParity at hp
    rcases hat.pair with hpc | hpc
    all_goals
      have hu := step_at hpc rfl hs
    · have h1 : u.regs .r1 = t.regs .r1 - 1#16 := by simp [hu]
      have h3 : u.regs .r3 = t.regs .r3 := by simp [hu]
      exact test (.headDown (State.At.of_pc (k := 40) (by simp [hu, hpc]) (by decide))
        (by rw [h1]; bv_omega) (by rw [h3]; exact hodd))
    · have h1 : u.regs .r1 = t.regs .r1 + 1#16 := by simp [hu]
      have h3 : u.regs .r3 = t.regs .r3 + 1#16 := by simp [hu]
      exact even (k := 112) (by simp [hu, hpc]) (by decide)
        ⟨by rw [h1]; bv_omega, by rw [h3]; bv_omega⟩
  | headDown hat h1 h3 =>
    have hpc := hat.single
    have hu := step_at hpc rfl hs
    have hu1 : u.regs .r1 = t.regs .r1 := by simp [hu]
    have hu3 : u.regs .r3 = t.regs .r3 - 1#16 := by simp [hu]
    exact even (k := 42) (by simp [hu, hpc]) (by decide)
      ⟨by rw [hu1]; exact h1, by rw [hu3]; bv_omega⟩

theorem Known.step (h : Known t) (hb : fetch text t.pc.toNat ≠ some (.b .r11))
    (hs : Isa.step .manual (program base) t = some u) : Known u := by
  rcases h with hat | ⟨hat, heven⟩ | htest
  · rcases State.At.of_append (leadsTo_step unaligned_leadsTo offsets_lt.1 hat hb hs) with h1 | h1
    · exact .inl h1
    · exact .inr (.inr (.copy h1))
  · rcases State.At.of_append (leadsTo_step aligned_leadsTo offsets_lt.2 hat hb hs) with h1 | h1
    · exact .inr (.inl ⟨h1, aligned_bothEven hat heven hs⟩)
    · exact .inl h1
  · exact htest.step hs

/-- Offsets of the parity tests. -/
def tests : List Nat := [20, 92, 22, 94, 24, 96, 28, 100, 30, 102, 32, 104, 36, 108, 38, 110, 40]

theorem AtTest.at_tests (h : AtTest t) : t.At tests := by
  cases h with
  | copy hat => exact hat.mono (by decide)
  | differ hat _ => exact hat.mono (by decide)
  | mask hat _ => exact hat.mono (by decide)
  | branch hat _ => exact hat.mono (by decide)
  | same hat _ => exact hat.mono (by decide)
  | maskEnd hat _ _ => exact hat.mono (by decide)
  | branchEnd hat _ _ => exact hat.mono (by decide)
  | head hat _ _ => exact hat.mono (by decide)
  | headDown hat _ _ => exact hat.mono (by decide)

theorem Known.movEven (h : Known t) : MovEven text t := by
  rcases h with hat | ⟨hat, h1, h3⟩ | htest
  · have hm : movesThrough text [] unaligned = true := by decide
    exact movEven_of_through hm offsets_lt.1 hat (by simp)
  · have hm : movesThrough text [.r1, .r3] aligned = true := by decide
    exact movEven_of_through hm offsets_lt.2 hat (by simp [h1, h3])
  · have hm : movesThrough text [] tests = true := by decide
    have hlt : ∀ k ∈ tests, k < 65536 := by decide
    exact movEven_of_through hm hlt htest.at_tests (by simp)

/-- `memmove.S:18-128`, for every overlap and parity of the buffers. -/
theorem memmove_overlap_safe (base : Word) (s : State) (hpc : s.pc = entry .memmove)
    (hdest : (s.regs .r0).toNat + (s.regs .r2).toNat ≤ 65536)
    (hsrc : (s.regs .r1).toNat + (s.regs .r2).toNat ≤ 65536) :
    (∃ t, Reaches .manual (program base) s t ∧ t.pc = s.regs .r11 - base ∧
      t.regs .r0 = s.regs .r0 ∧
      (∀ i < (s.regs .r2).toNat, t.mem (byteAt (s.regs .r0) i) = s.mem (byteAt (s.regs .r1) i)) ∧
      ∀ a : Word, (a.toNat < (s.regs .r0).toNat ∨
        (s.regs .r0).toNat + (s.regs .r2).toNat ≤ a.toNat) → t.mem a = s.mem a) ∧
    ∀ t, During .manual (program base) s t → MovEven text t := by
  constructor
  · obtain ⟨t, ht⟩ := memmove_moved .manual base hpc
    refine ⟨t, ht.reaches, ht.pc, ht.ret, ?_, ?_⟩
    · rw [ht.mem]
      exact memmoveMem_manual hdest hsrc s.mem
    · intro a ha
      rw [ht.mem, memmoveMem_frame .manual hdest s.mem ha]
  · intro t ht
    have hknown : Known t :=
      ht.invariant (.inl ⟨0, by decide, hpc⟩) fun u v hu hb hs => hu.step hb hs
    exact hknown.movEven

/-- Three bytes moved up by one, from an odd address. -/
def moveUpByOne : State where
  pc := entry .memmove
  regs := fun
    | .r0 => 0xA002#16
    | .r1 => 0xA001#16
    | .r2 => 3#16
    | .r11 => 0x7000#16
    | _ => 0#16
  mem := fun a => loByte a
  st := ⟨false, false, false, false⟩

theorem moveUpByOne_moved :
    ∃ t, Reaches .manual (program 0#16) moveUpByOne t ∧ t.mem 0xA004#16 = 3#8 := by
  obtain ⟨⟨t, hreach, -, -, hcopy, -⟩, -⟩ :=
    memmove_overlap_safe 0#16 moveUpByOne rfl (by decide) (by decide)
  exact ⟨t, hreach, hcopy 2 (by decide)⟩

end LlvmTms9900.Builtins.Memmove
