import LlvmTms9900.Builtins.Fp32
import LlvmTms9900.Builtins.Udivmoddi4Words

/-!
# 64-bit shifts (tests/fp32_builtins.c)

A shifted 64-bit value is compared with the two shifted halves bit by bit.
Bits cross from one half to the other only for counts between 1 and 31.
-/

namespace LlvmTms9900.Builtins.Fp32
open LlvmTms9900.Builtins.Udivmoddi4

theorem hi32_getLsbD (x : LongLong) (i : ℕ) :
    (hi32 x).getLsbD i = (decide (i < 32) && x.getLsbD (32 + i)) := by
  simp only [hi32, BitVec.getLsbD_setWidth, BitVec.getLsbD_ushiftRight]

theorem lo32_getLsbD (x : LongLong) (i : ℕ) :
    (lo32 x).getLsbD i = (decide (i < 32) && x.getLsbD i) := by
  simp only [lo32, BitVec.getLsbD_setWidth]

theorem make64_getLsbD (hi lo : Long) (i : ℕ) :
    (make64 hi lo).getLsbD i = if i < 32 then lo.getLsbD i else hi.getLsbD (i - 32) := by
  simp only [make64, BitVec.getLsbD_or, BitVec.getLsbD_shiftLeft, BitVec.getLsbD_setWidth]
  by_cases h : i < 32
  · simp [h]
    omega
  · by_cases h64 : i < 64
    · simp [h, h64]
      grind
    · grind

theorem u64_ofU64 (x : LongLong) : (U64Parts.ofU64 x).u64 = x := by
  apply BitVec.eq_of_toNat_eq
  rw [U64Parts.u64, make64_toNat]
  exact value_halves x

section Counts
variable {b : Long}

theorem sar_of_lt (x : Long) (h : b.toNat < 32) : sar x b = some (x.sshiftRight b.toNat) := if_pos h

/-- The four ranges of the count. -/
theorem count_ranges (b : Long) : b = 0#32 ∨ (1 ≤ b.toNat ∧ b.toNat < 32) ∨
    (32 ≤ b.toNat ∧ b.toNat < 64) ∨ 64 ≤ b.toNat := by
  by_cases h : b = 0#32
  · exact .inl h
  · have hpos : b.toNat ≠ 0 := fun he => h (BitVec.eq_of_toNat_eq he)
    omega

theorem low_branches (h : 1 ≤ b.toNat ∧ b.toNat < 32) :
    b ≠ 0#32 ∧ ¬ 64#32 ≤ b ∧ ¬ 32#32 ≤ b ∧ (32#32 - b).toNat = 32 - b.toNat := by
  refine ⟨?_, ?_, ?_, ?_⟩ <;> bv_omega

theorem high_branches (h : 32 ≤ b.toNat ∧ b.toNat < 64) :
    b ≠ 0#32 ∧ ¬ 64#32 ≤ b ∧ 32#32 ≤ b ∧ (b - 32#32).toNat = b.toNat - 32 := by
  refine ⟨?_, ?_, ?_, ?_⟩ <;> bv_omega

theorem over_branches (h : 64 ≤ b.toNat) : b ≠ 0#32 ∧ 64#32 ≤ b := by
  constructor <;> bv_omega

end Counts

theorem ashldi3_value (a : LongLong) (b : Long) : ashldi3 a b = some (a <<< b.toNat) := by
  rcases count_ranges b with rfl | h | h | h
  · simp [ashldi3, u64_ofU64]
  · obtain ⟨h0, h64, h32, hsub⟩ := low_branches h
    have hlt : (32#32 - b).toNat < 32 := by omega
    simp only [ashldi3, h0, h64, h32, shl_of_lt h.2, shr_of_lt hlt, hsub, if_false,
      Option.bind_eq_bind, Option.bind_some, Option.pure_def, Option.some.injEq, U64Parts.ofU64,
      U64Parts.u64]
    apply BitVec.eq_of_getLsbD_eq
    intro i hi
    simp only [make64_getLsbD, BitVec.getLsbD_or, BitVec.getLsbD_shiftLeft,
      BitVec.getLsbD_ushiftRight, hi32_getLsbD, lo32_getLsbD]
    grind
  · obtain ⟨h0, h64, h32, hsub⟩ := high_branches h
    have hlt : (b - 32#32).toNat < 32 := by omega
    simp only [ashldi3, h0, h64, h32, shl_of_lt hlt, hsub, if_false, if_true,
      Option.bind_eq_bind, Option.bind_some, Option.pure_def, Option.some.injEq, U64Parts.ofU64,
      U64Parts.u64]
    apply BitVec.eq_of_getLsbD_eq
    intro i hi
    simp only [make64_getLsbD, BitVec.getLsbD_shiftLeft, BitVec.getLsbD_zero, lo32_getLsbD]
    grind
  · obtain ⟨h0, h64⟩ := over_branches h
    simp only [ashldi3, h0, h64, if_false, if_true, Option.pure_def, Option.some.injEq,
      U64Parts.u64]
    apply BitVec.eq_of_getLsbD_eq
    intro i hi
    simp only [make64_getLsbD, BitVec.getLsbD_shiftLeft, BitVec.getLsbD_zero]
    grind

theorem lshrdi3_value (a : LongLong) (b : Long) : lshrdi3 a b = some (a >>> b.toNat) := by
  rcases count_ranges b with rfl | h | h | h
  · simp [lshrdi3, u64_ofU64]
  · obtain ⟨h0, h64, h32, hsub⟩ := low_branches h
    have hlt : (32#32 - b).toNat < 32 := by omega
    simp only [lshrdi3, h0, h64, h32, shr_of_lt h.2, shl_of_lt hlt, hsub, if_false,
      Option.bind_eq_bind, Option.bind_some, Option.pure_def, Option.some.injEq, U64Parts.ofU64,
      U64Parts.u64]
    apply BitVec.eq_of_getLsbD_eq
    intro i hi
    simp only [make64_getLsbD, BitVec.getLsbD_or, BitVec.getLsbD_shiftLeft,
      BitVec.getLsbD_ushiftRight, hi32_getLsbD, lo32_getLsbD]
    by_cases hcross : b.toNat + i < 32
    · grind
    · have hindex : 32 + (i - (32 - b.toNat)) = b.toNat + i := by omega
      grind
  · obtain ⟨h0, h64, h32, hsub⟩ := high_branches h
    have hlt : (b - 32#32).toNat < 32 := by omega
    simp only [lshrdi3, h0, h64, h32, shr_of_lt hlt, hsub, if_false, if_true,
      Option.bind_eq_bind, Option.bind_some, Option.pure_def, Option.some.injEq, U64Parts.ofU64,
      U64Parts.u64]
    apply BitVec.eq_of_getLsbD_eq
    intro i hi
    simp only [make64_getLsbD, BitVec.getLsbD_ushiftRight, BitVec.getLsbD_zero, hi32_getLsbD]
    grind
  · obtain ⟨h0, h64⟩ := over_branches h
    simp only [lshrdi3, h0, h64, if_false, if_true, Option.pure_def, Option.some.injEq,
      U64Parts.u64]
    apply BitVec.eq_of_getLsbD_eq
    intro i hi
    simp only [make64_getLsbD, BitVec.getLsbD_ushiftRight, BitVec.getLsbD_zero]
    grind

theorem hi32_msb (x : LongLong) : (hi32 x).msb = x.msb := by
  rw [BitVec.msb_eq_getLsbD_last, BitVec.msb_eq_getLsbD_last, hi32_getLsbD]
  rfl

theorem ashrdi3_value (a : LongLong) (b : Long) : ashrdi3 a b = some (a.sshiftRight b.toNat) := by
  rcases count_ranges b with rfl | h | h | h
  · simp [ashrdi3, u64_ofU64]
  · obtain ⟨h0, h64, h32, hsub⟩ := low_branches h
    have hlt : (32#32 - b).toNat < 32 := by omega
    simp only [ashrdi3, h0, h64, h32, shr_of_lt h.2, sar_of_lt _ h.2, shl_of_lt hlt, hsub,
      if_false, Option.bind_eq_bind, Option.bind_some, Option.pure_def, Option.some.injEq,
      U64Parts.ofU64, U64Parts.u64]
    apply BitVec.eq_of_getLsbD_eq
    intro i hi
    simp only [make64_getLsbD, BitVec.getLsbD_or, BitVec.getLsbD_shiftLeft,
      BitVec.getLsbD_ushiftRight, BitVec.getLsbD_sshiftRight, hi32_getLsbD, lo32_getLsbD, hi32_msb]
    grind
  · obtain ⟨h0, h64, h32, hsub⟩ := high_branches h
    have hlt : (b - 32#32).toNat < 32 := by omega
    simp only [ashrdi3, h0, h64, h32, sar_of_lt _ hlt, sar_of_lt _ (b := 31#32) (by decide), hsub,
      if_false, if_true, Option.bind_eq_bind, Option.bind_some, Option.pure_def,
      Option.some.injEq, U64Parts.ofU64, U64Parts.u64]
    apply BitVec.eq_of_getLsbD_eq
    intro i hi
    simp only [make64_getLsbD, BitVec.getLsbD_sshiftRight, hi32_getLsbD, hi32_msb]
    grind
  · obtain ⟨h0, h64⟩ := over_branches h
    simp only [ashrdi3, h0, h64, sar_of_lt _ (b := 31#32) (by decide), if_false, if_true,
      Option.bind_eq_bind, Option.bind_some, Option.pure_def, Option.some.injEq, U64Parts.ofU64,
      U64Parts.u64]
    apply BitVec.eq_of_getLsbD_eq
    intro i hi
    simp only [make64_getLsbD, BitVec.getLsbD_sshiftRight, hi32_getLsbD, hi32_msb]
    grind

theorem toInt_shiftRight_eq (z : Int) (n : ℕ) : z >>> n = z / 2 ^ n := by
  rw [Int.shiftRight_eq_div_pow]
  push_cast
  rfl

/-- `__ashldi3`, `__lshrdi3` and `__ashrdi3` for every count, read as unsigned;
that they return says that no 32-bit shift is by 32 or more. -/
theorem shifts_by_any_count (a : LongLong) (b : Long) :
    ∃ l r s : LongLong, ashldi3 a b = some l ∧ lshrdi3 a b = some r ∧ ashrdi3 a b = some s ∧
      l.toNat = a.toNat * 2 ^ b.toNat % 2 ^ 64 ∧ r.toNat = a.toNat / 2 ^ b.toNat ∧
      s.toInt = a.toInt / 2 ^ b.toNat ∧ (b.toInt < 0 → 64 ≤ b.toNat) ∧
      (64 ≤ b.toNat → l = 0#64 ∧ r = 0#64 ∧ s = if a.msb then BitVec.allOnes 64 else 0#64) := by
  refine ⟨_, _, _, ashldi3_value a b, lshrdi3_value a b, ashrdi3_value a b, ?_, ?_, ?_, ?_, ?_⟩
  · rw [BitVec.toNat_shiftLeft, Nat.shiftLeft_eq]
  · rw [BitVec.toNat_ushiftRight, Nat.shiftRight_eq_div_pow]
  · rw [BitVec.toInt_sshiftRight, toInt_shiftRight_eq]
  · intro hneg
    rw [BitVec.toInt_neg_iff] at hneg
    omega
  · intro h
    refine ⟨BitVec.shiftLeft_eq_zero h, BitVec.ushiftRight_eq_zero h, ?_⟩
    apply BitVec.eq_of_getLsbD_eq
    intro i hi
    have hout : ¬ b.toNat + i < 64 := by omega
    rw [BitVec.getLsbD_sshiftRight, if_neg hout]
    have hle : ¬ 64 ≤ i := by omega
    cases a.msb with
    | false => simp
    | true =>
      simp only [if_true, BitVec.getLsbD_allOnes, hi, hle, decide_true, decide_false,
        Bool.not_false, Bool.and_true]

/-- A count of -1 shifts everything out. -/
theorem shift_by_minus_one :
    ashrdi3 0x8000000000000000#64 (-1#32) = some (BitVec.allOnes 64) := by
  obtain ⟨l, r, s, -, -, hs, -, -, -, hneg, hover⟩ :=
    shifts_by_any_count 0x8000000000000000#64 (-1#32)
  have h := (hover (hneg (by decide))).2.2
  rw [hs, h]
  rfl

end LlvmTms9900.Builtins.Fp32
