import LlvmTms9900.Builtins.Memmove

/-!
# What memmove copies under either operand order of `C`

With the order of the data manual the copy runs away from the overlap and is
right. With the order `div32.S` documents it runs into the overlap: every byte
that is read after it was written reaches its destination changed, unless the
two bytes were equal to begin with.
-/

namespace LlvmTms9900.Builtins.Memmove
open LlvmTms9900.Isa LlvmTms9900.Arith

variable {d s : Word} {n : Nat}

theorem memmoveMem_manual (hd : d.toNat + n ≤ 65536) (hs : s.toNat + n ≤ 65536) (m : Memory) :
    CopyRight d s n m (memmoveMem .manual d s n m) := by
  unfold memmoveMem
  by_cases hcopy : n = 0 ∨ d = s
  · rw [if_pos hcopy]
    intro i hi
    rcases hcopy with h0 | h0
    · omega
    · rw [h0]
  · have hne : d.toNat ≠ s.toNat := fun he => hcopy (Or.inr (BitVec.eq_of_toNat_eq he))
    rw [if_neg hcopy]
    by_cases hov : CompareOrder.over .manual d.toNat s.toNat = true
    · rw [if_pos hov]
      exact copyDown_right hd hs (of_decide_eq_true hov) m
    · rw [if_neg hov]
      refine copyUp_right hd hs ?_ m
      simp only [CompareOrder.over, decide_eq_true_eq] at hov
      omega

/-- Whatever the order, only the destination is written. -/
theorem memmoveMem_frame (ord : CompareOrder) (hd : d.toNat + n ≤ 65536) (m : Memory) {a : Word}
    (ha : a.toNat < d.toNat ∨ d.toNat + n ≤ a.toNat) : memmoveMem ord d s n m a = m a := by
  have hout : ∀ i < n, byteAt d i ≠ a := by
    intro i hi he
    have hnat := byteAt_toNat hd hi
    rw [he] at hnat
    omega
  unfold memmoveMem
  split
  · rfl
  · split
    · rw [copyDown_eq, copyAlong_frame _ _ fun i hi => hout i (by simpa using hi)]
    · rw [copyUp_eq, copyAlong_frame _ _ fun i hi => hout i (by simpa using hi)]

theorem memmoveMem_swapped_iff (hd : d.toNat + n ≤ 65536) (hs : s.toNat + n ≤ 65536)
    (m : Memory) :
    CopyRight d s n m (memmoveMem .swapped d s n m) ↔ OverlapAgrees d s n m := by
  unfold memmoveMem
  by_cases hcopy : n = 0 ∨ d = s
  · rw [if_pos hcopy]
    rcases hcopy with h0 | h0
    · subst h0
      exact ⟨fun _ i hi => absurd hi (by omega), fun _ i hi => absurd hi (by omega)⟩
    · subst h0
      exact ⟨fun _ i _ j _ _ => rfl, fun _ i _ => rfl⟩
  · have hne : d.toNat ≠ s.toNat := fun he => hcopy (Or.inr (BitVec.eq_of_toNat_eq he))
    rw [if_neg hcopy]
    by_cases hov : CompareOrder.over .swapped d.toNat s.toNat = true
    · rw [if_pos hov]
      exact copyDown_right_iff hd hs (of_decide_eq_true hov) m
    · rw [if_neg hov]
      refine copyUp_right_iff hd hs ?_ m
      simp only [CompareOrder.over, decide_eq_true_eq] at hov
      omega

end LlvmTms9900.Builtins.Memmove
