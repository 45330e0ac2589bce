import Mathlib

/-!
# Square roots bit by bit

The root of a number is found from its top bit down. Above the bit of weight
`2 ^ j` the part `s` is found; the square of the next candidate `s + 2 ^ j` is
compared through the rest `n - s * s`.
-/

namespace LlvmTms9900.Arith

/-- `s` is the root of `n`, the bits below `2 ^ j` left out. -/
structure RootAbove (n j s : Nat) : Prop where
  le : s * s ≤ n
  lt : n < (s + 2 ^ j) * (s + 2 ^ j)

section Root
variable {n j s : Nat}

theorem four_pow_eq (j : Nat) : 4 ^ j = 2 ^ j * 2 ^ j := by
  rw [← Nat.mul_pow]

theorem RootAbove.zero (h : n < 4 ^ j) : RootAbove n j 0 := by
  refine ⟨Nat.zero_le n, ?_⟩
  rw [Nat.zero_add, ← four_pow_eq]
  exact h

theorem RootAbove.eq_sqrt (h : RootAbove n 0 s) : s = Nat.sqrt n :=
  Nat.eq_sqrt.2 ⟨h.le, h.lt⟩

/-- The bit belongs to the root. -/
theorem RootAbove.set (h : RootAbove n (j + 1) s) (hle : (s + 2 ^ j) * (s + 2 ^ j) ≤ n) :
    RootAbove n j (s + 2 ^ j) := by
  have hlt := h.lt
  have hsum : s + 2 ^ j + 2 ^ j = s + 2 ^ (j + 1) := by
    rw [pow_succ]
    omega
  refine ⟨hle, ?_⟩
  rwa [hsum]

theorem RootAbove.clear (h : RootAbove n (j + 1) s) (hlt : n < (s + 2 ^ j) * (s + 2 ^ j)) :
    RootAbove n j s :=
  ⟨h.le, hlt⟩

/-- What the next candidate adds to the square. -/
theorem next_square (s j : Nat) :
    (s + 2 ^ j) * (s + 2 ^ j) = s * s + (s * 2 ^ (j + 1) + 4 ^ j) := by
  rw [four_pow_eq, pow_succ]
  ring

theorem trial_le_rest_iff (h : s * s ≤ n) :
    s * 2 ^ (j + 1) + 4 ^ j ≤ n - s * s ↔ (s + 2 ^ j) * (s + 2 ^ j) ≤ n := by
  rw [next_square]
  omega

theorem rest_sub_trial (n s j : Nat) :
    n - s * s - (s * 2 ^ (j + 1) + 4 ^ j) = n - (s + 2 ^ j) * (s + 2 ^ j) := by
  rw [next_square, Nat.sub_sub]

/-- A candidate below `m` is compared with a number below `m * m`. -/
theorem trial_lt {m : Nat} (h : s + 2 ^ (j + 1) ≤ m) : s * 2 ^ (j + 1) + 4 ^ j < m * m := by
  have hpos : 0 < 2 ^ j := Nat.two_pow_pos j
  have hlt : s + 2 ^ j < m := by
    rw [pow_succ] at h
    omega
  calc s * 2 ^ (j + 1) + 4 ^ j ≤ (s + 2 ^ j) * (s + 2 ^ j) := by
        rw [next_square]
        exact Nat.le_add_left _ _
    _ < m * m := Nat.mul_self_lt_mul_self hlt

end Root
end LlvmTms9900.Arith
