import Mathlib

/-!
# Restoring division on a double-width shift register

The pair `(rem, quo)` of two `w`-bit numbers is shifted left by one; when the
divisor goes into the remainder it is subtracted and the low quotient bit set.
After `k` rounds the remainder and the low `k` quotient bits are those of the
top `k` bits of the dividend, so that the remainder never outgrows `w` bits.
-/

namespace LlvmTms9900.Arith

/-- The remainder after the shift, before the trial subtraction. -/
def shiftedRem (w : ℕ) (x : ℕ × ℕ) : ℕ := 2 * x.1 + x.2 / 2 ^ (w - 1)

def restoringRound (w d : ℕ) (x : ℕ × ℕ) : ℕ × ℕ :=
  let quo := 2 * x.2 % 2 ^ w
  if shiftedRem w x < d then (shiftedRem w x, quo) else (shiftedRem w x - d, quo + 1)

/-- The state after `k` rounds on dividend `n`. -/
structure RoundInv (w d n k : ℕ) (x : ℕ × ℕ) : Prop where
  rem : x.1 = n / 2 ^ (w - k) % d
  quo : x.2 = n % 2 ^ (w - k) * 2 ^ k + n / 2 ^ (w - k) / d

theorem roundInv_zero {w d n : ℕ} (hn : n < 2 ^ w) : RoundInv w d n 0 (0, n) := by
  constructor
  · simp [Nat.div_eq_of_lt hn]
  · simp [Nat.div_eq_of_lt hn, Nat.mod_eq_of_lt hn]

/-- The top `k + 1` bits of the dividend are the top `k` bits and the next one. -/
theorem top_bits_succ (n j : ℕ) :
    n / 2 ^ j = 2 * (n / 2 ^ (j + 1)) + n % 2 ^ (j + 1) / 2 ^ j := by
  have h1 : n / 2 ^ (j + 1) = n / 2 ^ j / 2 := by rw [pow_succ, Nat.div_div_eq_div_mul]
  have h2 : n % 2 ^ (j + 1) / 2 ^ j = n / 2 ^ j % 2 := by
    rw [pow_succ, Nat.mod_mul_right_div_self]
  rw [h1, h2]
  omega

section Round
variable {w d n k : ℕ} {x : ℕ × ℕ}

/-- The top bit of a register that holds the rest of the dividend above `k`
other bits. -/
theorem register_top_bit {j m : ℕ} (hw : w = k + 1 + j) (hm : m < 2 ^ k) :
    (n % 2 ^ (j + 1) * 2 ^ k + m) / 2 ^ (w - 1) = n % 2 ^ (j + 1) / 2 ^ j := by
  have hw1 : w - 1 = k + j := by omega
  have hp : 2 ^ (k + j) = 2 ^ k * 2 ^ j := pow_add 2 k j
  rw [hw1, hp, ← Nat.div_div_eq_div_mul, Nat.mul_comm (n % 2 ^ (j + 1)),
    Nat.mul_add_div (by positivity), Nat.div_eq_of_lt hm, Nat.add_zero]

/-- That register after a shift. -/
theorem register_shift {j m : ℕ} (hw : w = k + 1 + j) (hm : m < 2 ^ k) :
    2 * (n % 2 ^ (j + 1) * 2 ^ k + m) % 2 ^ w = n % 2 ^ j * 2 ^ (k + 1) + 2 * m := by
  have hw2 : 2 ^ w = 2 ^ (k + 1) * 2 ^ j := by rw [hw, pow_add]
  have hsplit : n % 2 ^ (j + 1) = 2 ^ j * (n / 2 ^ j % 2) + n % 2 ^ j := by
    have h1 := Nat.mod_mul (x := n) (a := 2 ^ j) (b := 2)
    rw [pow_succ, h1, Nat.add_comm]
  have hlow : n % 2 ^ j < 2 ^ j := Nat.mod_lt _ (by positivity)
  have hlt : n % 2 ^ j * 2 ^ (k + 1) + 2 * m < 2 ^ w := by
    have h1 : n % 2 ^ j * 2 ^ (k + 1) + 2 ^ (k + 1) ≤ 2 ^ (k + 1) * 2 ^ j := by
      calc n % 2 ^ j * 2 ^ (k + 1) + 2 ^ (k + 1) = (n % 2 ^ j + 1) * 2 ^ (k + 1) := by ring
        _ ≤ 2 ^ j * 2 ^ (k + 1) := Nat.mul_le_mul_right _ hlow
        _ = 2 ^ (k + 1) * 2 ^ j := Nat.mul_comm _ _
    have h2 : 2 ^ (k + 1) = 2 * 2 ^ k := pow_succ' 2 k
    omega
  have hexp : 2 * (n % 2 ^ (j + 1) * 2 ^ k + m) = n % 2 ^ j * 2 ^ (k + 1) + 2 * m +
      2 ^ w * (n / 2 ^ j % 2) := by
    rw [hsplit, hw2, pow_succ]
    ring
  rw [hexp, Nat.add_mul_mod_self_left, Nat.mod_eq_of_lt hlt]

/-- The quotient of the top `k` bits has at most `k` bits. -/
theorem partial_quo_lt {j : ℕ} (d : ℕ) (hw : w = k + 1 + j) (hn : n < 2 ^ w) :
    n / 2 ^ (j + 1) / d < 2 ^ k := by
  have ht : n / 2 ^ (j + 1) < 2 ^ k := by
    rw [Nat.div_lt_iff_lt_mul (by positivity), ← pow_add]
    rwa [show k + (j + 1) = w by omega]
  exact (Nat.div_le_self _ _).trans_lt ht

theorem quo_top_bit {j : ℕ} (hw : w = k + 1 + j) (hn : n < 2 ^ w) (h : RoundInv w d n k x) :
    x.2 / 2 ^ (w - 1) = n % 2 ^ (j + 1) / 2 ^ j := by
  have hk : w - k = j + 1 := by omega
  rw [h.quo, hk, register_top_bit hw (partial_quo_lt d hw hn)]

/-- The shifted remainder in terms of the top bits of the dividend. -/
theorem shiftedRem_eq {j : ℕ} (hw : w = k + 1 + j) (hn : n < 2 ^ w) (h : RoundInv w d n k x) :
    shiftedRem w x + d * (2 * (n / 2 ^ (j + 1) / d)) = n / 2 ^ j := by
  have hk : w - k = j + 1 := by omega
  have hdm := Nat.div_add_mod (n / 2 ^ (j + 1)) d
  rw [shiftedRem, quo_top_bit hw hn h, h.rem, hk, top_bits_succ n j]
  have hcomm : d * (2 * (n / 2 ^ (j + 1) / d)) = 2 * (d * (n / 2 ^ (j + 1) / d)) := by ring
  rw [hcomm]
  omega

/-- No bit is lost when the remainder is shifted. -/
theorem shiftedRem_lt (hk : k < w) (hn : n < 2 ^ w) (h : RoundInv w d n k x) :
    shiftedRem w x < 2 ^ w := by
  obtain ⟨j, hw⟩ : ∃ j, w = k + 1 + j := ⟨w - (k + 1), by omega⟩
  have he := shiftedRem_eq hw hn h
  have hle : n / 2 ^ j ≤ n := Nat.div_le_self _ _
  omega

theorem shiftedRem_lt_two_mul (hd : 0 < d) (hk : k < w) (hn : n < 2 ^ w)
    (h : RoundInv w d n k x) : shiftedRem w x < 2 * d := by
  obtain ⟨j, hw⟩ : ∃ j, w = k + 1 + j := ⟨w - (k + 1), by omega⟩
  have hr : x.1 < d := by
    rw [h.rem]
    exact Nat.mod_lt _ hd
  have hb : x.2 / 2 ^ (w - 1) < 2 := by
    rw [quo_top_bit hw hn h, Nat.div_lt_iff_lt_mul (by positivity), ← pow_succ']
    exact Nat.mod_lt _ (by positivity)
  unfold shiftedRem
  omega

theorem shifted_quo {j : ℕ} (hw : w = k + 1 + j) (hn : n < 2 ^ w) (h : RoundInv w d n k x) :
    2 * x.2 % 2 ^ w = n % 2 ^ j * 2 ^ (k + 1) + 2 * (n / 2 ^ (j + 1) / d) := by
  have hk : w - k = j + 1 := by omega
  rw [h.quo, hk, register_shift hw (partial_quo_lt d hw hn)]

theorem RoundInv.succ (hd : 0 < d) (hk : k < w) (hn : n < 2 ^ w) (h : RoundInv w d n k x) :
    RoundInv w d n (k + 1) (restoringRound w d x) := by
  obtain ⟨j, hw⟩ : ∃ j, w = k + 1 + j := ⟨w - (k + 1), by omega⟩
  have hj : w - (k + 1) = j := by omega
  have hrem := shiftedRem_eq hw hn h
  have htwo := shiftedRem_lt_two_mul hd hk hn h
  have hquo := shifted_quo hw hn h
  by_cases hc : shiftedRem w x < d
  · have hdm : n / 2 ^ j / d = 2 * (n / 2 ^ (j + 1) / d) ∧ n / 2 ^ j % d = shiftedRem w x :=
      (Nat.div_mod_unique hd).mpr ⟨hrem, hc⟩
    simp only [restoringRound, if_pos hc]
    refine ⟨?_, ?_⟩
    · rw [hj, hdm.2]
    · rw [hj, hdm.1, hquo]
  · have hdm : n / 2 ^ j / d = 2 * (n / 2 ^ (j + 1) / d) + 1 ∧
        n / 2 ^ j % d = shiftedRem w x - d := by
      refine (Nat.div_mod_unique hd).mpr ⟨?_, by omega⟩
      rw [Nat.mul_add, Nat.mul_one]
      omega
    simp only [restoringRound, if_neg hc]
    refine ⟨?_, ?_⟩
    · rw [hj, hdm.2]
    · rw [hj, hdm.1, hquo]
      omega

end Round

theorem roundInv_iterate {w d n : ℕ} (hd : 0 < d) (hn : n < 2 ^ w) (k : ℕ) (hk : k ≤ w) :
    RoundInv w d n k ((restoringRound w d)^[k] (0, n)) := by
  induction k with
  | zero => exact roundInv_zero hn
  | succ k ih =>
    rw [Function.iterate_succ_apply']
    exact (ih (by omega)).succ hd (by omega) hn

/-- `w` rounds divide. -/
theorem restoring_division {w d n : ℕ} (hd : 0 < d) (hn : n < 2 ^ w) :
    (restoringRound w d)^[w] (0, n) = (n % d, n / d) := by
  have h := roundInv_iterate hd hn w le_rfl
  refine Prod.ext ?_ ?_
  · simpa using h.rem
  · simpa [Nat.mod_one] using h.quo

/-- The state after `k` rounds when each quotient bit is kept aside as `c` and
shifted in a round later. -/
structure DelayedInv (w d n k r q c : ℕ) : Prop where
  rem : r = n / 2 ^ (w - k) % d
  quo : q = n % 2 ^ (w - k) * 2 ^ k + n / 2 ^ (w - k) / d / 2
  carry : c = n / 2 ^ (w - k) / d % 2

section Delayed
variable {w d n k r q c : ℕ}

theorem DelayedInv.roundInv (h : DelayedInv w d n k r q c) :
    RoundInv w d n k (r, n % 2 ^ (w - k) * 2 ^ k + n / 2 ^ (w - k) / d) := ⟨h.rem, rfl⟩

theorem DelayedInv.top_bit (hk : k < w) (hn : n < 2 ^ w) (h : DelayedInv w d n k r q c) :
    2 * r + q / 2 ^ (w - 1) =
      shiftedRem w (r, n % 2 ^ (w - k) * 2 ^ k + n / 2 ^ (w - k) / d) := by
  obtain ⟨j, hw⟩ : ∃ j, w = k + 1 + j := ⟨w - (k + 1), by omega⟩
  have hj : w - k = j + 1 := by omega
  have hlt := partial_quo_lt d hw hn
  rw [shiftedRem, quo_top_bit hw hn h.roundInv, h.quo, hj,
    register_top_bit hw ((Nat.div_le_self _ 2).trans_lt hlt)]

/-- A round: no bit of the remainder is lost. -/
theorem DelayedInv.succ (hd : 0 < d) (hk : k < w) (hn : n < 2 ^ w)
    (h : DelayedInv w d n k r q c) :
    2 * r + q / 2 ^ (w - 1) < 2 ^ w ∧
      DelayedInv w d n (k + 1)
        (if 2 * r + q / 2 ^ (w - 1) < d then 2 * r + q / 2 ^ (w - 1)
          else 2 * r + q / 2 ^ (w - 1) - d)
        (2 * q % 2 ^ w + c) (if 2 * r + q / 2 ^ (w - 1) < d then 0 else 1) := by
  have htop := h.top_bit hk hn
  have hround := h.roundInv.succ hd hk hn
  refine ⟨by rw [htop]; exact shiftedRem_lt hk hn h.roundInv, ?_⟩
  obtain ⟨j, hw⟩ : ∃ j, w = k + 1 + j := ⟨w - (k + 1), by omega⟩
  have hj : w - k = j + 1 := by omega
  have hj2 : w - (k + 1) = j := by omega
  have hlt := partial_quo_lt d hw hn
  have hshift := shifted_quo hw hn h.roundInv
  have hq : 2 * q % 2 ^ w = n % 2 ^ j * 2 ^ (k + 1) + 2 * (n / 2 ^ (j + 1) / d / 2) := by
    rw [h.quo, hj, register_shift hw ((Nat.div_le_self _ 2).trans_lt hlt)]
  have hc := h.carry
  have hr := hround.rem
  have hquo := hround.quo
  rw [hj] at hc
  rw [restoringRound, hj2] at hr hquo
  rw [← htop] at hr hquo
  rw [hq]
  by_cases hcase : 2 * r + q / 2 ^ (w - 1) < d
  · rw [if_pos hcase] at hr hquo
    simp only [hshift] at hquo
    simp only [if_pos hcase]
    refine ⟨by rw [hj2]; exact hr, ?_, ?_⟩
    · rw [hj2]
      omega
    · rw [hj2]
      omega
  · rw [if_neg hcase] at hr hquo
    simp only [hshift] at hquo
    simp only [if_neg hcase]
    refine ⟨by rw [hj2]; exact hr, ?_, ?_⟩
    · rw [hj2]
      omega
    · rw [hj2]
      omega

/-- After the last round the bit kept aside completes the quotient. -/
theorem DelayedInv.finish (h : DelayedInv w d n w r q c) : r = n % d ∧ 2 * q + c = n / d := by
  obtain ⟨hr, hq, hc⟩ := h
  rw [Nat.sub_self, pow_zero, Nat.div_one] at hr hq hc
  rw [Nat.mod_one, Nat.zero_mul] at hq
  exact ⟨hr, by omega⟩

/-- The rounds in which nothing can be subtracted may be left out. -/
theorem delayedInv_start {s : ℕ} (hs : s ≤ w) (hlt : n / 2 ^ s < d) :
    DelayedInv w d n (w - s) (n / 2 ^ s) (n % 2 ^ s * 2 ^ (w - s)) 0 := by
  have hws : w - (w - s) = s := by omega
  constructor
  · rw [hws, Nat.mod_eq_of_lt hlt]
  · rw [hws, Nat.div_eq_of_lt hlt]
    rfl
  · rw [hws, Nat.div_eq_of_lt hlt]

end Delayed

end LlvmTms9900.Arith
