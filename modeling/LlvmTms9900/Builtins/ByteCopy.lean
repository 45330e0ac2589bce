import LlvmTms9900.Arith.CopyAlong
import LlvmTms9900.Isa.Word

/-!
# Copying bytes upwards and downwards

`copyUp` moves the bytes from the lowest address on, `copyDown` from the
highest one down. A word move between two even addresses is two byte moves of
either. A copy that runs away from the overlap is right; one that runs into it
is right exactly when the overlap holds the bytes it is to receive.
-/

namespace LlvmTms9900.Builtins
open LlvmTms9900.Isa LlvmTms9900.Arith

/-- `d` and `s` are the addresses of the next byte. -/
def copyUp (d s : Word) : Nat → Memory → Memory
  | 0, m => m
  | k + 1, m => copyUp (d + 1#16) (s + 1#16) k (writeByte m d (m s))

/-- `d` and `s` are one past the addresses of the next byte. -/
def copyDown (d s : Word) : Nat → Memory → Memory
  | 0, m => m
  | k + 1, m => copyDown (d - 1#16) (s - 1#16) k (writeByte m (d - 1#16) (m (s - 1#16)))

theorem and_one_eq_zero (x : Word) : x &&& 1#16 = 0#16 ↔ x.toNat % 2 = 0 := by
  rw [← BitVec.toNat_inj, BitVec.toNat_and]
  simp [Nat.and_one_is_mod]

theorem ushiftRight_one_toNat (x : Word) : (x >>> 1).toNat = x.toNat / 2 := by
  rw [BitVec.toNat_ushiftRight, Nat.shiftRight_eq_div_pow]

/-- Address of byte `i` of a buffer. -/
def byteAt (a : Word) (i : Nat) : Word := a + BitVec.ofNat 16 i

theorem byteAt_zero (a : Word) : byteAt a 0 = a := by simp [byteAt]

theorem byteAt_succ (a : Word) (i : Nat) : byteAt (a + 1#16) i = byteAt a (i + 1) := by
  simp only [byteAt, BitVec.ofNat_add]
  rw [BitVec.add_assoc, BitVec.add_comm 1#16]

theorem byteAt_toNat {a : Word} {i n : Nat} (h : a.toNat + n ≤ 65536) (hi : i < n) :
    (byteAt a i).toNat = a.toNat + i := by
  rw [byteAt, BitVec.toNat_add, BitVec.toNat_ofNat]
  omega

theorem copyCell_byteAt (d s : Word) (m : Memory) (i : Nat) :
    copyCell (byteAt d) (byteAt s) m i = writeByte m (byteAt d i) (m (byteAt s i)) := by
  funext x
  simp only [copyCell, Function.update_apply, writeByte]

theorem copyUp_eq (k : Nat) (d s : Word) (m : Memory) :
    copyUp d s k m = copyAlong (byteAt d) (byteAt s) (List.range k) m := by
  induction k generalizing d s m with
  | zero => rfl
  | succ k ih =>
    rw [copyUp, ih, List.range_succ_eq_map, copyAlong_cons, copyCell_byteAt, byteAt_zero,
      byteAt_zero]
    simp only [copyAlong, List.foldl_map]
    congr 1
    funext m' i
    simp only [copyCell, byteAt_succ]

theorem copyDown_eq (k : Nat) (d s : Word) (m : Memory) :
    copyDown (byteAt d k) (byteAt s k) k m =
      copyAlong (byteAt d) (byteAt s) (List.range k).reverse m := by
  induction k generalizing m with
  | zero => rfl
  | succ k ih =>
    have hpred : ∀ a : Word, byteAt a (k + 1) - 1#16 = byteAt a k := fun a => by
      simp only [byteAt, BitVec.ofNat_add]
      bv_omega
    rw [copyDown, hpred, hpred, ih, List.range_succ, List.reverse_append, List.reverse_singleton,
      List.singleton_append, copyAlong_cons, copyCell_byteAt]

/-- Two byte moves, the second of which does not read what the first wrote. -/
theorem writeWord_readWord {d s : Word} (hd : d.toNat % 2 = 0) (hs : s.toNat % 2 = 0)
    (m : Memory) :
    writeWord m d (readWord m s) =
      writeByte (writeByte m d (m s)) (d + 1#16) (writeByte m d (m s) (s + 1#16)) := by
  have hne : s + 1#16 ≠ d := by bv_omega
  simp only [writeWord, readWord, evenAddr_of_even hd, evenAddr_of_even hs, hiByte_append,
    loByte_append, writeByte_of_ne hne]

theorem copyUp_word {d s : Word} (hd : d.toNat % 2 = 0) (hs : s.toNat % 2 = 0) (k : Nat)
    (m : Memory) :
    copyUp d s (k + 2) m = copyUp (d + 2#16) (s + 2#16) k (writeWord m d (readWord m s)) := by
  rw [copyUp, copyUp, writeWord_readWord hd hs, BitVec.add_assoc, BitVec.add_assoc]
  rfl

theorem copyDown_word {d s : Word} (hd : d.toNat % 2 = 0) (hs : s.toNat % 2 = 0) (k : Nat)
    (m : Memory) :
    copyDown d s (k + 2) m =
      copyDown (d - 2#16) (s - 2#16) k (writeWord m (d - 2#16) (readWord m (s - 2#16))) := by
  have hd2 : (d - 2#16).toNat % 2 = 0 := by bv_omega
  have hs2 : (s - 2#16).toNat % 2 = 0 := by bv_omega
  have hsub : ∀ a : Word, a - 1#16 - 1#16 = a - 2#16 := fun a => by bv_omega
  have hlow : ∀ a : Word, a - 2#16 + 1#16 = a - 1#16 := fun a => by bv_omega
  have hne1 : s - 2#16 ≠ d - 1#16 := by bv_omega
  have hne2 : s - 1#16 ≠ d - 2#16 := by bv_omega
  have hne3 : d - 2#16 ≠ d - 1#16 := by bv_omega
  rw [writeWord_readWord hd2 hs2, copyDown, copyDown, hsub, hsub, hlow, hlow]
  rw [writeByte_of_ne hne1, writeByte_of_ne hne2, writeByte_comm hne3]

/-- Each destination byte holds what the source byte held before. -/
def CopyRight (d s : Word) (n : Nat) (m m' : Memory) : Prop :=
  ∀ i < n, m' (byteAt d i) = m (byteAt s i)

/-- Each destination byte inside the source range already holds what it is to
receive. -/
def OverlapAgrees (d s : Word) (n : Nat) (m : Memory) : Prop :=
  ∀ i < n, ∀ j < n, byteAt d i = byteAt s j → m (byteAt d i) = m (byteAt s i)

theorem range_split {j n : Nat} (h : j < n) :
    List.range n = List.range j ++ j :: List.range' (j + 1) (n - j - 1) := by
  have hcons : j :: List.range' (j + 1) (n - j - 1) = List.range' j (n - j) := by
    rw [← List.range'_succ]
    congr 1
    omega
  have happ : List.range' 0 j ++ List.range' j (n - j) = List.range' 0 (j + (n - j)) := by
    simpa only [Nat.zero_add] using @List.range'_append_1 0 j (n - j)
  rw [hcons, List.range_eq_range', List.range_eq_range', happ]
  congr 1
  omega

theorem mem_range'_above {i j n : Nat} (h : i ∈ List.range' (j + 1) (n - j - 1)) :
    j < i ∧ i < n := by
  rw [List.mem_range'_1] at h
  omega

section Bounds
variable {d s : Word} {n : Nat}

theorem byteAt_inj (hd : d.toNat + n ≤ 65536) {i j : Nat} (hi : i < n) (hj : j < n)
    (h : byteAt d i = byteAt d j) : i = j := by
  have he := congrArg BitVec.toNat h
  rw [byteAt_toNat hd hi, byteAt_toNat hd hj] at he
  omega

theorem byteAt_eq_iff (hd : d.toNat + n ≤ 65536) (hs : s.toNat + n ≤ 65536) {i j : Nat}
    (hi : i < n) (hj : j < n) : byteAt d i = byteAt s j ↔ d.toNat + i = s.toNat + j := by
  rw [← BitVec.toNat_inj, byteAt_toNat hd hi, byteAt_toNat hs hj]

theorem copyUp_right (hd : d.toNat + n ≤ 65536) (hs : s.toNat + n ≤ 65536)
    (hle : d.toNat ≤ s.toNat) (m : Memory) : CopyRight d s n m (copyUp d s n m) := by
  intro j hj
  rw [copyUp_eq, range_split hj]
  refine copyAlong_of_unread m ?_ ?_
  · intro i hi he
    obtain ⟨h1, h2⟩ := mem_range'_above hi
    have := byteAt_inj hd h2 hj he
    omega
  · intro i hi
    have hij := List.mem_range.1 hi
    rw [Ne, byteAt_eq_iff hd hs (by omega) hj]
    omega

theorem copyDown_right (hd : d.toNat + n ≤ 65536) (hs : s.toNat + n ≤ 65536)
    (hlt : s.toNat < d.toNat) (m : Memory) :
    CopyRight d s n m (copyDown (byteAt d n) (byteAt s n) n m) := by
  intro j hj
  rw [copyDown_eq, range_split hj, List.reverse_append, List.reverse_cons, List.append_assoc,
    List.singleton_append]
  refine copyAlong_of_unread m ?_ ?_
  · intro i hi he
    have hij := List.mem_range.1 (List.mem_reverse.1 hi)
    have := byteAt_inj hd (by omega) hj he
    omega
  · intro i hi
    obtain ⟨h1, h2⟩ := mem_range'_above (List.mem_reverse.1 hi)
    rw [Ne, byteAt_eq_iff hd hs h2 hj]
    omega

/-- Whatever the order, a copy along all indices is right when the overlap agrees. -/
theorem copyAlong_right {pre post : List Nat} {j : Nat} (hd : d.toNat + n ≤ 65536) (hj : j < n)
    (hpre : ∀ i ∈ pre, i < n) (hpost : ∀ i ∈ post, i < n ∧ i ≠ j) (m : Memory)
    (h : OverlapAgrees d s n m) :
    copyAlong (byteAt d) (byteAt s) (pre ++ j :: post) m (byteAt d j) = m (byteAt s j) := by
  rw [copyAlong_at m fun i hi he => (hpost i hi).2 (byteAt_inj hd (hpost i hi).1 hj he)]
  refine copyAlong_of_agree (List.range n) m ?_ ?_ j (List.mem_range.2 hj)
  · exact fun i hi => List.mem_range.2 (hpre i hi)
  · exact fun i hi k hk => h i (List.mem_range.1 hi) k (List.mem_range.1 hk)

/-- The copy that reads what it has written leaves equal bytes behind. -/
theorem copyUp_right_iff (hd : d.toNat + n ≤ 65536) (hs : s.toNat + n ≤ 65536)
    (hlt : s.toNat < d.toNat) (m : Memory) :
    CopyRight d s n m (copyUp d s n m) ↔ OverlapAgrees d s n m := by
  rw [copyUp_eq]
  constructor
  · intro h i hi j hj he
    have hij := (byteAt_eq_iff hd hs hi hj).1 he
    have hset : copyAlong (byteAt d) (byteAt s) (List.range n) m (byteAt d j) =
        copyAlong (byteAt d) (byteAt s) (List.range n) m (byteAt s j) := by
      rw [range_split hj]
      refine copyAlong_settled m ?_ ?_
      · intro k hk hkj
        obtain ⟨h1, h2⟩ := mem_range'_above hk
        have := byteAt_inj hd h2 hj hkj
        omega
      · intro k hk
        have hjk : j ≤ k ∧ k < n := by
          rcases List.mem_cons.1 hk with rfl | hk
          · exact ⟨le_rfl, hj⟩
          · have := mem_range'_above hk
            omega
        rw [Ne, byteAt_eq_iff hd hs hjk.2 hj]
        omega
    rw [h j hj, ← he, h i hi] at hset
    exact hset
  · intro h j hj
    rw [range_split hj]
    refine copyAlong_right hd hj ?_ ?_ m h
    · intro i hi
      have := List.mem_range.1 hi
      omega
    · intro i hi
      have := mem_range'_above hi
      omega

theorem copyDown_right_iff (hd : d.toNat + n ≤ 65536) (hs : s.toNat + n ≤ 65536)
    (hlt : d.toNat < s.toNat) (m : Memory) :
    CopyRight d s n m (copyDown (byteAt d n) (byteAt s n) n m) ↔ OverlapAgrees d s n m := by
  have hsplit : ∀ {j}, j < n → (List.range n).reverse =
      (List.range' (j + 1) (n - j - 1)).reverse ++ j :: (List.range j).reverse := fun hj => by
    rw [range_split hj, List.reverse_append, List.reverse_cons, List.append_assoc,
      List.singleton_append]
  rw [copyDown_eq]
  constructor
  · intro h i hi j hj he
    have hij := (byteAt_eq_iff hd hs hi hj).1 he
    have hset : copyAlong (byteAt d) (byteAt s) (List.range n).reverse m (byteAt d j) =
        copyAlong (byteAt d) (byteAt s) (List.range n).reverse m (byteAt s j) := by
      rw [hsplit hj]
      refine copyAlong_settled m ?_ ?_
      · intro k hk hkj
        have hk' := List.mem_range.1 (List.mem_reverse.1 hk)
        have := byteAt_inj hd (by omega) hj hkj
        omega
      · intro k hk
        have hjk : k ≤ j := by
          rcases List.mem_cons.1 hk with rfl | hk
          · exact le_rfl
          · have := List.mem_range.1 (List.mem_reverse.1 hk)
            omega
        rw [Ne, byteAt_eq_iff hd hs (by omega) hj]
        omega
    rw [h j hj, ← he, h i hi] at hset
    exact hset
  · intro h j hj
    rw [hsplit hj]
    refine copyAlong_right hd hj ?_ ?_ m h
    · intro i hi
      have := mem_range'_above (List.mem_reverse.1 hi)
      omega
    · intro i hi
      have := List.mem_range.1 (List.mem_reverse.1 hi)
      omega

end Bounds
end LlvmTms9900.Builtins
