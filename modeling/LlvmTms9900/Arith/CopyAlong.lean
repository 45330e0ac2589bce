import Mathlib

/-!
# Copying one cell after the other

A copy loop over a store moves cell `src i` to cell `dst i` for each index of
a list, in the order of the list. Overlap makes the order matter.
-/

namespace LlvmTms9900.Arith

variable {ι α β : Type} [DecidableEq α] (dst src : ι → α)

def copyCell (m : α → β) (i : ι) : α → β := Function.update m (dst i) (m (src i))

def copyAlong (is : List ι) (m : α → β) : α → β := is.foldl (copyCell dst src) m

variable {dst src}

@[simp] theorem copyAlong_nil (m : α → β) : copyAlong dst src [] m = m := rfl

@[simp] theorem copyAlong_cons (i : ι) (is : List ι) (m : α → β) :
    copyAlong dst src (i :: is) m = copyAlong dst src is (copyCell dst src m i) := rfl

theorem copyAlong_append (is js : List ι) (m : α → β) :
    copyAlong dst src (is ++ js) m = copyAlong dst src js (copyAlong dst src is m) :=
  List.foldl_append

/-- A cell that is no destination keeps its value. -/
theorem copyAlong_frame {x : α} (is : List ι) (m : α → β) (h : ∀ i ∈ is, dst i ≠ x) :
    copyAlong dst src is m x = m x := by
  induction is generalizing m with
  | nil => rfl
  | cons i is ih =>
    rw [copyAlong_cons, ih _ fun j hj => h j (List.mem_cons_of_mem i hj), copyCell,
      Function.update_of_ne (h i List.mem_cons_self).symm]

/-- A destination ends up with what its source held when its turn came. -/
theorem copyAlong_at {pre post : List ι} {j : ι} (m : α → β) (h : ∀ i ∈ post, dst i ≠ dst j) :
    copyAlong dst src (pre ++ j :: post) m (dst j) = copyAlong dst src pre m (src j) := by
  rw [copyAlong_append, copyAlong_cons, copyAlong_frame post _ h, copyCell, Function.update_self]

/-- Copying is right where no earlier write hits the source cell. -/
theorem copyAlong_of_unread {pre post : List ι} {j : ι} (m : α → β)
    (h : ∀ i ∈ post, dst i ≠ dst j) (hs : ∀ i ∈ pre, dst i ≠ src j) :
    copyAlong dst src (pre ++ j :: post) m (dst j) = m (src j) := by
  rw [copyAlong_at m h, copyAlong_frame pre m hs]

/-- Where no later write hits the source cell, the two cells end up equal. -/
theorem copyAlong_settled {pre post : List ι} {j : ι} (m : α → β)
    (h : ∀ i ∈ post, dst i ≠ dst j) (hs : ∀ i ∈ j :: post, dst i ≠ src j) :
    copyAlong dst src (pre ++ j :: post) m (dst j) =
      copyAlong dst src (pre ++ j :: post) m (src j) := by
  rw [copyAlong_at m h, copyAlong_append, copyAlong_frame (j :: post) _ hs]

/-- If every destination that is also a source already holds what it is to
receive, then any order copies without touching a source. -/
theorem copyAlong_of_agree (all : List ι) {is : List ι} (m : α → β) (hsub : ∀ i ∈ is, i ∈ all)
    (h : ∀ i ∈ all, ∀ j ∈ all, dst i = src j → m (dst i) = m (src i)) :
    ∀ j ∈ all, copyAlong dst src is m (src j) = m (src j) := by
  induction is using List.reverseRecOn with
  | nil => exact fun j _ => rfl
  | append_singleton is i ih =>
    have ih' := ih fun x hx => hsub x (List.mem_append_left _ hx)
    have hi : i ∈ all := hsub i (by simp)
    intro j hj
    rw [copyAlong_append, copyAlong_cons, copyAlong_nil, copyCell]
    by_cases he : dst i = src j
    · rw [← he, Function.update_self, ih' i hi, h i hi j hj he]
    · rw [Function.update_of_ne (Ne.symm he), ih' j hj]

end LlvmTms9900.Arith
