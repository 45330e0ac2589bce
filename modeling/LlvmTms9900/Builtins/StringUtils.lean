import LlvmTms9900.Arith.ThreeWay
import LlvmTms9900.Builtins.ByteCopy

/-!
# String and memory comparison (libtms9900/builtins/string_utils.c)

Memory is partial: a byte that cannot be read makes the function that reads it
fail. So a result on a memory of which only some bytes are known says that no
other byte was read.
-/

namespace LlvmTms9900.Builtins.StringUtils
open LlvmTms9900.Isa LlvmTms9900.Arith

abbrev PartialMemory := Word → Option Byte

/-- `*s1 && *s1 == *s2`. -/
def sameChar (m : PartialMemory) (s1 s2 : Word) : Option Bool := do
  if (← m s1) = 0#8 then return false
  return decide ((← m s1) = (← m s2))

/-- `(int)(unsigned char)*s1 - (int)(unsigned char)*s2`. -/
def difference (m : PartialMemory) (s1 s2 : Word) : Option ℤ := do
  let c1 ← m s1
  let c2 ← m s2
  return (c1.toNat : ℤ) - c2.toNat

/-- `strcmp`; the fuel bounds the iterations. -/
def strcmp (m : PartialMemory) : ℕ → Word → Word → Option ℤ
  | 0, _, _ => none
  | fuel + 1, s1, s2 => do
    if ← sameChar m s1 s2 then strcmp m fuel (s1 + 1#16) (s2 + 1#16)
    else difference m s1 s2

/-- `strncmp`. -/
def strncmp (m : PartialMemory) : ℕ → Word → Word → Option ℤ
  | 0, _, _ => some 0
  | n + 1, s1, s2 => do
    if ← sameChar m s1 s2 then strncmp m n (s1 + 1#16) (s2 + 1#16)
    else difference m s1 s2

/-- The loop of `memchr`; 0 is the null pointer. -/
def memchrLoop (m : PartialMemory) (uc : Byte) : ℕ → Word → Option Word
  | 0, _ => some 0#16
  | n + 1, p => do
    if (← m p) = uc then return p
    memchrLoop m uc n (p + 1#16)

/-- `memchr`. -/
def memchr (m : PartialMemory) (s c : Word) (n : ℕ) : Option Word :=
  memchrLoop m (c.setWidth 8) n s

/-- `memcmp`. -/
def memcmp (m : PartialMemory) : ℕ → Word → Word → Option ℤ
  | 0, _, _ => some 0
  | n + 1, p1, p2 => do
    if (← m p1) ≠ (← m p2) then difference m p1 p2
    else memcmp m n (p1 + 1#16) (p2 + 1#16)

/-! ## What is read -/

/-- `X` and `Y` are at `s1` and `s2` up to the first position that decides: one
where they differ, or where the byte is `stop`. Nothing is known of the bytes
behind it. -/
def Known (stop : Option Byte) (m : PartialMemory) (s1 s2 : Word) (X Y : List Byte) : Prop :=
  ∀ i, i < X.length → i < Y.length → (∀ j < i, X[j]? = Y[j]? ∧ X[j]? ≠ stop) →
    m (byteAt s1 i) = X[i]? ∧ m (byteAt s2 i) = Y[i]?

/-- `X` is at `s` up to the first `uc`. -/
def KnownUpTo (uc : Byte) (m : PartialMemory) (s : Word) (X : List Byte) : Prop :=
  ∀ i < X.length, (∀ j < i, X[j]? ≠ some uc) → m (byteAt s i) = X[i]?

section Known
variable {stop : Option Byte} {m : PartialMemory} {s1 s2 : Word} {a b : Byte} {X Y : List Byte}

theorem Known.head (h : Known stop m s1 s2 (a :: X) (b :: Y)) : m s1 = some a ∧ m s2 = some b := by
  have h0 := h 0 (by simp) (by simp) fun j hj => absurd hj (by omega)
  simpa only [byteAt_zero, List.getElem?_cons_zero] using h0

theorem Known.tail (h : Known stop m s1 s2 (a :: X) (a :: Y)) (ha : some a ≠ stop) :
    Known stop m (s1 + 1#16) (s2 + 1#16) X Y := by
  intro i hX hY hi
  have h1 := h (i + 1) (by simpa using hX) (by simpa using hY) fun j hj => by
    cases j with
    | zero => exact ⟨rfl, ha⟩
    | succ j => exact hi j (by omega)
  rw [byteAt_succ, byteAt_succ]
  exact h1

theorem KnownUpTo.head {uc : Byte} (h : KnownUpTo uc m s1 (a :: X)) : m s1 = some a := by
  have h0 := h 0 (by simp) fun j hj => absurd hj (by omega)
  rwa [byteAt_zero] at h0

theorem KnownUpTo.tail {uc : Byte} (h : KnownUpTo uc m s1 (a :: X)) (ha : a ≠ uc) :
    KnownUpTo uc m (s1 + 1#16) X := by
  intro i hX hi
  have h1 := h (i + 1) (by simpa using hX) fun j hj => by
    cases j with
    | zero => simpa using ha
    | succ j => exact hi j (by omega)
  rw [byteAt_succ]
  exact h1

theorem difference_eq (h : Known stop m s1 s2 (a :: X) (b :: Y)) :
    difference m s1 s2 = some ((a.toNat : ℤ) - b.toNat) := by
  obtain ⟨h1, h2⟩ := h.head
  simp only [difference, h1, h2, Option.bind_eq_bind, Option.bind_some, Option.pure_def]

theorem sameChar_eq (h : Known stop m s1 s2 (a :: X) (b :: Y)) :
    sameChar m s1 s2 = some (decide (a ≠ 0#8 ∧ a = b)) := by
  obtain ⟨h1, h2⟩ := h.head
  by_cases ha : a = 0#8
  · simp [sameChar, h1, ha]
  · simp [sameChar, h1, h2, ha]

end Known

/-! ## What is returned -/

/-- The contents of a NUL-terminated string. -/
structure CString where
  bytes : List Byte
  noNul : 0#8 ∉ bytes

/-- The string as it lies in memory. -/
def CString.text (x : CString) : List Byte := x.bytes ++ [0#8]

def CString.truncate (x : CString) (n : ℕ) : CString :=
  ⟨x.bytes.take n, fun h => x.noNul (List.mem_of_mem_take h)⟩

/-- The string as a sequence of unsigned numbers that ends in 0. -/
def CString.key (x : CString) : List ℕ := x.text.map BitVec.toNat

def order (X Y : List Byte) : ℤ := firstDiff BitVec.toNat X Y

theorem order_head_ne {a b : Byte} (h : a ≠ b) (X Y : List Byte) :
    order (a :: X) (b :: Y) = (a.toNat : ℤ) - b.toNat := if_neg h

theorem order_head_eq (a : Byte) (X Y : List Byte) : order (a :: X) (a :: Y) = order X Y :=
  if_pos rfl

theorem order_nul (Y : List Byte) (b : Byte) : order [0#8] (b :: Y) = (0 : ℤ) - b.toNat := by
  by_cases h : b = 0#8
  · subst h
    rfl
  · rw [order_head_ne (Ne.symm h)]
    rfl

/-- The first byte of a string, cut or not. -/
theorem exists_head (Y : List Byte) : ∃ b Y', Y ++ [0#8] = b :: Y' ∧
    ∀ n, ∃ Z, Y.take (n + 1) ++ [0#8] = b :: Z := by
  cases Y with
  | nil => exact ⟨0#8, [], rfl, fun n => ⟨[], rfl⟩⟩
  | cons c Y => exact ⟨c, Y ++ [0#8], rfl, fun n => ⟨Y.take n ++ [0#8], rfl⟩⟩

section Results
variable {m : PartialMemory} {s1 s2 : Word}

theorem strcmp_eq {X Y : List Byte} (hX : 0#8 ∉ X) (hY : 0#8 ∉ Y)
    (h : Known (some 0#8) m s1 s2 (X ++ [0#8]) (Y ++ [0#8])) {fuel : ℕ} (hf : X.length < fuel) :
    strcmp m fuel s1 s2 = some (order (X ++ [0#8]) (Y ++ [0#8])) := by
  induction X generalizing Y s1 s2 fuel with
  | nil =>
    obtain ⟨fuel, rfl⟩ := Nat.exists_eq_succ_of_ne_zero (Nat.ne_of_gt hf)
    obtain ⟨b, Y', hb, -⟩ := exists_head Y
    rw [hb] at h ⊢
    rw [strcmp, sameChar_eq h]
    simp [difference_eq h, order_nul]
  | cons a X ih =>
    obtain ⟨fuel, rfl⟩ := Nat.exists_eq_succ_of_ne_zero (Nat.ne_of_gt ((Nat.zero_le _).trans_lt hf))
    have ha : a ≠ 0#8 := fun he => hX (he ▸ List.mem_cons_self)
    obtain ⟨b, Y', hb, -⟩ := exists_head Y
    by_cases hab : a = b
    · cases Y with
      | nil =>
        rw [List.nil_append, List.cons.injEq] at hb
        exact absurd (hab.trans hb.1.symm) ha
      | cons c Y =>
        have hc : c = a := by
          rw [List.cons_append, List.cons.injEq] at hb
          rw [hb.1, hab]
        subst hc
        have htail := h.tail (X := X ++ [0#8]) (Y := Y ++ [0#8]) (by simpa using ha)
        have hrec := ih (fun hm => hX (List.mem_cons_of_mem _ hm))
          (fun hm => hY (List.mem_cons_of_mem _ hm)) htail (Nat.lt_of_succ_lt_succ hf)
        rw [List.cons_append, List.cons_append] at h ⊢
        rw [strcmp, sameChar_eq h, order_head_eq, ← hrec]
        simp [ha]
    · rw [List.cons_append] at h ⊢
      rw [hb] at h ⊢
      rw [strcmp, sameChar_eq h, order_head_ne hab]
      simp [hab, difference_eq h]

theorem strncmp_eq (n : ℕ) {X Y : List Byte} (hX : 0#8 ∉ X) (hY : 0#8 ∉ Y)
    (h : Known (some 0#8) m s1 s2 ((X ++ [0#8]).take n) ((Y ++ [0#8]).take n)) :
    strncmp m n s1 s2 = some (order (X.take n ++ [0#8]) (Y.take n ++ [0#8])) := by
  induction n generalizing X Y s1 s2 with
  | zero => rfl
  | succ n ih =>
    obtain ⟨b, Y', hb, hcut⟩ := exists_head Y
    obtain ⟨Z, hZ⟩ := hcut n
    cases X with
    | nil =>
      rw [hb, List.nil_append, List.take_succ_cons, List.take_succ_cons] at h
      rw [strncmp, sameChar_eq h, hZ, List.take_nil, List.nil_append, order_nul]
      simp [difference_eq h]
    | cons a X =>
      have ha : a ≠ 0#8 := fun he => hX (he ▸ List.mem_cons_self)
      by_cases hab : a = b
      · cases Y with
        | nil =>
          rw [List.nil_append, List.cons.injEq] at hb
          exact absurd (hab.trans hb.1.symm) ha
        | cons c Y =>
          have hc : c = a := by
            rw [List.cons_append, List.cons.injEq] at hb
            rw [hb.1, hab]
          subst hc
          simp only [List.cons_append, List.take_succ_cons] at h ⊢
          have hrec := ih (fun hm => hX (List.mem_cons_of_mem _ hm))
            (fun hm => hY (List.mem_cons_of_mem _ hm)) (h.tail (by simpa using ha))
          rw [strncmp, sameChar_eq h, order_head_eq, ← hrec]
          simp [ha]
      · rw [hb, List.cons_append, List.take_succ_cons, List.take_succ_cons] at h
        rw [hZ, List.take_succ_cons, List.cons_append, strncmp, sameChar_eq h, order_head_ne hab]
        simp [hab, difference_eq h]

theorem memcmp_eq {X Y : List Byte} (hlen : X.length = Y.length) (h : Known none m s1 s2 X Y) :
    memcmp m X.length s1 s2 = some (order X Y) := by
  induction X generalizing Y s1 s2 with
  | nil => rfl
  | cons a X ih =>
    cases Y with
    | nil => simp at hlen
    | cons b Y =>
      obtain ⟨h1, h2⟩ := h.head
      rw [List.length_cons, memcmp]
      by_cases hab : a = b
      · subst hab
        have hrec := ih (by simpa using hlen) (h.tail (by simp))
        simp [h1, h2, hrec, order_head_eq]
      · rw [order_head_ne hab, ← difference_eq h]
        simp [h1, h2, hab]

theorem memchrLoop_eq {uc : Byte} {X : List Byte} (h : KnownUpTo uc m s1 X) :
    memchrLoop m uc X.length s1 = some (if uc ∈ X then byteAt s1 (X.idxOf uc) else 0#16) := by
  induction X generalizing s1 with
  | nil => rfl
  | cons a X ih =>
    rw [List.length_cons, memchrLoop, h.head]
    by_cases ha : a = uc
    · subst ha
      simp [byteAt_zero]
    · have hrec := ih (h.tail ha)
      simp [ha, hrec, Ne.symm ha, List.idxOf_cons_ne _ ha, byteAt_succ]

end Results

/-! ## The order -/

theorem CString.parted (x y : CString) : Parted x.text y.text := by
  have h : ∀ x y : CString, x.text <+: y.text → x.text = y.text := by
    intro x y hp
    rcases List.prefix_concat_iff.1 hp with he | hp
    · exact he
    · exact absurd (hp.subset (by simp [CString.text])) y.noNul
  exact ⟨h x y, fun hp => (h y x hp).symm⟩

theorem CString.key_inj {x y : CString} : x.key = y.key ↔ x.bytes = y.bytes := by
  rw [CString.key, CString.key, List.map_inj_right fun _ _ h => BitVec.eq_of_toNat_eq h]
  exact List.append_left_inj _

theorem toNat_injective : Function.Injective (BitVec.toNat : Byte → ℕ) :=
  fun _ _ h => BitVec.eq_of_toNat_eq h

/-- `strcmp` and `strncmp` as functions of the strings, `memcmp` as one of the arrays. -/
def strOrder (x y : CString) : ℤ := order x.text y.text
def strnOrder (n : ℕ) (x y : CString) : ℤ := strOrder (x.truncate n) (y.truncate n)
def memOrder (n : ℕ) (X Y : {X : List Byte // X.length = n}) : ℤ := order X.1 Y.1

theorem strOrder_threeWay : ThreeWay strOrder CString.key :=
  ⟨fun x y => firstDiff_neg toNat_injective (x.parted y),
    fun x y => firstDiff_pos toNat_injective (x.parted y)⟩

theorem strnOrder_threeWay (n : ℕ) : ThreeWay (strnOrder n) fun x : CString => (x.truncate n).key :=
  strOrder_threeWay.comp fun x : CString => x.truncate n

theorem memOrder_threeWay (n : ℕ) : ThreeWay (memOrder n) fun X => X.1.map BitVec.toNat :=
  ⟨fun X Y => firstDiff_neg toNat_injective (Parted.of_length_eq (X.2.trans Y.2.symm)),
    fun X Y => firstDiff_pos toNat_injective (Parted.of_length_eq (X.2.trans Y.2.symm))⟩

/-- `strcmp`, `strncmp` and `memcmp` order their arguments as sequences of
unsigned bytes, and neither they nor `memchr` read past the byte that decides. -/
theorem string_comparison (m : PartialMemory) (s1 s2 c : Word) (n : ℕ) :
    (∀ x y : CString, Known (some 0#8) m s1 s2 x.text y.text → ∀ fuel, x.bytes.length < fuel →
      strcmp m fuel s1 s2 = some (strOrder x y)) ∧
    (∀ x y : CString, Known (some 0#8) m s1 s2 (x.text.take n) (y.text.take n) →
      strncmp m n s1 s2 = some (strOrder (x.truncate n) (y.truncate n))) ∧
    (∀ X Y : {X : List Byte // X.length = n}, Known none m s1 s2 X Y →
      memcmp m n s1 s2 = some (memOrder n X Y)) ∧
    (∀ X : List Byte, X.length = n → KnownUpTo (c.setWidth 8) m s1 X → memchr m s1 c n =
      some (if c.setWidth 8 ∈ X then byteAt s1 (X.idxOf (c.setWidth 8)) else 0#16)) ∧
    (ThreeWay strOrder CString.key ∧ Consistent strOrder ∧
      ∀ x y, strOrder x y = 0 ↔ x.bytes = y.bytes) ∧
    (Consistent (strnOrder n) ∧
      ∀ x y, strnOrder n x y = 0 ↔ x.bytes.take n = y.bytes.take n) ∧
    (ThreeWay (memOrder n) (fun X => X.1.map BitVec.toNat) ∧ Consistent (memOrder n) ∧
      ∀ X Y, memOrder n X Y = 0 ↔ X = Y) := by
  refine ⟨fun x y h fuel hf => strcmp_eq x.noNul y.noNul h hf,
    fun x y h => strncmp_eq n x.noNul y.noNul h, fun X Y h => ?_, fun X hX h => ?_,
    ⟨strOrder_threeWay, strOrder_threeWay.consistent, fun x y => ?_⟩,
    ⟨(strnOrder_threeWay n).consistent, fun x y => ?_⟩,
    memOrder_threeWay n, (memOrder_threeWay n).consistent, fun X Y => ?_⟩
  · have hcmp := memcmp_eq (X.2.trans Y.2.symm) h
    rwa [X.2] at hcmp
  · rw [memchr, ← hX]
    exact memchrLoop_eq h
  · rw [strOrder_threeWay.zero, CString.key_inj]
  · rw [(strnOrder_threeWay n).zero, CString.key_inj]
    rfl
  · rw [(memOrder_threeWay n).zero, List.map_inj_right fun _ _ h => BitVec.eq_of_toNat_eq h,
      Subtype.ext_iff]

/-- Two strings that differ in their first byte; the rest cannot be read. -/
def firstBytesOnly : PartialMemory := fun a =>
  if a = 0#16 then some 0x80#8 else if a = 2#16 then some 0x7F#8 else none

theorem unsigned_first_byte : strcmp firstBytesOnly 2 0#16 2#16 = some 1 := by
  have h := (string_comparison firstBytesOnly 0#16 2#16 0#16 0).1 ⟨[0x80#8], by decide⟩
    ⟨[0x7F#8], by decide⟩
  refine h (fun i hi _ hlive => ?_) 2 (by decide)
  cases i with
  | zero => exact ⟨rfl, rfl⟩
  | succ i => exact absurd (hlive 0 (by omega)).1 (by decide)

end LlvmTms9900.Builtins.StringUtils
