import LlvmTms9900.Arith.ForLoop
import LlvmTms9900.Arith.ShiftRegister

/-!
# The CRC-32 benchmark

`crc32_byte` takes a byte into the register and steps it eight times; `main` runs
it over the bytes of the input from an all-ones register and inverts the result.
Of the buffer only the length is left open.
-/

namespace LlvmTms9900.Benchmarks
open LlvmTms9900.Arith

def crc32Poly : BitVec 32 := 0xEDB88320#32

def crc32Byte (crc : BitVec 32) (byte : BitVec 8) : BitVec 32 :=
  forUpto 0 8 (fun _ crc => if crc &&& 1#32 ≠ 0#32 then (crc >>> 1) ^^^ crc32Poly else crc >>> 1)
    (crc ^^^ byte.setWidth 32)

def crc32 (input : List (BitVec 8)) : BitVec 32 :=
  input.foldl crc32Byte 0xFFFFFFFF#32 ^^^ 0xFFFFFFFF#32

/-- The bits of a byte in the order in which the register takes them. -/
def byteBits (byte : BitVec 8) : List Bool := (List.range 8).map byte.getLsbD

def messageBits (input : List (BitVec 8)) : List Bool := input.flatMap byteBits

/-- The four bytes of a word, the least significant first. -/
def wordBytes (word : BitVec 32) : List (BitVec 8) :=
  (List.range 4).map fun i => (word >>> (8 * i)).setWidth 8

example : crc32 ((List.range 32).map (BitVec.ofNat 8)) = 0x91267E8A#32 := by decide +kernel

theorem crc32Poly_msb : crc32Poly.msb = true := by decide

theorem step_eq (crc : BitVec 32) :
    (if crc &&& 1#32 ≠ 0#32 then (crc >>> 1) ^^^ crc32Poly else crc >>> 1) =
      registerStep crc32Poly crc := by
  have hbit : (crc &&& 1#32 ≠ 0#32) ↔ crc.getLsbD 0 = true := by
    rw [Ne, ← BitVec.toNat_inj, BitVec.toNat_and, BitVec.getLsbD, Nat.testBit_zero,
      decide_eq_true_eq]
    change ¬crc.toNat &&& 1 = 0 ↔ _
    rw [Nat.and_one_is_mod]
    omega
  rw [registerStep]
  simp only [hbit]

theorem ofBits_byteBits (byte : BitVec 8) : ofBits 32 (byteBits byte) = byte.setWidth 32 := by
  revert byte
  decide +kernel

theorem length_byteBits (byte : BitVec 8) : (byteBits byte).length = 8 := rfl

theorem byteBits_injective : Function.Injective byteBits := by
  intro a b h
  rw [← ofBits_getLsbD a, ← ofBits_getLsbD b]
  exact congrArg (ofBits 8) h

theorem messageBits_append (input input' : List (BitVec 8)) :
    messageBits (input ++ input') = messageBits input ++ messageBits input' :=
  List.flatMap_append

theorem messageBits_injective : Function.Injective messageBits := by
  intro input input' h
  induction input generalizing input' with
  | nil =>
    cases input' with
    | nil => rfl
    | cons byte' input' => simp [messageBits, byteBits, List.range_succ] at h
  | cons byte input ih =>
    cases input' with
    | nil => simp [messageBits, byteBits, List.range_succ] at h
    | cons byte' input' =>
      obtain ⟨hbyte, hrest⟩ := List.append_inj h (length_byteBits byte)
      rw [byteBits_injective hbyte, ih hrest]

theorem messageBits_wordBytes (word : BitVec 32) :
    messageBits (wordBytes word) = (List.range 32).map word.getLsbD := by
  simp [messageBits, wordBytes, byteBits, List.range_succ]

theorem crc32Byte_eq (crc : BitVec 32) (byte : BitVec 8) :
    crc32Byte crc byte = feedAll crc32Poly crc (byteBits byte) := by
  rw [feedAll_eq (by simp [byteBits]), ofBits_byteBits]
  simp only [crc32Byte, step_eq]
  rfl

theorem foldl_crc32Byte (input : List (BitVec 8)) (crc : BitVec 32) :
    input.foldl crc32Byte crc = feedAll crc32Poly crc (messageBits input) := by
  induction input generalizing crc with
  | nil => rfl
  | cons byte input ih =>
    rw [List.foldl_cons, ih, crc32Byte_eq, ← feedAll_append]
    rfl

theorem crc32_eq (input : List (BitVec 8)) :
    crc32 input = feedAll crc32Poly 0xFFFFFFFF#32 (messageBits input) ^^^ 0xFFFFFFFF#32 := by
  rw [crc32, foldl_crc32Byte]

/-- A burst of at most 32 bits, wherever it falls, changes the checksum. -/
theorem crc32_burst_detected (input input' : List (BitVec 8))
    (before after burst burst' : List Bool)
    (h : messageBits input = before ++ burst ++ after)
    (h' : messageBits input' = before ++ burst' ++ after) (hlen : burst.length = burst'.length)
    (h32 : burst.length ≤ 32) (hne : input ≠ input') : crc32 input ≠ crc32 input' := by
  have hburst : burst ≠ burst' := by
    rintro rfl
    exact hne (messageBits_injective (h.trans h'.symm))
  intro hcrc
  rw [crc32_eq, crc32_eq, BitVec.xor_left_inj, h, h'] at hcrc
  exact feedAll_burst_ne crc32Poly_msb h32 hlen hburst before after hcrc

theorem crc32_burst_detected_across_bytes :
    crc32 [0x31#8, 0xF2#8] ≠ crc32 [0x01#8, 0xF3#8] :=
  crc32_burst_detected _ _ ((byteBits 0x31#8).take 4) ((byteBits 0xF2#8).drop 1)
    [true, true, false, false, false] [false, false, false, false, true]
    (by decide) (by decide) rfl (by decide) (by decide)

/-- A message followed by its own checksum, and by no other word, leaves this residue. -/
theorem crc32_residue (input : List (BitVec 8)) (word : BitVec 32) :
    crc32 (input ++ wordBytes word) = 0x2144DF1C#32 ↔ word = crc32 input := by
  rw [crc32_eq, crc32_eq, messageBits_append, feedAll_append]
  generalize feedAll crc32Poly 0xFFFFFFFF#32 (messageBits input) = crc
  have hlen : (messageBits (wordBytes word)).length = 32 := by
    rw [messageBits_wordBytes, List.length_map, List.length_range]
  rw [feedAll_eq hlen.le, messageBits_wordBytes, ofBits_getLsbD, List.length_map,
    List.length_range]
  -- all ones in the register after the word leave the residue, and nothing else does
  have hones : (registerStep crc32Poly)^[32] 0xFFFFFFFF#32 ^^^ 0xFFFFFFFF#32 = 0x2144DF1C#32 := by
    decide +kernel
  rw [← hones, BitVec.xor_left_inj,
    ((registerStep_injective crc32Poly_msb).iterate 32).eq_iff]
  constructor
  · intro h
    rw [← h, ← BitVec.xor_assoc, BitVec.xor_self, BitVec.zero_xor]
  · rintro rfl
    rw [← BitVec.xor_assoc, BitVec.xor_self, BitVec.zero_xor]

end LlvmTms9900.Benchmarks
