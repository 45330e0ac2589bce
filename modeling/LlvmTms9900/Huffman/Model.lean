import Mathlib

/-!
# Huffman codec (tests/benchmarks/huffman.c)

The static tables are functions of their index. `uint8_t` and `uint16_t`
counters are natural numbers reduced where the code increments them; code
words, masks and the bytes of the streams are bit vectors.
-/

namespace LlvmTms9900.Huffman

abbrev Byte := BitVec 8
abbrev Bits := BitVec 16

def maxSymbols : ℕ := 32
def maxNodes : ℕ := 63
def maxCodeLen : ℕ := 16
def bitstreamCap : ℕ := 64

/-- `huff_node_t`; 0xFF for no child. -/
structure HuffNode where
  freq : ℕ
  symbol : Byte
  left : ℕ
  right : ℕ

/-- `huff_code_t`. -/
structure HuffCode where
  bits : Bits
  len : ℕ
  deriving DecidableEq, Repr

/-- The static tables. -/
structure Tables where
  nodes : ℕ → HuffNode
  codes : ℕ → HuffCode
  symMap : ℕ → Byte
  symLookup : Byte → ℕ

section FreqTable

/-- `freq[data[i]]++` for every byte of the data. -/
def countFreq (data : List Byte) : Byte → ℕ :=
  data.foldl (fun freq x => Function.update freq x ((freq x + 1) % 65536)) fun _ => 0

/-- One pass of the loop over `j` in `build_freq_table`. -/
def addSymbol (freq : Byte → ℕ) (s : ℕ × Tables) (j : ℕ) : ℕ × Tables :=
  let x := BitVec.ofNat 8 j
  if 0 < freq x ∧ s.1 < maxSymbols then
    (s.1 + 1,
      { s.2 with
        symMap := Function.update s.2.symMap s.1 x
        symLookup := Function.update s.2.symLookup x s.1
        nodes := Function.update s.2.nodes s.1 ⟨freq x, x, 0xFF, 0xFF⟩ })
  else s

/-- The number of symbols and the tables afterwards. -/
def buildFreqTable (g : Tables) (data : List Byte) : ℕ × Tables :=
  (List.range 256).foldl (addSymbol (countFreq data)) (0, { g with symLookup := fun _ => 0xFF })

end FreqTable

section BuildTree

/-- The two lowest frequencies seen so far and where they are. -/
structure Minima where
  min1 : ℕ
  min2 : ℕ
  f1 : ℕ
  f2 : ℕ

def minStep (nodes : ℕ → HuffNode) (m : Minima) (i : ℕ) : Minima :=
  if (nodes i).freq = 0xFFFF then m
  else if (nodes i).freq < m.f1 then ⟨i, m.min1, (nodes i).freq, m.f1⟩
  else if (nodes i).freq < m.f2 then ⟨m.min1, i, m.f1, (nodes i).freq⟩
  else m

def findMins (nodes : ℕ → HuffNode) (total : ℕ) : Minima :=
  (List.range total).foldl (minStep nodes) ⟨0xFF, 0xFF, 0xFFFF, 0xFFFF⟩

/-- Mark a node as consumed. -/
def consume (nodes : ℕ → HuffNode) (i : ℕ) : ℕ → HuffNode :=
  Function.update nodes i { nodes i with freq := 0xFFFF }

/-- The new parent node, and its children consumed. -/
def merge (nodes : ℕ → HuffNode) (total : ℕ) (m : Minima) : ℕ → HuffNode :=
  consume (consume (Function.update nodes total
    ⟨(m.f1 + m.f2) % 65536, 0#8, m.min1, m.min2⟩) m.min1) m.min2

/-- `while (remaining > 1)`: the nodes in use and the nodes at the end. -/
def buildLoop : ℕ → ℕ → (ℕ → HuffNode) → ℕ × (ℕ → HuffNode)
  | remaining + 2, total, nodes =>
    let m := findMins nodes total
    if m.min1 = 0xFF ∨ m.min2 = 0xFF then (total, nodes)
    else if maxNodes ≤ total then (total, nodes)
    else buildLoop (remaining + 1) ((total + 1) % 256) (merge nodes total m)
  | _, total, nodes => (total, nodes)

/-- The root index and the tables afterwards. -/
def buildTree (g : Tables) (nsym : ℕ) : ℕ × Tables :=
  let (total, nodes) := buildLoop nsym nsym g.nodes
  ((total + 255) % 256, { g with nodes := nodes })

end BuildTree

/-- The codes table after `generate_codes`; `none` when the recursion is deeper
than `fuel`. -/
def generateCodes (g : Tables) :
    ℕ → ℕ → Bits → Bits → ℕ → (ℕ → HuffCode) → Option (ℕ → HuffCode)
  | 0, _, _, _, _, _ => none
  | fuel + 1, node_idx, code, bit_mask, depth, codes =>
    let n := g.nodes node_idx
    if n.left = 0xFF ∧ n.right = 0xFF then
      let si := g.symLookup n.symbol
      some (if si < maxSymbols then Function.update codes si ⟨code, depth⟩ else codes)
    else do
      let codes ←
        if n.left ≠ 0xFF then
          generateCodes g fuel n.left code (bit_mask <<< 1) ((depth + 1) % 256) codes
        else some codes
      if n.right ≠ 0xFF then
        generateCodes g fuel n.right (code ||| bit_mask) (bit_mask <<< 1) ((depth + 1) % 256) codes
      else some codes

/-- `static const uint8_t bit_masks[8]`. -/
def bitMasks : List Byte := [0x01#8, 0x02#8, 0x04#8, 0x08#8, 0x10#8, 0x20#8, 0x40#8, 0x80#8]

section Encode

/-- The bits of one code, written one at a time; an error is an overflow of
the output. -/
def writeCode (out_cap : ℕ) (cbits : Bits) : ℕ → Bits → ℕ × (ℕ → Byte) →
    Except (ℕ → Byte) (ℕ × (ℕ → Byte))
  | 0, _, s => .ok s
  | b + 1, code_mask, (bit_pos, out) =>
    let byte_idx := bit_pos / 8
    let bit_off := bit_pos % 8
    if out_cap ≤ byte_idx then .error out
    else
      let out :=
        if cbits &&& code_mask ≠ 0#16 then
          Function.update out byte_idx (out byte_idx ||| bitMasks.getD bit_off 0#8)
        else out
      writeCode out_cap cbits b (code_mask <<< 1) ((bit_pos + 1) % 65536, out)

def writeSymbol (g : Tables) (out_cap : ℕ) (s : ℕ × (ℕ → Byte)) (x : Byte) :
    Except (ℕ → Byte) (ℕ × (ℕ → Byte)) :=
  let si := g.symLookup x
  if maxSymbols ≤ si then .error s.2
  else writeCode out_cap (g.codes si).bits (g.codes si).len 1#16 s

/-- `my_memset(out, 0, out_cap)`. -/
def clearOut (out : ℕ → Byte) (out_cap : ℕ) : ℕ → Byte :=
  fun i => if i < out_cap then 0#8 else out i

/-- The number of bits written, 0 for an error, and the output bytes. -/
def encodeData (g : Tables) (data : List Byte) (out : ℕ → Byte) (out_cap : ℕ) : ℕ × (ℕ → Byte) :=
  match data.foldlM (writeSymbol g out_cap) (0, clearOut out out_cap) with
  | .ok s => s
  | .error out => (0, out)

end Encode

section Decode

/-- The walk from a node to a leaf: the leaf and the bit position after it.
`bit_pos` stays below `total_bits`, a 16-bit number, and does not wrap. -/
def walk (nodes : ℕ → HuffNode) (bitstream : ℕ → Byte) (total_bits bit_pos cur : ℕ) :
    Option (ℕ × ℕ) :=
  if (nodes cur).left ≠ 0xFF ∨ (nodes cur).right ≠ 0xFF then
    if total_bits ≤ bit_pos then none
    else
      let bit_val := bitstream (bit_pos / 8) &&& bitMasks.getD (bit_pos % 8) 0#8
      let next := if bit_val = 0#8 then (nodes cur).left else (nodes cur).right
      if next = 0xFF then none else walk nodes bitstream total_bits (bit_pos + 1) next
  else some (cur, bit_pos)
termination_by total_bits - bit_pos

/-- The outer loop of `decode_data`. -/
def decodeLoop (nodes : ℕ → HuffNode) (bitstream : ℕ → Byte) (total_bits root out_cap : ℕ)
    (bit_pos out_pos : ℕ) (out : ℕ → Byte) : ℕ × (ℕ → Byte) :=
  if bit_pos < total_bits ∧ out_pos < out_cap then
    match walk nodes bitstream total_bits bit_pos root with
    | none => (0, out)
    | some (cur, bit_pos) =>
      decodeLoop nodes bitstream total_bits root out_cap bit_pos (out_pos + 1)
        (Function.update out out_pos (nodes cur).symbol)
  else (out_pos, out)
termination_by out_cap - out_pos

/-- The number of bytes decoded, 0 for an error, and the bytes. -/
def decodeData (g : Tables) (bitstream : ℕ → Byte) (total_bits root : ℕ) (out : ℕ → Byte)
    (out_cap : ℕ) : ℕ × (ℕ → Byte) :=
  decodeLoop g.nodes bitstream total_bits root out_cap 0 0 out

end Decode

end LlvmTms9900.Huffman
