import LlvmTms9900.Arith.ForLoop
import LlvmTms9900.Isa.Word

/-!
# The video display processor

16 KB of VRAM behind two ports. Two bytes on the command port set a register or
the address; a byte on the data port is stored at the address, which then
advances. The access functions are those that life.c, life2.c and life2_2x.c
have in common.
-/

namespace LlvmTms9900.Life
open LlvmTms9900.Isa LlvmTms9900.Arith

/-- `latch` holds the first byte of a command. `written` is history: the
addresses that data was written to. -/
structure Vdp where
  vram : Nat → Byte
  addr : Nat
  latch : Option Byte
  regs : Nat → Byte
  written : Nat → Bool

def vramSize : Nat := 0x4000

/-- `vdp_cmd`. A second byte with the top bit set selects a register. -/
def vdpCmd (val : Byte) (d : Vdp) : Vdp :=
  match d.latch with
  | none => { d with latch := some val }
  | some first =>
    if val.getLsbD 7 then
      { d with
        latch := none
        regs := fun r => if r = val.toNat % 8 then first else d.regs r }
    else { d with latch := none, addr := val.toNat % 64 * 256 + first.toNat }

/-- `vdp_data`. -/
def vdpData (val : Byte) (d : Vdp) : Vdp :=
  { d with
    vram := fun a => if a = d.addr then val else d.vram a
    addr := (d.addr + 1) % vramSize
    latch := none
    written := fun a => if a = d.addr then true else d.written a }

/-- `vdp_set_register`. -/
def vdpSetRegister (reg val : Byte) (d : Vdp) : Vdp := vdpCmd (reg ||| 0x80#8) (vdpCmd val d)

/-- `vdp_set_write_addr`. -/
def vdpSetWriteAddr (addr : Nat) (d : Vdp) : Vdp :=
  vdpCmd (BitVec.ofNat 8 (addr >>> 8 &&& 0x3F ||| 0x40)) (vdpCmd (BitVec.ofNat 8 (addr &&& 0xFF)) d)

def colorTableAddr : Nat := 0x2000
def patternTableAddr : Nat := 0x0000
def nameTableAddr : Nat := 0x1800
def spriteAttrAddr : Nat := 0x1B00

/-- `vdp_init_gfx2`. -/
def vdpInitGfx2 (d : Vdp) : Vdp :=
  let d := vdpSetRegister 0#8 0x02#8 d
  let d := vdpSetRegister 1#8 0x80#8 d
  let d := vdpSetRegister 2#8 0x06#8 d
  let d := vdpSetRegister 3#8 0xFF#8 d
  let d := vdpSetRegister 4#8 0x03#8 d
  let d := vdpSetRegister 5#8 0x36#8 d
  let d := vdpSetRegister 6#8 0x07#8 d
  vdpSetRegister 7#8 0x01#8 d

/-- `vdp_display_on`. -/
def vdpDisplayOn (d : Vdp) : Vdp := vdpSetRegister 1#8 0xE0#8 d

/-- `vdp_init_name_table`. -/
def vdpInitNameTable (d : Vdp) : Vdp :=
  forUpto 0 (24 * 32) (fun i d => vdpData (BitVec.ofNat 8 (i &&& 0xFF)) d)
    (vdpSetWriteAddr nameTableAddr d)

/-- `(COLOR_FG << 4) | (COLOR_BG & 0x0F)`. -/
def colorNormal : Byte := 0x71#8

/-- `vdp_init_color_table`. -/
def vdpInitColorTable (d : Vdp) : Vdp :=
  forUpto 0 (192 * 32) (fun _ d => vdpData colorNormal d) (vdpSetWriteAddr colorTableAddr d)

/-- `vdp_clear_pattern_table`. -/
def vdpClearPatternTable (d : Vdp) : Vdp :=
  forUpto 0 0x1800 (fun _ d => vdpData 0#8 d) (vdpSetWriteAddr patternTableAddr d)

/-- `vdp_disable_sprites`. -/
def vdpDisableSprites (d : Vdp) : Vdp := vdpData 0xD0#8 (vdpSetWriteAddr spriteAttrAddr d)

/-- Where the eight bytes of a character start in a table at `base`. -/
def tileAddr (base tileRow tileCol : Nat) : Nat :=
  let group := tileRow >>> 3
  let pattern := (tileRow &&& 7) <<< 5 ||| tileCol
  base + group * 0x0800 + pattern <<< 3

/-- `vdp_set_tile_color`. -/
def vdpSetTileColor (tileRow tileCol : Nat) (color : Byte) (d : Vdp) : Vdp :=
  forUpto 0 8 (fun _ d => vdpData color d)
    (vdpSetWriteAddr (tileAddr colorTableAddr tileRow tileCol) d)

/-! ## Streams of data writes -/

/-- No command is half sent. -/
def Vdp.AtRest (d : Vdp) : Prop := d.latch = none

/-- A cell of VRAM and whether it was written. -/
def Vdp.cellAt (d : Vdp) (a : Nat) : Byte × Bool := (d.vram a, d.written a)

/-- What `cellAt` shows of a table that was drawn from `img`. -/
def drawn (img : Nat → Byte) (a : Nat) : Byte × Bool := (img a, true)

theorem tileAddr_eq (base : Nat) {row col : Nat} (hr : row < 24) (hc : col < 32) :
    tileAddr base row col = base + row * 256 + col * 8 := by
  have h : ∀ row < 24, ∀ col < 32,
      (row >>> 3) * 0x0800 + ((row &&& 7) <<< 5 ||| col) <<< 3 = row * 256 + col * 8 := by decide
  have h1 := h row hr col hc
  simp only [tileAddr]
  omega

theorem vdpSetWriteAddr_eq {addr : Nat} (ha : addr < vramSize) {d : Vdp} (hd : d.AtRest) :
    vdpSetWriteAddr addr d = { d with addr := addr } := by
  have ha' : addr < 0x4000 := ha
  have hhi : ∀ h < 64, (BitVec.ofNat 8 (h &&& 0x3F ||| 0x40)).getLsbD 7 = false ∧
      (BitVec.ofNat 8 (h &&& 0x3F ||| 0x40)).toNat % 64 = h := by decide
  have hlo : (BitVec.ofNat 8 (addr &&& 0xFF)).toNat = addr % 256 := by
    rw [BitVec.toNat_ofNat, show addr &&& 0xFF = addr % 2 ^ 8 from
      Nat.and_two_pow_sub_one_eq_mod addr 8]
    omega
  have hshift : addr >>> 8 = addr / 256 := Nat.shiftRight_eq_div_pow addr 8
  obtain ⟨h7, h64⟩ := hhi (addr / 256) (by omega)
  rw [vdpSetWriteAddr, hshift, vdpCmd, vdpCmd, hd]
  simp only [h7, h64, hlo, Bool.false_eq_true, if_false]
  have haddr : addr / 256 * 256 + addr % 256 = addr := by omega
  rw [haddr, ← hd]

theorem vdpSetRegister_atRest (reg val : Byte) (hreg : (reg ||| 0x80#8).getLsbD 7 = true) {d : Vdp}
    (hd : d.AtRest) : (vdpSetRegister reg val d).AtRest ∧
      (vdpSetRegister reg val d).cellAt = d.cellAt := by
  rw [vdpSetRegister, vdpCmd, vdpCmd, hd]
  simp only [hreg, if_true]
  exact ⟨rfl, rfl⟩

/-- From address `a` at rest, `F` writes `img` into the next `n` cells. -/
def StreamsTo (img : Nat → Byte) (a n : Nat) (F : Vdp → Vdp) : Prop :=
  ∀ d : Vdp, d.AtRest → d.addr = a → (F d).AtRest ∧ (F d).addr = a + n ∧
    (∀ x, a ≤ x ∧ x < a + n → (F d).cellAt x = drawn img x) ∧
    ∀ x, ¬ (a ≤ x ∧ x < a + n) → (F d).cellAt x = d.cellAt x

theorem streamsTo_data {img : Nat → Byte} {a : Nat} {v : Byte} (hv : v = img a)
    (ha : a + 1 < vramSize) : StreamsTo img a 1 (vdpData v) := by
  rintro d hd rfl
  refine ⟨rfl, Nat.mod_eq_of_lt ha, ?_, ?_⟩
  · rintro x ⟨h1, h2⟩
    have hx : x = d.addr := by omega
    subst hx
    simp only [Vdp.cellAt, vdpData, drawn, if_true, hv]
  · intro x hx
    have hne : x ≠ d.addr := fun he => hx (by omega)
    simp only [Vdp.cellAt, vdpData, if_neg hne]

theorem StreamsTo.comp {img : Nat → Byte} {a n m : Nat} {F G : Vdp → Vdp}
    (hF : StreamsTo img a n F) (hG : StreamsTo img (a + n) m G) :
    StreamsTo img a (n + m) fun d => G (F d) := by
  intro d hd ha
  obtain ⟨hr1, ha1, hin1, hout1⟩ := hF d hd ha
  obtain ⟨hr2, ha2, hin2, hout2⟩ := hG (F d) hr1 ha1
  refine ⟨hr2, by rw [ha2, Nat.add_assoc], ?_, ?_⟩
  · intro x hx
    by_cases h : a + n ≤ x
    · exact hin2 x ⟨h, by omega⟩
    · rw [hout2 x (by omega)]
      exact hin1 x ⟨hx.1, by omega⟩
  · intro x hx
    rw [hout2 x (by omega), hout1 x (by omega)]

theorem StreamsTo.forUpto {img : Nat → Byte} {a n k : Nat} {body : Nat → Vdp → Vdp}
    (h : ∀ i < k, StreamsTo img (a + i * n) n (body i)) :
    StreamsTo img a (k * n) (forUpto 0 k body) := by
  induction k with
  | zero =>
    intro d hd ha
    rw [forUpto_self, Nat.zero_mul]
    exact ⟨hd, ha, fun x hx => by omega, fun x _ => rfl⟩
  | succ k ih =>
    have hk := (ih fun i hi => h i (by omega)).comp (h k (Nat.lt_succ_self k))
    have heq : Arith.forUpto 0 (k + 1) body = fun d => body k (Arith.forUpto 0 k body d) :=
      funext fun d => forUpto_succ (Nat.zero_le k) body d
    rw [heq, Nat.succ_mul]
    exact hk

/-- An addressed stream writes a block of VRAM. -/
theorem StreamsTo.writes {img : Nat → Byte} {a n : Nat} {F : Vdp → Vdp}
    (h : StreamsTo img a n F) (ha : a < vramSize) :
    Writes Vdp.AtRest Vdp.cellAt (fun x => a ≤ x ∧ x < a + n) (drawn img)
      fun d => F (vdpSetWriteAddr a d) := by
  have hset : ∀ {d : Vdp}, d.AtRest → vdpSetWriteAddr a d = { d with addr := a } :=
    fun hd => vdpSetWriteAddr_eq ha hd
  refine ⟨fun {d} hd => ?_, fun {d x} hd hx => ?_, fun {d x} hd hx => ?_⟩
  · rw [hset hd]
    exact (h { d with addr := a } hd rfl).1
  · rw [hset hd]
    exact (h { d with addr := a } hd rfl).2.2.1 x hx
  · rw [hset hd]
    exact (h { d with addr := a } hd rfl).2.2.2 x hx

/-- `n` equal bytes. -/
theorem streamsTo_fill (v : Byte) {a n : Nat} (ha : a + n < vramSize) :
    StreamsTo (fun _ => v) a n (forUpto 0 n fun _ d => vdpData v d) := by
  have h : StreamsTo (fun _ => v) a (n * 1) (forUpto 0 n fun _ d => vdpData v d) :=
    StreamsTo.forUpto fun i hi => streamsTo_data rfl (by omega)
  rwa [Nat.mul_one] at h

theorem writes_setTileColor {row col : Nat} (hr : row < 24) (hc : col < 32) (color : Byte) :
    Writes Vdp.AtRest Vdp.cellAt
      (fun x => colorTableAddr + row * 256 + col * 8 ≤ x ∧
        x < colorTableAddr + row * 256 + col * 8 + 8)
      (drawn fun _ => color) (vdpSetTileColor row col color) := by
  have h0 : colorTableAddr = 0x2000 := rfl
  have hv : vramSize = 0x4000 := rfl
  have h := (streamsTo_fill color
    (a := colorTableAddr + row * 256 + col * 8) (n := 8) (by omega)).writes (by omega)
  rw [← tileAddr_eq colorTableAddr hr hc] at h ⊢
  exact h

end LlvmTms9900.Life
