import LlvmTms9900.Builtins.Fp32
import LlvmTms9900.Builtins.Udivmoddi4Words

/-!
# 64-bit multiplication (libtms9900/builtins/i64/muldi3.c, tests/fp32_builtins.c)

Two carry organisations of the schoolbook product of two 32-bit words. With
halves below 2^16 no partial sum reaches 2^32, so both give the exact product,
and the two definitions of `__muldi3` agree.
-/

namespace LlvmTms9900.Builtins.Muldi3
open LlvmTms9900.Builtins.Udivmoddi4

def lowerMask : Long := 0x0000FFFF#32

/-- `__muldsi3`. -/
def muldsi3 (plus : Plus) (a b : Long) : Option LongLong := do
  let r_lo := (a &&& lowerMask) * (b &&& lowerMask)
  let t := r_lo >>> 16
  let r_lo := r_lo &&& lowerMask
  let t ← plus t ((a >>> 16) * (b &&& lowerMask))
  let r_lo ← plus r_lo ((t &&& lowerMask) <<< 16)
  let r_hi := t >>> 16
  let t := r_lo >>> 16
  let r_lo := r_lo &&& lowerMask
  let t ← plus t ((b >>> 16) * (a &&& lowerMask))
  let r_lo ← plus r_lo ((t &&& lowerMask) <<< 16)
  let r_hi ← plus r_hi (t >>> 16)
  let r_hi ← plus r_hi ((a >>> 16) * (b >>> 16))
  return make64 r_hi r_lo

/-- `__muldi3`. The last two sums are meant to wrap. -/
def muldi3 (plus : Plus) (a b : LongLong) : Option LongLong := do
  let result ← muldsi3 plus (lo32 a) (lo32 b)
  let result := result + ((hi32 a * lo32 b).setWidth 64 <<< 32)
  return result + ((lo32 a * hi32 b).setWidth 64 <<< 32)

/-- Sums that fit come out right; `wrap` and `noWrap` both do that. -/
def Plus.Fits (plus : Plus) : Prop :=
  ∀ x y : Long, x.toNat + y.toNat < 2 ^ 32 → plus x y = some (x + y)

theorem wrap_fits : Plus.Fits wrap := fun _ _ _ => rfl

theorem noWrap_fits : Plus.Fits noWrap := fun _ _ h => if_pos h

/-- A sum that fits, as a number. -/
theorem Plus.Fits.sum {plus : Plus} (h : Plus.Fits plus) {x y : Long} {n : ℕ}
    (hn : x.toNat + y.toNat = n) (hlt : n < 2 ^ 32) : ∃ z, plus x y = some z ∧ z.toNat = n := by
  refine ⟨x + y, h x y (by omega), ?_⟩
  rw [BitVec.toNat_add]
  omega

/-- Halves with the same value are the same. -/
theorem parts_ext {p q : Fp32.U64Parts} (h : value p.hi p.lo = value q.hi q.lo) : p = q := by
  obtain ⟨ph, pl⟩ := p
  obtain ⟨qh, ql⟩ := q
  have h1 := pl.isLt
  have h2 := ql.isLt
  simp only [value] at h
  have hhi : ph = qh := BitVec.eq_of_toNat_eq (by omega)
  have hlo : pl = ql := BitVec.eq_of_toNat_eq (by omega)
  rw [hhi, hlo]

/-! ## Halves -/

theorem mask_toNat (x : Long) : (x &&& lowerMask).toNat = x.toNat % 2 ^ 16 := by
  rw [BitVec.toNat_and]
  exact Nat.and_two_pow_sub_one_eq_mod x.toNat 16

theorem half_toNat (x : Long) : (x >>> 16).toNat = x.toNat / 2 ^ 16 := shr_toNat x 16

theorem lift_toNat (x : Long) : (x <<< 16).toNat = x.toNat % 2 ^ 16 * 2 ^ 16 := shl_toNat (by decide) x

theorem masked_lift_toNat (x : Long) :
    ((x &&& lowerMask) <<< 16).toNat = x.toNat % 2 ^ 16 * 2 ^ 16 := by
  rw [lift_toNat, mask_toNat, Nat.mod_mod]

/-- The product of two halves fits, with room for two more halves. -/
theorem half_mul_le {x y : ℕ} (hx : x < 2 ^ 16) (hy : y < 2 ^ 16) :
    x * y ≤ 2 ^ 32 - 2 ^ 17 + 1 := by
  calc x * y ≤ (2 ^ 16 - 1) * (2 ^ 16 - 1) := Nat.mul_le_mul (by omega) (by omega)
    _ = 2 ^ 32 - 2 ^ 17 + 1 := by norm_num

theorem half_mul_toNat {x y : Long} (hx : x.toNat < 2 ^ 16) (hy : y.toNat < 2 ^ 16) :
    (x * y).toNat = x.toNat * y.toNat := by
  have h := half_mul_le hx hy
  rw [BitVec.toNat_mul]
  exact Nat.mod_eq_of_lt (by omega)

section Product
variable {plus : Plus} (a b : Long)

theorem low_low : ((a &&& lowerMask) * (b &&& lowerMask)).toNat =
    a.toNat % 2 ^ 16 * (b.toNat % 2 ^ 16) := by
  rw [half_mul_toNat, mask_toNat, mask_toNat]
  all_goals
    rw [mask_toNat]
    omega

theorem high_low : ((a >>> 16) * (b &&& lowerMask)).toNat =
    a.toNat / 2 ^ 16 * (b.toNat % 2 ^ 16) := by
  have ha := a.isLt
  have hx : (a >>> 16).toNat < 2 ^ 16 := by
    rw [half_toNat]
    omega
  rw [half_mul_toNat hx, half_toNat, mask_toNat]
  rw [mask_toNat]
  omega

theorem high_high : ((a >>> 16) * (b >>> 16)).toNat = a.toNat / 2 ^ 16 * (b.toNat / 2 ^ 16) := by
  have ha := a.isLt
  have hb := b.isLt
  rw [half_mul_toNat, half_toNat, half_toNat]
  all_goals
    rw [half_toNat]
    omega

/-- The partial products of `a * b`: none leaves less than two halves of room. -/
theorem partial_products : ∃ p0 p1 p2 p3 : ℕ,
    (p0 = a.toNat % 2 ^ 16 * (b.toNat % 2 ^ 16) ∧ p0 ≤ 2 ^ 32 - 2 ^ 17 + 1) ∧
    (p1 = b.toNat / 2 ^ 16 * (a.toNat % 2 ^ 16) ∧ p1 ≤ 2 ^ 32 - 2 ^ 17 + 1) ∧
    (p2 = a.toNat / 2 ^ 16 * (b.toNat % 2 ^ 16) ∧ p2 ≤ 2 ^ 32 - 2 ^ 17 + 1) ∧
    (p3 = a.toNat / 2 ^ 16 * (b.toNat / 2 ^ 16) ∧ p3 ≤ 2 ^ 32 - 2 ^ 17 + 1) ∧
    a.toNat * b.toNat = p3 * 2 ^ 32 + (p1 + p2) * 2 ^ 16 + p0 := by
  have ha := a.isLt
  have hb := b.isLt
  have hal : a.toNat % 2 ^ 16 < 2 ^ 16 := Nat.mod_lt _ (by decide)
  have hbl : b.toNat % 2 ^ 16 < 2 ^ 16 := Nat.mod_lt _ (by decide)
  have hah : a.toNat / 2 ^ 16 < 2 ^ 16 := by omega
  have hbh : b.toNat / 2 ^ 16 < 2 ^ 16 := by omega
  refine ⟨_, _, _, _, ⟨rfl, half_mul_le hal hbl⟩, ⟨rfl, half_mul_le hbh hal⟩,
    ⟨rfl, half_mul_le hah hbl⟩, ⟨rfl, half_mul_le hah hbh⟩, ?_⟩
  calc a.toNat * b.toNat
      = (a.toNat / 2 ^ 16 * 2 ^ 16 + a.toNat % 2 ^ 16) *
        (b.toNat / 2 ^ 16 * 2 ^ 16 + b.toNat % 2 ^ 16) := by
        rw [Nat.div_add_mod', Nat.div_add_mod']
    _ = _ := by ring

theorem muldsi3_value (h : Plus.Fits plus) :
    ∃ r, muldsi3 plus a b = some r ∧ r.toNat = a.toNat * b.toNat := by
  obtain ⟨p0, p1, p2, p3, ⟨h0, l0⟩, ⟨h1, l1⟩, ⟨h2, l2⟩, ⟨h3, l3⟩, htotal⟩ := partial_products a b
  have hll := (low_low a b).trans h0.symm
  have hlh := (high_low b a).trans h1.symm
  have hhl := (high_low a b).trans h2.symm
  have hhh := (high_high a b).trans h3.symm
  unfold muldsi3
  generalize (a &&& lowerMask) * (b &&& lowerMask) = w0 at *
  generalize (b >>> 16) * (a &&& lowerMask) = w1 at *
  generalize (a >>> 16) * (b &&& lowerMask) = w2 at *
  generalize (a >>> 16) * (b >>> 16) = w3 at *
  -- in the order of the code, each sum is the exact one
  obtain ⟨t, e1, v1⟩ := h.sum (n := p0 / 2 ^ 16 + p2) (x := w0 >>> 16) (y := w2)
    (by rw [half_toNat, hll, hhl]) (by omega)
  obtain ⟨lo, e2, v2⟩ := h.sum (n := p0 % 2 ^ 16 + t.toNat % 2 ^ 16 * 2 ^ 16)
    (x := w0 &&& lowerMask) (y := (t &&& lowerMask) <<< 16)
    (by rw [mask_toNat, masked_lift_toNat, hll]) (by omega)
  obtain ⟨t', e3, v3⟩ := h.sum (n := t.toNat % 2 ^ 16 + p1) (x := lo >>> 16) (y := w1)
    (by rw [half_toNat, hlh]; omega) (by omega)
  obtain ⟨lo', e4, v4⟩ := h.sum (n := p0 % 2 ^ 16 + t'.toNat % 2 ^ 16 * 2 ^ 16)
    (x := lo &&& lowerMask) (y := (t' &&& lowerMask) <<< 16)
    (by rw [mask_toNat, masked_lift_toNat]; omega) (by omega)
  obtain ⟨hi, e5, v5⟩ := h.sum (n := t.toNat / 2 ^ 16 + t'.toNat / 2 ^ 16) (x := t >>> 16)
    (y := t' >>> 16) (by rw [half_toNat, half_toNat]) (by omega)
  obtain ⟨hi', e6, v6⟩ := h.sum (n := hi.toNat + p3) (x := hi) (y := w3) (by rw [hhh]) (by omega)
  refine ⟨make64 hi' lo', ?_, ?_⟩
  · simp only [e1, e2, e3, e4, e5, e6, Option.bind_eq_bind, Option.bind_some, Option.pure_def]
  · rw [make64_toNat, value]
    omega

theorem mulU32U32_value (h : Plus.Fits plus) :
    ∃ r, Fp32.mulU32U32 plus a b = some r ∧ value r.hi r.lo = a.toNat * b.toNat := by
  obtain ⟨p0, p1, p2, p3, ⟨h0, l0⟩, ⟨h1, l1⟩, ⟨h2, l2⟩, ⟨h3, l3⟩, htotal⟩ := partial_products a b
  have hll := (low_low a b).trans h0.symm
  have hlh : ((a &&& lowerMask) * (b >>> 16)).toNat = p1 := by
    rw [BitVec.mul_comm, high_low, h1]
  have hhl := (high_low a b).trans h2.symm
  have hhh := (high_high a b).trans h3.symm
  have hmask : (0xFFFF#32 : Long) = lowerMask := rfl
  simp only [Fp32.mulU32U32, hmask]
  generalize (a &&& lowerMask) * (b &&& lowerMask) = w0 at *
  generalize (a &&& lowerMask) * (b >>> 16) = w1 at *
  generalize (a >>> 16) * (b &&& lowerMask) = w2 at *
  generalize (a >>> 16) * (b >>> 16) = w3 at *
  obtain ⟨m, e1, v1⟩ := h.sum (n := p1 % 2 ^ 16 + p2 % 2 ^ 16) (x := w1 &&& lowerMask)
    (y := w2 &&& lowerMask) (by rw [mask_toNat, mask_toNat, hlh, hhl]) (by omega)
  obtain ⟨mid, e2, v2⟩ := h.sum (n := m.toNat + p0 / 2 ^ 16) (x := m) (y := w0 >>> 16)
    (by rw [half_toNat, hll]) (by omega)
  obtain ⟨s, e3, v3⟩ := h.sum (n := p3 + p1 / 2 ^ 16) (x := w3) (y := w1 >>> 16)
    (by rw [half_toNat, hhh, hlh]) (by omega)
  obtain ⟨s', e4, v4⟩ := h.sum (n := s.toNat + p2 / 2 ^ 16) (x := s) (y := w2 >>> 16)
    (by rw [half_toNat, hhl]) (by omega)
  obtain ⟨hi, e5, v5⟩ := h.sum (n := s'.toNat + mid.toNat / 2 ^ 16) (x := s') (y := mid >>> 16)
    (by rw [half_toNat]) (by omega)
  refine ⟨⟨hi, (w0 &&& lowerMask) ||| (mid <<< 16)⟩, ?_, ?_⟩
  · simp only [e1, e2, e3, e4, e5, Option.bind_eq_bind, Option.bind_some, Option.pure_def]
  · have hlo : ((w0 &&& lowerMask) ||| (mid <<< 16)).toNat =
        mid.toNat % 2 ^ 16 * 2 ^ 16 + p0 % 2 ^ 16 := by
      rw [BitVec.or_comm, shl_or_toNat (by decide), mask_toNat, hll]
      rw [mask_toNat]
      omega
    change hi.toNat * 2 ^ 32 + _ = _
    rw [hlo]
    omega

end Product

/-- Of the four partial products of a 64-bit product, three reach below `2^64`. -/
theorem mul_halves (a b : LongLong) :
    ((lo32 a).toNat * (lo32 b).toNat + (hi32 a).toNat * (lo32 b).toNat % 2 ^ 32 * 2 ^ 32 +
      (lo32 a).toNat * (hi32 b).toNat % 2 ^ 32 * 2 ^ 32) % 2 ^ 64 =
        a.toNat * b.toNat % 2 ^ 64 := by
  have htotal : a.toNat * b.toNat = (lo32 a).toNat * (lo32 b).toNat +
      ((hi32 a).toNat * (lo32 b).toNat + (lo32 a).toNat * (hi32 b).toNat) * 2 ^ 32 +
      (hi32 a).toNat * (hi32 b).toNat * 2 ^ 64 := by
    calc a.toNat * b.toNat
        = ((hi32 a).toNat * 2 ^ 32 + (lo32 a).toNat) *
          ((hi32 b).toNat * 2 ^ 32 + (lo32 b).toNat) := by
          rw [← value, ← value, value_halves, value_halves]
      _ = _ := by ring
  rw [htotal]
  omega

theorem muldi3_value {plus : Plus} (h : Plus.Fits plus) (a b : LongLong) :
    muldi3 plus a b = some (a * b) := by
  obtain ⟨r, hr, hval⟩ := muldsi3_value (lo32 a) (lo32 b) h
  have hcross : ∀ x y : Long,
      ((x * y).setWidth 64 <<< 32).toNat = x.toNat * y.toNat % 2 ^ 32 * 2 ^ 32 := fun x y => by
    have hlt : x.toNat * y.toNat % 2 ^ 32 < 2 ^ 32 := Nat.mod_lt _ (by decide)
    rw [BitVec.toNat_shiftLeft, setWidth_toNat, BitVec.toNat_mul, Nat.shiftLeft_eq]
    omega
  simp only [muldi3, hr, Option.bind_eq_bind, Option.bind_some, Option.pure_def, Option.some.injEq]
  apply BitVec.eq_of_toNat_eq
  rw [BitVec.toNat_add, BitVec.toNat_add, hcross, hcross, hval, Nat.mod_add_mod, mul_halves,
    BitVec.toNat_mul]

theorem fp32_muldi3_value {plus : Plus} (h : Plus.Fits plus) (a b : LongLong) :
    Fp32.muldi3 plus a b = some (a * b) := by
  obtain ⟨p0, e0, v0⟩ := mulU32U32_value (lo32 a) (lo32 b) h
  obtain ⟨p1, e1, v1⟩ := mulU32U32_value (lo32 a) (hi32 b) h
  obtain ⟨p2, e2, v2⟩ := mulU32U32_value (hi32 a) (lo32 b) h
  have hlow : ∀ p : Fp32.U64Parts, p.lo.toNat = value p.hi p.lo % 2 ^ 32 := fun p => by
    have := p.lo.isLt
    unfold value
    omega
  simp only [Fp32.muldi3, Fp32.U64Parts.ofU64, e0, e1, e2, Option.bind_eq_bind, Option.bind_some,
    Option.pure_def, Option.some.injEq, Fp32.U64Parts.u64]
  apply BitVec.eq_of_toNat_eq
  rw [make64_toNat, value, BitVec.toNat_add, BitVec.toNat_add, hlow p1, hlow p2, v1, v2,
    BitVec.toNat_mul, ← mul_halves, ← v0, value]
  have h0 := p0.lo.isLt
  omega

/-- Both definitions of `__muldi3` multiply, and no sum inside the two 32-bit
products wraps. -/
theorem muldi3_versions_agree (a b : LongLong) (x y : Long) :
    (muldi3 wrap a b = some (BitVec.ofNat 64 (a.toNat * b.toNat)) ∧
      Fp32.muldi3 wrap a b = some (BitVec.ofNat 64 (a.toNat * b.toNat))) ∧
    (∃ r, muldsi3 wrap x y = some r ∧ muldsi3 noWrap x y = some r ∧
      r.toNat = x.toNat * y.toNat) ∧
    ∃ p, Fp32.mulU32U32 wrap x y = some p ∧ Fp32.mulU32U32 noWrap x y = some p ∧
      p.hi.toNat * 2 ^ 32 + p.lo.toNat = x.toNat * y.toNat := by
  have hmul : a * b = BitVec.ofNat 64 (a.toNat * b.toNat) := by
    apply BitVec.eq_of_toNat_eq
    rw [BitVec.toNat_mul, BitVec.toNat_ofNat]
  refine ⟨⟨?_, ?_⟩, ?_, ?_⟩
  · rw [muldi3_value wrap_fits, hmul]
  · rw [fp32_muldi3_value wrap_fits, hmul]
  · obtain ⟨r, hr, hval⟩ := muldsi3_value x y wrap_fits
    obtain ⟨r', hr', hval'⟩ := muldsi3_value x y noWrap_fits
    have heq : r' = r := BitVec.eq_of_toNat_eq (hval'.trans hval.symm)
    exact ⟨r, hr, heq ▸ hr', hval⟩
  · obtain ⟨p, hp, hval⟩ := mulU32U32_value x y wrap_fits
    obtain ⟨p', hp', hval'⟩ := mulU32U32_value x y noWrap_fits
    have heq : p' = p := parts_ext (hval'.trans hval.symm)
    exact ⟨p, hp, heq ▸ hp', hval⟩

end LlvmTms9900.Builtins.Muldi3
