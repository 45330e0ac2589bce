import LlvmTms9900.Libm.SincosfError

/-!
# Accuracy and parity of sinf and cosf

Both functions are the kernels turned by the quarter the argument is in. The
operations are symmetric in the sign, so that the parity is exact.
-/

namespace LlvmTms9900.Libm
open LlvmTms9900.Softfloat LlvmTms9900.Arith
open LlvmTms9900.Isa (Word)

section Accuracy
variable {x y z : Rep} {n : Word} {r : Reduced}
open Real (pi)

theorem pi_half_near : |pi / 2 - (13176795 / 2 ^ 23 + -(12303662 / 2 ^ 48))| ≤ 1 / 2 ^ 48 := by
  have hlo := Real.pi_gt_d20
  have hhi := Real.pi_lt_d20
  rw [abs_le]
  norm_num at hlo hhi ⊢
  constructor <;> linarith

/-- The rest against the real number of quarter turns. -/
theorem ReducedTo.real_error (h : ReducedTo x r) :
    |real r.y - (real x - r.n.toInt * (pi / 2))| ≤ |real x| / 2 ^ 24 + 4 / 2 ^ 24 := by
  obtain ⟨m, hm⟩ : ∃ m : ℤ, r.n.toInt = m := ⟨_, rfl⟩
  have herr := h.error
  have hturns := h.turns
  rw [hm] at herr hturns ⊢
  have hreal : |real r.y - (real x - m * (13176795 / 2 ^ 23 + -(12303662 / 2 ^ 48)))| ≤
      |real x| / 2 ^ 24 + 3 / 2 ^ 24 := by
    rw [value_pio2Hi, value_pio2Lo] at herr
    have hcast := (Rat.cast_le (K := ℝ)).2 herr
    push_cast at hcast
    exact hcast
  have hmR : |(m : ℝ)| ≤ 2 ^ 15 := by exact_mod_cast hturns.le
  have hpi : |(m : ℝ) * (pi / 2 - (13176795 / 2 ^ 23 + -(12303662 / 2 ^ 48)))| ≤
      2 ^ 15 * (1 / 2 ^ 48) := by
    rw [abs_mul]
    exact mul_le_mul hmR pi_half_near (abs_nonneg _) (by norm_num)
  have hsplit : real r.y - (real x - m * (pi / 2)) =
      (real r.y - (real x - m * (13176795 / 2 ^ 23 + -(12303662 / 2 ^ 48)))) +
        m * (pi / 2 - (13176795 / 2 ^ 23 + -(12303662 / 2 ^ 48))) := by ring
  rw [hsplit]
  refine (abs_add_le _ _).trans ((add_le_add hreal hpi).trans ?_)
  rw [add_assoc]
  exact add_le_add_right (by norm_num) _

theorem quadrant_eq (n : Word) (c0 c1 c2 c3 : Option Rep) : quadrant n c0 c1 c2 c3 =
    if n.toInt % 4 = 0 then c0 else if n.toInt % 4 = 1 then c1
      else if n.toInt % 4 = 2 then c2 else c3 := by
  have hmask : (n &&& 3#16).toNat = n.toNat % 4 := by
    have hthree : (3#16).toNat = 2 ^ 2 - 1 := rfl
    rw [BitVec.toNat_and, hthree, Nat.and_two_pow_sub_one_eq_mod]
  have hmod : n.toInt % 4 = (n.toNat % 4 : ℕ) := by
    rw [BitVec.toInt_eq_toNat_cond]
    split <;> omega
  have hiff : ∀ k : ℕ, k < 4 → (n &&& 3#16 = BitVec.ofNat 16 k ↔ n.toInt % 4 = k) := by
    intro k hk
    rw [hmod, Nat.cast_inj, ← hmask, ← BitVec.toNat_inj, BitVec.toNat_ofNat,
      Nat.mod_eq_of_lt (by omega)]
  unfold quadrant
  simp only [hiff 0 (by norm_num), hiff 1 (by norm_num), hiff 2 (by norm_num), Nat.cast_zero,
    Nat.cast_one, Nat.cast_ofNat]

theorem real_negsf2 (a : Rep) : real (negsf2 a) = -real a := by
  unfold real
  rw [value_negsf2, Rat.cast_neg]

/-- A result within `e` of the sine of the rest, turned. -/
def Near (e : ℝ) (m : ℤ) (y : Rep) (res : Option Rep) : Prop :=
  ∃ z, res = some z ∧ Softfloat.Finite z ∧ |real z - sinQuarter m (real y)| ≤ e

theorem near_neg {res : Option Rep} {w : ℝ} {e : ℝ}
    (h : ∃ z, res = some z ∧ Softfloat.Finite z ∧ |real z - w| ≤ e) :
    ∃ z, res.map negsf2 = some z ∧ Softfloat.Finite z ∧ |real z - -w| ≤ e := by
  obtain ⟨z, rfl, hf, he⟩ := h
  refine ⟨negsf2 z, rfl, by rwa [Softfloat.Finite, (packed_negsf2 z).code], ?_⟩
  rw [real_negsf2, ← abs_neg]
  have hsub : -(-real z - -w) = real z - w := by ring
  rwa [hsub]

/-- What a number of quarter turns makes of a sine and a cosine. -/
def quarter (m : ℤ) (sine cosine : Option Rep) : Option Rep :=
  if m % 4 = 0 then sine else if m % 4 = 1 then cosine
  else if m % 4 = 2 then sine.map negsf2 else cosine.map negsf2

theorem quarter_error (hf : Softfloat.Finite y) (hy : |value y| ≤ 41 / 50) (m : ℤ) :
    Near (102 / 2 ^ 24) m y (quarter m (kernelSinf y) (kernelCosf y)) := by
  have hsin : ∃ z, kernelSinf y = some z ∧ Softfloat.Finite z ∧
      |real z - Real.sin (real y)| ≤ 102 / 2 ^ 24 := by
    obtain ⟨z, hz, hzf, he⟩ := kernelSinf_error hf hy
    exact ⟨z, hz, hzf, he.trans (by norm_num)⟩
  have hcos := kernelCosf_error hf hy
  unfold Near sinQuarter quarter
  split_ifs
  · exact hsin
  · exact hcos
  · exact near_neg hsin
  · exact near_neg hcos

theorem sinf_eq (hr : remPio2f x = some r) :
    sinf x = quarter r.n.toInt (kernelSinf r.y) (kernelCosf r.y) := by
  rw [quarter, ← quadrant_eq, sinf, hr]
  rfl

/-- The cosine is the sine of a quarter turn more. -/
theorem cosf_eq (hr : remPio2f x = some r) :
    cosf x = quarter (r.n.toInt + 1) (kernelSinf r.y) (kernelCosf r.y) := by
  have hq : cosf x = quadrant r.n (kernelCosf r.y) ((kernelSinf r.y).map negsf2)
      ((kernelCosf r.y).map negsf2) (kernelSinf r.y) := by
    rw [cosf, hr]
    rfl
  rw [hq, quadrant_eq, quarter]
  have hlt := Int.emod_lt_of_pos r.n.toInt (by norm_num : (0 : ℤ) < 4)
  have hge := Int.emod_nonneg r.n.toInt (by norm_num : (4 : ℤ) ≠ 0)
  split_ifs <;> first | rfl | omega

theorem Near.error (h : ReducedTo x r) {m : ℤ} {res : Option Rep}
    (hn : Near (102 / 2 ^ 24) m r.y res) :
    ∃ z, res = some z ∧ Softfloat.Finite z ∧
      |real z - sinQuarter m (real x - r.n.toInt * (pi / 2))| ≤ 1 / 2 ^ 17 + |real x| / 2 ^ 24 := by
  obtain ⟨z, hz, hf, he⟩ := hn
  refine ⟨z, hz, hf, ?_⟩
  have htri := abs_sub_le (real z) (sinQuarter m (real r.y))
    (sinQuarter m (real x - r.n.toInt * (pi / 2)))
  have hlip := sinQuarter_sub_le m (real r.y) (real x - r.n.toInt * (pi / 2))
  have hred := h.real_error
  norm_num at he hred ⊢
  linarith

theorem sinf_error (hx : Softfloat.Finite x) (hV : |value x| ≤ 51471) :
    ∃ z, sinf x = some z ∧ Softfloat.Finite z ∧
      |real z - Real.sin (real x)| ≤ 1 / 2 ^ 17 + |real x| / 2 ^ 24 := by
  obtain ⟨r, hr, hred⟩ := (remPio2f_cases hx (hV.trans_lt (by norm_num))).resolve_left
    fun h => absurd h.2 (not_lt.2 hV)
  rw [sinf_eq hr]
  obtain ⟨z, hz, hf, he⟩ := (quarter_error hred.finite hred.small r.n.toInt).error hred
  rw [← sin_add_quarters, sub_add_cancel] at he
  exact ⟨z, hz, hf, he⟩

theorem cosf_error (hx : Softfloat.Finite x) (hV : |value x| ≤ 51471) :
    ∃ z, cosf x = some z ∧ Softfloat.Finite z ∧
      |real z - Real.cos (real x)| ≤ 1 / 2 ^ 17 + |real x| / 2 ^ 24 := by
  obtain ⟨r, hr, hred⟩ := (remPio2f_cases hx (hV.trans_lt (by norm_num))).resolve_left
    fun h => absurd h.2 (not_lt.2 hV)
  rw [cosf_eq hr]
  obtain ⟨z, hz, hf, he⟩ := (quarter_error hred.finite hred.small (r.n.toInt + 1)).error hred
  rw [← cos_add_quarters, sub_add_cancel] at he
  exact ⟨z, hz, hf, he⟩

/-- Up to `pi / 4` nothing is taken off and the sine is the better one. -/
theorem sinf_small_error (h : code x ≤ code pio4) :
    ∃ z, sinf x = some z ∧ |real z - Real.sin (real x)| ≤ 1 / 2 ^ 20 := by
  have hfin : Softfloat.Finite x := lt_of_le_of_lt h (by decide)
  have hV := ((abs_value_le_pio4 x).2 h).trans (by norm_num : _ ≤ (41 / 50 : ℚ))
  obtain ⟨z, hz, -, he⟩ := kernelSinf_error hfin hV
  refine ⟨z, ?_, he.trans (by norm_num)⟩
  rw [sinf_eq (remPio2f_small h), ← hz]
  rfl

/-- For every argument whose multiple of `pi / 2` fits an `int`, `sinf` and `cosf`
are within `2 ^ -17` and the part `2 ^ -24` of the argument, and up to `pi / 4`
`sinf` is within `2 ^ -20`. -/
theorem sincosf_accurate (hx : Softfloat.Finite x) (hV : |value x| ≤ 51471) :
    (∃ z, sinf x = some z ∧ Softfloat.Finite z ∧
      |real z - Real.sin (real x)| ≤ 1 / 2 ^ 17 + |real x| / 2 ^ 24) ∧
    (∃ z, cosf x = some z ∧ Softfloat.Finite z ∧
      |real z - Real.cos (real x)| ≤ 1 / 2 ^ 17 + |real x| / 2 ^ 24) ∧
    (code x ≤ code pio4 → ∃ z, sinf x = some z ∧ |real z - Real.sin (real x)| ≤ 1 / 2 ^ 20) :=
  ⟨sinf_error hx hV, cosf_error hx hV, sinf_small_error⟩

theorem sincosf_accurate_one :
    ∃ z, cosf one = some z ∧ |real z - Real.cos (real one)| ≤ 1 / 2 ^ 17 + |real one| / 2 ^ 24 := by
  have hV : |value one| ≤ 51471 := by
    rw [value_one]
    norm_num
  obtain ⟨-, ⟨z, hz, -, he⟩, -⟩ := sincosf_accurate (x := one) (by decide) hV
  exact ⟨z, hz, he⟩

end Accuracy

section Parity
variable {a b x y z : Rep} {s : Bool} {q : ℚ} {r : Reduced}

theorem rounded_neg (h : Rounded q s z) : Rounded (-q) (!s) (negsf2 z) := by
  have hp := packed_negsf2 z
  refine ⟨?_, by rw [hp.msb, h.sign]⟩
  rw [abs_neg, hp.code]
  exact h.nearest

theorem mulsf3_neg_left (ha : Softfloat.Finite a) (hb : Softfloat.Finite b) :
    mulsf3 (negsf2 a) b = (mulsf3 a b).map negsf2 := by
  have hp := packed_negsf2 a
  have ha' : Softfloat.Finite (negsf2 a) := by rwa [Softfloat.Finite, hp.code]
  have hrounds : ∀ {c : Rep}, Softfloat.Finite c → ∃ z, mulsf3 c b = some z ∧
      Rounded (value c * value b) (c.msb ^^ b.msb) z := by
    intro c hc
    obtain ⟨z, hz, hr⟩ := mulsf3_result c b
    refine ⟨z, hz, hr.rounded ?_ (not_or.2 ⟨hc.not_isInf, hb.not_isInf⟩)⟩
    rintro (h | h | h | h)
    exacts [hc.not_isNaN h, hb.not_isNaN h, hc.not_isInf h.1, hb.not_isInf h.2]
  obtain ⟨z, hz, hr⟩ := hrounds ha
  obtain ⟨w, hw, hr'⟩ := hrounds ha'
  rw [value_negsf2, neg_mul, hp.msb, Bool.not_xor] at hr'
  rw [hz, hw, Option.map_some, hr'.unique (rounded_neg hr)]

theorem negsf2_negsf2 (a : Rep) : negsf2 (negsf2 a) = a := by
  rw [negsf2, negsf2, BitVec.xor_assoc, BitVec.xor_self, BitVec.xor_zero]

theorem map_negsf2_map (o : Option Rep) : (o.map negsf2).map negsf2 = o := by
  have hid : negsf2 ∘ negsf2 = id := funext negsf2_negsf2
  rw [Option.map_map, hid, Option.map_id_fun, id]

theorem square_neg (ha : Softfloat.Finite a) : mulsf3 (negsf2 a) (negsf2 a) = mulsf3 a a := by
  have ha' : Softfloat.Finite (negsf2 a) := by rwa [Softfloat.Finite, (packed_negsf2 a).code]
  rw [mulsf3_neg_left ha ha', mulsf3_comm ?_, mulsf3_neg_left ha ha, map_negsf2_map]
  rintro (h | h | h | h)
  exacts [ha.not_isNaN h, ha'.not_isNaN h, ha.not_isInf h.1, ha'.not_isInf h.2]

theorem kernelCosf_neg (hy : Softfloat.Finite y) : kernelCosf (negsf2 y) = kernelCosf y := by
  unfold kernelCosf
  rw [square_neg hy]

theorem kernelSinf_neg (hy : Softfloat.Finite y) (hbound : |value y| ≤ 41 / 50) :
    kernelSinf (negsf2 y) = (kernelSinf y).map negsf2 := by
  obtain ⟨x2, hx2, hsq, hsq'⟩ := square_approx hy hbound
  obtain ⟨p, hp, happ, -⟩ := polynomial_approx finite_sin.1 finite_sin.2.1 finite_sin.2.2
    (by rw [value_sin1]; norm_num [abs_of_pos]) (by rw [value_sin2]; norm_num [abs_of_pos])
    (by rw [value_sin3]; norm_num [abs_of_pos]) hsq hsq'
  simp only [kernelSinf, square_neg hy, hx2, hp, Option.bind_eq_bind, Option.bind_some]
  exact mulsf3_neg_left hy happ.finite

/-- Both parts of a reduced argument with the other sign. -/
def Reduced.neg (r : Reduced) : Reduced := ⟨-r.n, negsf2 r.y⟩

theorem signed_neg (x : Rep) (n : Word) (y : Rep) : signed (negsf2 x) n y = (signed x n y).neg := by
  have hm := (packed_negsf2 x).msb
  unfold signed
  simp only [sign_ne_zero_iff, hm]
  cases x.msb
  · rw [Bool.not_false, if_pos rfl, if_neg Bool.false_ne_true, Reduced.neg]
  · rw [Bool.not_true, if_neg Bool.false_ne_true, if_pos rfl, Reduced.neg, neg_neg, negsf2_negsf2]

theorem absolute_neg (x : Rep) : absolute (negsf2 x) = absolute x := by
  have h := packed_absolute x
  have h' := packed_absolute (negsf2 x)
  rw [(packed_negsf2 x).code] at h'
  exact rep_ext (h'.code.trans h.code.symm) (h'.msb.trans h.msb.symm)

theorem remPio2f_neg (x : Rep) : remPio2f (negsf2 x) = (remPio2f x).map Reduced.neg := by
  have hcode := (packed_negsf2 x).code
  rcases le_or_gt (code x) (code pio4) with hsmall | hlarge
  · rw [remPio2f_small hsmall, remPio2f_small (hcode ▸ hsmall), Option.map_some, Reduced.neg,
      BitVec.neg_zero]
  · have hfun : signed (negsf2 x) = fun n y => (signed x n y).neg :=
      funext fun n => funext (signed_neg x n)
    rw [remPio2f_large hlarge, remPio2f_large (hcode.symm ▸ hlarge), absolute_neg, hfun]
    simp only [Option.map_bind, Function.comp_def, Option.map_map]

/-- What the reduction gives, if anything. -/
theorem remPio2f_reducedTo (hr : remPio2f x = some r) : ReducedTo x r := by
  have hsome : ¬ remPio2f x = none := by
    rw [hr]
    exact Option.some_ne_none r
  by_cases hx : Softfloat.Finite x ∧ |value x| < 2 ^ 16
  · obtain ⟨r', hr', hred⟩ := (remPio2f_cases hx.1 hx.2).resolve_left fun h => hsome h.1
    rw [hr, Option.some.injEq] at hr'
    exact hr' ▸ hred
  · refine absurd (remPio2f_none ?_) hsome
    by_cases hf : Softfloat.Finite x
    · exact .inr (not_lt.1 fun h => hx ⟨hf, h⟩)
    · exact .inl hf

theorem ReducedTo.neg_turns (h : ReducedTo x r) : r.neg.n.toInt = -r.n.toInt := by
  have hturns := abs_lt.1 h.turns
  change (-r.n).toInt = _
  rw [BitVec.toInt_neg, Int.bmod_eq_of_le (by omega) (by omega)]

theorem quarter_neg (m : ℤ) (sine cosine : Option Rep) :
    quarter (-m) (sine.map negsf2) cosine = (quarter m sine cosine).map negsf2 := by
  unfold quarter
  split_ifs <;> first | rfl | omega | exact (map_negsf2_map _).symm

theorem quarter_neg_succ (m : ℤ) (sine cosine : Option Rep) :
    quarter (-m + 1) (sine.map negsf2) cosine = quarter (m + 1) sine cosine := by
  unfold quarter
  split_ifs <;> first | rfl | omega | exact map_negsf2_map _

/-- Both functions of the negated argument, from the negated rest. -/
theorem sincosf_neg (hr : remPio2f x = some r) :
    sinf (negsf2 x) = (sinf x).map negsf2 ∧ cosf (negsf2 x) = cosf x := by
  have hred := remPio2f_reducedTo hr
  have hr' := remPio2f_neg x
  rw [hr, Option.map_some] at hr'
  have hn := hred.neg_turns
  have hsin : kernelSinf r.neg.y = (kernelSinf r.y).map negsf2 :=
    kernelSinf_neg hred.finite hred.small
  have hcos : kernelCosf r.neg.y = kernelCosf r.y := kernelCosf_neg hred.finite
  rw [sinf_eq hr, sinf_eq hr', cosf_eq hr, cosf_eq hr', hn, hsin, hcos]
  exact ⟨quarter_neg _ _ _, quarter_neg_succ _ _ _⟩

/-- `sinf` is odd and `cosf` even to the last bit, also where a conversion to `int`
is out of range and there is no result: a NaN, an infinity and everything from
`2 ^ 16` on. -/
theorem sincosf_parity (x : Rep) :
    sinf (negsf2 x) = (sinf x).map negsf2 ∧ cosf (negsf2 x) = cosf x ∧
      (¬ Softfloat.Finite x ∨ 2 ^ 16 ≤ |value x| → sinf x = none ∧ cosf x = none) := by
  cases hr : remPio2f x with
  | none =>
    have hr' := remPio2f_neg x
    rw [hr, Option.map_none] at hr'
    have hnone : ∀ {w : Rep}, remPio2f w = none → sinf w = none ∧ cosf w = none := by
      intro w hw
      rw [sinf, cosf, hw]
      exact ⟨rfl, rfl⟩
    rw [(hnone hr).1, (hnone hr).2, (hnone hr').1, (hnone hr').2]
    exact ⟨rfl, rfl, fun _ => ⟨rfl, rfl⟩⟩
  | some r =>
    obtain ⟨hsin, hcos⟩ := sincosf_neg hr
    refine ⟨hsin, hcos, fun hx => ?_⟩
    rw [remPio2f_none hx] at hr
    exact absurd hr (Option.some_ne_none r).symm

end Parity

end LlvmTms9900.Libm
