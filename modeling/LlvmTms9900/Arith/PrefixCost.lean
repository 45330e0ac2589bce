import LlvmTms9900.Arith.CodeTree

/-!
# Least cost of a code tree

Lengths for the symbols of a code satisfy Kraft's inequality. Joining two of the
lightest trees again and again gives a tree that costs no more than any such
lengths do: lengths for the roots of a forest can be changed, at no cost, to
make the two lightest the deepest, and equally deep.
-/

namespace LlvmTms9900.Arith

section Kraft
variable {ι : Type} {s : Finset ι} {w d : ι → ℕ} {i j a b : ι}

/-- Kraft's inequality. -/
def Kraft (s : Finset ι) (d : ι → ℕ) : Prop := ∑ i ∈ s, (1 / 2 : ℚ) ^ d i ≤ 1

/-- Lengths weighted with how often they are used. -/
def lengthCost (s : Finset ι) (w d : ι → ℕ) : ℕ := ∑ i ∈ s, w i * d i

theorem pow_half_mul {d E : ℕ} (h : d ≤ E) : (2 : ℚ) ^ E * (1 / 2) ^ d = 2 ^ (E - d) := by
  obtain ⟨c, rfl⟩ := Nat.exists_eq_add_of_le h
  rw [Nat.add_sub_cancel_left, pow_add, mul_comm ((2 : ℚ) ^ d), mul_assoc, ← mul_pow]
  norm_num

theorem sum_pow_sub {E : ℕ} (hE : ∀ k ∈ s, d k ≤ E) :
    ((∑ k ∈ s, 2 ^ (E - d k) : ℕ) : ℚ) = 2 ^ E * ∑ k ∈ s, (1 / 2 : ℚ) ^ d k := by
  rw [Finset.mul_sum]
  push_cast
  exact Finset.sum_congr rfl fun k hk => (pow_half_mul (hE k hk)).symm

variable [DecidableEq ι]

/-- What is left for a length when the others are at most `E`. -/
theorem Kraft.rest_lt (h : Kraft s d) (ha : a ∈ s) {E : ℕ} (hE : ∀ k ∈ s.erase a, d k ≤ E) :
    ∑ k ∈ s.erase a, 2 ^ (E - d k) < 2 ^ E := by
  have hpos : (0 : ℚ) < (1 / 2) ^ d a := by positivity
  have hle : (1 / 2 : ℚ) ^ d a + ∑ k ∈ s.erase a, (1 / 2 : ℚ) ^ d k ≤ 1 := by
    rw [Finset.add_sum_erase s (fun k => (1 / 2 : ℚ) ^ d k) ha]
    exact h
  have hlt : 2 ^ E * ∑ k ∈ s.erase a, (1 / 2 : ℚ) ^ d k < 2 ^ E * 1 :=
    mul_lt_mul_of_pos_left (by linarith) (by positivity)
  rw [mul_one, ← sum_pow_sub hE] at hlt
  exact_mod_cast hlt

/-- The longest length can be made as short as the next longest. -/
theorem Kraft.shorten (h : Kraft s d) (ha : a ∈ s) (hb : b ∈ s.erase a)
    (hE : ∀ k ∈ s.erase a, d k ≤ d b) : Kraft s (Function.update d a (d b)) ∧ 1 ≤ d b := by
  have hlt := h.rest_lt ha hE
  have hone : 2 ^ (d b - d b) ≤ ∑ k ∈ s.erase a, 2 ^ (d b - d k) :=
    Finset.single_le_sum (f := fun k => 2 ^ (d b - d k)) (fun _ _ => Nat.zero_le _) hb
  constructor
  · have hle : ((∑ k ∈ s.erase a, 2 ^ (d b - d k) : ℕ) : ℚ) + 1 ≤ 2 ^ d b := by
      exact_mod_cast hlt
    rw [sum_pow_sub hE] at hle
    have hpow : (2 : ℚ) ^ d b * (1 / 2) ^ d b = 1 := by
      rw [pow_half_mul le_rfl, Nat.sub_self, pow_zero]
    have hrest : ∑ k ∈ s.erase a, (1 / 2 : ℚ) ^ Function.update d a (d b) k =
        ∑ k ∈ s.erase a, (1 / 2 : ℚ) ^ d k := Finset.sum_congr rfl fun k hk => by
      rw [Function.update_of_ne (Finset.ne_of_mem_erase hk)]
    rw [Kraft, ← Finset.add_sum_erase s _ ha, hrest, Function.update_self]
    have hpos : (0 : ℚ) < 2 ^ d b := by positivity
    refine le_of_mul_le_mul_left ?_ hpos
    rw [mul_add, hpow, mul_one]
    linarith
  · by_contra h0
    rw [show d b = 0 by omega] at hlt hone
    rw [pow_zero] at hlt
    rw [Nat.sub_self, pow_zero] at hone
    omega

theorem Kraft.swap (h : Kraft s d) (hi : i ∈ s) (ha : a ∈ s) : Kraft s (d ∘ Equiv.swap i a) := by
  have hsum := Equiv.Perm.sum_comp (Equiv.swap i a) s (fun k => (1 / 2 : ℚ) ^ d k) (by
    intro k hk
    by_contra hks
    exact hk (Equiv.swap_apply_of_ne_of_ne (fun he => hks (he ▸ hi)) fun he => hks (he ▸ ha)))
  exact hsum.trans_le h

/-- The longer length goes to the lighter one. -/
theorem lengthCost_swap (hi : i ∈ s) (ha : a ∈ s) (hd : d i ≤ d a) (hw : a ≠ i → w i ≤ w a) :
    lengthCost s w (d ∘ Equiv.swap i a) ≤ lengthCost s w d := by
  by_cases hai : a = i
  · rw [hai, Equiv.swap_self]
    exact le_rfl
  · have hrest : ∑ k ∈ (s.erase i).erase a, w k * (d ∘ Equiv.swap i a) k =
        ∑ k ∈ (s.erase i).erase a, w k * d k := Finset.sum_congr rfl fun k hk => by
      obtain ⟨hka, hk⟩ := Finset.mem_erase.1 hk
      rw [Function.comp_apply, Equiv.swap_apply_of_ne_of_ne (Finset.ne_of_mem_erase hk) hka]
    have hmul := mul_add_mul_le_mul_add_mul (hw hai) hd
    rw [lengthCost, lengthCost, CodeTree.sum_pair _ hi ha (Ne.symm hai),
      CodeTree.sum_pair (fun k => w k * d k) hi ha (Ne.symm hai), hrest, Function.comp_apply,
      Function.comp_apply, Equiv.swap_apply_left, Equiv.swap_apply_right]
    omega

/-- Two lengths are the longest. -/
theorem Kraft.deepest (h : Kraft s d) (hi : i ∈ s) (hj : j ∈ s) (hij : i ≠ j) :
    ∃ e, Kraft s e ∧ lengthCost s w e ≤ lengthCost s w d ∧
      ∃ a ∈ s, ∃ b ∈ s, a ≠ b ∧ e a = e b ∧ 1 ≤ e b ∧ ∀ k ∈ s, e k ≤ e b := by
  obtain ⟨a, ha, hmax⟩ := Finset.exists_max_image s d ⟨i, hi⟩
  have hne : (s.erase a).Nonempty := by
    by_cases hia : i = a
    · exact ⟨j, Finset.mem_erase.2 ⟨fun he => hij (hia.trans he.symm), hj⟩⟩
    · exact ⟨i, Finset.mem_erase.2 ⟨hia, hi⟩⟩
  obtain ⟨b, hb, hsecond⟩ := Finset.exists_max_image (s.erase a) d hne
  obtain ⟨hba, hbs⟩ := Finset.mem_erase.1 hb
  obtain ⟨hk, hpos⟩ := h.shorten ha hb hsecond
  refine ⟨_, hk, Finset.sum_le_sum fun k _ => Nat.mul_le_mul_left _ ?_, a, ha, b, hbs, hba.symm,
    ?_, ?_, fun k hks => ?_⟩
  · by_cases hka : k = a
    · rw [hka, Function.update_self]
      exact hmax b hbs
    · rw [Function.update_of_ne hka]
  · rw [Function.update_self, Function.update_of_ne hba]
  · rw [Function.update_of_ne hba]
    exact hpos
  · rw [Function.update_of_ne hba]
    by_cases hka : k = a
    · rw [hka, Function.update_self]
    · rw [Function.update_of_ne hka]
      exact hsecond k (Finset.mem_erase.2 ⟨hka, hks⟩)

/-- The two lightest can be given one length. -/
theorem Kraft.siblings (h : Kraft s d) (hi : i ∈ s) (hj : j ∈ s) (hij : i ≠ j)
    (hmin : ∀ k ∈ s, k ≠ i → k ≠ j → w i ≤ w k ∧ w j ≤ w k) :
    ∃ e, Kraft s e ∧ lengthCost s w e ≤ lengthCost s w d ∧ e i = e j ∧ 1 ≤ e i := by
  obtain ⟨d₀, h₀, hc₀, a₀, ha₀, b₀, hb₀, hab₀, he₀, hpos, hmax⟩ := h.deepest (w := w) hi hj hij
  -- name the deepest two so that `i` changes places with `a` and `j` with `b`
  obtain ⟨a, ha, b, hb, hab, hea, heb, haj, hbi⟩ : ∃ a ∈ s, ∃ b ∈ s, a ≠ b ∧ d₀ a = d₀ b₀ ∧
      d₀ b = d₀ b₀ ∧ a ≠ j ∧ b ≠ i := by
    by_cases hcross : a₀ = j ∨ b₀ = i
    · refine ⟨b₀, hb₀, a₀, ha₀, hab₀.symm, rfl, he₀, ?_, ?_⟩
      · rcases hcross with rfl | rfl
        · exact hab₀.symm
        · exact hij
      · rcases hcross with rfl | rfl
        · exact hij.symm
        · exact hab₀
    · rw [not_or] at hcross
      exact ⟨a₀, ha₀, b₀, hb₀, hab₀, he₀, rfl, hcross.1, hcross.2⟩
  have h₁ := h₀.swap hi ha
  have hc₁ := lengthCost_swap (w := w) hi ha (hea ▸ hmax i hi) fun hai => (hmin a ha hai haj).1
  have hj₁ : (d₀ ∘ Equiv.swap i a) j = d₀ j := by
    rw [Function.comp_apply, Equiv.swap_apply_of_ne_of_ne hij.symm haj.symm]
  have hb₁ : (d₀ ∘ Equiv.swap i a) b = d₀ b₀ := by
    rw [Function.comp_apply, Equiv.swap_apply_of_ne_of_ne hbi hab.symm, heb]
  have hi₁ : (d₀ ∘ Equiv.swap i a) i = d₀ b₀ := by
    rw [Function.comp_apply, Equiv.swap_apply_left, hea]
  generalize d₀ ∘ Equiv.swap i a = d₁ at h₁ hc₁ hj₁ hb₁ hi₁
  have hle : d₁ j ≤ d₁ b := by
    rw [hj₁, hb₁]
    exact hmax j hj
  have hc₂ := lengthCost_swap (w := w) hj hb hle fun hbj => (hmin b hb hbi hbj).2
  have hi₂ : (d₁ ∘ Equiv.swap j b) i = d₀ b₀ := by
    rw [Function.comp_apply, Equiv.swap_apply_of_ne_of_ne hij hbi.symm, hi₁]
  refine ⟨_, h₁.swap hj hb, hc₂.trans (hc₁.trans hc₀), ?_, ?_⟩
  · rw [hi₂, Function.comp_apply, Equiv.swap_apply_left, hb₁]
  · rw [hi₂]
    exact hpos

end Kraft

namespace CodeTree

variable {α ι : Type} (w : α → ℕ)

/-- The weights of the inner nodes, added up. -/
def cost : CodeTree α → ℕ
  | leaf _ => 0
  | node l r => l.cost + r.cost + (l.weight w + r.weight w)

/-- The cost is the weighted length of the paths. -/
theorem cost_eq (t : CodeTree α) : t.cost w = (t.paths.map fun x => w x.1 * x.2.length).sum := by
  have hweight : ∀ t : CodeTree α, t.weight w = (t.paths.map fun x => w x.1).sum := by
    intro t
    induction t with
    | leaf a => rfl
    | node l r ihl ihr =>
      rw [weight, paths, List.map_append, List.sum_append, List.map_map, List.map_map, ihl, ihr]
      rfl
  have hcons : ∀ (b : Bool) (l : List (α × List Bool)),
      ((l.map fun x => (x.1, b :: x.2)).map fun x => w x.1 * x.2.length).sum =
        (l.map fun x => w x.1 * x.2.length).sum + (l.map fun x => w x.1).sum := by
    intro b l
    rw [List.map_map, ← List.sum_map_add]
    rfl
  induction t with
  | leaf a => rfl
  | node l r ihl ihr =>
    rw [cost, paths, List.map_append, List.sum_append, hcons, hcons, ← ihl, ← ihr, ← hweight,
      ← hweight]
    omega

variable {w} [DecidableEq ι] {symbols : Finset α} {act : Finset ι} {T : ι → CodeTree α} {i j n : ι}

/-- Lengths for the symbols leave lengths for the roots that cost no more. -/
def Frugal (symbols : Finset α) (w : α → ℕ) (act : Finset ι) (T : ι → CodeTree α) : Prop :=
  ∀ len, Kraft symbols len → ∃ d, Kraft act d ∧
    ∑ k ∈ act, (T k).cost w + lengthCost act (fun k => (T k).weight w) d ≤ lengthCost symbols w len

theorem frugal_leaf (symbols : Finset α) (w : α → ℕ) : Frugal symbols w symbols leaf := by
  intro len h
  refine ⟨len, h, ?_⟩
  rw [show ∑ k ∈ symbols, (leaf k).cost w = 0 from Finset.sum_eq_zero fun _ _ => rfl, Nat.zero_add]
  exact le_rfl

/-- The sum over a forest in which `n` has taken the place of `i` and `j`. -/
theorem sum_replace {M : Type} [AddCommMonoid M] {f g : ι → M} (hi : i ∈ act) (hj : j ∈ act)
    (hij : i ≠ j) (hn : n ∉ act) (hg : ∀ k ∈ (act.erase i).erase j, g k = f k) :
    ∑ k ∈ insert n ((act.erase i).erase j), g k + (f i + f j) = ∑ k ∈ act, f k + g n := by
  have hn' : n ∉ (act.erase i).erase j := fun h =>
    hn (Finset.mem_of_mem_erase (Finset.mem_of_mem_erase h))
  rw [Finset.sum_insert hn', Finset.sum_congr rfl hg, sum_pair f hi hj hij]
  abel

/-- Joining two of the lightest trees keeps the forest frugal. -/
theorem Frugal.join (h : Frugal symbols w act T) (hi : i ∈ act) (hj : j ∈ act) (hij : i ≠ j)
    (hn : n ∉ act)
    (hmin : ∀ k ∈ act, k ≠ i → k ≠ j →
      (T i).weight w ≤ (T k).weight w ∧ (T j).weight w ≤ (T k).weight w) :
    Frugal symbols w (insert n ((act.erase i).erase j))
      (Function.update T n (CodeTree.node (T i) (T j))) := by
  intro len hlen
  obtain ⟨d, hd, hcost⟩ := h len hlen
  obtain ⟨e, he, hle, heq, hpos⟩ := hd.siblings (w := fun k => (T k).weight w) hi hj hij hmin
  have hne : ∀ k ∈ (act.erase i).erase j, k ≠ n := fun k hk hkn =>
    hn (hkn ▸ Finset.mem_of_mem_erase (Finset.mem_of_mem_erase hk))
  obtain ⟨m, hm⟩ := Nat.exists_eq_add_of_le' hpos
  refine ⟨Function.update e n m, ?_, ?_⟩
  · have hsum := sum_replace (f := fun k => (1 / 2 : ℚ) ^ e k)
      (g := fun k => (1 / 2 : ℚ) ^ Function.update e n m k) hi hj hij hn fun k hk => by
        rw [Function.update_of_ne (hne k hk)]
    rw [Function.update_self, ← heq, hm, pow_succ] at hsum
    have he' : ∑ k ∈ act, (1 / 2 : ℚ) ^ e k ≤ 1 := he
    rw [Kraft]
    linarith
  · have hc := sum_replace (f := fun k => (T k).cost w)
      (g := fun k => (Function.update T n (CodeTree.node (T i) (T j)) k).cost w) hi hj hij hn
      fun k hk => by rw [Function.update_of_ne (hne k hk)]
    have hl := sum_replace (f := fun k => (T k).weight w * e k)
      (g := fun k => (Function.update T n (CodeTree.node (T i) (T j)) k).weight w *
        Function.update e n m k) hi hj hij hn fun k hk => by
          rw [Function.update_of_ne (hne k hk), Function.update_of_ne (hne k hk)]
    rw [Function.update_self, cost] at hc
    rw [Function.update_self, Function.update_self, weight, ← heq, hm] at hl
    rw [lengthCost] at hle hcost ⊢
    rw [lengthCost] at hle
    have h1 : (T i).weight w * (m + 1) + (T j).weight w * (m + 1) =
        ((T i).weight w + (T j).weight w) * m + ((T i).weight w + (T j).weight w) := by ring
    omega

omit [DecidableEq ι] in
/-- A forest of one tree. -/
theorem Frugal.cost_le (h : Frugal symbols w {i} T) {len : α → ℕ} (hlen : Kraft symbols len) :
    (T i).cost w ≤ lengthCost symbols w len := by
  obtain ⟨d, -, hcost⟩ := h len hlen
  rw [Finset.sum_singleton] at hcost
  omega

end CodeTree

end LlvmTms9900.Arith
