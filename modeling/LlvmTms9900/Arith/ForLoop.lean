import Mathlib

/-!
# Counting loops

`forUpto lo hi body` is `for (i = lo; i < hi; i++) body`. Besides the invariant
rule there is a rule for loops that fill a store: if every round writes some
cells, and the value a cell receives does not depend on the round, then the
loop writes the union of the cells its rounds write.
-/

namespace LlvmTms9900.Arith

universe u v w

variable {σ : Type u} {τ : Type u} {κ : Type v} {β : Type w} {lo hi : Nat}

def forUpto (lo hi : Nat) (body : Nat → σ → σ) (s : σ) : σ :=
  (List.range' lo (hi - lo)).foldl (fun s i => body i s) s

theorem forUpto_self (lo : Nat) (body : Nat → σ → σ) (s : σ) : forUpto lo lo body s = s := by
  rw [forUpto, Nat.sub_self, List.range'_zero, List.foldl_nil]

theorem forUpto_succ (h : lo ≤ hi) (body : Nat → σ → σ) (s : σ) :
    forUpto lo (hi + 1) body s = body hi (forUpto lo hi body s) := by
  have hlen : hi + 1 - lo = (hi - lo) + 1 := by omega
  have hlast : lo + 1 * (hi - lo) = hi := by omega
  rw [forUpto, hlen, List.range'_concat, hlast, List.foldl_append, List.foldl_cons,
    List.foldl_nil, forUpto]

theorem forUpto_inv {body : Nat → σ → σ} {s : σ} {P : Nat → σ → Prop} (h : lo ≤ hi)
    (h0 : P lo s) (hstep : ∀ i t, lo ≤ i → i < hi → P i t → P (i + 1) (body i t)) :
    P hi (forUpto lo hi body s) := by
  induction hi, h using Nat.le_induction with
  | base =>
    rw [forUpto_self]
    exact h0
  | succ hi hle ih =>
    rw [forUpto_succ hle]
    exact hstep hi _ hle (Nat.lt_succ_self hi)
      (ih fun i t h1 h2 hp => hstep i t h1 (Nat.lt_succ_of_lt h2) hp)

/-- Two loops run side by side. -/
theorem forUpto_simulates {body : Nat → σ → σ} {body' : Nat → τ → τ} {s : σ} {t : τ}
    {P : Nat → σ → τ → Prop} (h : lo ≤ hi) (h0 : P lo s t)
    (hstep : ∀ i a b, lo ≤ i → i < hi → P i a b → P (i + 1) (body i a) (body' i b)) :
    P hi (forUpto lo hi body s) (forUpto lo hi body' t) := by
  induction hi, h using Nat.le_induction with
  | base =>
    rw [forUpto_self, forUpto_self]
    exact h0
  | succ hi hle ih =>
    rw [forUpto_succ hle, forUpto_succ hle]
    exact hstep hi _ _ hle (Nat.lt_succ_self hi)
      (ih fun i a b h1 h2 hp => hstep i a b h1 (Nat.lt_succ_of_lt h2) hp)

/-- A relation that every round extends holds of the whole loop. -/
theorem forUpto_rel {body : Nat → σ → σ} {Rel : σ → σ → Prop} (hrefl : ∀ s, Rel s s)
    (htrans : ∀ s t u, Rel s t → Rel t u → Rel s u)
    (hstep : ∀ i t, lo ≤ i → i < hi → Rel t (body i t)) (s : σ) :
    Rel s (forUpto lo hi body s) := by
  by_cases h : lo ≤ hi
  · refine forUpto_inv (P := fun _ t => Rel s t) h (hrefl s) ?_
    intro i t h1 h2 hst
    exact htrans s t _ hst (hstep i t h1 h2)
  · rw [forUpto, Nat.sub_eq_zero_of_le (by omega), List.range'_zero, List.foldl_nil]
    exact hrefl s

/-- In the states of `R`, which `f` does not leave, `f` puts `val p` into the
cells `p` of `hit` and keeps the others. -/
structure Writes (R : σ → Prop) (get : σ → κ → β) (hit : κ → Prop) (val : κ → β) (f : σ → σ) :
    Prop where
  stays : ∀ {s}, R s → R (f s)
  written : ∀ {s p}, R s → hit p → get (f s) p = val p
  kept : ∀ {s p}, R s → ¬ hit p → get (f s) p = get s p

namespace Writes

variable {R : σ → Prop} {get : σ → κ → β} {hit hit' : κ → Prop} {val val' : κ → β} {f g : σ → σ}

/-- Nothing is written. -/
theorem nothing (hstay : ∀ {s}, R s → R (f s)) (hget : ∀ {s}, R s → get (f s) = get s) :
    Writes R get (fun _ => False) val f :=
  ⟨hstay, fun _ h => h.elim, fun hs _ => by rw [hget hs]⟩

theorem congr (h : Writes R get hit val f) (hh : ∀ p, hit' p ↔ hit p)
    (hv : ∀ p, hit p → val' p = val p) : Writes R get hit' val' f where
  stays := h.stays
  written := fun hs hp => by rw [h.written hs ((hh _).1 hp), hv _ ((hh _).1 hp)]
  kept := fun hs hp => h.kept hs fun hq => hp ((hh _).2 hq)

theorem comp (hf : Writes R get hit val f) (hg : Writes R get hit' val g) :
    Writes R get (fun p => hit p ∨ hit' p) val fun s => g (f s) where
  stays := fun hs => hg.stays (hf.stays hs)
  written := fun {s p} hs hp => by
    by_cases h' : hit' p
    · exact hg.written (hf.stays hs) h'
    · rw [hg.kept (hf.stays hs) h']
      exact hf.written hs (hp.resolve_right h')
  kept := fun hs hp => by
    rw [hg.kept (hf.stays hs) fun h => hp (Or.inr h), hf.kept hs fun h => hp (Or.inl h)]

/-- Two writers of the same cells leave the same store. -/
theorem ext (hf : Writes R get hit val f) (hg : Writes R get hit val g) {s : σ} (hs : R s) (p : κ) :
    get (f s) p = get (g s) p := by
  by_cases hp : hit p
  · rw [hf.written hs hp, hg.written hs hp]
  · rw [hf.kept hs hp, hg.kept hs hp]

/-- A guarded write. -/
theorem guard {c : Prop} [Decidable c] (hf : Writes R get hit val f) :
    Writes R get (fun p => c ∧ hit p) val fun s => if c then f s else s := by
  by_cases hc : c
  · simp only [if_pos hc]
    exact hf.congr (fun p => ⟨fun h => h.2, fun h => ⟨hc, h⟩⟩) fun _ _ => rfl
  · simp only [if_neg hc]
    exact (nothing (fun h => h) fun _ => rfl).congr (fun p => ⟨fun h => hc h.1, fun h => h.elim⟩)
      fun _ _ => rfl

/-- A write to one component of the state. -/
theorem proj {τ : Type u} {R : τ → Prop} {get : τ → κ → β} {f : τ → τ} {F : σ → σ} (pr : σ → τ)
    (h : Writes R get hit val f) (hF : ∀ s, pr (F s) = f (pr s)) :
    Writes (fun s => R (pr s)) (fun s => get (pr s)) hit val F where
  stays := fun {s} hs => by
    rw [hF]
    exact h.stays hs
  written := fun {s p} hs hp => by
    simp only [hF]
    exact h.written hs hp
  kept := fun {s p} hs hp => by
    simp only [hF]
    exact h.kept hs hp

theorem forUpto (lo hi : Nat) {body : Nat → σ → σ} {hit : Nat → κ → Prop}
    (h : ∀ i, lo ≤ i → i < hi → Writes R get (hit i) val (body i)) :
    Writes R get (fun p => ∃ i, lo ≤ i ∧ i < hi ∧ hit i p) val (forUpto lo hi body) := by
  by_cases hle : lo ≤ hi
  · have hinv : ∀ {s}, R s → R (Arith.forUpto lo hi body s) ∧ ∀ p,
        ((∃ i, lo ≤ i ∧ i < hi ∧ hit i p) → get (Arith.forUpto lo hi body s) p = val p) ∧
        ((¬ ∃ i, lo ≤ i ∧ i < hi ∧ hit i p) →
          get (Arith.forUpto lo hi body s) p = get s p) := by
      intro s hs
      refine forUpto_inv (P := fun n t => R t ∧ ∀ p,
        ((∃ i, lo ≤ i ∧ i < n ∧ hit i p) → get t p = val p) ∧
        ((¬ ∃ i, lo ≤ i ∧ i < n ∧ hit i p) → get t p = get s p)) hle ?_ ?_
      · refine ⟨hs, fun p => ⟨?_, fun _ => rfl⟩⟩
        rintro ⟨i, h1, h2, -⟩
        omega
      · rintro n t h1 h2 ⟨hR, hp⟩
        have hw := h n h1 h2
        refine ⟨hw.stays hR, fun p => ?_⟩
        by_cases hn : hit n p
        · refine ⟨fun _ => hw.written hR hn, fun hno => ?_⟩
          exact absurd ⟨n, h1, Nat.lt_succ_self n, hn⟩ hno
        · rw [hw.kept hR hn]
          refine ⟨?_, fun hno => (hp p).2 ?_⟩
          · rintro ⟨i, hi1, hi2, hip⟩
            have hne : i ≠ n := fun he => hn (he ▸ hip)
            exact (hp p).1 ⟨i, hi1, by omega, hip⟩
          · rintro ⟨i, hi1, hi2, hip⟩
            exact hno ⟨i, hi1, by omega, hip⟩
    exact ⟨fun hs => (hinv hs).1, fun hs hp => ((hinv hs).2 _).1 hp,
      fun hs hp => ((hinv hs).2 _).2 hp⟩
  · have hnone : ∀ s, Arith.forUpto lo hi body s = s := fun s => by
      rw [Arith.forUpto, Nat.sub_eq_zero_of_le (by omega), List.range'_zero, List.foldl_nil]
    refine ⟨fun hs => by rw [hnone]; exact hs, ?_, fun {s p} _ _ => by rw [hnone]⟩
    rintro s p - ⟨i, h1, h2, -⟩
    omega

end Writes

/-- Like `Writes`, but a cell that is hit receives a value made from the one it
had. -/
structure Updates (R : σ → Prop) (get : σ → κ → β) (hit : κ → Prop) (upd : κ → β → β)
    (f : σ → σ) : Prop where
  stays : ∀ {s}, R s → R (f s)
  changed : ∀ {s p}, R s → hit p → get (f s) p = upd p (get s p)
  kept : ∀ {s p}, R s → ¬ hit p → get (f s) p = get s p

namespace Updates

variable {R : σ → Prop} {get : σ → κ → β} {hit' : κ → Prop} {upd : κ → β → β}

theorem congr {hit : κ → Prop} {f : σ → σ} (h : Updates R get hit upd f)
    (hh : ∀ p, hit' p ↔ hit p) : Updates R get hit' upd f where
  stays := h.stays
  changed := fun hs hp => h.changed hs ((hh _).1 hp)
  kept := fun hs hp => h.kept hs fun hq => hp ((hh _).2 hq)

/-- Every cell is hit by one round at most. -/
theorem forUpto (lo hi : Nat) {body : Nat → σ → σ} {hit : Nat → κ → Prop}
    (h : ∀ i, lo ≤ i → i < hi → Updates R get (hit i) upd (body i))
    (hone : ∀ i j p, hit i p → hit j p → i = j) :
    Updates R get (fun p => ∃ i, lo ≤ i ∧ i < hi ∧ hit i p) upd (forUpto lo hi body) := by
  by_cases hle : lo ≤ hi
  · have hinv : ∀ {s}, R s → R (Arith.forUpto lo hi body s) ∧ ∀ p,
        ((∃ i, lo ≤ i ∧ i < hi ∧ hit i p) →
          get (Arith.forUpto lo hi body s) p = upd p (get s p)) ∧
        ((¬ ∃ i, lo ≤ i ∧ i < hi ∧ hit i p) →
          get (Arith.forUpto lo hi body s) p = get s p) := by
      intro s hs
      refine forUpto_inv (P := fun n t => R t ∧ ∀ p,
        ((∃ i, lo ≤ i ∧ i < n ∧ hit i p) → get t p = upd p (get s p)) ∧
        ((¬ ∃ i, lo ≤ i ∧ i < n ∧ hit i p) → get t p = get s p)) hle ?_ ?_
      · refine ⟨hs, fun p => ⟨?_, fun _ => rfl⟩⟩
        rintro ⟨i, h1, h2, -⟩
        omega
      · rintro n t h1 h2 ⟨hR, hp⟩
        have hu := h n h1 h2
        refine ⟨hu.stays hR, fun p => ?_⟩
        by_cases hn : hit n p
        · -- no round before has hit the cell
          have hfresh : ¬ ∃ i, lo ≤ i ∧ i < n ∧ hit i p := by
            rintro ⟨i, -, hi2, hip⟩
            have heq := hone i n p hip hn
            omega
          refine ⟨fun _ => ?_, fun hno => absurd ⟨n, h1, Nat.lt_succ_self n, hn⟩ hno⟩
          rw [hu.changed hR hn, (hp p).2 hfresh]
        · rw [hu.kept hR hn]
          refine ⟨?_, fun hno => (hp p).2 ?_⟩
          · rintro ⟨i, hi1, hi2, hip⟩
            have hne : i ≠ n := fun he => hn (he ▸ hip)
            exact (hp p).1 ⟨i, hi1, by omega, hip⟩
          · rintro ⟨i, hi1, hi2, hip⟩
            exact hno ⟨i, hi1, by omega, hip⟩
    exact ⟨fun hs => (hinv hs).1, fun hs hp => ((hinv hs).2 _).1 hp,
      fun hs hp => ((hinv hs).2 _).2 hp⟩
  · have hnone : ∀ s, Arith.forUpto lo hi body s = s := fun s => by
      rw [Arith.forUpto, Nat.sub_eq_zero_of_le (by omega), List.range'_zero, List.foldl_nil]
    refine ⟨fun hs => by rw [hnone]; exact hs, ?_, fun {s p} _ _ => by rw [hnone]⟩
    rintro s p - ⟨i, h1, h2, -⟩
    omega

end Updates

section Or
variable {w : Nat}

/-- `for (i = 0; i < n; i++) acc |= f(i);` -/
theorem forUpto_or_getLsbD (n : Nat) (f : Nat → BitVec w) (j : Nat) :
    (forUpto 0 n (fun i acc => acc ||| f i) 0#w).getLsbD j = true ↔
      ∃ i < n, (f i).getLsbD j = true := by
  induction n with
  | zero =>
    rw [forUpto_self]
    simp
  | succ n ih =>
    rw [forUpto_succ (Nat.zero_le n), BitVec.getLsbD_or, Bool.or_eq_true, ih]
    constructor
    · rintro (⟨i, hi, h⟩ | h)
      · exact ⟨i, by omega, h⟩
      · exact ⟨n, Nat.lt_succ_self n, h⟩
    · rintro ⟨i, hi, h⟩
      by_cases he : i = n
      · exact Or.inr (he ▸ h)
      · exact Or.inl ⟨i, by omega, h⟩

theorem bitVec_ne_zero_iff (x : BitVec w) : x ≠ 0#w ↔ ∃ i < w, x.getLsbD i = true := by
  constructor
  · intro h
    by_contra hno
    refine h (BitVec.eq_of_getLsbD_eq fun i hi => ?_)
    rw [BitVec.getLsbD_zero]
    by_contra hb
    exact hno ⟨i, hi, by simpa using hb⟩
  · rintro ⟨i, -, h⟩ rfl
    simp at h

theorem forUpto_or_ne_zero (n : Nat) (f : Nat → BitVec w) :
    forUpto 0 n (fun i acc => acc ||| f i) 0#w ≠ 0#w ↔ ∃ i < n, f i ≠ 0#w := by
  rw [bitVec_ne_zero_iff]
  simp only [forUpto_or_getLsbD, bitVec_ne_zero_iff]
  constructor
  · rintro ⟨j, hj, i, hi, h⟩
    exact ⟨i, hi, j, hj, h⟩
  · rintro ⟨i, hi, j, hj, h⟩
    exact ⟨j, hj, i, hi, h⟩

end Or
end LlvmTms9900.Arith
