import LlvmTms9900.FreeRTOS.QueueDemo

/-!
# Progress of the queue and rendezvous demo

Every step that is not blocked brings the next rendezvous one step nearer,
whichever task takes it, and a round has 24 of them.
-/

namespace LlvmTms9900.FreeRTOS.QueueDemo
open LlvmTms9900.Isa

/-- Steps of the manager up to the rendezvous. -/
def ManagerPoint.rank : ManagerPoint → ℕ
  | .loop i => 7 - 2 * i
  | .send i _ => 6 - 2 * i
  | .waiting => 0
  | .load => 9
  | .store _ => 8

/-- Steps of a worker up to the rendezvous. -/
def WorkerPoint.rank : WorkerPoint → ℕ
  | .receive => 5
  | .delay _ => 4
  | .load => 3
  | .store _ => 2
  | .sync => 1
  | .waiting => 0

def State.rank (s : State) : ℕ :=
  s.manager.rank + (s.worker .a).rank + (s.worker .b).rank + (s.worker .c).rank

/-- The steps of a schedule that are taken, the blocked ones left out. -/
def moves (s : State) : List Task → ℕ
  | [] => 0
  | t :: schedule => (step s t).elim (moves s schedule) fun s' => moves s' schedule + 1

section Rank
variable {s s' : State}

theorem setWorker_rank (s : State) (w : Worker) (p : WorkerPoint) :
    (s.setWorker w p).rank + (s.worker w).rank = s.rank + p.rank := by
  cases w <;> simp [State.rank, State.setWorker] <;> omega

theorem rank_allWait (h : s.AllWait) : s.rank = 0 := by
  obtain ⟨hm, hw⟩ := h
  rw [State.rank, hm, hw, hw, hw]
  rfl

/-- What a step out of `s` does to the rank. -/
def Advances (s s' : State) : Prop :=
  s'.barriers = s.barriers ∧ s'.rank + 1 = s.rank ∨
    s'.barriers = s.barriers + 1 ∧ s.rank = 1 ∧ s'.rank = 24

theorem advances_sync {t : Task} (hbits : s.bits = s.waitingBits)
    (hrank : (s.arrive t).rank + 1 = s.rank) : Advances s (s.eventGroupSync t) := by
  have hn : (s.arrive t).barriers = s.barriers := by cases t <;> rfl
  rcases eventGroupSync_cases t hbits with ⟨hall, he⟩ | ⟨-, he⟩
  · rw [he]
    refine .inr ⟨?_, ?_, rfl⟩
    · rw [← hn]
    · rw [← hrank, rank_allWait hall]
  · rw [he]
    exact .inl ⟨hn, hrank⟩

theorem advances_stepManager (h : Inv s) (hs : stepManager s = some s') : Advances s s' := by
  have hok := h.manager
  unfold stepManager at hs
  cases hm : s.manager with
  | loop i =>
    rw [hm] at hok
    have hi3 : i ≤ 3 := hok
    by_cases hi : i < 3
    · simp only [hm, hi, if_true, Option.some.injEq] at hs
      subst hs
      refine .inl ⟨rfl, ?_⟩
      simp only [State.rank, hm, ManagerPoint.rank]
      omega
    · simp only [hm, hi, if_false, Option.some.injEq] at hs
      subst hs
      refine advances_sync h.bits ?_
      simp only [State.arrive, State.rank, hm, ManagerPoint.rank]
      omega
  | send i usTicks =>
    rw [hm] at hok
    have hi3 : i < 3 := hok
    simp only [hm] at hs
    split at hs
    · simp only [Option.some.injEq] at hs
      subst hs
      refine .inl ⟨rfl, ?_⟩
      simp only [State.rank, hm, ManagerPoint.rank]
      omega
    · cases hs
  | waiting => simp [hm] at hs
  | load =>
    simp only [hm, Option.some.injEq] at hs
    subst hs
    refine .inl ⟨rfl, ?_⟩
    simp only [State.rank, hm, ManagerPoint.rank]
    omega
  | store v =>
    simp only [hm, Option.some.injEq] at hs
    subst hs
    refine .inl ⟨rfl, ?_⟩
    simp only [State.rank, hm, ManagerPoint.rank]
    omega

/-- A worker that moves on by one point. -/
theorem advances_setWorker {w : Worker} {p : WorkerPoint} (hb : s'.barriers = s.barriers)
    (hr : s'.rank = (s.setWorker w p).rank) (hp : p.rank + 1 = (s.worker w).rank) :
    Advances s s' := by
  have h := setWorker_rank s w p
  exact .inl ⟨hb, by omega⟩

theorem advances_stepWorker {w : Worker} (h : Inv s) (hs : stepWorker s w = some s') :
    Advances s s' := by
  unfold stepWorker at hs
  cases hw : s.worker w with
  | receive =>
    cases hq : s.queue with
    | nil => simp [hw, hq] at hs
    | cons item rest =>
      simp only [hw, hq, Option.some.injEq] at hs
      subst hs
      exact advances_setWorker rfl rfl (by rw [hw]; rfl)
  | sync =>
    simp only [hw, Option.some.injEq] at hs
    subst hs
    refine advances_sync h.bits ?_
    have hrank := setWorker_rank s w .waiting
    rw [hw] at hrank
    exact hrank
  | waiting => simp [hw] at hs
  | delay | load | store =>
    simp only [hw, Option.some.injEq] at hs
    subst hs
    exact advances_setWorker rfl rfl (by rw [hw]; rfl)

theorem advances_step {t : Task} (h : Inv s) (hs : step s t = some s') : Advances s s' := by
  cases t with
  | manager => exact advances_stepManager h hs
  | worker w => exact advances_stepWorker h hs

theorem Inv.rank_pos (h : Inv s) : 0 < s.rank := by
  by_contra hcon
  have hok := h.manager
  refine h.parted ⟨?_, fun w => ?_⟩
  · have hm : s.manager.rank = 0 := by
      rw [State.rank] at hcon
      omega
    cases hp : s.manager <;> rw [hp] at hm hok <;>
      simp only [ManagerPoint.rank, ManagerPoint.Ok] at hm hok <;> first | rfl | omega
  · have hw : (s.worker w).rank = 0 := by
      rw [State.rank] at hcon
      cases w <;> omega
    cases hp : s.worker w <;> rw [hp] at hw <;> simp only [WorkerPoint.rank] at hw <;>
      first | rfl | omega

theorem rank_le (s : State) : s.rank ≤ 24 := by
  have hm : s.manager.rank ≤ 9 := by
    cases s.manager <;> simp only [ManagerPoint.rank] <;> omega
  have hw : ∀ w, (s.worker w).rank ≤ 5 := by
    intro w
    cases s.worker w <;> simp only [WorkerPoint.rank] <;> omega
  have ha := hw .a
  have hb := hw .b
  have hc := hw .c
  rw [State.rank]
  omega

theorem run_cons {t : Task} (hs : step s t = some s') (schedule : List Task) :
    run s (t :: schedule) = run s' schedule := by
  rw [run, List.foldl_cons, hs]
  rfl

/-- The moves of a run and what is left of its last round make up whole rounds. -/
theorem moves_run (schedule : List Task) (h : Inv s) :
    moves s schedule + (run s schedule).rank + 24 * s.barriers =
      s.rank + 24 * (run s schedule).barriers := by
  induction schedule generalizing s with
  | nil =>
    change 0 + s.rank + 24 * s.barriers = s.rank + 24 * s.barriers
    omega
  | cons t schedule ih =>
    cases hs : step s t with
    | none =>
      have hrun : run s (t :: schedule) = run s schedule := by
        rw [run, List.foldl_cons, hs]
        rfl
      rw [moves, hs, Option.elim_none, hrun]
      exact ih h
    | some s' =>
      have hrun := run_cons hs schedule
      have hnext := ih (inv_step h hs)
      rw [moves, hs, Option.elim_some, hrun]
      rcases advances_step h hs with ⟨hb, hr⟩ | ⟨hb, hr, hr'⟩ <;> omega

/-- The next rendezvous can always be reached. -/
theorem Inv.round (h : Inv s) : ∃ more, (run s more).barriers = s.barriers + 1 := by
  obtain ⟨n, hn⟩ : ∃ n, s.rank = n := ⟨_, rfl⟩
  induction n using Nat.strong_induction_on generalizing s with
  | _ n ih =>
    obtain ⟨t, s', hs⟩ := h.progress
    rcases advances_step h hs with ⟨hb, hr⟩ | ⟨hb, -, -⟩
    · obtain ⟨more, hmore⟩ := ih s'.rank (by omega) (inv_step h hs) rfl
      refine ⟨t :: more, ?_⟩
      rw [run_cons hs, hmore, hb]
    · refine ⟨[t], ?_⟩
      rw [run_cons hs]
      exact hb

theorem Inv.rounds_complete (h : Inv s) (n : ℕ) :
    ∃ more, (run s more).barriers = s.barriers + n := by
  induction n with
  | zero => exact ⟨[], rfl⟩
  | succ n ih =>
    obtain ⟨more, hmore⟩ := ih
    obtain ⟨last, hlast⟩ := (inv_run more h).round
    refine ⟨more ++ last, ?_⟩
    rw [run, List.foldl_append]
    change (run (run s more) last).barriers = _
    rw [hlast, hmore, Nat.add_assoc]

theorem barriers_run (schedule : List Task) :
    (run State.init schedule).barriers = (moves State.init schedule + 2) / 24 := by
  have hmoves := moves_run schedule inv_init
  have hpos := (inv_run schedule inv_init).rank_pos
  have hle := rank_le (run State.init schedule)
  have hinit : State.init.rank = 22 := rfl
  have hzero : State.init.barriers = 0 := rfl
  rw [hinit, hzero] at hmoves
  omega

end Rank

/-- In every run some task can move, and whichever tasks moved, the rendezvous are
where the number of moves says: the `k`th one is the move `24 * k - 2`. -/
theorem rendezvous_progress (schedule : List Task) :
    (∃ t s', step (run State.init schedule) t = some s') ∧
      (run State.init schedule).barriers = (moves State.init schedule + 2) / 24 :=
  ⟨(inv_run schedule inv_init).progress, barriers_run schedule⟩

/-- What the demo promises in a state, and of every step out of it. -/
structure Safe (s : State) : Prop where
  oneItem : ∀ w k, k < s.barriers → s.itemsTaken w k = 1
  atMostOne : ∀ w, s.itemsTaken w s.barriers ≤ 1
  received : ∀ w, s.received w = s.barriers ∨ s.received w = s.barriers + 1
  noneLost : s.sent = s.receipts.map Receipt.item ++ s.queue
  queueBound : s.queue.length ≤ 3
  sendReady : ∀ i usTicks, s.manager = .send i usTicks → (step s .manager).isSome
  barrierEmpty : ∀ t s', step s t = some s' → s'.barriers ≠ s.barriers →
    s.queue = [] ∧ s'.queue = []
  counters : ∀ w, s.marker w - s.rounds = 0#16 ∨ s.marker w - s.rounds = 1#16
  agree : ∀ rounds s', s.manager = .store rounds → step s .manager = some s' →
    ∀ w, s'.marker w = s'.rounds ∧ s'.rounds = BitVec.ofNat 16 s.barriers

/-- The rounds do go on: some task can move, every 24 moves pass a barrier, and `n` more
rounds can be completed. -/
structure Lively (schedule : List Task) : Prop where
  move : ∃ t s', step (run State.init schedule) t = some s'
  barriers : (run State.init schedule).barriers = (moves State.init schedule + 2) / 24
  complete : ∀ n, ∃ more, (run State.init (schedule ++ more)).barriers =
    (run State.init schedule).barriers + n

theorem Inv.safe {s : State} (h : Inv s) : Safe s := by
  refine ⟨?_, ?_, ?_, h.fifo, h.queue_le, ?_, fun t s' hs hb => h.barrier_empty hs hb,
    h.counters, ?_⟩
  · intro w k hk
    rw [h.taken, if_pos hk]
  · intro w
    rw [h.taken, if_neg (lt_irrefl _), if_pos rfl]
    exact (s.worker w).counted_le_busy.2
  · intro w
    have hbusy := (s.worker w).counted_le_busy.2
    rw [h.received]
    omega
  · intro i usTicks hm
    have hq := h.queue_le
    simp [step, stepManager, hm, queueCapacity, (by omega : s.queue.length < 8)]
  · intro rounds s' hm hs w
    have hok := h.manager
    have hbehind : s.manager.behind = 1 := by rw [hm]; rfl
    have hrounds := h.rounds
    rw [hm] at hok
    rw [hbehind] at hrounds
    simp only [step, stepManager, hm, Option.some.injEq] at hs
    subst hs
    show s.marker w = rounds + 1#16 ∧ rounds + 1#16 = _
    rw [h.marker w, h.idle hbehind w, hok]
    exact ⟨hrounds.symm, hrounds⟩

/-- Every schedule of the four tasks is safe at every point, and its rounds go on. -/
theorem run_safe (schedule : List Task) :
    Safe (run State.init schedule) ∧ Lively schedule := by
  have h := inv_run schedule inv_init
  refine ⟨h.safe, h.progress, barriers_run schedule, fun n => ?_⟩
  obtain ⟨more, hmore⟩ := h.rounds_complete n
  refine ⟨more, ?_⟩
  rw [run, List.foldl_append]
  exact hmore

end LlvmTms9900.FreeRTOS.QueueDemo
