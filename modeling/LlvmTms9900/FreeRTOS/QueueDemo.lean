import LlvmTms9900.Isa.Word

/-!
# The queue and rendezvous demo (FreeRTOS/main_queue.c)

A manager puts three work items into a queue of eight slots, three workers
take them out, and all four meet at a rendezvous before the next round. The
kernel is not part of the repository: its queue is an atomic FIFO list, its
event group sync is an atomic four-way barrier, and no call times out. The
scheduler may interleave the four tasks in any way; `x++` of a volatile marker
is a load and a store.
-/

namespace LlvmTms9900.FreeRTOS.QueueDemo
open LlvmTms9900.Isa

inductive Worker where
  | a | b | c
  deriving DecidableEq, Repr

inductive Task where
  | manager
  | worker (w : Worker)
  deriving DecidableEq, Repr

/-- `WORKER_A_BIT` to `MANAGER_BIT`. -/
def Task.bit : Task → Word
  | .worker .a => 1#16
  | .worker .b => 2#16
  | .worker .c => 4#16
  | .manager => 8#16

def allSyncBits : Word := 15#16

/-- Where `vManagerTask` is: at the head of the `for` loop, before
`xQueueSend`, blocked in the rendezvous, and before the load and the store of
`MARKER_ROUNDS++`. -/
inductive ManagerPoint where
  | loop (i : Nat)
  | send (i : Nat) (usTicks : Word)
  | waiting
  | load
  | store (rounds : Word)
  deriving DecidableEq, Repr

/-- Where `vWorkerTask` is. -/
inductive WorkerPoint where
  | receive
  | delay (usTicks : Word)
  | load
  | store (count : Word)
  | sync
  | waiting
  deriving DecidableEq, Repr

/-- A worker took an item out of the queue, `round` barriers after the start. -/
structure Receipt where
  worker : Worker
  round : Nat
  item : Word
  deriving DecidableEq, Repr

/-- `barriers`, `sent` and `receipts` are history; no task reads them. -/
structure State where
  manager : ManagerPoint
  worker : Worker → WorkerPoint
  queue : List Word
  bits : Word
  lfsrState : Word
  rounds : Word
  marker : Worker → Word
  barriers : Nat
  sent : List Word
  receipts : List Receipt

/-- `main`, up to the start of the scheduler. -/
def State.init : State where
  manager := .loop 0
  worker := fun _ => .receive
  queue := []
  bits := 0#16
  lfsrState := 0xACE1#16
  rounds := 0#16
  marker := fun _ => 0#16
  barriers := 0
  sent := []
  receipts := []

/-- `lfsr_next`; the result is the new state. -/
def lfsrNext (lfsrState : Word) : Word :=
  if lfsrState &&& 1#16 ≠ 0#16 then (lfsrState >>> 1) ^^^ 0xB400#16 else lfsrState >>> 1

/-- `random_ticks` of the LFSR state that `lfsr_next` returned. -/
def randomTicks (lfsrState : Word) : Word := 1#16 + lfsrState % 6#16

def queueCapacity : Nat := 8

def State.setWorker (s : State) (w : Worker) (p : WorkerPoint) : State :=
  { s with worker := fun x => if x = w then p else s.worker x }

/-- The callers blocked in `xEventGroupSync` return together and the bits are
cleared. -/
def State.release (s : State) : State :=
  { s with
    manager := if s.manager = .waiting then .load else s.manager
    worker := fun w => if s.worker w = .waiting then .receive else s.worker w
    bits := s.bits &&& ~~~allSyncBits
    barriers := s.barriers + 1 }

/-- The caller sets its bit and blocks. -/
def State.arrive (s : State) : Task → State
  | .manager => { s with manager := .waiting, bits := s.bits ||| Task.bit .manager }
  | .worker w => { s.setWorker w .waiting with bits := s.bits ||| Task.bit (.worker w) }

/-- `xEventGroupSync( xEvents, bit, ALL_SYNC_BITS, portMAX_DELAY )`. -/
def State.eventGroupSync (s : State) (t : Task) : State :=
  if (s.arrive t).bits &&& allSyncBits = allSyncBits then (s.arrive t).release else s.arrive t

/-- One step of `vManagerTask`; `none` while it is blocked. -/
def stepManager (s : State) : Option State :=
  match s.manager with
  | .loop i =>
    if i < 3 then
      some { s with
        lfsrState := lfsrNext s.lfsrState
        manager := .send i (randomTicks (lfsrNext s.lfsrState)) }
    else some (s.eventGroupSync .manager)
  | .send i usTicks =>
    if s.queue.length < queueCapacity then
      some { s with
        queue := s.queue ++ [usTicks]
        sent := s.sent ++ [usTicks]
        manager := .loop (i + 1) }
    else none
  | .waiting => none
  | .load => some { s with manager := .store s.rounds }
  | .store rounds => some { s with rounds := rounds + 1#16, manager := .loop 0 }

/-- One step of `vWorkerTask`. -/
def stepWorker (s : State) (w : Worker) : Option State :=
  match s.worker w with
  | .receive =>
    match s.queue with
    | [] => none
    | item :: rest =>
      some { s.setWorker w (.delay item) with
        queue := rest
        receipts := s.receipts ++ [⟨w, s.barriers, item⟩] }
  | .delay _ => some (s.setWorker w .load)
  | .load => some (s.setWorker w (.store (s.marker w)))
  | .store count =>
    some { s.setWorker w .sync with
      marker := fun x => if x = w then count + 1#16 else s.marker x }
  | .sync => some (s.eventGroupSync (.worker w))
  | .waiting => none

def step (s : State) : Task → Option State
  | .manager => stepManager s
  | .worker w => stepWorker s w

/-- Let the tasks of `schedule` take a step each, in that order; a blocked
task does nothing. -/
def run (s : State) (schedule : List Task) : State :=
  schedule.foldl (fun s t => (step s t).getD s) s

/-- Items taken by worker `w` between barrier `k` and the next one. -/
def State.itemsTaken (s : State) (w : Worker) (k : Nat) : Nat :=
  s.receipts.countP fun r => r.worker = w ∧ r.round = k

/-- Items taken by worker `w` since the start. -/
def State.received (s : State) (w : Worker) : Nat := s.receipts.countP fun r => r.worker = w

/-! ## The invariant -/

/-- Whether the worker has taken an item since the last barrier. -/
def WorkerPoint.busy : WorkerPoint → Nat
  | .receive => 0
  | _ => 1

/-- Whether the worker has counted its item. -/
def WorkerPoint.counted : WorkerPoint → Nat
  | .sync | .waiting => 1
  | _ => 0

/-- Items sent since the last barrier. -/
def ManagerPoint.sentNow : ManagerPoint → Nat
  | .loop i | .send i _ => i
  | .waiting => 3
  | .load | .store _ => 0

/-- Barriers that `MARKER_ROUNDS` does not count yet. -/
def ManagerPoint.behind : ManagerPoint → Nat
  | .load | .store _ => 1
  | _ => 0

def ManagerPoint.Ok (rounds : Word) : ManagerPoint → Prop
  | .loop i => i ≤ 3
  | .send i _ => i < 3
  | .store v => v = rounds
  | _ => True

def WorkerPoint.Ok (marker : Word) : WorkerPoint → Prop
  | .store v => v = marker
  | _ => True

def State.busyCount (s : State) : Nat :=
  (s.worker .a).busy + (s.worker .b).busy + (s.worker .c).busy

/-- The bits of the tasks that wait at the barrier. -/
def bitsOf (m a b c : Bool) : Word :=
  (if m then Task.bit .manager else 0#16) ||| (if a then Task.bit (.worker .a) else 0#16) |||
    (if b then Task.bit (.worker .b) else 0#16) ||| (if c then Task.bit (.worker .c) else 0#16)

def State.waits (s : State) (w : Worker) : Bool := decide (s.worker w = .waiting)

def State.waitingBits (s : State) : Word :=
  bitsOf (decide (s.manager = .waiting)) (s.waits .a) (s.waits .b) (s.waits .c)

/-- What holds also while the barrier opens. -/
structure Core (s : State) : Prop where
  manager : s.manager.Ok s.rounds
  worker : ∀ w, (s.worker w).Ok (s.marker w)
  flow : s.queue.length + s.busyCount = s.manager.sentNow
  bits : s.bits = s.waitingBits
  rounds : s.rounds + BitVec.ofNat 16 s.manager.behind = BitVec.ofNat 16 s.barriers
  marker : ∀ w, s.marker w = BitVec.ofNat 16 (s.barriers + (s.worker w).counted)
  fifo : s.sent = s.receipts.map Receipt.item ++ s.queue
  taken : ∀ w k, s.itemsTaken w k =
    if k < s.barriers then 1 else if k = s.barriers then (s.worker w).busy else 0

def State.AllWait (s : State) : Prop := s.manager = .waiting ∧ ∀ w, s.worker w = .waiting

structure Inv (s : State) : Prop extends Core s where
  parted : ¬ s.AllWait

theorem inv_init : Inv State.init where
  manager := Nat.zero_le 3
  worker := fun _ => trivial
  flow := rfl
  bits := by decide
  parted := by rintro ⟨h, -⟩; cases h
  rounds := rfl
  marker := fun _ => rfl
  fifo := rfl
  taken := fun w k => by
    have hbusy : (State.init.worker w).busy = 0 := rfl
    rw [hbusy, ite_self]
    rfl

theorem forall_worker {p : Worker → Prop} : (∀ w, p w) ↔ p .a ∧ p .b ∧ p .c :=
  ⟨fun h => ⟨h .a, h .b, h .c⟩, fun h w => by cases w; exacts [h.1, h.2.1, h.2.2]⟩

theorem bitsOf_complete (m a b c : Bool) :
    bitsOf m a b c &&& allSyncBits = allSyncBits ↔
      m = true ∧ a = true ∧ b = true ∧ c = true := by
  revert m a b c
  decide

theorem bitsOf_set (m a b c : Bool) :
    bitsOf m a b c ||| Task.bit .manager = bitsOf true a b c ∧
    bitsOf m a b c ||| Task.bit (.worker .a) = bitsOf m true b c ∧
    bitsOf m a b c ||| Task.bit (.worker .b) = bitsOf m a true c ∧
    bitsOf m a b c ||| Task.bit (.worker .c) = bitsOf m a b true := by
  revert m a b c
  decide

theorem bitsOf_clear (m a b c : Bool) : bitsOf m a b c &&& ~~~allSyncBits = 0#16 := by
  revert m a b c
  decide

section Barrier
variable {s : State}

theorem waitingBits_complete (s : State) :
    s.waitingBits &&& allSyncBits = allSyncBits ↔ s.AllWait := by
  rw [State.waitingBits, bitsOf_complete, State.AllWait, forall_worker]
  simp only [State.waits, decide_eq_true_eq]

theorem arrive_bits (t : Task) (h : s.bits = s.waitingBits) :
    (s.arrive t).bits = (s.arrive t).waitingBits := by
  have hset := bitsOf_set (decide (s.manager = .waiting)) (s.waits .a) (s.waits .b) (s.waits .c)
  cases t with
  | manager =>
    simp only [State.arrive, h, State.waitingBits, hset.1]
    rfl
  | worker w =>
    cases w with
    | a =>
      simp only [State.arrive, h, State.waitingBits, hset.2.1]
      rfl
    | b =>
      simp only [State.arrive, h, State.waitingBits, hset.2.2.1]
      rfl
    | c =>
      simp only [State.arrive, h, State.waitingBits, hset.2.2.2]
      rfl

/-- The last task to arrive releases all four; any other one blocks. -/
theorem eventGroupSync_cases (t : Task) (h : s.bits = s.waitingBits) :
    ((s.arrive t).AllWait ∧ s.eventGroupSync t =
      { s.arrive t with
        manager := .load, worker := fun _ => .receive, bits := 0#16
        barriers := (s.arrive t).barriers + 1 }) ∨
    (¬ (s.arrive t).AllWait ∧ s.eventGroupSync t = s.arrive t) := by
  have hb := arrive_bits t h
  unfold State.eventGroupSync
  by_cases hall : (s.arrive t).AllWait
  · refine Or.inl ⟨hall, ?_⟩
    rw [if_pos (by rw [hb]; exact (waitingBits_complete _).2 hall)]
    simp only [State.release, hall.1, hall.2, if_true, hb, State.waitingBits, bitsOf_clear]
  · refine Or.inr ⟨hall, ?_⟩
    rw [if_neg (by rw [hb]; exact fun he => hall ((waitingBits_complete _).1 he))]

end Barrier

section Preserved
variable {s : State}

theorem setWorker_busyCount (s : State) (w : Worker) (p : WorkerPoint) :
    (s.setWorker w p).busyCount + (s.worker w).busy = s.busyCount + p.busy := by
  cases w <;> simp only [State.busyCount, State.setWorker] <;> simp <;> omega

theorem setWorker_waitingBits {w : Worker} {p : WorkerPoint}
    (h : p = .waiting ↔ s.worker w = .waiting) :
    (s.setWorker w p).waitingBits = s.waitingBits := by
  have hw : ∀ x, (s.setWorker w p).waits x = s.waits x := fun x => by
    by_cases hx : x = w
    · subst hx
      simp only [State.waits, State.setWorker, if_true, h]
    · simp only [State.waits, State.setWorker, if_neg hx]
  simp only [State.waitingBits, hw]
  rfl

theorem setWorker_point {α : Type} {f : WorkerPoint → α} {w : Worker} {p : WorkerPoint}
    (hf : f p = f (s.worker w)) (x : Worker) :
    f ((s.setWorker w p).worker x) = f (s.worker x) := by
  by_cases hx : x = w
  · subst hx
    simp only [State.setWorker, if_true, hf]
  · simp only [State.setWorker, if_neg hx]

/-- A worker moves on without touching the queue, a marker or the barrier. -/
theorem Inv.setWorker (h : Inv s) {w : Worker} {p : WorkerPoint}
    (hbusy : p.busy = (s.worker w).busy) (hcounted : p.counted = (s.worker w).counted)
    (hwait : p = .waiting ↔ s.worker w = .waiting) (hok : p.Ok (s.marker w)) :
    Inv (s.setWorker w p) := by
  refine ⟨⟨h.manager, ?_, ?_, ?_, h.rounds, ?_, h.fifo, ?_⟩, ?_⟩
  · intro x
    by_cases hx : x = w
    · subst hx
      simpa only [State.setWorker, if_true] using hok
    · simpa only [State.setWorker, if_neg hx] using h.worker x
  · have hflow := h.flow
    have hcount := setWorker_busyCount s w p
    show s.queue.length + _ = s.manager.sentNow
    omega
  · rw [setWorker_waitingBits hwait]
    exact h.bits
  · intro x
    rw [setWorker_point hcounted]
    exact h.marker x
  · intro x k
    rw [setWorker_point hbusy]
    exact h.taken x k
  · rintro ⟨hm, hall⟩
    refine h.parted ⟨hm, fun x => ?_⟩
    have hx := hall x
    by_cases hxw : x = w
    · subst hxw
      simp only [State.setWorker, if_true] at hx
      exact hwait.1 hx
    · simpa only [State.setWorker, if_neg hxw] using hx

/-- `xQueueReceive`: the head of the queue goes to worker `w`. -/
theorem Inv.receive (h : Inv s) {w : Worker} {item : Word} {rest : List Word}
    (hw : s.worker w = .receive) (hq : s.queue = item :: rest) :
    Inv { s.setWorker w (.delay item) with
      queue := rest, receipts := s.receipts ++ [⟨w, s.barriers, item⟩] } := by
  refine ⟨⟨h.manager, ?_, ?_, ?_, h.rounds, ?_, ?_, ?_⟩, ?_⟩
  · intro x
    by_cases hx : x = w
    · subst hx
      simp only [State.setWorker, if_true]
      trivial
    · simpa only [State.setWorker, if_neg hx] using h.worker x
  · have hflow := h.flow
    have hcount := setWorker_busyCount s w (.delay item)
    rw [hw] at hcount
    rw [hq, List.length_cons] at hflow
    simp only [WorkerPoint.busy] at hcount
    show rest.length + (s.setWorker w (.delay item)).busyCount = s.manager.sentNow
    omega
  · have hb := setWorker_waitingBits (s := s) (w := w) (p := .delay item) (by simp [hw])
    exact h.bits.trans hb.symm
  · intro x
    have hm := h.marker x
    by_cases hx : x = w
    · subst hx
      rw [hw] at hm
      simpa only [State.setWorker, if_true, WorkerPoint.counted] using hm
    · simpa only [State.setWorker, if_neg hx] using hm
  · have hf := h.fifo
    rw [hq] at hf
    simpa [State.setWorker] using hf
  · intro x k
    have ht := h.taken x k
    simp only [State.itemsTaken, List.countP_append, List.countP_singleton] at ht ⊢
    rw [ht]
    by_cases hx : x = w
    · subst hx
      simp only [State.setWorker, if_true, hw, WorkerPoint.busy]
      by_cases hk : k = s.barriers
      · subst hk
        simp
      · have hk' : ¬ s.barriers = k := fun he => hk he.symm
        simp [hk, hk']
    · have hx' : ¬ w = x := fun he => hx he.symm
      simp [State.setWorker, hx, hx']
  · rintro ⟨-, hall⟩
    have hx := hall w
    simp [State.setWorker] at hx

/-- The store of `( *pxParams->pxMarker )++`. -/
theorem Inv.count (h : Inv s) {w : Worker} {count : Word} (hw : s.worker w = .store count) :
    Inv { s.setWorker w .sync with
      marker := fun x => if x = w then count + 1#16 else s.marker x } := by
  have hcount : count = s.marker w := by
    have hok := h.worker w
    rw [hw] at hok
    exact hok
  refine ⟨⟨h.manager, ?_, ?_, ?_, h.rounds, ?_, h.fifo, ?_⟩, ?_⟩
  · intro x
    by_cases hx : x = w
    · subst hx
      simp only [State.setWorker, if_true]
      trivial
    · simpa only [State.setWorker, if_neg hx] using h.worker x
  · have hflow := h.flow
    have hbusy := setWorker_busyCount s w .sync
    rw [hw] at hbusy
    simp only [WorkerPoint.busy] at hbusy
    show s.queue.length + (s.setWorker w .sync).busyCount = s.manager.sentNow
    omega
  · have hb := setWorker_waitingBits (s := s) (w := w) (p := .sync) (by simp [hw])
    exact h.bits.trans hb.symm
  · intro x
    have hm := h.marker x
    by_cases hx : x = w
    · subst hx
      rw [hw] at hm
      simp only [State.setWorker, if_true, WorkerPoint.counted] at hm ⊢
      rw [hcount, hm, ← BitVec.ofNat_add]
    · simpa only [State.setWorker, if_neg hx] using hm
  · intro x k
    have hbusy := setWorker_point (s := s) (f := WorkerPoint.busy) (w := w) (p := .sync)
      (by rw [hw]; rfl) x
    exact (h.taken x k).trans (by rw [← hbusy]; rfl)
  · rintro ⟨-, hall⟩
    have hx := hall w
    simp [State.setWorker] at hx

theorem Core.arrive_worker (h : Core s) {w : Worker} (hw : s.worker w = .sync) :
    Core (s.arrive (.worker w)) := by
  refine ⟨h.manager, ?_, ?_, arrive_bits _ h.bits, h.rounds, ?_, h.fifo, ?_⟩
  · intro x
    by_cases hx : x = w
    · subst hx
      simp only [State.arrive, State.setWorker, if_true]
      trivial
    · simpa only [State.arrive, State.setWorker, if_neg hx] using h.worker x
  · have hflow := h.flow
    have hbusy := setWorker_busyCount s w .waiting
    rw [hw] at hbusy
    simp only [WorkerPoint.busy] at hbusy
    show s.queue.length + (s.setWorker w .waiting).busyCount = s.manager.sentNow
    omega
  · intro x
    have hcounted := setWorker_point (s := s) (f := WorkerPoint.counted) (w := w) (p := .waiting)
      (by rw [hw]; rfl) x
    exact (h.marker x).trans (by rw [← hcounted]; rfl)
  · intro x k
    have hbusy := setWorker_point (s := s) (f := WorkerPoint.busy) (w := w) (p := .waiting)
      (by rw [hw]; rfl) x
    exact (h.taken x k).trans (by rw [← hbusy]; rfl)

theorem Core.arrive_manager (h : Core s) {i : Nat} (hm : s.manager = .loop i) (hi : ¬ i < 3) :
    Core (s.arrive .manager) := by
  have hok := h.manager
  have hflow := h.flow
  have hrounds := h.rounds
  rw [hm] at hok hflow hrounds
  have hi3 : i = 3 := le_antisymm hok (by omega)
  subst hi3
  exact ⟨trivial, h.worker, hflow, arrive_bits _ h.bits, hrounds, h.marker, h.fifo, h.taken⟩

/-- At the barrier every item has been taken and counted. -/
theorem Core.queue_of_allWait (h : Core s) (hall : s.AllWait) : s.queue = [] := by
  have hflow := h.flow
  simp only [State.busyCount, hall.1, hall.2, WorkerPoint.busy, ManagerPoint.sentNow] at hflow
  exact List.length_eq_zero_iff.1 (by omega)

theorem Core.release (h : Core s) (hall : s.AllWait) :
    Inv { s with
      manager := .load, worker := fun _ => .receive, bits := 0#16, barriers := s.barriers + 1 } := by
  have hq := h.queue_of_allWait hall
  refine ⟨⟨trivial, fun _ => trivial, ?_, ?_, ?_, ?_, h.fifo, ?_⟩, ?_⟩
  · simp only [hq, State.busyCount]
    rfl
  · simp [State.waitingBits, State.waits, bitsOf]
  · have hr := h.rounds
    rw [hall.1] at hr
    simp only [ManagerPoint.behind] at hr ⊢
    rw [BitVec.ofNat_add, ← hr]
    simp
  · intro w
    have hm := h.marker w
    rw [hall.2 w] at hm
    exact hm
  · intro w k
    have ht := h.taken w k
    rw [hall.2 w] at ht
    simp only [WorkerPoint.busy] at ht ⊢
    refine Eq.trans ht ?_
    by_cases h1 : k < s.barriers
    · rw [if_pos h1, if_pos (by omega)]
    · by_cases h2 : k = s.barriers
      · rw [if_neg h1, if_pos h2, if_pos (by omega)]
      · rw [if_neg h1, if_neg h2, if_neg (by omega), ite_self]
  · rintro ⟨hm, -⟩
    cases hm

theorem Core.sync {t : Task} (hs : s.bits = s.waitingBits) (h : Core (s.arrive t)) :
    Inv (s.eventGroupSync t) := by
  rcases eventGroupSync_cases t hs with ⟨hall, he⟩ | ⟨hall, he⟩
  · rw [he]
    exact h.release hall
  · rw [he]
    exact ⟨h, hall⟩

theorem inv_stepWorker {w : Worker} {s' : State} (h : Inv s) (hs : stepWorker s w = some s') :
    Inv s' := by
  unfold stepWorker at hs
  cases hw : s.worker w with
  | receive =>
    cases hq : s.queue with
    | nil => simp [hw, hq] at hs
    | cons item rest =>
      simp only [hw, hq, Option.some.injEq] at hs
      subst hs
      exact h.receive hw hq
  | delay usTicks =>
    simp only [hw, Option.some.injEq] at hs
    subst hs
    exact h.setWorker (by rw [hw]; rfl) (by rw [hw]; rfl) (by simp [hw]) trivial
  | load =>
    simp only [hw, Option.some.injEq] at hs
    subst hs
    exact h.setWorker (by rw [hw]; rfl) (by rw [hw]; rfl) (by simp [hw]) rfl
  | store count =>
    simp only [hw, Option.some.injEq] at hs
    subst hs
    exact h.count hw
  | sync =>
    simp only [hw, Option.some.injEq] at hs
    subst hs
    exact Core.sync h.bits (h.toCore.arrive_worker hw)
  | waiting => simp [hw] at hs

theorem inv_stepManager {s' : State} (h : Inv s) (hs : stepManager s = some s') : Inv s' := by
  have hok := h.manager
  have hflow := h.flow
  have hrounds := h.rounds
  have hbits := h.bits
  unfold stepManager at hs
  cases hm : s.manager with
  | loop i =>
    rw [hm] at hok hflow hrounds
    by_cases hi : i < 3
    · simp only [hm, hi, if_true, Option.some.injEq] at hs
      subst hs
      refine ⟨⟨hi, h.worker, hflow, ?_, hrounds, h.marker, h.fifo, h.taken⟩,
        fun hall => by cases hall.1⟩
      rw [hbits]
      simp [State.waitingBits, hm, State.waits]
    · simp only [hm, hi, if_false, Option.some.injEq] at hs
      subst hs
      exact Core.sync h.bits (h.toCore.arrive_manager hm hi)
  | send i usTicks =>
    rw [hm] at hok hflow hrounds
    simp only [hm] at hs
    split at hs
    · simp only [Option.some.injEq] at hs
      subst hs
      refine ⟨⟨hok, h.worker, ?_, ?_, hrounds, h.marker, ?_, h.taken⟩, fun hall => by cases hall.1⟩
      · show (s.queue ++ [usTicks]).length + s.busyCount = i + 1
        rw [List.length_append, List.length_singleton]
        simp only [ManagerPoint.sentNow] at hflow
        omega
      · show s.bits = _
        rw [hbits]
        simp [State.waitingBits, hm, State.waits]
      · show s.sent ++ [usTicks] = _
        rw [h.fifo, List.append_assoc]
    · cases hs
  | waiting => simp [hm] at hs
  | load =>
    rw [hm] at hok hflow hrounds
    simp only [hm, Option.some.injEq] at hs
    subst hs
    refine ⟨⟨rfl, h.worker, hflow, ?_, hrounds, h.marker, h.fifo, h.taken⟩,
      fun hall => by cases hall.1⟩
    show s.bits = _
    rw [hbits]
    simp [State.waitingBits, hm, State.waits]
  | store v =>
    rw [hm] at hok hflow hrounds
    simp only [hm, Option.some.injEq] at hs
    subst hs
    have hv : v = s.rounds := hok
    refine ⟨⟨Nat.zero_le 3, h.worker, hflow, ?_, ?_, h.marker, h.fifo, h.taken⟩,
      fun hall => by cases hall.1⟩
    · show s.bits = _
      rw [hbits]
      simp [State.waitingBits, hm, State.waits]
    · show v + 1#16 + _ = _
      rw [hv, ← hrounds]
      simp [ManagerPoint.behind]

theorem inv_step {t : Task} {s' : State} (h : Inv s) (hs : step s t = some s') : Inv s' := by
  cases t with
  | manager => exact inv_stepManager h hs
  | worker w => exact inv_stepWorker h hs

theorem inv_run (schedule : List Task) (h : Inv s) : Inv (run s schedule) := by
  induction schedule generalizing s with
  | nil => exact h
  | cons t schedule ih =>
    rw [run, List.foldl_cons]
    refine ih ?_
    cases hs : step s t with
    | none => exact h
    | some s' => exact inv_step h hs

end Preserved

section Consequences
variable {s : State}

theorem WorkerPoint.counted_le_busy (p : WorkerPoint) : p.counted ≤ p.busy ∧ p.busy ≤ 1 := by
  cases p <;> simp [counted, busy]

theorem Inv.queue_le (h : Inv s) : s.queue.length ≤ 3 := by
  have hflow := h.flow
  have hok := h.manager
  cases hm : s.manager <;> rw [hm] at hok hflow <;>
    simp only [ManagerPoint.Ok, ManagerPoint.sentNow] at hok hflow <;> omega

/-- Between the barrier and `MARKER_ROUNDS++` there is nothing to work on. -/
theorem Inv.idle (h : Inv s) (hm : s.manager.behind = 1) (w : Worker) :
    (s.worker w).counted = 0 := by
  have hle := (s.worker w).counted_le_busy
  have hsent : s.manager.sentNow = 0 := by
    cases hp : s.manager <;> rw [hp] at hm <;> first | rfl | cases hm
  have hflow := h.flow
  rw [hsent, State.busyCount] at hflow
  cases w <;> omega

theorem Inv.counters (h : Inv s) (w : Worker) :
    s.marker w - s.rounds = 0#16 ∨ s.marker w - s.rounds = 1#16 := by
  have hmark := h.marker w
  have hrounds := h.rounds
  have hle := (s.worker w).counted_le_busy
  have hbehind : s.manager.behind = 0 ∨ s.manager.behind = 1 := by
    cases s.manager <;> simp [ManagerPoint.behind]
  rw [BitVec.ofNat_add, ← hrounds] at hmark
  rcases hbehind with hb | hb
  · rw [hb] at hmark
    have hc : (s.worker w).counted = 0 ∨ (s.worker w).counted = 1 := by omega
    rcases hc with hc | hc
    · left
      rw [hmark, hc]
      simp
    · right
      rw [hmark, hc]
      bv_omega
  · right
    rw [hmark, hb, h.idle hb w]
    bv_omega

theorem countP_worker (receipts : List Receipt) (w : Worker) {n : Nat}
    (h : ∀ r ∈ receipts, r.round < n) : receipts.countP (fun r => r.worker = w) =
      ∑ k ∈ Finset.range n, receipts.countP fun r => r.worker = w ∧ r.round = k := by
  induction receipts with
  | nil => simp
  | cons r receipts ih =>
    have hr : r.round < n := h r List.mem_cons_self
    have hone : (∑ k ∈ Finset.range n, if r.worker = w ∧ r.round = k then 1 else 0) =
        if r.worker = w then 1 else 0 := by
      by_cases hw : r.worker = w
      · simp [hw, hr]
      · simp [hw]
    simp only [List.countP_cons, decide_eq_true_eq, Finset.sum_add_distrib, hone]
    rw [ih fun x hx => h x (List.mem_cons_of_mem r hx)]

/-- One item for each barrier, and the one at hand. -/
theorem Inv.received (h : Inv s) (w : Worker) :
    s.received w = s.barriers + (s.worker w).busy := by
  have hround : ∀ r ∈ s.receipts, r.round < s.barriers + 1 := by
    intro r hr
    by_contra hge
    have htaken := h.taken r.worker r.round
    rw [if_neg (by omega), if_neg (by omega), State.itemsTaken, List.countP_eq_zero] at htaken
    exact htaken r hr (by simp)
  have hbefore : ∀ k ∈ Finset.range s.barriers, s.itemsTaken w k = 1 := fun k hk => by
    rw [h.taken, if_pos (Finset.mem_range.1 hk)]
  rw [State.received, countP_worker _ _ hround]
  change ∑ k ∈ Finset.range (s.barriers + 1), s.itemsTaken w k = _
  rw [Finset.sum_range_succ, Finset.sum_congr rfl hbefore, h.taken, if_neg (lt_irrefl _),
    if_pos rfl, Finset.sum_const, Finset.card_range, smul_eq_mul, Nat.mul_one]

/-- Only the rendezvous passes the barrier, and it finds the queue empty. -/
theorem Inv.barrier_empty (h : Inv s) {t : Task} {s' : State} (hs : step s t = some s')
    (hb : s'.barriers ≠ s.barriers) : s.queue = [] ∧ s'.queue = [] := by
  have hsync : ∀ {t}, Core (s.arrive t) → (s.eventGroupSync t).barriers ≠ s.barriers →
      s.queue = [] ∧ (s.eventGroupSync t).queue = [] := fun {t} hc hne => by
    have hq : (s.arrive t).queue = s.queue := by cases t <;> rfl
    have hn : (s.arrive t).barriers = s.barriers := by cases t <;> rfl
    rcases eventGroupSync_cases t h.bits with ⟨hall, he⟩ | ⟨-, he⟩
    · have hempty := hc.queue_of_allWait hall
      rw [he]
      exact ⟨hq ▸ hempty, hempty⟩
    · rw [he, hn] at hne
      exact absurd rfl hne
  cases t with
  | manager =>
    simp only [step, stepManager] at hs
    cases hm : s.manager with
    | loop i =>
      simp only [hm] at hs
      split at hs
      · cases hs
        exact absurd rfl hb
      · rename_i hi
        cases hs
        exact hsync (h.toCore.arrive_manager hm hi) hb
    | send i usTicks =>
      simp only [hm] at hs
      split at hs
      · cases hs
        exact absurd rfl hb
      · cases hs
    | waiting => simp [hm] at hs
    | load | store =>
      simp only [hm] at hs
      cases hs
      exact absurd rfl hb
  | worker w =>
    simp only [step, stepWorker] at hs
    cases hw : s.worker w with
    | receive =>
      cases hq : s.queue with
      | nil => simp [hw, hq] at hs
      | cons item rest =>
        simp only [hw, hq] at hs
        cases hs
        exact absurd rfl hb
    | sync =>
      simp only [hw] at hs
      cases hs
      exact hsync (h.toCore.arrive_worker hw) hb
    | waiting => simp [hw] at hs
    | delay | load | store =>
      simp only [hw] at hs
      cases hs
      exact absurd rfl hb

theorem Inv.progress (h : Inv s) : ∃ t s', step s t = some s' := by
  by_cases hm : s.manager = .waiting
  · -- some worker is not at the barrier yet, and its item is in the queue if it needs one
    obtain ⟨w, hw⟩ : ∃ w, s.worker w ≠ .waiting := by
      by_contra hall
      exact h.parted ⟨hm, fun w => by_contra fun hne => hall ⟨w, hne⟩⟩
    refine ⟨.worker w, ?_⟩
    simp only [step, stepWorker]
    cases hp : s.worker w with
    | receive =>
      have hflow := h.flow
      have ha := (s.worker .a).counted_le_busy
      have hb := (s.worker .b).counted_le_busy
      have hc := (s.worker .c).counted_le_busy
      have hzero : (s.worker w).busy = 0 := by rw [hp]; rfl
      rw [hm, State.busyCount] at hflow
      simp only [ManagerPoint.sentNow] at hflow
      cases hq : s.queue with
      | nil =>
        rw [hq, List.length_nil] at hflow
        cases w <;> omega
      | cons item rest => exact ⟨_, rfl⟩
    | waiting => exact absurd hp hw
    | delay | load | store | sync => exact ⟨_, rfl⟩
  · refine ⟨.manager, ?_⟩
    have hq := h.queue_le
    simp only [step, stepManager]
    cases hp : s.manager with
    | loop i => by_cases hi : i < 3 <;> simp [hi]
    | send i usTicks => simp [queueCapacity, (by omega : s.queue.length < 8)]
    | waiting => exact absurd hp hm
    | load | store => exact ⟨_, rfl⟩

end Consequences

end LlvmTms9900.FreeRTOS.QueueDemo
