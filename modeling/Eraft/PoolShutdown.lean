import Eraft.PoolMonitor

/-! `ThreadPool::JoinAll`. From its section on, `ExecuteTask` refuses, the monitor ends, and a thread that
finds no task returns instead of waiting; `JoinAll` returns when every thread has ended. A task that
stops a thread still stops it, so that the tasks behind it are executed only if a thread is left: it is,
as long as the monitor's subtraction does not wrap around. -/

open Runs

namespace Eraft

namespace PoolTask

variable {α : Type}

def job? : PoolTask α → Option α
  | job j => some j
  | stop => none

end PoolTask

namespace WorkerPhase

variable {α : Type}

def alive : WorkerPhase α → Bool
  | ended => false
  | entering | blocked | notified | executing _ | exiting => true

def busy : WorkerPhase α → Bool
  | executing _ => true
  | entering | blocked | notified | exiting | ended => false

/-- `cond_.notify_all()`. -/
def woken : WorkerPhase α → WorkerPhase α
  | blocked => notified
  | phase => phase

end WorkerPhase

/-- A pool with `shutdown_`, the jobs that `ExecuteTask` has taken and those that a thread has begun, in
their order. -/
structure PoolLife (α : Type) where
  pool : ThreadPool α
  shutdown : Bool := false
  accepted : List α := []
  started : List α := []

inductive LifeStep (α : Type) where
  | run (step : PoolStep α)
  /-- The section of `JoinAll`. -/
  | joinAll

namespace ThreadPool

open WorkerPhase PoolTask

variable {α : Type} (p : ThreadPool α)

/-- The jobs that wait for a thread. -/
def jobs : List α := p.tasks.filterMap job?

/-- The job that the next thread takes. -/
def nextJob : List α := (p.tasks.head?.bind job?).toList

/-- `cond_.wait` and what follows it, once `shutdown_` is set: with no task left the thread returns. -/
def waitDown (i : Nat) : ThreadPool α :=
  match p.tasks with
  | [] => { p with waiters := u32Sub p.waiters 1, workers := p.workers.set i .ended }
  | _ :: _ => p.wait i

/-- The section of `_WorkerRoutine`, once `shutdown_` is set. -/
def workerDown (i : Nat) : Option (ThreadPool α) :=
  match p.workers[i]? with
  | some .entering => some (waitDown { p with waiters := u32Add p.waiters 1 } i)
  | some .blocked | some .notified => some (p.waitDown i)
  | _ => none

def notifyAll : ThreadPool α := { p with workers := p.workers.map woken }

/-- How many steps the threads can still take, once the pool is shut down. -/
def remaining : Nat := 2 * p.tasks.length + (p.workers.countP alive + p.workers.countP busy)

end ThreadPool

namespace PoolLife

open ThreadPool WorkerPhase

variable {α : Type} (l : PoolLife α)

def exec : LifeStep α → Option (PoolLife α)
  | .run (.executeTask job target) =>
      if l.shutdown then some l
      else some { l with pool := l.pool.executeTask job target, accepted := l.accepted ++ [job] }
  | .run (.worker i) =>
      (if l.shutdown then l.pool.workerDown i else l.pool.worker i).map fun pool =>
        { l with pool := pool, started := l.started ++ l.pool.nextJob }
  | .run (.finish i) => (l.pool.finish i).map fun pool => { l with pool := pool }
  | .run (.leave i) => (l.pool.leave i).map fun pool => { l with pool := pool }
  | .run (.monitor targets) =>
      if l.shutdown then some l else some { l with pool := l.pool.monitor targets }
  | .run (.setMaxIdleThread m) => some { l with pool := l.pool.setMaxIdleThread m }
  | .joinAll => if l.shutdown then some l else some { l with pool := l.pool.notifyAll, shutdown := true }

def Starts (l : PoolLife α) : Prop := ∃ n, 0 < n ∧ l = { pool := { maxIdleThread := n } }

def Next (l : PoolLife α) (c : LifeStep α) (l' : PoolLife α) : Prop := l.exec c = some l'

/-- `JoinAll` can return. -/
def Joined : Prop := l.shutdown = true ∧ ∀ w ∈ l.pool.workers, w = .ended

/-- The monitor's subtraction does not wrap around. -/
def Unwrapped (l : PoolLife α) : LifeStep α → Prop
  | .run (.monitor _) => l.pool.pendingStopSignal ≤ l.pool.waiters
  | _ => True

/-- A step of the thread `i`. -/
def OfThread (i : Nat) : LifeStep α → Prop
  | .run (.worker j) | .run (.finish j) | .run (.leave j) => j = i
  | _ => False

end PoolLife

namespace ThreadPool

open WorkerPhase PoolTask

variable {α : Type} {p p' : ThreadPool α} {i : Nat} {x : WorkerPhase α}

/-! ### What the steps of the threads do -/

/-- `waiters_` behind `++waiters_` of a thread in phase `x`. -/
def counted (p : ThreadPool α) (x : WorkerPhase α) : Nat :=
  if x.isEntering then u32Add p.waiters 1 else p.waiters

/-- What the section of `_WorkerRoutine` does: a thread takes the first task, or it finds none and waits or
returns. -/
inductive Works (p : ThreadPool α) (down : Bool) (i : Nat) (p' : ThreadPool α) : Prop
  | take {x : WorkerPhase α} {task : PoolTask α} {rest : List (PoolTask α)} (hx : p.workers[i]? = some x)
      (hcan : canTake x = true) (htasks : p.tasks = task :: rest)
      (h : p' = { p with tasks := rest, waiters := u32Sub (p.counted x) 1,
                         workers := p.workers.set i (.executing task) })
  | wait {x : WorkerPhase α} (hx : p.workers[i]? = some x) (hcan : canTake x = true)
      (htasks : p.tasks = []) (hdown : down = false)
      (h : p' = { p with waiters := p.counted x, workers := p.workers.set i .blocked })
  | back {x : WorkerPhase α} (hx : p.workers[i]? = some x) (hcan : canTake x = true)
      (htasks : p.tasks = []) (hdown : down = true)
      (h : p' = { p with waiters := u32Sub (p.counted x) 1, workers := p.workers.set i .ended })

theorem worker_works (h : p.worker i = some p') : Works p false i p' := by
  have hwait : ∀ {x : WorkerPhase α}, p.workers[i]? = some x → canTake x = true →
      wait { p with waiters := p.counted x } i = p' → Works p false i p' := by
    intro x hx hcan h
    cases htasks : p.tasks with
    | nil =>
        refine .wait hx hcan htasks rfl (h.symm.trans ?_)
        simp only [wait, htasks]
    | cons task rest =>
        refine .take hx hcan htasks (h.symm.trans ?_)
        simp only [wait, htasks]
  unfold worker at h
  split at h
  · next hx => exact hwait hx rfl (Option.some.inj h)
  · next hx => exact hwait hx rfl (Option.some.inj h)
  · next hx => exact hwait hx rfl (Option.some.inj h)
  · cases h

theorem workerDown_works (h : p.workerDown i = some p') : Works p true i p' := by
  have hwait : ∀ {x : WorkerPhase α}, p.workers[i]? = some x → canTake x = true →
      waitDown { p with waiters := p.counted x } i = p' → Works p true i p' := by
    intro x hx hcan h
    cases htasks : p.tasks with
    | nil =>
        refine .back hx hcan htasks rfl (h.symm.trans ?_)
        simp only [waitDown, htasks]
    | cons task rest =>
        refine .take hx hcan htasks (h.symm.trans ?_)
        simp only [waitDown, wait, htasks]
  unfold workerDown at h
  split at h
  · next hx => exact hwait hx rfl (Option.some.inj h)
  · next hx => exact hwait hx rfl (Option.some.inj h)
  · next hx => exact hwait hx rfl (Option.some.inj h)
  · cases h

/-- A thread that can take a task is alive, neither stops nor executes, and waits or is about to. -/
theorem canTake_phase (hcan : canTake x = true) : alive x = true ∧ stopping x = false ∧ busy x = false ∧
    (inWait x).toNat + (isEntering x).toNat = 1 := by
  cases x with
  | entering | blocked | notified => exact ⟨rfl, rfl, rfl, rfl⟩
  | executing | exiting | ended => cases hcan

theorem executeTask_countP {q : WorkerPhase α → Bool} (hq : q .blocked = q .notified) (p : ThreadPool α)
    (job : α) (target : Nat) : (p.executeTask job target).workers.countP q =
      p.workers.countP q + if p.waiters = 0 then (q .entering).toNat else 0 := by
  unfold executeTask
  dsimp only
  split_ifs with hzero
  · rw [notifyOne_countP _ hq, createWorker, List.countP_append, List.countP_singleton]
    cases q .entering <;> rfl
  · exact notifyOne_countP _ hq target

theorem executeTask_tasks (p : ThreadPool α) (job : α) (target : Nat) :
    (p.executeTask job target).tasks = p.tasks ++ [.job job] := by
  unfold executeTask
  dsimp only
  split_ifs <;> rfl

theorem executeTask_length_le (p : ThreadPool α) (job : α) (target : Nat) :
    p.workers.length ≤ (p.executeTask job target).workers.length := by
  unfold executeTask notifyOne
  dsimp only
  rw [List.length_set]
  split_ifs
  · rw [createWorker, List.length_append]
    exact Nat.le_add_right _ _
  · exact le_rfl

/-- The monitor adds tasks that stop a thread, and wakes threads. -/
theorem monitorLoop_same (targets : Nat → Nat) (nw : Nat) (p : ThreadPool α) :
    (monitorLoop targets nw p).jobs = p.jobs ∧
    (monitorLoop targets nw p).maxIdleThread = p.maxIdleThread ∧
    (monitorLoop targets nw p).workers.length = p.workers.length ∧
    ∀ q : WorkerPhase α → Bool, q .blocked = q .notified →
      (monitorLoop targets nw p).workers.countP q = p.workers.countP q := by
  induction nw generalizing p with
  | zero => exact ⟨rfl, rfl, rfl, fun _ _ => rfl⟩
  | succ nw ih =>
      unfold monitorLoop
      split_ifs with hlt
      · obtain ⟨hjobs, hmax, hlen, hcount⟩ := ih (p.pushStop (targets nw))
        refine ⟨hjobs.trans ?_, hmax, hlen.trans List.length_set, fun q hq => (hcount q hq).trans ?_⟩
        · show (p.tasks ++ [PoolTask.stop]).filterMap job? = p.jobs
          rw [List.filterMap_append]
          exact List.append_nil _
        · exact notifyOne_countP _ hq _
      · exact ⟨rfl, rfl, rfl, fun _ _ => rfl⟩

theorem notifyAll_countP {q : WorkerPhase α → Bool} (hq : q .blocked = q .notified) (p : ThreadPool α) :
    p.notifyAll.workers.countP q = p.workers.countP q := by
  rw [notifyAll, List.countP_map]
  refine List.countP_congr fun w _ => ?_
  cases w with
  | blocked => simp only [Function.comp_apply, woken, hq]
  | entering | notified | executing | exiting | ended => rfl

/-! ### The invariant -/

/-- The two counters of the pool are exact. -/
structure Exact (p : ThreadPool α) : Prop where
  waiters : p.waiters = p.workers.countP inWait
  pending : p.pendingStopSignal = p.signals

/-- There are more threads than signals to stop one, or no thread and nothing to do. -/
def Spare (p : ThreadPool α) : Prop :=
  p.signals < p.workers.countP alive ∨ (p.workers.countP alive = 0 ∧ p.signals = 0 ∧ p.tasks = [])

theorem inWait_le_alive (l : List (WorkerPhase α)) : l.countP inWait ≤ l.countP alive :=
  List.countP_mono_left fun x _ hx => by
    cases x with
    | blocked | notified => rfl
    | entering | executing | exiting | ended => cases hx

theorem Exact.executeTask (h : Exact p) (job : α) (target : Nat) : Exact (p.executeTask job target) := by
  obtain ⟨hsignals, hpending, hwaiters⟩ := p.executeTask_signals job target
  refine ⟨?_, by rw [hpending, hsignals, h.pending]⟩
  rw [hwaiters, executeTask_countP rfl, h.waiters]
  split_ifs <;> rfl

theorem Spare.executeTask (h : Spare p) (hexact : Exact p) (job : α) (target : Nat) :
    Spare (p.executeTask job target) := by
  left
  have hle := inWait_le_alive p.workers
  rw [(p.executeTask_signals job target).1, executeTask_countP rfl]
  rcases h with hspare | ⟨halive, hsignals, _⟩
  · exact Nat.lt_of_lt_of_le hspare (Nat.le_add_right _ _)
  · -- without a thread nobody waits, and the task gets a thread of its own
    rw [if_pos (by rw [hexact.waiters]; omega), halive, hsignals]
    exact Nat.zero_lt_one

theorem Exact.monitor (h : Exact p) (hlen : p.workers.length < 2 ^ 32)
    (hle : p.pendingStopSignal ≤ p.waiters) (targets : Nat → Nat) : Exact (p.monitor targets) := by
  have hlt : p.waiters < 2 ^ 32 := h.waiters ▸ List.countP_le_length.trans_lt hlen
  obtain ⟨hsignals, hpending, hwaiters⟩ :=
    monitorLoop_signals targets (u32Sub p.waiters p.pendingStopSignal) p (by rw [u32Sub_of_le hle]; omega)
  obtain ⟨_, _, _, hcount⟩ := monitorLoop_same targets (u32Sub p.waiters p.pendingStopSignal) p
  refine ⟨?_, ?_⟩
  · rw [ThreadPool.monitor, hwaiters, hcount inWait rfl, h.waiters]
  · rw [ThreadPool.monitor, hpending, hsignals, h.pending]

theorem Spare.monitor (h : Spare p) (hexact : Exact p) (hlen : p.workers.length < 2 ^ 32)
    (hmax : 0 < p.maxIdleThread) (hle : p.pendingStopSignal ≤ p.waiters) (targets : Nat → Nat) :
    Spare (p.monitor targets) := by
  have hlt : p.waiters < 2 ^ 32 := hexact.waiters ▸ List.countP_le_length.trans_lt hlen
  obtain ⟨hsignals, _, _⟩ :=
    monitorLoop_signals targets (u32Sub p.waiters p.pendingStopSignal) p (by rw [u32Sub_of_le hle]; omega)
  obtain ⟨_, _, _, hcount⟩ := monitorLoop_same targets (u32Sub p.waiters p.pendingStopSignal) p
  have htasks := (monitorLoop_counts targets (u32Sub p.waiters p.pendingStopSignal) p).1
  have hwait := inWait_le_alive p.workers
  have hwaiters := hexact.waiters
  have hpending := hexact.pending
  unfold Spare ThreadPool.monitor
  rw [hcount alive rfl, hsignals]
  rw [u32Sub_of_le hle] at htasks ⊢
  rcases h with hspare | ⟨halive, hnone, hnil⟩
  · exact .inl (by omega)
  · refine .inr ⟨halive, by omega, List.length_eq_zero_iff.mp ?_⟩
    rw [htasks, hnil, List.length_nil]
    omega

/-- A thread that has counted itself is one more that waits. -/
theorem Exact.counted (h : Exact p) (hlen : p.workers.length < 2 ^ 32) (hx : p.workers[i]? = some x)
    (hcan : canTake x = true) :
    p.counted x + (inWait x).toNat = p.workers.countP inWait + 1 := by
  obtain ⟨_, _, _, hphase⟩ := canTake_phase hcan
  have hset := countP_set_add inWait hx .blocked
  have hle : (p.workers.set i .blocked).countP inWait ≤ p.workers.length :=
    List.countP_le_length.trans_eq List.length_set
  have hone : (inWait (.blocked : WorkerPhase α)).toNat = 1 := rfl
  unfold ThreadPool.counted
  split_ifs with hentering
  · rw [hentering, Bool.toNat_true] at hphase
    rw [h.waiters, u32Add_of_lt (by omega)]
    omega
  · rw [Bool.not_eq_true] at hentering
    rw [hentering, Bool.toNat_false] at hphase
    rw [h.waiters]
    omega

/-- The section of `_WorkerRoutine` neither makes nor loses a signal. -/
theorem Works.signals {down : Bool} (hw : Works p down i p') : p'.signals = p.signals := by
  unfold ThreadPool.signals
  cases hw with
  | @take x task rest hx hcan htasks h =>
      have hset := countP_set_add stopping hx (.executing task)
      rw [(canTake_phase hcan).2.1, stopping] at hset
      rw [h, htasks, List.countP_cons]
      dsimp only
      cases hstop : task.isStop <;> rw [hstop] at hset <;>
        simp only [Bool.toNat_true, Bool.toNat_false, Bool.false_eq_true, if_true, if_false] at hset ⊢ <;> omega
  | wait hx hcan _ _ h =>
      have hset := countP_set_add stopping hx .blocked
      rw [(canTake_phase hcan).2.1] at hset
      rw [h]
      exact congrArg _ (Nat.add_right_cancel hset)
  | back hx hcan _ _ h =>
      have hset := countP_set_add stopping hx .ended
      rw [(canTake_phase hcan).2.1] at hset
      rw [h]
      exact congrArg _ (Nat.add_right_cancel hset)

theorem Exact.works (h : Exact p) (hlen : p.workers.length < 2 ^ 32) (hw : Works p false i p') : Exact p' := by
  have hsignals := hw.signals
  cases hw with
  | @take x task rest hx hcan htasks hp' =>
      have hcounted := h.counted hlen hx hcan
      have hset := countP_set_add inWait hx (.executing task)
      have hone : (inWait (.executing task)).toNat = 0 := rfl
      rw [hp'] at hsignals ⊢
      refine ⟨?_, h.pending.trans hsignals.symm⟩
      dsimp only
      rw [u32Sub_of_le (by omega)]
      omega
  | @wait x hx hcan htasks _ hp' =>
      have hcounted := h.counted hlen hx hcan
      have hset := countP_set_add inWait hx .blocked
      have hone : (inWait (.blocked : WorkerPhase α)).toNat = 1 := rfl
      rw [hp'] at hsignals ⊢
      refine ⟨?_, h.pending.trans hsignals.symm⟩
      dsimp only
      omega
  | back _ _ _ hdown _ => cases hdown

/-- A thread that takes a task or waits is still there. -/
theorem Spare.works {down : Bool} (h : Spare p) (hw : Works p down i p') :
    Spare p' ∨ (down = true ∧ p'.tasks = []) := by
  have hsignals := hw.signals
  have halive : ∀ {x y : WorkerPhase α}, p.workers[i]? = some x → canTake x = true → alive y = true →
      p'.workers = p.workers.set i y → Spare p' := by
    intro x y hx hcan hy hworkers
    have hset := countP_set_add alive hx y
    rw [(canTake_phase hcan).1, hy] at hset
    rcases h with hspare | ⟨hzero, _⟩
    · left
      rw [hsignals, hworkers]
      omega
    · have hpos := List.countP_pos_iff.mpr ⟨x, List.mem_of_getElem? hx, (canTake_phase hcan).1⟩
      omega
  cases hw with
  | take hx hcan _ hp' => exact .inl (halive hx hcan rfl (by rw [hp']))
  | wait hx hcan _ _ hp' => exact .inl (halive hx hcan rfl (by rw [hp']))
  | back _ _ htasks hdown hp' =>
      refine .inr ⟨hdown, ?_⟩
      rw [hp']
      exact htasks

theorem finish_inv (h : p.finish i = some p') : ∃ task y, p.workers[i]? = some (.executing task) ∧
    p' = { p with workers := p.workers.set i y } ∧ alive y = true ∧ inWait y = false ∧ busy y = false ∧
    stopping y = task.isStop := by
  unfold finish at h
  split at h
  · next hx => exact ⟨_, _, hx, (Option.some.inj h).symm, rfl, rfl, rfl, rfl⟩
  · next hx => exact ⟨_, _, hx, (Option.some.inj h).symm, rfl, rfl, rfl, rfl⟩
  · cases h

theorem leave_inv (h : p.leave i = some p') : p.workers[i]? = some .exiting ∧
    p' = { p with workers := p.workers.set i .ended,
                  pendingStopSignal := u32Sub p.pendingStopSignal 1 } := by
  unfold leave at h
  split at h
  · next hx => exact ⟨hx, (Option.some.inj h).symm⟩
  · cases h

theorem Exact.finish (h : Exact p) (hp' : p.finish i = some p') : Exact p' := by
  obtain ⟨hsignals, hpending, hwaiters⟩ := finish_signals hp'
  obtain ⟨task, y, hx, rfl, _, hy, _⟩ := finish_inv hp'
  have hset := countP_set_add inWait hx y
  rw [hy] at hset
  refine ⟨?_, by rw [hpending, hsignals, h.pending]⟩
  rw [hwaiters, h.waiters]
  exact (Nat.add_right_cancel hset).symm

theorem Spare.finish (h : Spare p) (hp' : p.finish i = some p') : Spare p' := by
  have hsignals := (finish_signals hp').1
  obtain ⟨task, y, hx, rfl, hy, _⟩ := finish_inv hp'
  have hset := countP_set_add alive hx y
  rw [hy] at hset
  have hsame : (p.workers.set i y).countP alive = p.workers.countP alive := Nat.add_right_cancel hset
  unfold Spare
  rw [hsignals]
  dsimp only
  rw [hsame]
  exact h

theorem Exact.leave (h : Exact p) (hp' : p.leave i = some p') : Exact p' := by
  obtain ⟨hsignals, hpending, hwaiters⟩ := leave_signals hp'
  obtain ⟨hx, rfl⟩ := leave_inv hp'
  have hset := countP_set_add inWait hx .ended
  have hpend := h.pending
  refine ⟨?_, ?_⟩
  · rw [hwaiters, h.waiters]
    exact (Nat.add_right_cancel hset).symm
  · exact hpending.trans ((u32Sub_of_le (by omega)).trans (by omega))

theorem Spare.leave (h : Spare p) (hp' : p.leave i = some p') : Spare p' := by
  obtain ⟨hsignals, _⟩ := leave_signals hp'
  obtain ⟨hx, rfl⟩ := leave_inv hp'
  have hset := countP_set_add alive hx .ended
  have hone : (alive (.exiting : WorkerPhase α)).toNat = 1 := rfl
  have hzero : (alive (.ended : WorkerPhase α)).toNat = 0 := rfl
  rcases h with hspare | ⟨hnone, hno, _⟩
  · refine .inl ?_
    dsimp only
    omega
  · omega

/-- A thread in another phase has other steps before it. -/
theorem set_remaining (hx : p.workers[i]? = some x) (y : WorkerPhase α) :
    (p.workers.set i y).countP alive + (p.workers.set i y).countP busy +
      ((alive x).toNat + (busy x).toNat) =
    p.workers.countP alive + p.workers.countP busy + ((alive y).toNat + (busy y).toNat) := by
  have halive := countP_set_add alive hx y
  have hbusy := countP_set_add busy hx y
  omega

theorem Works.remaining_lt (h : Works p true i p') : p'.remaining < p.remaining := by
  unfold remaining
  cases h with
  | @take x task rest hx hcan htasks h =>
      obtain ⟨halive, _, hbusy, _⟩ := canTake_phase hcan
      have hset := set_remaining hx (.executing task)
      have hafter : (alive (.executing task)).toNat + (busy (.executing task)).toNat = 2 := rfl
      rw [halive, hbusy, Bool.toNat_true, Bool.toNat_false, hafter] at hset
      rw [h, htasks, List.length_cons]
      dsimp only
      omega
  | wait _ _ _ hup _ => cases hup
  | back hx hcan _ _ h =>
      obtain ⟨halive, _, hbusy, _⟩ := canTake_phase hcan
      have hset := set_remaining hx .ended
      have hafter : (alive (.ended : WorkerPhase α)).toNat + (busy (.ended : WorkerPhase α)).toNat = 0 := rfl
      rw [halive, hbusy, Bool.toNat_true, Bool.toNat_false, hafter] at hset
      rw [h]
      dsimp only
      omega

theorem finish_remaining_lt (h : p.finish i = some p') : p'.remaining < p.remaining := by
  obtain ⟨task, y, hx, rfl, halive, _, hbusy, _⟩ := finish_inv h
  have hset := set_remaining hx y
  have hbefore : (alive (.executing task)).toNat + (busy (.executing task)).toNat = 2 := rfl
  rw [halive, hbusy, Bool.toNat_true, Bool.toNat_false, hbefore] at hset
  unfold remaining
  dsimp only
  omega

theorem leave_remaining_lt (h : p.leave i = some p') : p'.remaining < p.remaining := by
  obtain ⟨hx, rfl⟩ := leave_inv h
  have hset := set_remaining hx .ended
  have hbefore : (alive (.exiting : WorkerPhase α)).toNat + (busy (.exiting : WorkerPhase α)).toNat = 1 := rfl
  have hafter : (alive (.ended : WorkerPhase α)).toNat + (busy (.ended : WorkerPhase α)).toNat = 0 := rfl
  rw [hbefore, hafter] at hset
  unfold remaining
  dsimp only
  omega

theorem Spare.notifyAll (h : Spare p) : Spare p.notifyAll := by
  have hsignals : p.notifyAll.signals = p.signals :=
    congrArg (p.tasks.countP isStop + ·) (notifyAll_countP (q := stopping) rfl p)
  unfold Spare
  rw [hsignals, notifyAll_countP (q := alive) rfl]
  exact h

end ThreadPool

namespace PoolLife

open ThreadPool WorkerPhase

variable {α : Type} {l l' : PoolLife α} {c : LifeStep α} {moves : List (Move (PoolLife α) (LifeStep α))}

/-- The invariant of a pool. -/
structure Kept (l : PoolLife α) : Prop where
  order : l.accepted = l.started ++ l.pool.jobs
  exact : l.shutdown = false → Exact l.pool
  limit : 0 < l.pool.maxIdleThread
  spare : Spare l.pool ∨ (l.shutdown = true ∧ l.pool.tasks = [])

theorem works_jobs {p p' : ThreadPool α} {down : Bool} {i : Nat} (h : Works p down i p') :
    p.nextJob ++ p'.jobs = p.jobs := by
  unfold ThreadPool.nextJob ThreadPool.jobs
  cases h with
  | @take x task rest _ _ htasks h =>
      rw [h, htasks, List.filterMap_cons]
      cases hjob : task.job? <;> simp [hjob]
  | wait _ _ htasks _ h | back _ _ htasks _ h =>
      rw [h, htasks]
      rfl

theorem works_same {p p' : ThreadPool α} {down : Bool} {i : Nat} (h : Works p down i p') :
    p'.maxIdleThread = p.maxIdleThread ∧ p'.workers.length = p.workers.length ∧
      (p.tasks = [] → p'.tasks = []) := by
  cases h with
  | take _ _ htasks h =>
      rw [h]
      exact ⟨rfl, List.length_set, fun hnil => nomatch htasks.symm.trans hnil⟩
  | wait _ _ htasks _ h | back _ _ htasks _ h =>
      rw [h]
      exact ⟨rfl, List.length_set, fun hnil => hnil⟩

/-- The section of `_WorkerRoutine`, before and after the pool is shut down. -/
theorem exec_worker {i : Nat} (h : l.exec (.run (.worker i)) = some l') :
    ∃ p', Works l.pool l.shutdown i p' ∧
      l' = { l with pool := p', started := l.started ++ l.pool.nextJob } := by
  obtain ⟨p', hp', rfl⟩ := Option.map_eq_some_iff.mp h
  refine ⟨p', ?_, rfl⟩
  split_ifs at hp' with hdown
  · rw [hdown]
    exact workerDown_works hp'
  · rw [Bool.not_eq_true] at hdown
    rw [hdown]
    exact worker_works hp'

theorem Kept.executeTask (h : Kept l) (hup : l.shutdown = false) (job : α) (target : Nat) :
    Kept { l with pool := l.pool.executeTask job target, accepted := l.accepted ++ [job] } := by
  have hexact := h.exact hup
  have hjobs : (l.pool.executeTask job target).jobs = l.pool.jobs ++ [job] := by
    rw [jobs, executeTask_tasks, List.filterMap_append]
    rfl
  refine ⟨?_, fun _ => hexact.executeTask job target, ?_, .inl ?_⟩
  · dsimp only
    rw [hjobs, h.order, List.append_assoc]
  · show 0 < (l.pool.executeTask job target).maxIdleThread
    unfold ThreadPool.executeTask
    dsimp only
    split_ifs <;> exact h.limit
  · rcases h.spare with hspare | ⟨hdown, _⟩
    · exact hspare.executeTask hexact job target
    · exact absurd (hup.symm.trans hdown) (by decide)

theorem Kept.monitor (h : Kept l) (hup : l.shutdown = false) (hlen : l.pool.workers.length < 2 ^ 32)
    (hle : l.pool.pendingStopSignal ≤ l.pool.waiters) (targets : Nat → Nat) :
    Kept { l with pool := l.pool.monitor targets } := by
  have hexact := h.exact hup
  obtain ⟨hjobs, hmax, _⟩ :=
    monitorLoop_same targets (u32Sub l.pool.waiters l.pool.pendingStopSignal) l.pool
  refine ⟨?_, fun _ => hexact.monitor hlen hle targets, hmax.symm ▸ h.limit, .inl ?_⟩
  · exact h.order.trans (congrArg _ hjobs.symm)
  · rcases h.spare with hspare | ⟨hdown, _⟩
    · exact hspare.monitor hexact hlen h.limit hle targets
    · exact absurd (hup.symm.trans hdown) (by decide)

theorem Kept.worker {i : Nat} (h : Kept l) (hlen : l.pool.workers.length < 2 ^ 32)
    (hnext : l.exec (.run (.worker i)) = some l') : Kept l' := by
  obtain ⟨p', hworks, rfl⟩ := exec_worker hnext
  obtain ⟨hmax, _, hnil⟩ := works_same hworks
  refine ⟨?_, fun hdown => ?_, hmax ▸ h.limit, ?_⟩
  · dsimp only
    rw [h.order, List.append_assoc, works_jobs hworks]
  · have hdown : l.shutdown = false := hdown
    rw [hdown] at hworks
    exact (h.exact hdown).works hlen hworks
  · rcases h.spare with hspare | ⟨hdown, htasks⟩
    · exact hspare.works hworks
    · exact .inr ⟨hdown, hnil htasks⟩

/-- A thread goes on or ends, and the tasks stay as they are. -/
theorem Kept.settled {p' : ThreadPool α} (h : Kept l) (htasks : p'.tasks = l.pool.tasks)
    (hmax : p'.maxIdleThread = l.pool.maxIdleThread) (hexact : Exact l.pool → Exact p')
    (hspare : Spare l.pool → Spare p') : Kept { l with pool := p' } := by
  refine ⟨?_, fun hup => hexact (h.exact hup), hmax ▸ h.limit, ?_⟩
  · exact h.order.trans (congrArg (fun tasks => l.started ++ tasks.filterMap PoolTask.job?) htasks.symm)
  · exact h.spare.imp hspare fun hdown => ⟨hdown.1, htasks.trans hdown.2⟩

theorem Kept.setMaxIdleThread (h : Kept l) (m : Nat) :
    Kept { l with pool := l.pool.setMaxIdleThread m } := by
  unfold ThreadPool.setMaxIdleThread
  split_ifs with hm
  · exact ⟨h.order, fun hup => ⟨(h.exact hup).waiters, (h.exact hup).pending⟩, hm.1, h.spare⟩
  · exact h

theorem Kept.joinAll (h : Kept l) : Kept { l with pool := l.pool.notifyAll, shutdown := true } :=
  ⟨h.order, nofun, h.limit, h.spare.imp Spare.notifyAll fun hdown => ⟨rfl, hdown.2⟩⟩

/-- **Every step keeps the invariant.** -/
theorem Kept.next (h : Kept l) (hlen : l.pool.workers.length < 2 ^ 32) (hok : Unwrapped l c)
    (hnext : Next l c l') : Kept l' := by
  cases c with
  | joinAll =>
      unfold Next exec at hnext
      split_ifs at hnext <;> cases hnext
      · exact h
      · exact h.joinAll
  | run step =>
      cases step with
      | executeTask job target =>
          unfold Next exec at hnext
          split_ifs at hnext with hdown <;> cases hnext
          · exact h
          · exact h.executeTask (Bool.not_eq_true _ ▸ hdown) job target
      | worker i => exact h.worker hlen hnext
      | finish i =>
          obtain ⟨p', hp', rfl⟩ := Option.map_eq_some_iff.mp hnext
          obtain ⟨_, _, _, hset, _⟩ := finish_inv hp'
          exact h.settled (by rw [hset]) (by rw [hset]) (·.finish hp') (·.finish hp')
      | leave i =>
          obtain ⟨p', hp', rfl⟩ := Option.map_eq_some_iff.mp hnext
          obtain ⟨_, hset⟩ := leave_inv hp'
          exact h.settled (by rw [hset]) (by rw [hset]) (·.leave hp') (·.leave hp')
      | monitor targets =>
          unfold Next exec at hnext
          split_ifs at hnext with hdown <;> cases hnext
          · exact h
          · exact h.monitor (Bool.not_eq_true _ ▸ hdown) hlen hok targets
      | setMaxIdleThread m =>
          cases hnext
          exact h.setMaxIdleThread m

/-- No thread is ever taken out of the pool. -/
theorem Next.length_le (hnext : Next l c l') : l.pool.workers.length ≤ l'.pool.workers.length := by
  cases c with
  | joinAll =>
      unfold Next exec at hnext
      split_ifs at hnext <;> cases hnext
      · exact le_rfl
      · exact List.length_map _ |>.ge
  | run step =>
      cases step with
      | executeTask job target =>
          unfold Next exec at hnext
          split_ifs at hnext <;> cases hnext
          · exact le_rfl
          · exact executeTask_length_le l.pool job target
      | worker i =>
          obtain ⟨p', hworks, rfl⟩ := exec_worker hnext
          exact (works_same hworks).2.1.ge
      | finish i =>
          obtain ⟨p', hp', rfl⟩ := Option.map_eq_some_iff.mp hnext
          obtain ⟨_, _, _, rfl, _⟩ := finish_inv hp'
          exact List.length_set.ge
      | leave i =>
          obtain ⟨p', hp', rfl⟩ := Option.map_eq_some_iff.mp hnext
          obtain ⟨_, rfl⟩ := leave_inv hp'
          exact List.length_set.ge
      | monitor targets =>
          unfold Next exec at hnext
          split_ifs at hnext <;> cases hnext
          · exact le_rfl
          · exact (monitorLoop_same targets _ l.pool).2.2.1.ge
      | setMaxIdleThread m =>
          cases hnext
          exact (congrArg List.length (l.pool.setMaxIdleThread_counts m).2).ge

theorem kept_of_run (hrun : Run Starts Next moves l) (hlen : l.pool.workers.length < 2 ^ 32)
    (hmoves : ∀ move ∈ moves, Unwrapped move.before move.label) : Kept l := by
  induction hrun with
  | start h =>
      obtain ⟨n, hn, rfl⟩ := h
      exact ⟨rfl, fun _ => ⟨rfl, rfl⟩, hn, .inl (.inr ⟨rfl, rfl, rfl⟩)⟩
  | step _ hnext ih =>
      obtain ⟨hmove, hmoves⟩ := List.forall_mem_cons.mp hmoves
      have hbefore := hnext.length_le.trans_lt hlen
      exact (ih hbefore hmoves).next hbefore hmove hnext

/-! ### After the section of JoinAll -/

/-- Nothing is accepted any more, and every step of a thread uses up one of those that remain. -/
theorem Next.shutdown (hdown : l.shutdown = true) (hnext : Next l c l') :
    l'.accepted = l.accepted ∧ l'.pool.remaining ≤ l.pool.remaining ∧
    (∀ i, OfThread i c → l'.pool.remaining < l.pool.remaining) := by
  have hsame : l' = l → (∀ i, ¬OfThread i c) → l'.accepted = l.accepted ∧
      l'.pool.remaining ≤ l.pool.remaining ∧
      (∀ i, OfThread i c → l'.pool.remaining < l.pool.remaining) := by
    rintro rfl hnot
    exact ⟨rfl, le_rfl, fun i hthread => absurd hthread (hnot i)⟩
  cases c with
  | joinAll =>
      have hrefused : l.exec .joinAll = some l := if_pos hdown
      exact hsame (Option.some.inj (hnext.symm.trans hrefused)) fun _ => id
  | run step =>
      cases step with
      | executeTask job target =>
          have hrefused : l.exec (.run (.executeTask job target)) = some l := if_pos hdown
          exact hsame (Option.some.inj (hnext.symm.trans hrefused)) fun _ => id
      | monitor targets =>
          have hrefused : l.exec (.run (.monitor targets)) = some l := if_pos hdown
          exact hsame (Option.some.inj (hnext.symm.trans hrefused)) fun _ => id
      | setMaxIdleThread m =>
          cases hnext
          obtain ⟨htasks, hworkers⟩ := l.pool.setMaxIdleThread_counts m
          refine ⟨rfl, ?_, fun _ => nofun⟩
          unfold remaining
          dsimp only
          rw [htasks, hworkers]
      | worker i =>
          obtain ⟨p', hworks, rfl⟩ := exec_worker hnext
          rw [hdown] at hworks
          exact ⟨rfl, hworks.remaining_lt.le, fun _ _ => hworks.remaining_lt⟩
      | finish i =>
          obtain ⟨p', hp', rfl⟩ := Option.map_eq_some_iff.mp hnext
          exact ⟨rfl, (finish_remaining_lt hp').le, fun _ _ => finish_remaining_lt hp'⟩
      | leave i =>
          obtain ⟨p', hp', rfl⟩ := Option.map_eq_some_iff.mp hnext
          exact ⟨rfl, (leave_remaining_lt hp').le, fun _ _ => leave_remaining_lt hp'⟩

/-- A thread that has not ended can take a step. -/
theorem exists_threadStep (hdown : l.shutdown = true) {i : Nat} {w : WorkerPhase α}
    (hi : l.pool.workers[i]? = some w) (hlive : w ≠ .ended) : ∃ c l', OfThread i c ∧ Next l c l' := by
  have hworker : ∀ {p'}, l.pool.workerDown i = some p' → ∃ c l', OfThread i c ∧ Next l c l' := by
    intro p' hp'
    refine ⟨.run (.worker i), { l with pool := p', started := l.started ++ l.pool.nextJob }, rfl, ?_⟩
    rw [Next, exec, if_pos hdown, hp']
    rfl
  have hfinish : ∀ {p'}, l.pool.finish i = some p' → ∃ c l', OfThread i c ∧ Next l c l' := by
    intro p' hp'
    refine ⟨.run (.finish i), { l with pool := p' }, rfl, ?_⟩
    rw [Next, exec, hp']
    rfl
  cases w with
  | entering | blocked | notified => exact hworker (by rw [workerDown, hi])
  | executing task =>
      cases task with
      | job | stop => exact hfinish (by rw [finish, hi])
  | exiting =>
      refine ⟨.run (.leave i), { l with pool := { l.pool with
        workers := l.pool.workers.set i .ended
        pendingStopSignal := u32Sub l.pool.pendingStopSignal 1 } }, rfl, ?_⟩
      rw [Next, exec, leave, hi]
      rfl
  | ended => exact absurd rfl hlive

/-- **`JoinAll` returns when all is done.** The threads begin the jobs in the order in which `ExecuteTask` has
taken them, each once, and when every thread has ended no job is left. Once the pool is shut down it takes
no more jobs, and every thread that has not ended can take a step, of which there are only so many.
The monitor must not have wrapped around: the tasks it then adds stop every thread. -/
theorem joinAll_runs_every_job (hrun : Run Starts Next moves l) (hlen : l.pool.workers.length < 2 ^ 32)
    (hmoves : ∀ move ∈ moves, Unwrapped move.before move.label) :
    l.accepted = l.started ++ l.pool.jobs ∧ (l.Joined → l.started = l.accepted) ∧
    (l.shutdown = true → ∀ i w, l.pool.workers[i]? = some w → w ≠ .ended →
      ∃ c l', OfThread i c ∧ Next l c l') ∧
    (l.shutdown = true → ∀ c l', Next l c l' → l'.accepted = l.accepted ∧
      l'.pool.remaining ≤ l.pool.remaining ∧
      (∀ i, OfThread i c → l'.pool.remaining < l.pool.remaining)) := by
  have h := kept_of_run hrun hlen hmoves
  refine ⟨h.order, fun hjoined => ?_, fun hdown i w hi hlive => exists_threadStep hdown hi hlive,
    fun hdown c l' hnext => hnext.shutdown hdown⟩
  have hended : l.pool.workers.countP alive = 0 := by
    refine List.countP_eq_zero.mpr fun w hw => ?_
    rw [hjoined.2 w hw]
    exact Bool.false_ne_true
  have hnil : l.pool.tasks = [] := by
    rcases h.spare with (hspare | ⟨_, _, hnil⟩) | ⟨_, hnil⟩
    · omega
    · exact hnil
    · exact hnil
  rw [h.order, jobs, hnil]
  exact (List.append_nil _).symm

instance (l : PoolLife α) : (c : LifeStep α) → Decidable (Unwrapped l c)
  | .run (.monitor _) => inferInstanceAs (Decidable (l.pool.pendingStopSignal ≤ l.pool.waiters))
  | .run (.executeTask _ _) | .run (.worker _) | .run (.finish _) | .run (.leave _)
  | .run (.setMaxIdleThread _) | .joinAll => isTrue trivial

def turn (l : PoolLife α) (c : LifeStep α) : Option (LifeStep α × PoolLife α) := (l.exec c).map (c, ·)

theorem turn_next (l : PoolLife α) (p c : LifeStep α) (l' : PoolLife α) (h : turn l p = some (c, l')) :
    Next l c l' := by
  obtain ⟨q, hq, heq⟩ := Option.map_eq_some_iff.mp h
  cases heq
  exact hq

/-- Two threads wait, one of them is to stop, and a third job is taken before `JoinAll`. -/
theorem joinAll_runs_every_job_three : ∃ moves, ∃ l : PoolLife Nat, Run Starts Next moves l ∧ l.Joined ∧
    l.accepted = [0, 1, 2] ∧ l.started = l.accepted := by
  have hplay : ((some { pool := { maxIdleThread := 1 } }).bind (play turn
      [.run (.executeTask 0 0), .run (.executeTask 1 0), .run (.worker 0), .run (.worker 1),
      .run (.finish 0), .run (.finish 1), .run (.worker 0), .run (.worker 1), .run (.monitor fun _ => 0),
      .run (.executeTask 2 1), .joinAll, .run (.worker 0), .run (.worker 1), .run (.finish 0),
      .run (.leave 0), .run (.finish 1), .run (.worker 1)] [])).any
      (fun r => (∀ move ∈ r.1, Unwrapped move.before move.label) ∧ r.2.pool.workers.length < 2 ^ 32 ∧
        (r.2.shutdown = true ∧ ∀ w ∈ r.2.pool.workers, w = .ended) ∧ r.2.accepted = [0, 1, 2]) = true := by
    decide +kernel
  have hstart : ∀ l : PoolLife Nat, some { pool := { maxIdleThread := 1 } } = some l → Starts l := by
    intro l hl
    cases hl
    exact ⟨1, Nat.zero_lt_one, rfl⟩
  obtain ⟨moves, l, hrun, htest⟩ := exists_run_of_play turn_next _ hstart _ hplay
  obtain ⟨hmoves, hlen, hjoined, haccepted⟩ := of_decide_eq_true htest
  exact ⟨moves, l, hrun, hjoined, haccepted, (joinAll_runs_every_job hrun hlen hmoves).2.1 hjoined⟩

end PoolLife

end Eraft
