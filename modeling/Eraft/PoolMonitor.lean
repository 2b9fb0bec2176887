import Eraft.ThreadPool

/-! The counters of the monitor. `waiters_` falls when a thread takes the task that stops it, and
`pendingStopSignal_` only when the thread ends. Until then the monitor counts the thread against those
that wait, and another task that is taken in between can leave fewer threads waiting than are still to
stop. `nw -= pendingStopSignal_` then wraps around. -/

open Runs

namespace Eraft

namespace PoolTask

variable {α : Type}

def isStop : PoolTask α → Bool
  | job _ => false
  | stop => true

end PoolTask

namespace WorkerPhase

variable {α : Type}

/-- The thread has taken the task that stops it, and has not ended. -/
def stopping : WorkerPhase α → Bool
  | executing task => task.isStop
  | exiting => true
  | entering | blocked | notified | ended => false

/-- The thread is counted in `waiters_`. -/
def inWait : WorkerPhase α → Bool
  | blocked | notified => true
  | entering | executing _ | exiting | ended => false

def isEntering : WorkerPhase α → Bool
  | entering => true
  | blocked | notified | executing _ | exiting | ended => false

end WorkerPhase

namespace ThreadPool

open WorkerPhase PoolTask

variable {α : Type} {p p' : ThreadPool α} {c : PoolStep α} {i : Nat}
  {moves : List (Move (ThreadPool α) (PoolStep α))}

/-- The signals that have been sent and not been counted off. -/
def signals (p : ThreadPool α) : Nat := p.tasks.countP isStop + p.workers.countP stopping

/-- While signals are pending, a thread that waits takes a task only if more threads wait than signals are
pending, and no thread starts to wait that `waiters_` cannot count. -/
def Spared (p : ThreadPool α) : PoolStep α → Prop
  | .worker i => p.pendingStopSignal = 0 ∨
      (p.tasks = [] ∧ ((p.workers[i]?).any isEntering = false ∨ p.waiters + 1 < 2 ^ 32)) ∨
      (p.tasks ≠ [] ∧ ((p.workers[i]?).any inWait = false ∨ p.pendingStopSignal < p.waiters))
  | .executeTask _ _ | .finish _ | .leave _ | .monitor _ | .setMaxIdleThread _ => True

/-- `pendingStopSignal_` is exact, and the threads that wait are enough for it. -/
structure Covered (p : ThreadPool α) : Prop where
  signals_eq : p.signals = p.pendingStopSignal
  le_waiters : p.pendingStopSignal ≤ p.waiters
  waiters_lt : p.waiters < 2 ^ 32

theorem u32Add_lt (a b : Nat) : u32Add a b < 2 ^ 32 := Nat.mod_lt _ (by decide)

theorem u32Add_of_lt {a b : Nat} (h : a + b < 2 ^ 32) : u32Add a b = a + b := Nat.mod_eq_of_lt h

theorem u32Sub_of_le {a b : Nat} (h : b ≤ a) : u32Sub a b = a - b := if_pos h

theorem u32Sub_one_lt {a : Nat} (h : a < 2 ^ 32) : u32Sub a 1 < 2 ^ 32 := by
  unfold u32Sub
  split_ifs <;> omega

theorem u32Sub_u32Add_one {a : Nat} (h : a < 2 ^ 32) : u32Sub (u32Add a 1) 1 = a := by
  unfold u32Sub u32Add
  split_ifs <;> omega

theorem le_u32Add_one_iff {a b : Nat} (hle : b ≤ a) (hlt : a < 2 ^ 32) :
    b ≤ u32Add a 1 ↔ b = 0 ∨ a + 1 < 2 ^ 32 := by
  unfold u32Add
  omega

theorem le_u32Sub_one_iff {a b : Nat} (hle : b ≤ a) (hlt : a < 2 ^ 32) :
    b ≤ u32Sub a 1 ↔ b = 0 ∨ b < a := by
  unfold u32Sub
  split_ifs <;> omega

theorem executeTask_signals (p : ThreadPool α) (job : α) (target : Nat) :
    (p.executeTask job target).signals = p.signals ∧
    (p.executeTask job target).pendingStopSignal = p.pendingStopSignal ∧
    (p.executeTask job target).waiters = p.waiters := by
  have htasks : (p.tasks ++ [PoolTask.job job]).countP isStop = p.tasks.countP isStop := by simp [isStop]
  unfold executeTask
  dsimp only
  split_ifs
  · refine ⟨congrArg₂ (· + ·) htasks ((notifyOne_countP _ rfl target).trans ?_), rfl, rfl⟩
    simp [createWorker, stopping]
  · exact ⟨congrArg₂ (· + ·) htasks (notifyOne_countP _ rfl target), rfl, rfl⟩

theorem pushStop_signals (p : ThreadPool α) (target : Nat) : (p.pushStop target).signals = p.signals + 1 := by
  have htasks : (p.tasks ++ [PoolTask.stop]).countP isStop = p.tasks.countP isStop + 1 := by simp [isStop]
  have hworkers : (notifyOne { p with tasks := p.tasks ++ [PoolTask.stop] } target).workers.countP stopping =
      p.workers.countP stopping := notifyOne_countP _ rfl target
  calc (p.pushStop target).signals = (p.tasks.countP isStop + 1) + p.workers.countP stopping :=
        congrArg₂ (· + ·) htasks hworkers
    _ = p.signals + 1 := Nat.add_right_comm _ _ _

/-- Every task of the monitor is counted, as long as the counter does not wrap around. -/
theorem monitorLoop_signals (targets : Nat → Nat) (nw : Nat) (p : ThreadPool α)
    (h : p.pendingStopSignal + nw < 2 ^ 32) :
    (monitorLoop targets nw p).signals = p.signals + (nw - p.maxIdleThread) ∧
    (monitorLoop targets nw p).pendingStopSignal = p.pendingStopSignal + (nw - p.maxIdleThread) ∧
    (monitorLoop targets nw p).waiters = p.waiters := by
  induction nw generalizing p with
  | zero =>
      rw [Nat.zero_sub]
      exact ⟨rfl, rfl, rfl⟩
  | succ nw ih =>
      unfold monitorLoop
      split_ifs with hlt
      · have hfits : p.pendingStopSignal + 1 < 2 ^ 32 := by omega
        have hpending : (p.pushStop (targets nw)).pendingStopSignal = p.pendingStopSignal + 1 :=
          u32Add_of_lt hfits
        have hmax : (p.pushStop (targets nw)).maxIdleThread = p.maxIdleThread := rfl
        obtain ⟨hsignals, hpending', hwaiters⟩ := ih (p.pushStop (targets nw)) (by omega)
        rw [pushStop_signals, hmax] at hsignals
        rw [hpending, hmax] at hpending'
        exact ⟨by omega, by omega, hwaiters⟩
      · rw [Nat.sub_eq_zero_of_le (Nat.le_of_not_lt hlt)]
        exact ⟨rfl, rfl, rfl⟩

/-- A thread that waits or takes a task moves no signal out of the account. -/
theorem wait_signals {x : WorkerPhase α} (hx : p.workers[i]? = some x) (hstop : stopping x = false) :
    (p.wait i).signals = p.signals := by
  unfold signals wait
  cases htasks : p.tasks with
  | nil =>
      have hcount := countP_set_add stopping hx .blocked
      rw [hstop] at hcount
      exact congrArg _ hcount
  | cons task rest =>
      have hcount := countP_set_add stopping hx (.executing task)
      rw [hstop, Bool.toNat_false, Nat.add_zero] at hcount
      rw [List.countP_cons]
      dsimp only
      rw [hcount, stopping]
      cases isStop task <;> simp only [Bool.toNat, cond, Bool.false_eq_true, if_true, if_false] <;> omega

theorem wait_counters (p : ThreadPool α) (i : Nat) :
    (p.wait i).pendingStopSignal = p.pendingStopSignal ∧
    (p.wait i).waiters = if p.tasks = [] then p.waiters else u32Sub p.waiters 1 := by
  unfold wait
  cases p.tasks with
  | nil => exact ⟨rfl, (if_pos rfl).symm⟩
  | cons task rest => exact ⟨rfl, (if_neg (List.cons_ne_nil task rest)).symm⟩

/-- A thread that is replaced takes its share of the signals with it. -/
theorem set_signals {x : WorkerPhase α} (hx : p.workers[i]? = some x) (y : WorkerPhase α) :
    signals { p with workers := p.workers.set i y } + (stopping x).toNat =
      p.signals + (stopping y).toNat := by
  have hcount := countP_set_add stopping hx y
  unfold signals
  dsimp only
  omega

theorem finish_signals (h : p.finish i = some p') : p'.signals = p.signals ∧
    p'.pendingStopSignal = p.pendingStopSignal ∧ p'.waiters = p.waiters := by
  unfold finish at h
  split at h
  · next hx =>
      cases h
      exact ⟨set_signals hx .entering, rfl, rfl⟩
  · next hx =>
      cases h
      exact ⟨Nat.add_right_cancel (set_signals hx .exiting), rfl, rfl⟩
  · cases h

theorem leave_signals (h : p.leave i = some p') : p'.signals + 1 = p.signals ∧
    p'.pendingStopSignal = u32Sub p.pendingStopSignal 1 ∧ p'.waiters = p.waiters := by
  unfold leave at h
  split at h
  · next hx =>
      cases h
      exact ⟨set_signals hx .ended, rfl, rfl⟩
  · cases h

theorem setMaxIdleThread_signals (p : ThreadPool α) (m : Nat) :
    (p.setMaxIdleThread m).signals = p.signals ∧
    (p.setMaxIdleThread m).pendingStopSignal = p.pendingStopSignal ∧
    (p.setMaxIdleThread m).waiters = p.waiters := by
  unfold setMaxIdleThread
  split_ifs <;> exact ⟨rfl, rfl, rfl⟩

/-- A thread that is not yet counted and finds a task leaves `waiters_` as it was. -/
theorem worker_signals (h : p.worker i = some p') : p'.signals = p.signals ∧
    p'.pendingStopSignal = p.pendingStopSignal ∧
    (((p.workers[i]?).any isEntering = true ∧ (p.workers[i]?).any inWait = false ∧
        p'.waiters = if p.tasks = [] then u32Add p.waiters 1 else u32Sub (u32Add p.waiters 1) 1) ∨
      ((p.workers[i]?).any isEntering = false ∧ (p.workers[i]?).any inWait = true ∧
        p'.waiters = if p.tasks = [] then p.waiters else u32Sub p.waiters 1)) := by
  unfold worker at h
  split at h
  · next hx =>
      cases h
      obtain ⟨hpending, hwaiters⟩ := wait_counters { p with waiters := u32Add p.waiters 1 } i
      refine ⟨@wait_signals α { p with waiters := u32Add p.waiters 1 } i _ hx rfl, hpending, .inl ?_⟩
      rw [hx]
      exact ⟨rfl, rfl, hwaiters⟩
  · next hx =>
      cases h
      obtain ⟨hpending, hwaiters⟩ := p.wait_counters i
      refine ⟨wait_signals hx rfl, hpending, .inr ?_⟩
      rw [hx]
      exact ⟨rfl, rfl, hwaiters⟩
  · next hx =>
      cases h
      obtain ⟨hpending, hwaiters⟩ := p.wait_counters i
      refine ⟨wait_signals hx rfl, hpending, .inr ?_⟩
      rw [hx]
      exact ⟨rfl, rfl, hwaiters⟩
  · cases h

/-- **The condition is exact** for a pool whose signals are covered. -/
theorem Covered.worker_iff (h : p.Covered) (hnext : p.worker i = some p') :
    p'.waiters < 2 ^ 32 ∧ (p'.pendingStopSignal ≤ p'.waiters ↔ Spared p (.worker i)) := by
  obtain ⟨_, hle, hlt⟩ := h
  obtain ⟨_, hpending, hworker⟩ := worker_signals hnext
  rw [hpending, Spared]
  rcases hworker with ⟨hentering, hwait, hwaiters⟩ | ⟨hentering, hwait, hwaiters⟩ <;>
    rw [hentering, hwait, hwaiters] <;> split_ifs with hnil
  · simp only [hnil, true_and, ne_eq, not_true_eq_false, false_and, or_false, false_or]
    exact ⟨u32Add_lt _ _, le_u32Add_one_iff hle hlt⟩
  · rw [u32Sub_u32Add_one hlt]
    exact ⟨hlt, iff_of_true hle (.inr (.inr ⟨hnil, .inl rfl⟩))⟩
  · exact ⟨hlt, iff_of_true hle (.inr (.inl ⟨hnil, .inl rfl⟩))⟩
  · simp only [hnil, false_and, ne_eq, not_false_eq_true, true_and, false_or]
    exact ⟨u32Sub_one_lt hlt, le_u32Sub_one_iff hle hlt⟩

theorem Covered.step (h : p.Covered) (hnext : Next p c p') :
    p'.signals = p'.pendingStopSignal ∧ p'.waiters < 2 ^ 32 ∧
    (p'.pendingStopSignal ≤ p'.waiters ↔ Spared p c) := by
  obtain ⟨hsignals, hle, hlt⟩ := id h
  cases c with
  | executeTask job target =>
      obtain ⟨hsignals', hpending, hwaiters⟩ := p.executeTask_signals job target
      cases hnext
      rw [hsignals', hpending, hwaiters]
      exact ⟨hsignals, hlt, iff_of_true hle trivial⟩
  | worker i =>
      obtain ⟨hsignals', hpending, _⟩ := worker_signals hnext
      exact ⟨hsignals'.trans (hsignals.trans hpending.symm), h.worker_iff hnext⟩
  | finish i =>
      obtain ⟨hsignals', hpending, hwaiters⟩ := finish_signals hnext
      rw [hsignals', hpending, hwaiters]
      exact ⟨hsignals, hlt, iff_of_true hle trivial⟩
  | leave i =>
      -- the thread that ends is one of those that have been counted
      obtain ⟨hsignals', hpending, hwaiters⟩ := leave_signals hnext
      have hpos : 1 ≤ p.pendingStopSignal := by omega
      rw [hpending, hwaiters, u32Sub_of_le hpos]
      exact ⟨by omega, hlt, iff_of_true (by omega) trivial⟩
  | monitor targets =>
      have hnw : u32Sub p.waiters p.pendingStopSignal = p.waiters - p.pendingStopSignal := u32Sub_of_le hle
      obtain ⟨hsignals', hpending, hwaiters⟩ :=
        monitorLoop_signals targets (p.waiters - p.pendingStopSignal) p (by omega)
      cases hnext
      rw [monitor, hnw, hsignals', hpending, hwaiters]
      exact ⟨by omega, hlt, iff_of_true (by omega) trivial⟩
  | setMaxIdleThread m =>
      obtain ⟨hsignals', hpending, hwaiters⟩ := p.setMaxIdleThread_signals m
      cases hnext
      rw [hsignals', hpending, hwaiters]
      exact ⟨hsignals, hlt, iff_of_true hle trivial⟩

theorem covered_of_run (hrun : Run Starts Next moves p)
    (hmoves : ∀ move ∈ moves, Spared move.before move.label) : p.Covered := by
  induction hrun with
  | start h =>
      obtain ⟨n, _, rfl⟩ := h
      exact ⟨rfl, le_rfl, Nat.two_pow_pos 32⟩
  | step _ hnext ih =>
      obtain ⟨hmove, hmoves⟩ := List.forall_mem_cons.mp hmoves
      obtain ⟨hsignals, hlt, hiff⟩ := (ih hmoves).step hnext
      exact ⟨hsignals, hiff.mpr hmove, hlt⟩

theorem monitor_tasks (p : ThreadPool α) (targets : Nat → Nat) : (p.monitor targets).tasks.length =
    p.tasks.length + (u32Sub p.waiters p.pendingStopSignal - p.maxIdleThread) :=
  (monitorLoop_counts targets _ p).1

/-- **The monitor never underflows**, if the threads that wait are spared for the pending signals. Whenever
the monitor runs, at least as many threads wait as signals are pending, and it adds no more tasks than
threads wait above the limit. The condition cannot be weakened: a step that does not meet it leads to
more pending signals than threads that wait. -/
theorem monitor_never_underflows (hrun : Run Starts Next moves p)
    (hmoves : ∀ move ∈ moves, Spared move.before move.label) :
    p.pendingStopSignal ≤ p.waiters ∧
    (∀ targets, (p.monitor targets).tasks.length ≤ p.tasks.length + (p.waiters - p.maxIdleThread)) ∧
    ∀ c p', Next p c p' → (p'.pendingStopSignal ≤ p'.waiters ↔ Spared p c) := by
  have h := covered_of_run hrun hmoves
  refine ⟨h.le_waiters, ?_, fun c p' hnext => (h.step hnext).2.2⟩
  intro targets
  rw [monitor_tasks, u32Sub_of_le h.le_waiters]
  omega

instance (p : ThreadPool α) : (c : PoolStep α) → Decidable (Spared p c)
  | .worker i => inferInstanceAs (Decidable (p.pendingStopSignal = 0 ∨
      (p.tasks = [] ∧ ((p.workers[i]?).any isEntering = false ∨ p.waiters + 1 < 2 ^ 32)) ∨
      (p.tasks ≠ [] ∧ ((p.workers[i]?).any inWait = false ∨ p.pendingStopSignal < p.waiters))))
  | .executeTask _ _ | .finish _ | .leave _ | .monitor _ | .setMaxIdleThread _ => isTrue trivial

/-- Two threads wait and one of them is stopped; the other one is left alone until it has ended. -/
theorem monitor_never_underflows_two : ∃ moves, ∃ p : ThreadPool Nat, Run Starts Next moves p ∧
    p.workers = [.exiting, .blocked] ∧ p.waiters = 1 ∧ p.pendingStopSignal = 1 ∧
    p.pendingStopSignal ≤ p.waiters := by
  obtain ⟨moves, p, hrun, hp⟩ := @exists_run Nat 1 (by decide)
    [.executeTask 0 0, .executeTask 1 0, .worker 0, .worker 1, .finish 0, .finish 1, .worker 0, .worker 1,
      .monitor fun _ => 0, .worker 0, .finish 0]
    (fun r => r.1.all (fun move => decide (Spared move.before move.label)) &&
      (r.2.workers == [WorkerPhase.exiting, WorkerPhase.blocked] &&
        (r.2.waiters == 1 && r.2.pendingStopSignal == 1))) (by decide +kernel)
  simp only [Bool.and_eq_true, beq_iff_eq, List.all_eq_true, decide_eq_true_eq] at hp
  obtain ⟨hmoves, hworkers, hwaiters, hpending⟩ := hp
  exact ⟨moves, p, hrun, hworkers, hwaiters, hpending, (monitor_never_underflows hrun hmoves).1⟩

/-- Two threads wait and one of them is stopped. Before it has ended, the other one takes a task, and the
monitor finds nobody waiting and one signal pending. -/
theorem not_monitor_never_underflows : ∃ moves, ∃ p : ThreadPool Nat, Run Starts Next moves p ∧
    p.waiters = 0 ∧ p.pendingStopSignal = 1 ∧ p.maxIdleThread = 1 ∧
    ∀ targets, (p.monitor targets).tasks.length = p.tasks.length + (2 ^ 32 - 2) := by
  obtain ⟨moves, p, hrun, hp⟩ := @exists_run Nat 1 (by decide)
    [.executeTask 0 0, .executeTask 1 0, .worker 0, .worker 1, .finish 0, .finish 1, .worker 0, .worker 1,
      .monitor fun _ => 0, .worker 0, .executeTask 2 1, .worker 1]
    (fun r => r.2.waiters == 0 && (r.2.pendingStopSignal == 1 && r.2.maxIdleThread == 1)) (by decide +kernel)
  simp only [Bool.and_eq_true, beq_iff_eq] at hp
  obtain ⟨hwaiters, hpending, hmax⟩ := hp
  refine ⟨moves, p, hrun, hwaiters, hpending, hmax, fun targets => ?_⟩
  rw [monitor_tasks, hwaiters, hpending, hmax]
  rfl

end ThreadPool

end Eraft
