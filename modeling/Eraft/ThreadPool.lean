import Eraft.BaseRun

/-! `ThreadPool` (`network/src/thread_pool.cc`, `network/include/network/thread_pool.h`), before `JoinAll`.
Each section of `ExecuteTask`, `_WorkerRoutine` and `_MonitorRoutine` under `mutex_` is one step, and so
are the end of a task and the end of a thread. The threads take steps in any order, and a task need not
end. -/

open Runs

namespace Eraft

/-- Addition of unsigned 32-bit integers. -/
def u32Add (a b : Nat) : Nat := (a + b) % 2 ^ 32

/-- Subtraction of unsigned 32-bit integers. -/
def u32Sub (a b : Nat) : Nat := if b ≤ a then a - b else a + 2 ^ 32 - b

/-- What is in `tasks_`: a task of `ExecuteTask`, or the monitor's `working_ = false`. -/
inductive PoolTask (α : Type) where
  | job (job : α)
  | stop
  deriving DecidableEq

/-- Where a thread is in `_WorkerRoutine`. -/
inductive WorkerPhase (α : Type) where
  /-- About to lock `mutex_`. -/
  | entering
  /-- In `cond_.wait`. -/
  | blocked
  /-- In `cond_.wait`, but notified. -/
  | notified
  | executing (task : PoolTask α)
  /-- `working_` is false. -/
  | exiting
  | ended
  deriving DecidableEq

namespace WorkerPhase

variable {α : Type}

/-- The thread is alive and executes no task. -/
def free : WorkerPhase α → Bool
  | entering | blocked | notified | exiting => true
  | executing _ | ended => false

/-- The thread will come to take a task. -/
def canTake : WorkerPhase α → Bool
  | entering | blocked | notified => true
  | executing _ | exiting | ended => false

/-- The thread comes to take a task without being notified. -/
def awake : WorkerPhase α → Bool
  | entering | notified => true
  | blocked | executing _ | exiting | ended => false

def isBlocked : WorkerPhase α → Bool
  | blocked => true
  | entering | notified | executing _ | exiting | ended => false

end WorkerPhase

structure ThreadPool (α : Type) where
  tasks : List (PoolTask α) := []
  waiters : Nat := 0
  pendingStopSignal : Nat := 0
  maxIdleThread : Nat
  workers : List (WorkerPhase α) := []

inductive PoolStep (α : Type) where
  /-- `ExecuteTask`; `target` is for `notify_one`. -/
  | executeTask (job : α) (target : Nat)
  /-- The section of `_WorkerRoutine`, or the part of it after a wakeup. -/
  | worker (i : Nat)
  /-- `task()` returns. -/
  | finish (i : Nat)
  /-- `--pendingStopSignal_`. -/
  | leave (i : Nat)
  | monitor (targets : Nat → Nat)
  | setMaxIdleThread (m : Nat)

namespace ThreadPool

open WorkerPhase

variable {α : Type} (p : ThreadPool α)

/-- `_CreateWorker`. -/
def createWorker : ThreadPool α := { p with workers := p.workers ++ [.entering] }

/-- `cond_.notify_one()`, which wakes `target` if it is waiting and otherwise some other thread. -/
def notifyOne (target : Nat) : ThreadPool α :=
  let i := if (p.workers[target]?).any isBlocked = true then target else p.workers.findIdx isBlocked
  { p with workers := p.workers.set i .notified }

/-- `ExecuteTask`. -/
def executeTask (job : α) (target : Nat) : ThreadPool α :=
  let p := { p with tasks := p.tasks ++ [PoolTask.job job] }
  let p := if p.waiters = 0 then p.createWorker else p
  p.notifyOne target

/-- `cond_.wait` and what follows it, for a thread that has counted itself in `waiters_`. -/
def wait (i : Nat) : ThreadPool α :=
  match p.tasks with
  | [] => { p with workers := p.workers.set i .blocked }
  | task :: rest =>
      { p with tasks := rest, waiters := u32Sub p.waiters 1, workers := p.workers.set i (.executing task) }

/-- The section of `_WorkerRoutine`. A thread that waits may wake up without a notification. -/
def worker (i : Nat) : Option (ThreadPool α) :=
  match p.workers[i]? with
  | some .entering => some (wait { p with waiters := u32Add p.waiters 1 } i)
  | some .blocked | some .notified => some (p.wait i)
  | _ => none

/-- A task ends; the loop goes on unless the task was the one that stops it. -/
def finish (i : Nat) : Option (ThreadPool α) :=
  match p.workers[i]? with
  | some (.executing (.job _)) => some { p with workers := p.workers.set i .entering }
  | some (.executing .stop) => some { p with workers := p.workers.set i .exiting }
  | _ => none

def leave (i : Nat) : Option (ThreadPool α) :=
  match p.workers[i]? with
  | some .exiting => some { p with
      workers := p.workers.set i .ended, pendingStopSignal := u32Sub p.pendingStopSignal 1 }
  | _ => none

/-- The body of the loop of `_MonitorRoutine`. -/
def pushStop (target : Nat) : ThreadPool α :=
  let p := { p with tasks := p.tasks ++ [PoolTask.stop] }
  let p := p.notifyOne target
  { p with pendingStopSignal := u32Add p.pendingStopSignal 1 }

/-- `while (nw-- > maxIdleThread_)`. -/
def monitorLoop (targets : Nat → Nat) : Nat → ThreadPool α → ThreadPool α
  | 0, p => p
  | nw + 1, p =>
      if p.maxIdleThread < nw + 1 then monitorLoop targets nw (p.pushStop (targets nw)) else p

/-- The section of `_MonitorRoutine`. -/
def monitor (targets : Nat → Nat) : ThreadPool α :=
  monitorLoop targets (u32Sub p.waiters p.pendingStopSignal) p

/-- `SetMaxIdleThread`. -/
def setMaxIdleThread (m : Nat) : ThreadPool α :=
  if 0 < m ∧ m ≤ 256 then { p with maxIdleThread := m } else p

def exec : PoolStep α → Option (ThreadPool α)
  | .executeTask job target => some (p.executeTask job target)
  | .worker i => p.worker i
  | .finish i => p.finish i
  | .leave i => p.leave i
  | .monitor targets => some (p.monitor targets)
  | .setMaxIdleThread m => some (p.setMaxIdleThread m)

/-- A new pool, with the number of threads of the machine. -/
def Starts (p : ThreadPool α) : Prop := ∃ n, 0 < n ∧ p = { maxIdleThread := n }

def Next (p : ThreadPool α) (c : PoolStep α) (p' : ThreadPool α) : Prop := p.exec c = some p'

/-- How many threads there are to take a task. -/
def idle : Nat := p.workers.countP canTake

/-- Each new task finds a thread: `ExecuteTask` is called when nobody waits, or when there are fewer tasks
than threads to take one, and the monitor stops only threads for which there is no task. -/
def Fits (p : ThreadPool α) : PoolStep α → Prop
  | .executeTask _ _ => p.waiters = 0 ∨ p.tasks.length < p.idle
  | .monitor _ => p.tasks.length + (u32Sub p.waiters p.pendingStopSignal - p.maxIdleThread) ≤ p.idle
  | .worker _ | .finish _ | .leave _ | .setMaxIdleThread _ => True

theorem countP_set_add {β : Type} (q : β → Bool) {l : List β} {i : Nat} {x : β} (h : l[i]? = some x) (y : β) :
    (l.set i y).countP q + (q x).toNat = l.countP q + (q y).toNat := by
  induction l generalizing i with
  | nil => cases h
  | cons z l ih =>
      cases i with
      | zero =>
          cases h
          rw [List.set_cons_zero, List.countP_cons, List.countP_cons]
          cases q x <;> cases q y <;> rfl
      | succ i =>
          have hl := ih h
          rw [List.set_cons_succ, List.countP_cons, List.countP_cons]
          omega

theorem countP_canTake (l : List (WorkerPhase α)) :
    l.countP canTake = l.countP awake + l.countP isBlocked := by
  induction l with
  | nil => rfl
  | cons x l ih =>
      rw [List.countP_cons, List.countP_cons, List.countP_cons, ih]
      cases x <;> simp only [canTake, awake, isBlocked] <;> grind

theorem canTake_le_free (l : List (WorkerPhase α)) : l.countP canTake ≤ l.countP free :=
  List.countP_mono_left fun x _ hx => by
    cases x with
    | entering | blocked | notified => rfl
    | executing | exiting | ended => cases hx

/-- The thread that is notified is one that waits, or there is none. -/
theorem notified_or_none (target : Nat) {i : Nat}
    (hi : (if (p.workers[target]?).any isBlocked = true then target else p.workers.findIdx isBlocked) = i) :
    p.workers[i]? = some .blocked ∨ (i = p.workers.length ∧ p.workers.countP isBlocked = 0) := by
  have hblocked : ∀ {x : WorkerPhase α}, isBlocked x = true → x = .blocked := by
    intro x hx
    cases x with
    | blocked => rfl
    | entering | notified | executing | exiting | ended => cases hx
  by_cases htarget : (p.workers[target]?).any isBlocked = true
  · rw [if_pos htarget] at hi
    obtain ⟨x, hx, hq⟩ := (Option.any_eq_true _ _).mp htarget
    exact .inl (hi ▸ hblocked hq ▸ hx)
  · rw [if_neg htarget] at hi
    by_cases hlt : p.workers.findIdx isBlocked < p.workers.length
    · subst hi
      rw [List.getElem?_eq_getElem hlt, hblocked List.findIdx_getElem]
      exact .inl rfl
    · have hlen : p.workers.findIdx isBlocked = p.workers.length :=
        Nat.le_antisymm List.findIdx_le_length (Nat.le_of_not_lt hlt)
      refine .inr ⟨hi.symm.trans hlen, List.countP_eq_zero.mpr fun x hx hq => ?_⟩
      exact Bool.false_ne_true ((List.findIdx_eq_length.mp hlen x hx).symm.trans hq)

/-- A notification changes no number of threads in which it does not matter. -/
theorem notifyOne_countP {q : WorkerPhase α → Bool} (hq : q .blocked = q .notified) (target : Nat) :
    (p.notifyOne target).workers.countP q = p.workers.countP q := by
  unfold notifyOne
  dsimp only
  generalize hi : (if (p.workers[target]?).any isBlocked = true then target
    else p.workers.findIdx isBlocked) = i
  rcases p.notified_or_none target hi with hblocked | ⟨hlen, _⟩
  · have hcount := countP_set_add q hblocked .notified
    rw [hq] at hcount
    exact Nat.add_right_cancel hcount
  · rw [List.set_eq_of_length_le hlen.ge]

/-- A notification wakes a thread if there is one to wake. -/
theorem notifyOne_counts (target : Nat) :
    (p.notifyOne target).idle = p.idle ∧
    (p.notifyOne target).workers.countP isBlocked = p.workers.countP isBlocked - 1 := by
  refine ⟨p.notifyOne_countP rfl target, ?_⟩
  unfold notifyOne
  dsimp only
  generalize hi : (if (p.workers[target]?).any isBlocked = true then target
    else p.workers.findIdx isBlocked) = i
  rcases p.notified_or_none target hi with hblocked | ⟨hlen, hzero⟩
  · have hcount := countP_set_add isBlocked hblocked .notified
    dsimp only [isBlocked, Bool.toNat_true, Bool.toNat_false] at hcount
    omega
  · rw [List.set_eq_of_length_le hlen.ge, hzero]

variable {p} {p' : ThreadPool α} {c : PoolStep α} {moves : List (Move (ThreadPool α) (PoolStep α))}

theorem executeTask_counts (p : ThreadPool α) (job : α) (target : Nat) :
    (p.executeTask job target).tasks.length = p.tasks.length + 1 ∧
    (p.executeTask job target).idle = p.idle + (if p.waiters = 0 then 1 else 0) ∧
    (p.executeTask job target).workers.countP isBlocked = p.workers.countP isBlocked - 1 := by
  unfold executeTask
  dsimp only
  have hlen : (p.tasks ++ [PoolTask.job job]).length = p.tasks.length + 1 := List.length_append
  split_ifs with hzero
  · obtain ⟨hidle, hblocked⟩ := notifyOne_counts
      (createWorker { p with tasks := p.tasks ++ [PoolTask.job job] }) target
    refine ⟨hlen, hidle.trans ?_, hblocked.trans ?_⟩
    · exact List.countP_append
    · exact congrArg (· - 1) List.countP_append
  · obtain ⟨hidle, hblocked⟩ := notifyOne_counts { p with tasks := p.tasks ++ [PoolTask.job job] } target
    exact ⟨hlen, hidle, hblocked⟩

theorem pushStop_counts (p : ThreadPool α) (target : Nat) :
    (p.pushStop target).tasks.length = p.tasks.length + 1 ∧ (p.pushStop target).idle = p.idle ∧
    (p.pushStop target).workers.countP isBlocked = p.workers.countP isBlocked - 1 := by
  obtain ⟨hidle, hblocked⟩ := notifyOne_counts { p with tasks := p.tasks ++ [PoolTask.stop] } target
  exact ⟨List.length_append, hidle, hblocked⟩

/-- Every task that the monitor adds wakes a thread, as long as there are threads that wait. -/
theorem monitorLoop_counts (targets : Nat → Nat) (nw : Nat) (p : ThreadPool α) :
    (monitorLoop targets nw p).tasks.length = p.tasks.length + (nw - p.maxIdleThread) ∧
    (monitorLoop targets nw p).idle = p.idle ∧
    (monitorLoop targets nw p).workers.countP isBlocked =
      p.workers.countP isBlocked - (nw - p.maxIdleThread) := by
  induction nw generalizing p with
  | zero =>
      rw [Nat.zero_sub]
      exact ⟨rfl, rfl, rfl⟩
  | succ nw ih =>
      unfold monitorLoop
      split_ifs with hlt
      · obtain ⟨htasks, hidle, hblocked⟩ := p.pushStop_counts (targets nw)
        obtain ⟨htasks', hidle', hblocked'⟩ := ih (p.pushStop (targets nw))
        have hmax : (p.pushStop (targets nw)).maxIdleThread = p.maxIdleThread := rfl
        rw [hmax] at htasks' hblocked'
        exact ⟨by omega, hidle'.trans hidle, by omega⟩
      · rw [Nat.sub_eq_zero_of_le (Nat.le_of_not_lt hlt)]
        exact ⟨rfl, rfl, rfl⟩

/-- A thread that comes to take a task takes the first one, or waits. -/
theorem wait_counts {i : Nat} {x : WorkerPhase α} (hx : p.workers[i]? = some x) (hcan : canTake x = true) :
    (p.tasks = [] ∧ (p.wait i).tasks = [] ∧ (p.wait i).idle = p.idle) ∨
    (p.tasks.length = (p.wait i).tasks.length + 1 ∧ p.idle = (p.wait i).idle + 1 ∧
      p.workers.countP awake ≤ (p.wait i).workers.countP awake + 1) := by
  unfold wait idle
  cases htasks : p.tasks with
  | nil =>
      have hidle := countP_set_add canTake hx .blocked
      rw [hcan] at hidle
      exact .inl ⟨rfl, rfl, Nat.add_right_cancel hidle⟩
  | cons task rest =>
      have hidle := countP_set_add canTake hx (.executing task)
      have hawake := countP_set_add awake hx (.executing task)
      have hle : (awake x).toNat ≤ 1 := Bool.toNat_le _
      rw [hcan] at hidle
      refine .inr ⟨rfl, hidle.symm, ?_⟩
      dsimp only
      omega

theorem worker_counts {i : Nat} (h : p.worker i = some p') :
    (p.tasks = [] ∧ p'.tasks = [] ∧ p'.idle = p.idle) ∨
    (p.tasks.length = p'.tasks.length + 1 ∧ p.idle = p'.idle + 1 ∧
      p.workers.countP awake ≤ p'.workers.countP awake + 1) := by
  unfold worker at h
  split at h
  · next hx =>
      cases h
      exact @wait_counts α { p with waiters := u32Add p.waiters 1 } i _ hx rfl
  · next hx =>
      cases h
      exact wait_counts hx rfl
  · next hx =>
      cases h
      exact wait_counts hx rfl
  · cases h

/-- Replacing a thread that is not there to take a task takes nothing away. -/
theorem set_counts {i : Nat} {x : WorkerPhase α} (hx : p.workers[i]? = some x) (hcan : canTake x = false)
    (y : WorkerPhase α) : p.idle ≤ (p.workers.set i y).countP canTake ∧
      p.workers.countP awake ≤ (p.workers.set i y).countP awake := by
  have hawake : awake x = false := by
    cases x with
    | entering | blocked | notified => cases hcan
    | executing | exiting | ended => rfl
  have hcount := countP_set_add canTake hx y
  have hcount' := countP_set_add awake hx y
  rw [hcan] at hcount
  rw [hawake] at hcount'
  exact ⟨(Nat.le_add_right _ _).trans_eq hcount.symm, (Nat.le_add_right _ _).trans_eq hcount'.symm⟩

theorem finish_counts {i : Nat} (h : p.finish i = some p') :
    p'.tasks = p.tasks ∧ p.idle ≤ p'.idle ∧ p.workers.countP awake ≤ p'.workers.countP awake := by
  unfold finish at h
  split at h
  · next hx =>
      cases h
      exact ⟨rfl, set_counts hx rfl _⟩
  · next hx =>
      cases h
      exact ⟨rfl, set_counts hx rfl _⟩
  · cases h

theorem leave_counts {i : Nat} (h : p.leave i = some p') :
    p'.tasks = p.tasks ∧ p.idle ≤ p'.idle ∧ p.workers.countP awake ≤ p'.workers.countP awake := by
  unfold leave at h
  split at h
  · next hx =>
      cases h
      exact ⟨rfl, set_counts hx rfl _⟩
  · cases h

theorem setMaxIdleThread_counts (p : ThreadPool α) (m : Nat) :
    (p.setMaxIdleThread m).tasks = p.tasks ∧ (p.setMaxIdleThread m).workers = p.workers := by
  unfold setMaxIdleThread
  split_ifs <;> exact ⟨rfl, rfl⟩

/-- **The condition is exact** for a pool in which every task has a thread. -/
theorem served_iff (h : p.tasks.length ≤ p.idle) (hnext : Next p c p') :
    p'.tasks.length ≤ p'.idle ↔ Fits p c := by
  cases c with
  | executeTask job target =>
      obtain ⟨htasks, hidle, _⟩ := p.executeTask_counts job target
      cases hnext
      rw [htasks, hidle, Fits]
      split_ifs <;> omega
  | worker i =>
      refine iff_of_true ?_ trivial
      rcases worker_counts hnext with ⟨_, hnil, _⟩ | ⟨htasks, hidle, _⟩
      · rw [hnil]
        exact Nat.zero_le _
      · omega
  | finish i =>
      obtain ⟨htasks, hidle, _⟩ := finish_counts hnext
      exact iff_of_true (htasks ▸ h.trans hidle) trivial
  | leave i =>
      obtain ⟨htasks, hidle, _⟩ := leave_counts hnext
      exact iff_of_true (htasks ▸ h.trans hidle) trivial
  | monitor targets =>
      obtain ⟨htasks, hidle, _⟩ :=
        monitorLoop_counts targets (u32Sub p.waiters p.pendingStopSignal) p
      cases hnext
      rw [monitor, htasks, hidle, Fits]
  | setMaxIdleThread m =>
      obtain ⟨htasks, hworkers⟩ := p.setMaxIdleThread_counts m
      cases hnext
      rw [htasks, idle, hworkers]
      exact iff_of_true h trivial

/-- For every task there is a thread that comes without being notified. -/
def Served (p : ThreadPool α) : Prop := p.tasks.length ≤ p.workers.countP awake

theorem Served.le_idle (h : p.Served) : p.tasks.length ≤ p.idle :=
  h.trans ((Nat.le_add_right _ _).trans_eq (countP_canTake p.workers).symm)

theorem Served.next (h : p.Served) (hfits : Fits p c) (hnext : Next p c p') : p'.Served := by
  have hsplit := countP_canTake p.workers
  have hsplit' := countP_canTake p'.workers
  have hserved : p.tasks.length ≤ p.workers.countP awake := h
  have hle : p'.tasks.length ≤ p'.idle := (served_iff h.le_idle hnext).mpr hfits
  unfold idle at hle
  show p'.tasks.length ≤ p'.workers.countP awake
  cases c with
  | executeTask job target =>
      -- either a thread was woken or created for the task, or all that could take it are awake
      obtain ⟨htasks, hidle, hblocked⟩ := p.executeTask_counts job target
      cases hnext
      unfold idle at hidle
      split_ifs at hidle <;> omega
  | worker i =>
      rcases worker_counts hnext with ⟨_, hnil, _⟩ | ⟨htasks, _, hawake⟩
      · rw [hnil]
        exact Nat.zero_le _
      · omega
  | finish i =>
      obtain ⟨htasks, _, hawake⟩ := finish_counts hnext
      exact htasks ▸ hserved.trans hawake
  | leave i =>
      obtain ⟨htasks, _, hawake⟩ := leave_counts hnext
      exact htasks ▸ hserved.trans hawake
  | monitor targets =>
      obtain ⟨htasks, hidle, hblocked⟩ :=
        monitorLoop_counts targets (u32Sub p.waiters p.pendingStopSignal) p
      cases hnext
      unfold idle at hidle
      unfold monitor at hle hsplit' ⊢
      omega
  | setMaxIdleThread m =>
      obtain ⟨htasks, hworkers⟩ := p.setMaxIdleThread_counts m
      cases hnext
      rwa [htasks, hworkers]

theorem served_of_run (hrun : Run Starts Next moves p) (hmoves : ∀ move ∈ moves, Fits move.before move.label) :
    p.Served := by
  induction hrun with
  | start h =>
      obtain ⟨n, _, rfl⟩ := h
      exact Nat.zero_le _
  | step _ hnext ih =>
      obtain ⟨hmove, hmoves⟩ := List.forall_mem_cons.mp hmoves
      exact (ih hmoves).next hmove hnext

/-- The thread `i` comes to take a task without being notified. -/
def Comes (move : Move (ThreadPool α) (PoolStep α)) : Prop :=
  ∃ i, move.label = .worker i ∧ (move.before.workers[i]?).any awake = true

/-- A task can be taken at once. -/
theorem Served.take (h : p.Served) {task : PoolTask α} {rest : List (PoolTask α)}
    (htasks : p.tasks = task :: rest) :
    ∃ i p', (p.workers[i]?).any awake = true ∧ Next p (.worker i) p' ∧ p'.tasks = rest := by
  have hpos : 0 < p.workers.countP awake := Nat.lt_of_lt_of_le (htasks ▸ Nat.succ_pos _) h
  obtain ⟨x, hmem, hawake⟩ := List.countP_pos_iff.mp hpos
  obtain ⟨i, hi⟩ := List.mem_iff_getElem?.mp hmem
  have hany : (p.workers[i]?).any awake = true := by rwa [hi]
  cases x with
  | entering =>
      refine ⟨i, _, hany, by rw [Next, exec, worker, hi], ?_⟩
      simp only [wait, htasks]
  | notified =>
      refine ⟨i, _, hany, by rw [Next, exec, worker, hi], ?_⟩
      simp only [wait, htasks]
  | blocked | executing | exiting | ended => cases hawake

theorem exists_taken (hrun : Run Starts Next moves p) (h : p.Served) : ∃ later p',
    Run Starts Next (later ++ moves) p' ∧ p'.tasks = [] ∧ ∀ move ∈ later, Comes move := by
  induction htasks : p.tasks generalizing moves p with
  | nil => exact ⟨[], p, hrun, htasks, nofun⟩
  | cons task rest ih =>
      obtain ⟨i, p₁, hawake, hnext, hrest⟩ := h.take htasks
      obtain ⟨later, p', hrun', hnil, hlater⟩ :=
        ih (hrun.step hnext) (h.next (c := .worker i) trivial hnext) hrest
      refine ⟨later ++ [⟨p, .worker i, p₁⟩], p', ?_, hnil, ?_⟩
      · rwa [List.append_assoc]
      · intro move hmove
        rcases List.mem_append.mp hmove with hmove | hmove
        · exact hlater move hmove
        · rw [List.mem_singleton.mp hmove]
          exact ⟨i, rfl, hawake⟩

/-- **No task is stranded behind a running one**, if each new task finds a thread. There are never more tasks
than threads that are alive and execute none, and all tasks can be taken at once, without the end of a
task and without another notification. The condition cannot be weakened: a step that does not meet it
leads to more tasks than threads to take one. -/
theorem no_task_stranded (hrun : Run Starts Next moves p)
    (hmoves : ∀ move ∈ moves, Fits move.before move.label) :
    p.tasks.length ≤ p.workers.countP free ∧
    (∃ later p', Run Starts Next (later ++ moves) p' ∧ p'.tasks = [] ∧ ∀ move ∈ later, Comes move) ∧
    ∀ c p', Next p c p' → (p'.tasks.length ≤ p'.idle ↔ Fits p c) := by
  have h := served_of_run hrun hmoves
  exact ⟨h.le_idle.trans (canTake_le_free p.workers), exists_taken hrun h,
    fun c p' hnext => served_iff h.le_idle hnext⟩

instance (p : ThreadPool α) (c : PoolStep α) : Decidable (Fits p c) := by
  cases c <;> unfold Fits <;> infer_instance

def turn (p : ThreadPool α) (c : PoolStep α) : Option (PoolStep α × ThreadPool α) := (p.exec c).map (c, ·)

theorem exists_run (n : Nat) (hn : 0 < n) (steps : List (PoolStep α))
    {test : List (Move (ThreadPool α) (PoolStep α)) × ThreadPool α → Bool}
    (h : (play turn steps [] { maxIdleThread := n }).any test = true) :
    ∃ moves p, Run Starts Next moves p ∧ test (moves, p) = true := by
  refine exists_run_of_play (f := turn) ?_ (some { maxIdleThread := n }) ?_ steps h
  · intro p c e p' hturn
    obtain ⟨q, hq, heq⟩ := Option.map_eq_some_iff.mp hturn
    cases heq
    exact hq
  · intro p hp
    cases hp
    exact ⟨n, hn, rfl⟩

/-- A thread waits after its first task, and is notified of the second one. -/
theorem no_task_stranded_two : ∃ moves, ∃ p : ThreadPool Nat, Run Starts Next moves p ∧ p.tasks = [.job 1] ∧
    p.workers = [.notified] ∧ p.tasks.length ≤ p.workers.countP free := by
  obtain ⟨moves, p, hrun, hp⟩ := @exists_run Nat 1 (by decide)
    [.executeTask 0 0, .worker 0, .finish 0, .worker 0, .monitor fun _ => 0, .executeTask 1 0]
    (fun r => r.1.all (fun move => decide (Fits move.before move.label)) &&
      (r.2.tasks == [PoolTask.job 1] && r.2.workers == [WorkerPhase.notified])) (by decide +kernel)
  simp only [Bool.and_eq_true, beq_iff_eq, List.all_eq_true, decide_eq_true_eq] at hp
  obtain ⟨hmoves, htasks, hworkers⟩ := hp
  exact ⟨moves, p, hrun, htasks, hworkers, (no_task_stranded hrun hmoves).1⟩

/-- A thread waits after its first task, and two tasks are added before it wakes up. It takes the first of
them, and nobody is left for the other one. -/
theorem not_no_task_stranded : ¬∀ moves, ∀ p : ThreadPool Nat, Run Starts Next moves p →
    p.tasks.length ≤ p.workers.countP free := by
  intro h
  obtain ⟨moves, p, hrun, hp⟩ := @exists_run Nat 1 (by decide)
    [.executeTask 0 0, .worker 0, .finish 0, .worker 0, .executeTask 1 0, .executeTask 2 0, .worker 0]
    (fun r => decide (¬r.2.tasks.length ≤ r.2.workers.countP free)) (by decide +kernel)
  exact of_decide_eq_true hp (h moves p hrun)

end ThreadPool

end Eraft
