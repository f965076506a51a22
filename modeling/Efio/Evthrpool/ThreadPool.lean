import Efio.Lib.Transition
import Mathlib.Algebra.BigOperators.Fin
import Mathlib.Logic.Function.Basic

/-!
# `Efio.Evthrpool.ThreadPool`: the thread pool, `MUTEX_BASED`

`ThreadPool n C` is one pool of `n` workers with the threads `C` that call
`enqueue_task` and one call of `destroy_thread_pool`. A step of a thread is
one access to what the threads share: the flag `_shutdown`, the mutex and
the condition variable, the queue (whose operations are atomic), a task
count. A task runs in one step, since it terminates.

`pthread_cond_wait` gives the mutex back and waits in one step, and takes
the mutex again after it has been woken. `pthread_cond_signal` wakes one
waiting worker if there is one, `pthread_cond_broadcast` all, and a worker
may wake up on its own at any time, so a signal can wake several.

`seq` only tells the tasks apart, and `enqueued` and `executed` only record
what has happened. The counters have not wrapped.
-/

set_option autoImplicit false

namespace Efio.Evthrpool

open Efio.Lib

/-- `struct task_s`. The null function is `0`. -/
structure PoolTask where
  taskFunction : Nat
  arg : Nat
  seq : Nat
  deriving DecidableEq, Repr

/-- Where a worker is in `thread_loop`. -/
inductive WorkerPc where
  | loadShutdown
  -- the inner loop
  | dequeue
  | lock
  | lockedLoad
  | unlockStop
  | lockedDequeue
  | unlockTask (qe : PoolTask)
  | condWait
  | waiting
  | reacquire
  | unlock
  | dequeueAgain
  | reload
  -- behind the inner loop
  | drain
  | execute (qe : PoolTask)
  | count
  | exited
  | aborted
  deriving DecidableEq, Repr

/-- Where a caller of `enqueue_task` is. -/
inductive CallerPc where
  | idle
  | enqueue (func arg : Nat)
  | addCond
  | lock
  | signal
  | unlock
  deriving DecidableEq, Repr

/-- Where `destroy_thread_pool` is. -/
inductive DestroyPc where
  | idle
  | loadShutdown
  | storeShutdown
  -- `wake_all_threads`
  | stopTask (i : Nat)
  | lock
  | broadcast
  | unlock
  | join (i : Nat)
  | done
  | busy
  deriving DecidableEq, Repr

/-- Who has the mutex. -/
inductive Owner (n : Nat) (C : Type) where
  | worker (i : Fin n)
  | caller (c : C)
  | destroyer
  deriving DecidableEq, Repr

/-- A pool and the threads that use it. -/
structure ThreadPool (n : Nat) (C : Type) where
  taskQueue : List PoolTask
  shutdown : Bool
  condCount : Nat
  mutex : Option (Owner n C)
  workers : Fin n → WorkerPc
  taskCount : Fin n → Nat
  callers : C → CallerPc
  destroyer : DestroyPc
  nextSeq : Nat
  enqueued : List PoolTask
  executed : List PoolTask

/-- A caller starts `enqueue_task` or goes on, where `signal` says which
worker its signal wakes; a worker goes on or wakes up; `destroy_thread_pool`
starts or goes on. -/
inductive PoolLabel (n : Nat) (C : Type) where
  | enqueueTask (c : C) (func arg : Nat)
  | caller (c : C)
  | signal (c : C) (woken : Option (Fin n))
  | worker (i : Fin n)
  | wake (i : Fin n)
  | destroy
  | destroyer
  deriving DecidableEq, Repr

/-- What `thread_loop` does behind the inner loop, with its variables `s`
and `qe`. -/
def afterLoop : Bool → Option PoolTask → WorkerPc
  | true, some qe => if qe.taskFunction ≠ 0 then .execute qe else .exited
  | true, none => .drain
  | false, some qe => if qe.taskFunction = 0 then .exited else .execute qe
  -- "Dequeued element cannot be NULL."
  | false, none => .aborted

namespace ThreadPool

/-- `create_thread_pool`, for a positive number of threads. -/
def create (n : Nat) (C : Type) : ThreadPool n C :=
  { taskQueue := []
    shutdown := false
    condCount := 0
    mutex := none
    workers := fun _ => .loadShutdown
    taskCount := fun _ => 0
    callers := fun _ => .idle
    destroyer := .idle
    nextSeq := 0
    enqueued := []
    executed := [] }

variable {n : Nat} {C : Type} (s : ThreadPool n C)

/-- `thrpool_get_task_count` -/
def getTaskCount : Nat := ∑ i, s.taskCount i

def goto (i : Fin n) (q : WorkerPc) : ThreadPool n C :=
  { s with workers := Function.update s.workers i q }

/-- `dequeue` of the task queue. -/
def dequeueBy (i : Fin n) (found : PoolTask → WorkerPc) (empty : WorkerPc) : ThreadPool n C :=
  match s.taskQueue with
  | [] => s.goto i empty
  | qe :: rest => { s with taskQueue := rest }.goto i (found qe)

/-- `enqueue` of a task with the function `func`. -/
def push (func arg : Nat) : ThreadPool n C :=
  { s with
    taskQueue := s.taskQueue ++ [⟨func, arg, s.nextSeq⟩]
    nextSeq := s.nextSeq + 1 }

/-- `thread_loop` -/
def workerStep (i : Fin n) : WorkerPc → Option (ThreadPool n C)
  | .loadShutdown => some (s.goto i (if s.shutdown then afterLoop true none else .dequeue))
  | .dequeue => some (s.dequeueBy i (fun qe => afterLoop false (some qe)) .lock)
  | .lock =>
    if s.mutex.isNone then some ({ s with mutex := some (.worker i) }.goto i .lockedLoad) else none
  | .lockedLoad => some (s.goto i (if s.shutdown then .unlockStop else .lockedDequeue))
  | .unlockStop => some ({ s with mutex := none }.goto i (afterLoop true none))
  | .lockedDequeue => some (s.dequeueBy i .unlockTask .condWait)
  | .unlockTask qe => some ({ s with mutex := none }.goto i (afterLoop false (some qe)))
  | .condWait => some ({ s with mutex := none }.goto i .waiting)
  | .waiting => none
  | .reacquire =>
    if s.mutex.isNone then some ({ s with mutex := some (.worker i) }.goto i .unlock) else none
  | .unlock => some ({ s with mutex := none }.goto i .dequeueAgain)
  | .dequeueAgain => some (s.dequeueBy i (fun qe => afterLoop false (some qe)) .reload)
  | .reload => some (s.goto i (if s.shutdown then afterLoop true none else .dequeue))
  | .drain => some (s.dequeueBy i (fun qe => afterLoop true (some qe)) .exited)
  | .execute qe =>
    -- "PoolTask function cannot be null."
    if qe.taskFunction = 0 then some (s.goto i .aborted)
    else some ({ s with executed := s.executed ++ [qe] }.goto i .count)
  | .count =>
    some ({ s with taskCount := Function.update s.taskCount i (s.taskCount i + 1) }.goto i
      .loadShutdown)
  | .exited | .aborted => none

/-- The worker `i` is woken. -/
def wake (i : Fin n) : Option (ThreadPool n C) :=
  if s.workers i = .waiting then some (s.goto i .reacquire) else none

/-- All waiting workers are woken. -/
def wakeAll : ThreadPool n C :=
  { s with workers := fun i => if s.workers i = .waiting then .reacquire else s.workers i }

section Callers

variable [DecidableEq C]

def callerGoto (c : C) (q : CallerPc) : ThreadPool n C :=
  { s with callers := Function.update s.callers c q }

/-- `enqueue_task` with `wake_any_one_thread`, except for the signal. -/
def callerStep (c : C) : CallerPc → Option (ThreadPool n C)
  | .enqueue func arg =>
    some ({ s.push func arg with
      enqueued := s.enqueued ++ [PoolTask.mk func arg s.nextSeq] }.callerGoto c .addCond)
  | .addCond => some ({ s with condCount := s.condCount + 1 }.callerGoto c .lock)
  | .lock =>
    if s.mutex.isNone then some ({ s with mutex := some (.caller c) }.callerGoto c .signal) else none
  | .unlock => some ({ s with mutex := none }.callerGoto c .idle)
  | .idle | .signal => none

/-- `pthread_cond_signal` -/
def signalStep (c : C) (woken : Option (Fin n)) : Option (ThreadPool n C) :=
  if s.callers c = .signal then
    match woken with
    | some i => (s.wake i).map fun s' => s'.callerGoto c .unlock
    | none => if ∀ i, s.workers i ≠ .waiting then some (s.callerGoto c .unlock) else none
  else none

end Callers

/-- `destroy_thread_pool` with `wake_all_threads` -/
def destroyStep : DestroyPc → Option (ThreadPool n C)
  | .loadShutdown =>
    some { s with destroyer := if s.shutdown then .busy else .storeShutdown }
  | .storeShutdown =>
    some { s with shutdown := true, destroyer := if 0 < n then .stopTask 0 else .lock }
  | .stopTask i =>
    some { s.push 0 0 with destroyer := if i + 1 < n then .stopTask (i + 1) else .lock }
  | .lock =>
    if s.mutex.isNone then some { s with mutex := some .destroyer, destroyer := .broadcast } else none
  | .broadcast => some { s.wakeAll with destroyer := .unlock }
  | .unlock => some { s with mutex := none, destroyer := if 0 < n then .join 0 else .done }
  | .join i =>
    if ∀ h : i < n, s.workers ⟨i, h⟩ = .exited then
      some { s with destroyer := if i + 1 < n then .join (i + 1) else .done }
    else none
  | .idle | .done | .busy => none

/-- The steps of the pool. -/
def step [DecidableEq C] (l : PoolLabel n C) (s : ThreadPool n C) : Option (ThreadPool n C) :=
  match l with
  | .enqueueTask c func arg =>
    if s.callers c = .idle then some (s.callerGoto c (.enqueue func arg)) else none
  | .caller c => s.callerStep c (s.callers c)
  | .signal c woken => s.signalStep c woken
  | .worker i => s.workerStep i (s.workers i)
  | .wake i => s.wake i
  | .destroy => if s.destroyer = .idle then some { s with destroyer := .loadShutdown } else none
  | .destroyer => s.destroyStep s.destroyer

end ThreadPool

end Efio.Evthrpool
