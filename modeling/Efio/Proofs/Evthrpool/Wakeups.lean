import Efio.Lib.Counted
import Efio.Proofs.Evthrpool.PoolSync

/-!
# `Efio.Proofs.Evthrpool.Wakeups`: the thread pool never sleeps on work

Before `_shutdown` is set, the queue has no more tasks than there are
signals on their way and workers that will look at the queue before they
wait, as long as any worker sleeps (`Wakeups.balance`). When none sleeps
nothing has to be said: a worker goes to sleep only when it finds the queue
empty, with the mutex in its hands, and it gives it back only when it
waits, so that no signal falls in between.

Afterwards the broadcast wakes every worker, and those that come later find
`_shutdown` set before they wait.
-/

set_option autoImplicit false

namespace Efio.Proofs.Evthrpool

open Efio.Lib
open Efio.Evthrpool

variable {n : Nat} {C : Type} {s s' : ThreadPool n C} {i : Fin n} {c : C} {l : PoolLabel n C}
variable {q : WorkerPc} {qe : PoolTask}

/-! ### Who owes what -/

/-- The caller is between its `enqueue` and its signal. -/
def owesSignal (p : CallerPc) : Bool := p == .addCond || p == .lock || p == .signal

/-- `destroy_thread_pool` is between the setting of `_shutdown` and its
broadcast. -/
def owesBroadcast : DestroyPc → Bool
  | .stopTask _ | .lock | .broadcast => true
  | _ => false

/-- The worker waits, or will wait without another look at the queue. -/
def asleep (p : WorkerPc) : Bool := p == .waiting || p == .condWait

/-- Workers that look at the queue before they wait or leave. One that has
taken a stop task leaves. -/
def obliged : WorkerPc → Nat
  | .waiting | .condWait | .exited | .aborted => 0
  | .unlockTask qe | .execute qe => if qe.taskFunction = 0 then 0 else 1
  | _ => 1

/-- The worker will wait, or does, and has not seen `_shutdown` set. -/
def unaware (p : WorkerPc) : Bool := p == .lockedDequeue || asleep p

/-- What holds in every state. -/
structure Wakeups (s : ThreadPool n C) : Prop where
  sync : PoolSync s
  balance : ∃ owed : Int, Counted owesSignal s.callers owed ∧
    (s.shutdown = false → (∃ i, asleep (s.workers i) = true) →
      (s.taskQueue.length : Int) ≤ owed + ∑ i, obliged (s.workers i))
  woken : hasStored s.destroyer = true → owesBroadcast s.destroyer = false →
    ∀ i, unaware (s.workers i) = false

theorem wakeups_create : Wakeups (ThreadPool.create n C) where
  sync := poolSync_create
  balance := ⟨0, ⟨∅, fun c => by simp [ThreadPool.create, owesSignal], rfl⟩, fun _ h => by
    simp [ThreadPool.create, asleep] at h⟩
  woken h := by simp [ThreadPool.create, hasStored] at h

/-! ### The workers -/

/-- The worker `i` moves to `q`, and the queue changes at most by what it
takes. -/
theorem Wakeups.worker_moves (h : Wakeups s) (hsync : PoolSync s')
    (hworkers : s'.workers = Function.update s.workers i q) (hcallers : s'.callers = s.callers)
    (hdestroyer : s'.destroyer = s.destroyer) (hshutdown : s'.shutdown = s.shutdown)
    (hbalance : s.shutdown = false → s'.taskQueue = [] ∨
      (asleep q = true → asleep (s.workers i) = true) ∧
        s'.taskQueue.length + obliged (s.workers i) ≤ s.taskQueue.length + obliged q)
    (hunaware : unaware q = true → unaware (s.workers i) = true ∨ s.shutdown = false) :
    Wakeups s' := by
  refine ⟨hsync, ?_, ?_⟩
  · obtain ⟨owed, howed, hbound⟩ := h.balance
    refine ⟨owed, by rwa [hcallers], ?_⟩
    rw [hshutdown]
    intro hopen hasleep
    rcases hbalance hopen with hempty | ⟨hsame, hlength⟩
    · have howed := howed.nonneg
      rw [hempty, List.length_nil]
      omega
    · have hbefore : ∃ j, asleep (s.workers j) = true := by
        obtain ⟨j, hj⟩ := hasleep
        by_cases hji : j = i
        · exact ⟨i, hsame (by simpa [hworkers, hji] using hj)⟩
        · exact ⟨j, by simpa [hworkers, hji] using hj⟩
      have hsum := sum_update obliged s.workers i q
      have hlimit := hbound hopen hbefore
      rw [hworkers]
      omega
  · rw [hdestroyer]
    intro hstored howes j
    by_cases hji : j = i
    · -- Behind the broadcast `_shutdown` is set.
      have hset : s.shutdown = true := h.sync.announced.trans hstored
      cases hq : unaware q with
      | false => simp [hworkers, hji, hq]
      | true =>
        rcases hunaware hq with hmine | hopen
        · simp [h.woken hstored howes i] at hmine
        · simp [hset] at hopen
    · simpa [hworkers, hji] using h.woken hstored howes j

/-- The worker looks at the queue. -/
theorem Wakeups.worker_dequeues (h : Wakeups s) {found : PoolTask → WorkerPc} {empty : WorkerPc}
    (hsync : PoolSync (s.dequeueBy i found empty)) (hone : obliged (s.workers i) ≤ 1)
    (hfound : ∀ qe, unaware (found qe) = false)
    (hempty : unaware empty = true → unaware (s.workers i) = true) :
    Wakeups (s.dequeueBy i found empty) := by
  unfold ThreadPool.dequeueBy at hsync ⊢
  cases hqueue : s.taskQueue with
  | nil =>
    rw [hqueue] at hsync
    exact h.worker_moves hsync rfl rfl rfl rfl (fun _ => Or.inl hqueue) fun hq => Or.inl (hempty hq)
  | cons qe rest =>
    rw [hqueue] at hsync
    have hnot : asleep (found qe) = false := by
      have hfound := hfound qe
      simp only [unaware, Bool.or_eq_false_iff] at hfound
      exact hfound.2
    refine h.worker_moves hsync rfl rfl rfl rfl (fun _ => Or.inr ⟨by simp [hnot], ?_⟩) ?_
    · simp only [ThreadPool.goto, hqueue, List.length_cons]
      omega
    · simp [hfound qe]

/-- The worker goes on, and the queue stays. -/
theorem Wakeups.worker_goes (h : Wakeups s) (hsync : PoolSync s')
    (hworkers : s'.workers = Function.update s.workers i q) (hcallers : s'.callers = s.callers)
    (hdestroyer : s'.destroyer = s.destroyer) (hshutdown : s'.shutdown = s.shutdown)
    (hqueue : s'.taskQueue = s.taskQueue) (hsame : asleep q = true → asleep (s.workers i) = true)
    (hobliged : s.shutdown = false → obliged (s.workers i) ≤ obliged q)
    (hunaware : unaware q = true → unaware (s.workers i) = true ∨ s.shutdown = false) :
    Wakeups s' := by
  refine h.worker_moves hsync hworkers hcallers hdestroyer hshutdown ?_ hunaware
  intro hopen
  have hle := hobliged hopen
  exact Or.inr ⟨hsame, by rw [hqueue]; omega⟩

theorem afterLoop_aware (b : Bool) (qe : PoolTask) : unaware (afterLoop b (some qe)) = false := by
  cases b <;> by_cases hqe : qe.taskFunction = 0 <;> simp [afterLoop, hqe, unaware, asleep]

theorem obliged_afterLoop (qe : PoolTask) :
    obliged (afterLoop false (some qe)) = if qe.taskFunction = 0 then 0 else 1 := by
  by_cases hqe : qe.taskFunction = 0 <;> simp [afterLoop, hqe, obliged]

theorem Wakeups.workerStep (h : Wakeups s) (hstep : s.workerStep i (s.workers i) = some s') :
    Wakeups s' := by
  have hsync : PoolSync s' := h.sync.workerStep hstep
  cases hpc : s.workers i with
  | loadShutdown | reload =>
    rw [hpc] at hstep
    cases hstep
    refine h.worker_goes hsync rfl rfl rfl rfl rfl ?_ ?_ ?_ <;>
      cases s.shutdown <;> simp [hpc, afterLoop, asleep, obliged, unaware]
  | dequeue | dequeueAgain =>
    rw [hpc] at hstep
    cases hstep
    exact h.worker_dequeues hsync (by simp [hpc, obliged]) (afterLoop_aware false)
      (by simp [unaware, asleep])
  | drain =>
    rw [hpc] at hstep
    cases hstep
    exact h.worker_dequeues hsync (by simp [hpc, obliged]) (afterLoop_aware true)
      (by simp [unaware, asleep])
  | lockedDequeue =>
    rw [hpc] at hstep
    cases hstep
    exact h.worker_dequeues hsync (by simp [hpc, obliged]) (fun _ => rfl) (by simp [hpc, unaware])
  | lock | reacquire =>
    rw [hpc] at hstep
    simp only [ThreadPool.workerStep] at hstep
    split at hstep
    case isTrue =>
      cases hstep
      exact h.worker_goes hsync rfl rfl rfl rfl rfl (by simp [asleep]) (by simp [hpc, obliged])
        (by simp [unaware, asleep])
    case isFalse => cases hstep
  | lockedLoad =>
    rw [hpc] at hstep
    cases hstep
    refine h.worker_goes hsync rfl rfl rfl rfl rfl ?_ ?_ ?_ <;>
      cases s.shutdown <;> simp [hpc, asleep, obliged, unaware]
  | unlockStop =>
    rw [hpc] at hstep
    cases hstep
    exact h.worker_goes hsync rfl rfl rfl rfl rfl (by simp [afterLoop, asleep])
      (by simp [hpc, afterLoop, obliged]) (by simp [afterLoop, unaware, asleep])
  | unlockTask qe =>
    rw [hpc] at hstep
    cases hstep
    have haware := afterLoop_aware false qe
    refine h.worker_goes hsync rfl rfl rfl rfl rfl ?_ ?_ (by simp [haware])
    · simp only [unaware, Bool.or_eq_false_iff] at haware
      simp [haware.2]
    · rw [obliged_afterLoop, hpc]
      exact fun _ => le_refl _
  | condWait =>
    rw [hpc] at hstep
    cases hstep
    exact h.worker_goes hsync rfl rfl rfl rfl rfl (by simp [hpc, asleep]) (by simp [hpc, obliged])
      (by simp [hpc, unaware, asleep])
  | unlock | count =>
    rw [hpc] at hstep
    cases hstep
    exact h.worker_goes hsync rfl rfl rfl rfl rfl (by simp [asleep]) (by simp [hpc, obliged])
      (by simp [unaware, asleep])
  | execute qe =>
    have hproper := h.sync.proper i
    rw [hpc] at hstep hproper
    simp only [ThreadPool.workerStep, if_neg (show ¬ qe.taskFunction = 0 from hproper)] at hstep
    cases hstep
    refine h.worker_goes hsync rfl rfl rfl rfl rfl (by simp [asleep]) ?_ (by simp [unaware, asleep])
    intro _
    simp only [hpc, obliged]
    split <;> omega
  | waiting | exited | aborted =>
    rw [hpc] at hstep
    cases hstep

/-- A wake-up that nobody has sent. -/
theorem Wakeups.wake (h : Wakeups s) (hstep : s.wake i = some s') : Wakeups s' := by
  have hsync : PoolSync s' := h.sync.wake hstep
  obtain ⟨hpc, rfl⟩ := wake_eq_some hstep
  exact h.worker_goes hsync rfl rfl rfl rfl rfl (by simp [asleep]) (by simp [hpc, obliged])
    (by simp [unaware, asleep])

/-! ### The other threads -/

section Callers

variable [DecidableEq C] {p : CallerPc}

/-- A caller moves. It adds no more tasks than it owes signals. -/
theorem Wakeups.caller_moves (h : Wakeups s) (hsync : PoolSync s') (hworkers : s'.workers = s.workers)
    (hcallers : s'.callers = Function.update s.callers c p) (hdestroyer : s'.destroyer = s.destroyer)
    (hshutdown : s'.shutdown = s.shutdown)
    (hlength : (s'.taskQueue.length : Int) + share owesSignal (s.callers c) ≤
      s.taskQueue.length + share owesSignal p) : Wakeups s' := by
  obtain ⟨owed, howed, hbound⟩ := h.balance
  refine ⟨hsync, ⟨_, hcallers ▸ howed.update c p, ?_⟩, ?_⟩
  · rw [hshutdown, hworkers]
    intro hopen hasleep
    have hlimit := hbound hopen hasleep
    omega
  · rw [hdestroyer, hworkers]
    exact h.woken

theorem Wakeups.callerStep (h : Wakeups s) (hstep : s.callerStep c (s.callers c) = some s') :
    Wakeups s' := by
  have hsync : PoolSync s' := h.sync.callerStep hstep
  cases hpc : s.callers c with
  | enqueue func arg =>
    rw [hpc] at hstep
    cases hstep
    refine h.caller_moves hsync rfl rfl rfl rfl ?_
    simp [hpc, share, owesSignal, ThreadPool.callerGoto, ThreadPool.push]
  | addCond =>
    rw [hpc] at hstep
    cases hstep
    refine h.caller_moves hsync rfl rfl rfl rfl ?_
    simp [hpc, share, owesSignal, ThreadPool.callerGoto]
  | lock =>
    rw [hpc] at hstep
    simp only [ThreadPool.callerStep] at hstep
    split at hstep
    case isTrue =>
      cases hstep
      refine h.caller_moves hsync rfl rfl rfl rfl ?_
      simp [hpc, share, owesSignal, ThreadPool.callerGoto]
    case isFalse => cases hstep
  | unlock =>
    rw [hpc] at hstep
    cases hstep
    refine h.caller_moves hsync rfl rfl rfl rfl ?_
    simp [hpc, share, owesSignal, ThreadPool.callerGoto]
  | idle | signal =>
    rw [hpc] at hstep
    cases hstep

/-- The signal wakes a worker, or nobody sleeps. -/
theorem Wakeups.signal (h : Wakeups s) {woken : Option (Fin n)} (hsync : PoolSync s')
    (hstep : s.signalStep c woken = some s') : Wakeups s' := by
  obtain ⟨hpc, s₁, hs₁, rfl⟩ := signalStep_eq_some hstep
  obtain ⟨owed, howed, hbound⟩ := h.balance
  have hnext : Counted owesSignal (Function.update s.callers c .unlock) (owed + (0 - 1)) := by
    have hmoved := howed.update c CallerPc.unlock
    rwa [hpc] at hmoved
  rcases hs₁ with ⟨i, -, hwake⟩ | ⟨-, hnone, rfl⟩
  · have hwoken := (h.wake hwake).woken
    obtain ⟨hwaits, rfl⟩ := wake_eq_some hwake
    refine ⟨hsync, ⟨_, hnext, fun hopen _ => ?_⟩, hwoken⟩
    -- The signal that is no longer owed is made up by the worker.
    have hlimit := hbound hopen ⟨i, by simp [hwaits, asleep]⟩
    have hsum := sum_update obliged s.workers i .reacquire
    rw [hwaits, show obliged .waiting = 0 from rfl, show obliged .reacquire = 1 from rfl] at hsum
    simp only [ThreadPool.callerGoto, ThreadPool.goto]
    omega
  · refine ⟨hsync, ⟨_, hnext, fun _ hasleep => ?_⟩, h.woken⟩
    obtain ⟨i, hi⟩ := hasleep
    -- A worker about to wait would have the mutex, which the caller has.
    have hwaits : s₁.workers i = .condWait := by
      simpa [ThreadPool.callerGoto, asleep, hnone i] using hi
    have htwo := (h.sync.worker i (by simp [hwaits, workerInside])).symm.trans
      (h.sync.caller c (by simp [hpc, callerInside]))
    cases htwo

end Callers

/-- `destroy_thread_pool` moves. -/
theorem Wakeups.destroyer_moves (h : Wakeups s) (hsync : PoolSync s') (hcallers : s'.callers = s.callers)
    (hopen : s'.shutdown = false →
      s.shutdown = false ∧ s'.workers = s.workers ∧ s'.taskQueue = s.taskQueue)
    (hwoken : hasStored s'.destroyer = true → owesBroadcast s'.destroyer = false →
      ∀ i, unaware (s'.workers i) = false) : Wakeups s' := by
  obtain ⟨owed, howed, hbound⟩ := h.balance
  refine ⟨hsync, ⟨owed, by rwa [hcallers], fun hnot => ?_⟩, hwoken⟩
  obtain ⟨hbefore, hworkers, hqueue⟩ := hopen hnot
  rw [hworkers, hqueue]
  exact hbound hbefore

theorem Wakeups.destroyStep (h : Wakeups s) (hstep : s.destroyStep s.destroyer = some s') :
    Wakeups s' := by
  have hsync : PoolSync s' := h.sync.destroyStep hstep
  have hannounced := h.sync.announced
  have hwoken := h.woken
  cases hpc : s.destroyer with
  | loadShutdown =>
    rw [hpc] at hstep hannounced
    cases hstep
    have hnot : s.shutdown = false := hannounced
    refine h.destroyer_moves hsync rfl (fun _ => ⟨hnot, rfl, rfl⟩) ?_
    simp [hnot, hasStored]
  | storeShutdown =>
    rw [hpc] at hstep
    cases hstep
    refine h.destroyer_moves hsync rfl (fun hnot => by cases hnot) ?_
    by_cases hn : 0 < n <;> simp [hn, owesBroadcast]
  | stopTask i =>
    rw [hpc] at hstep hannounced
    cases hstep
    have hset : s.shutdown = true := hannounced
    refine h.destroyer_moves hsync rfl (fun hnot => absurd (hset.symm.trans hnot) (by simp)) ?_
    by_cases hn : i + 1 < n <;> simp [hn, owesBroadcast]
  | lock =>
    rw [hpc] at hstep hannounced
    simp only [ThreadPool.destroyStep] at hstep
    split at hstep
    case isTrue =>
      cases hstep
      have hset : s.shutdown = true := hannounced
      refine h.destroyer_moves hsync rfl (fun hnot => absurd (hset.symm.trans hnot) (by simp)) ?_
      simp [owesBroadcast]
    case isFalse => cases hstep
  | broadcast =>
    rw [hpc] at hstep hannounced
    cases hstep
    have hset : s.shutdown = true := hannounced
    have hmine : s.mutex = some .destroyer := h.sync.destroyer (by simp [hpc, destroyerInside])
    refine h.destroyer_moves hsync rfl (fun hnot => absurd (hset.symm.trans hnot) (by simp)) ?_
    intro _ _ i
    by_cases hi : s.workers i = .waiting
    · simp [ThreadPool.wakeAll, hi, unaware, asleep]
    · -- A worker that has looked and not yet waited would have the mutex.
      have hout : workerInside (s.workers i) = false := by
        cases hin : workerInside (s.workers i) with
        | false => rfl
        | true => cases hmine.symm.trans (h.sync.worker i hin)
      cases hworker : s.workers i <;> simp_all [ThreadPool.wakeAll, unaware, asleep, workerInside]
  | unlock =>
    rw [hpc] at hstep hannounced hwoken
    cases hstep
    have hset : s.shutdown = true := hannounced
    exact h.destroyer_moves hsync rfl (fun hnot => absurd (hset.symm.trans hnot) (by simp))
      fun _ _ => hwoken rfl rfl
  | join i =>
    rw [hpc] at hstep hannounced hwoken
    simp only [ThreadPool.destroyStep] at hstep
    split at hstep
    case isTrue =>
      cases hstep
      have hset : s.shutdown = true := hannounced
      exact h.destroyer_moves hsync rfl (fun hnot => absurd (hset.symm.trans hnot) (by simp))
        fun _ _ => hwoken rfl rfl
    case isFalse => cases hstep
  | idle | done | busy =>
    rw [hpc] at hstep
    cases hstep

variable [DecidableEq C]

theorem Wakeups.step (h : Wakeups s) (hstep : ThreadPool.step l s = some s') : Wakeups s' := by
  have hsync : PoolSync s' := h.sync.step hstep
  cases l with
  | enqueueTask c func arg =>
    simp only [ThreadPool.step] at hstep
    split at hstep
    case isTrue hpc =>
      cases hstep
      refine h.caller_moves hsync rfl rfl rfl rfl ?_
      simp [hpc, share, owesSignal, ThreadPool.callerGoto]
    case isFalse => cases hstep
  | caller c => exact h.callerStep hstep
  | signal c woken => exact h.signal hsync hstep
  | worker i => exact h.workerStep hstep
  | wake i => exact h.wake hstep
  | destroy =>
    simp only [ThreadPool.step] at hstep
    split at hstep
    case isTrue hpc =>
      cases hstep
      have hannounced := h.sync.announced
      rw [hpc] at hannounced
      exact h.destroyer_moves hsync rfl (fun _ => ⟨hannounced, rfl, rfl⟩) (by simp [hasStored])
    case isFalse => cases hstep
  | destroyer => exact h.destroyStep hstep

/-- In every run of a pool of any number of workers and callers, with tasks
of any kind and `destroy_thread_pool` at any time, no state is reached in
which there is something to do, some worker is left, and all that are left
wait without a signal or the broadcast on its way. -/
theorem pool_never_sleeps
    (h : Reach ThreadPool.step (fun _ _ => True) (ThreadPool.create n C) s) :
    ¬((s.taskQueue ≠ [] ∨ s.shutdown = true) ∧ (∃ i, s.workers i ≠ .exited) ∧
      (∀ i, s.workers i ≠ .exited → s.workers i = .waiting) ∧
      (∀ c, owesSignal (s.callers c) = false) ∧ owesBroadcast s.destroyer = false) := by
  have hinv : Wakeups s := h.invariant wakeups_create fun _ _ _ hs _ hstep => hs.step hstep
  rintro ⟨hwork, ⟨i, hleft⟩, hwait, hsignals, hbroadcast⟩
  have hwaits : s.workers i = .waiting := hwait i hleft
  cases hshutdown : s.shutdown with
  | true =>
    have haware := hinv.woken (hinv.sync.announced.symm.trans hshutdown) hbroadcast i
    simp [hwaits, unaware, asleep] at haware
  | false =>
    obtain ⟨owed, howed, hbound⟩ := hinv.balance
    have hlimit := hbound hshutdown ⟨i, by simp [hwaits, asleep]⟩
    have hidle : ∑ j, obliged (s.workers j) = 0 := by
      refine Finset.sum_eq_zero fun j _ => ?_
      by_cases hj : s.workers j = .exited
      · simp [hj, obliged]
      · simp [hwait j hj, obliged]
    rw [howed.eq_zero hsignals, hidle] at hlimit
    have hempty : s.taskQueue = [] := List.length_eq_zero_iff.mp (by omega)
    rcases hwork with hne | hset
    · exact hne hempty
    · cases hshutdown.symm.trans hset

/-- The worker waits, and the signal for a task has woken it. -/
theorem pool_never_sleeps_sample :
    ∃ s : ThreadPool 1 (Fin 1), s.taskQueue = [⟨7, 1, 0⟩] ∧ s.workers 0 = .reacquire ∧
      ¬((s.taskQueue ≠ [] ∨ s.shutdown = true) ∧ (∃ i, s.workers i ≠ .exited) ∧
        (∀ i, s.workers i ≠ .exited → s.workers i = .waiting) ∧
        (∀ c, owesSignal (s.callers c) = false) ∧ owesBroadcast s.destroyer = false) :=
  ⟨_, rfl, rfl, pool_never_sleeps (Reach.of_run .init
    (List.replicate 6 (.worker 0) ++ [.enqueueTask 0 7 1] ++ List.replicate 3 (.caller 0) ++
      [.signal 0 (some 0), .caller 0]) rfl)⟩

end Efio.Proofs.Evthrpool
