import Efio.Evthrpool.ThreadPool

/-!
# `Efio.Proofs.Evthrpool.PoolSync`: who has the mutex of a thread pool

`PoolSync s` is what the threads of a pool know of each other: a thread
between a lock and its unlock has the mutex, `_shutdown` is set by
`destroy_thread_pool` and by nobody else, a worker that has seen it set is
right, and no worker is at one of the two places where `thread_loop` would
abort.

A step of one worker is `PoolSync.worker_moves`.
-/

set_option autoImplicit false

namespace Efio.Proofs.Evthrpool

open Efio.Lib
open Efio.Evthrpool

variable {n : Nat} {C : Type} {s s' : ThreadPool n C} {i : Fin n} {c : C} {l : PoolLabel n C}
variable {q : WorkerPc} {qe : PoolTask}

/-- The worker is between a lock and its unlock, or the end of its wait and
the unlock behind it. -/
def workerInside : WorkerPc → Bool
  | .lockedLoad | .unlockStop | .lockedDequeue | .unlockTask _ | .condWait | .unlock => true
  | _ => false

def callerInside (p : CallerPc) : Bool := p == .signal || p == .unlock

def destroyerInside (p : DestroyPc) : Bool := p == .broadcast || p == .unlock

/-- `destroy_thread_pool` has set `_shutdown`. -/
def hasStored : DestroyPc → Bool
  | .idle | .loadShutdown | .storeShutdown => false
  | _ => true

/-- The worker has seen `_shutdown` set. -/
def knowsStop (p : WorkerPc) : Bool := p == .unlockStop || p == .drain

/-- The worker neither aborts nor is about to. -/
def Proper : WorkerPc → Prop
  | .aborted => False
  | .execute qe => qe.taskFunction ≠ 0
  | _ => True

/-- What holds in every state. -/
structure PoolSync (s : ThreadPool n C) : Prop where
  worker : ∀ i, workerInside (s.workers i) = true → s.mutex = some (.worker i)
  caller : ∀ c, callerInside (s.callers c) = true → s.mutex = some (.caller c)
  destroyer : destroyerInside s.destroyer = true → s.mutex = some .destroyer
  announced : s.shutdown = hasStored s.destroyer
  knows : ∀ i, knowsStop (s.workers i) = true → s.shutdown = true
  proper : ∀ i, Proper (s.workers i)

theorem poolSync_create : PoolSync (ThreadPool.create n C) where
  worker i h := by simp [ThreadPool.create, workerInside] at h
  caller c h := by simp [ThreadPool.create, callerInside] at h
  destroyer h := by simp [ThreadPool.create, destroyerInside] at h
  announced := rfl
  knows i h := by simp [ThreadPool.create, knowsStop] at h
  proper _ := trivial

/-- Behind the inner loop, with what the loop can leave there. -/
theorem afterLoop_proper (b : Bool) (qe : PoolTask) : Proper (afterLoop b (some qe)) := by
  cases b <;> by_cases hqe : qe.taskFunction = 0 <;> simp [afterLoop, hqe, Proper]

theorem afterLoop_outside (b : Bool) (qe : Option PoolTask) : workerInside (afterLoop b qe) = false := by
  cases b <;> cases qe <;> simp only [afterLoop] <;> (try split) <;> rfl

theorem afterLoop_some (b : Bool) (qe : PoolTask) : knowsStop (afterLoop b (some qe)) = false := by
  cases b <;> by_cases hqe : qe.taskFunction = 0 <;> simp [afterLoop, hqe, knowsStop]

/-- The worker `i` moves to `q`. It may take the mutex when it is free, and
give it back when it has it. -/
theorem PoolSync.worker_moves (h : PoolSync s) (hworkers : s'.workers = Function.update s.workers i q)
    (hcallers : s'.callers = s.callers) (hdestroyer : s'.destroyer = s.destroyer)
    (hshutdown : s'.shutdown = s.shutdown)
    (hmine : workerInside q = true → s'.mutex = some (.worker i))
    (hothers : ∀ o, s.mutex = some o → o ≠ .worker i → s'.mutex = some o)
    (hknows : knowsStop q = true → s.shutdown = true) (hproper : Proper q) : PoolSync s' := by
  constructor
  case worker =>
    intro j hj
    by_cases hji : j = i
    · subst hji
      exact hmine (by simpa [hworkers] using hj)
    · refine hothers _ (h.worker j (by simpa [hworkers, hji] using hj)) ?_
      simpa using hji
  case caller =>
    intro c hc
    exact hothers _ (h.caller c (by rwa [← hcallers])) (by simp)
  case destroyer =>
    intro hd
    exact hothers _ (h.destroyer (by rwa [← hdestroyer])) (by simp)
  case announced =>
    rw [hshutdown, hdestroyer]
    exact h.announced
  case knows =>
    intro j hj
    rw [hshutdown]
    by_cases hji : j = i
    · subst hji
      exact hknows (by simpa [hworkers] using hj)
    · exact h.knows j (by simpa [hworkers, hji] using hj)
  case proper =>
    intro j
    by_cases hji : j = i
    · simpa [hworkers, hji] using hproper
    · simpa [hworkers, hji] using h.proper j

/-- The worker moves and leaves the mutex alone. -/
theorem PoolSync.worker_goes (h : PoolSync s) (hworkers : s'.workers = Function.update s.workers i q)
    (hcallers : s'.callers = s.callers) (hdestroyer : s'.destroyer = s.destroyer)
    (hshutdown : s'.shutdown = s.shutdown) (hmutex : s'.mutex = s.mutex)
    (hmine : workerInside q = true → workerInside (s.workers i) = true)
    (hknows : knowsStop q = true → s.shutdown = true) (hproper : Proper q) : PoolSync s' :=
  h.worker_moves hworkers hcallers hdestroyer hshutdown
    (fun hq => hmutex.trans (h.worker i (hmine hq))) (fun _ ho _ => hmutex.trans ho) hknows hproper

/-- The worker gives the mutex back. -/
theorem PoolSync.worker_unlocks (h : PoolSync s) (hinside : workerInside (s.workers i) = true)
    (hout : workerInside q = false) (hknows : knowsStop q = true → s.shutdown = true)
    (hproper : Proper q) : PoolSync ({ s with mutex := none }.goto i q) := by
  refine h.worker_moves rfl rfl rfl rfl ?_ ?_ hknows hproper
  · simp [hout]
  · intro o ho hne
    exact absurd (Option.some.inj (ho.symm.trans (h.worker i hinside))) hne

/-- The worker takes the mutex. -/
theorem PoolSync.worker_locks (h : PoolSync s) (hfree : s.mutex.isNone = true)
    (hknows : knowsStop q = false) (hproper : Proper q) :
    PoolSync ({ s with mutex := some (.worker i) }.goto i q) := by
  refine h.worker_moves rfl rfl rfl rfl (fun _ => rfl) ?_ (by simp [hknows]) hproper
  intro o ho
  simp [ho] at hfree

/-- The worker takes a task from the queue, or finds it empty. -/
theorem PoolSync.worker_dequeues (h : PoolSync s) {found : PoolTask → WorkerPc} {empty : WorkerPc}
    (hfound : ∀ qe, (workerInside (found qe) = true → workerInside (s.workers i) = true) ∧
      knowsStop (found qe) = false ∧ Proper (found qe))
    (hempty : (workerInside empty = true → workerInside (s.workers i) = true) ∧
      knowsStop empty = false ∧ Proper empty) : PoolSync (s.dequeueBy i found empty) := by
  unfold ThreadPool.dequeueBy
  split
  · exact h.worker_goes rfl rfl rfl rfl rfl hempty.1 (by simp [hempty.2.1]) hempty.2.2
  · rename_i qe rest _
    exact h.worker_goes rfl rfl rfl rfl rfl (hfound qe).1 (by simp [(hfound qe).2.1]) (hfound qe).2.2

theorem PoolSync.workerStep (h : PoolSync s) (hstep : s.workerStep i (s.workers i) = some s') :
    PoolSync s' := by
  have hloop : ∀ (b : Bool) (qe : PoolTask), (workerInside (afterLoop b (some qe)) = true →
      workerInside (s.workers i) = true) ∧ knowsStop (afterLoop b (some qe)) = false ∧
      Proper (afterLoop b (some qe)) := fun b qe =>
    ⟨by simp [afterLoop_outside], afterLoop_some b qe, afterLoop_proper b qe⟩
  cases hpc : s.workers i with
  | loadShutdown | reload =>
    rw [hpc] at hstep
    cases hstep
    cases hshutdown : s.shutdown
    · exact h.worker_goes rfl rfl rfl rfl rfl (by simp [workerInside]) (by simp [knowsStop]) trivial
    · refine h.worker_goes rfl rfl rfl rfl rfl ?_ (fun _ => hshutdown) trivial
      simp [afterLoop_outside]
  | dequeue | dequeueAgain =>
    rw [hpc] at hstep
    cases hstep
    exact h.worker_dequeues (hloop false) ⟨by simp [workerInside], rfl, trivial⟩
  | drain =>
    rw [hpc] at hstep
    cases hstep
    exact h.worker_dequeues (hloop true) ⟨by simp [workerInside], rfl, trivial⟩
  | lock | reacquire =>
    rw [hpc] at hstep
    simp only [ThreadPool.workerStep] at hstep
    split at hstep
    case isTrue hfree =>
      cases hstep
      exact h.worker_locks hfree rfl trivial
    case isFalse => cases hstep
  | lockedLoad =>
    rw [hpc] at hstep
    cases hstep
    cases hshutdown : s.shutdown
    · exact h.worker_goes rfl rfl rfl rfl rfl (by simp [hpc, workerInside]) (by simp [knowsStop]) trivial
    · exact h.worker_goes rfl rfl rfl rfl rfl (by simp [hpc, workerInside]) (fun _ => hshutdown) trivial
  | unlockStop =>
    rw [hpc] at hstep
    cases hstep
    have hseen : s.shutdown = true := h.knows i (by simp [hpc, knowsStop])
    exact h.worker_unlocks (by rw [hpc]; rfl) rfl (fun _ => hseen) trivial
  | lockedDequeue =>
    rw [hpc] at hstep
    cases hstep
    exact h.worker_dequeues (fun qe => ⟨by simp [hpc, workerInside], rfl, trivial⟩)
      ⟨by simp [hpc, workerInside], rfl, trivial⟩
  | unlockTask qe =>
    rw [hpc] at hstep
    cases hstep
    exact h.worker_unlocks (by rw [hpc]; rfl) (afterLoop_outside _ _) (by simp [afterLoop_some])
      (afterLoop_proper false qe)
  | condWait | unlock =>
    rw [hpc] at hstep
    cases hstep
    exact h.worker_unlocks (by rw [hpc]; rfl) rfl (by simp [knowsStop]) trivial
  | execute qe =>
    have hproper := h.proper i
    rw [hpc] at hstep hproper
    simp only [ThreadPool.workerStep, if_neg (show ¬ qe.taskFunction = 0 from hproper)] at hstep
    cases hstep
    exact h.worker_goes rfl rfl rfl rfl rfl (by simp [workerInside]) (by simp [knowsStop]) trivial
  | count =>
    rw [hpc] at hstep
    cases hstep
    exact h.worker_goes rfl rfl rfl rfl rfl (by simp [workerInside]) (by simp [knowsStop]) trivial
  | waiting | exited | aborted =>
    rw [hpc] at hstep
    cases hstep

theorem wake_eq_some (hstep : s.wake i = some s') :
    s.workers i = .waiting ∧ s' = s.goto i .reacquire := by
  unfold ThreadPool.wake at hstep
  split at hstep
  case isTrue hpc => exact ⟨hpc, (Option.some.inj hstep).symm⟩
  case isFalse => cases hstep

theorem PoolSync.wake (h : PoolSync s) (hstep : s.wake i = some s') : PoolSync s' := by
  obtain ⟨-, rfl⟩ := wake_eq_some hstep
  exact h.worker_goes rfl rfl rfl rfl rfl (by simp [workerInside]) (by simp [knowsStop]) trivial

/-! ### The other threads -/

section Callers

variable [DecidableEq C] {p : CallerPc}

/-- A signal wakes one worker, if one waits. -/
theorem signalStep_eq_some {woken : Option (Fin n)} (hstep : s.signalStep c woken = some s') :
    s.callers c = .signal ∧ ∃ s₁, ((∃ i, woken = some i ∧ s.wake i = some s₁) ∨
      (woken = none ∧ (∀ i, s.workers i ≠ .waiting) ∧ s₁ = s)) ∧ s' = s₁.callerGoto c .unlock := by
  unfold ThreadPool.signalStep at hstep
  by_cases hpc : s.callers c = .signal
  · refine ⟨hpc, ?_⟩
    rw [if_pos hpc] at hstep
    cases woken with
    | some i =>
      obtain ⟨s₁, hwake, rfl⟩ := Option.map_eq_some_iff.mp hstep
      exact ⟨s₁, Or.inl ⟨i, rfl, hwake⟩, rfl⟩
    | none =>
      by_cases hnone : ∀ i, s.workers i ≠ .waiting
      · exact ⟨s, Or.inr ⟨rfl, hnone, rfl⟩, by simpa [hnone] using hstep.symm⟩
      · simp [hnone] at hstep
  · simp [hpc] at hstep

/-- A caller moves. -/
theorem PoolSync.caller_moves (h : PoolSync s) (hworkers : s'.workers = s.workers)
    (hcallers : s'.callers = Function.update s.callers c p) (hdestroyer : s'.destroyer = s.destroyer)
    (hshutdown : s'.shutdown = s.shutdown)
    (hmine : callerInside p = true → s'.mutex = some (.caller c))
    (hothers : ∀ o, s.mutex = some o → o ≠ .caller c → s'.mutex = some o) : PoolSync s' := by
  constructor
  case worker =>
    intro i hi
    exact hothers _ (h.worker i (by rwa [← hworkers])) (by simp)
  case caller =>
    intro c' hc
    by_cases hne : c' = c
    · subst hne
      exact hmine (by simpa [hcallers] using hc)
    · exact hothers _ (h.caller c' (by simpa [hcallers, hne] using hc)) (by simpa using hne)
  case destroyer =>
    intro hd
    exact hothers _ (h.destroyer (by rwa [← hdestroyer])) (by simp)
  case announced =>
    rw [hshutdown, hdestroyer]
    exact h.announced
  case knows =>
    intro i hi
    rw [hshutdown]
    exact h.knows i (by rwa [← hworkers])
  case proper =>
    rw [hworkers]
    exact h.proper

theorem PoolSync.callerStep (h : PoolSync s) (hstep : s.callerStep c (s.callers c) = some s') :
    PoolSync s' := by
  cases hpc : s.callers c with
  | enqueue func arg | addCond =>
    rw [hpc] at hstep
    cases hstep
    exact h.caller_moves rfl rfl rfl rfl (by simp [callerInside]) fun _ ho _ => ho
  | lock =>
    rw [hpc] at hstep
    simp only [ThreadPool.callerStep] at hstep
    split at hstep
    case isTrue hfree =>
      cases hstep
      refine h.caller_moves rfl rfl rfl rfl (fun _ => rfl) ?_
      intro o ho
      simp [ho] at hfree
    case isFalse => cases hstep
  | unlock =>
    rw [hpc] at hstep
    cases hstep
    have hmine : s.mutex = some (.caller c) := h.caller c (by simp [hpc, callerInside])
    refine h.caller_moves rfl rfl rfl rfl (by simp [callerInside]) ?_
    exact fun o ho hne => absurd (Option.some.inj (ho.symm.trans hmine)) hne
  | idle | signal =>
    rw [hpc] at hstep
    cases hstep

/-- The signal, which the caller sends while it has the mutex. -/
theorem PoolSync.signal (h : PoolSync s) (hpc : s.callers c = .signal) :
    PoolSync (s.callerGoto c .unlock) := by
  have hmine : s.mutex = some (.caller c) := h.caller c (by simp [hpc, callerInside])
  exact h.caller_moves rfl rfl rfl rfl (fun _ => hmine) fun _ ho _ => ho

end Callers

/-- `destroy_thread_pool` moves. The workers stay, or some are woken. -/
theorem PoolSync.destroyer_moves (h : PoolSync s)
    (hworkers : ∀ i, s'.workers i = s.workers i ∨ s'.workers i = .reacquire)
    (hcallers : s'.callers = s.callers) (hannounced : s'.shutdown = hasStored s'.destroyer)
    (hshutdown : s.shutdown = true → s'.shutdown = true)
    (hmine : destroyerInside s'.destroyer = true → s'.mutex = some .destroyer)
    (hothers : ∀ o, s.mutex = some o → o ≠ .destroyer → s'.mutex = some o) : PoolSync s' := by
  constructor
  case worker =>
    intro i hi
    rcases hworkers i with heq | heq
    · exact hothers _ (h.worker i (by rwa [← heq])) (by simp)
    · simp [heq, workerInside] at hi
  case caller =>
    intro c hc
    exact hothers _ (h.caller c (by rwa [← hcallers])) (by simp)
  case destroyer => exact hmine
  case announced => exact hannounced
  case knows =>
    intro i hi
    rcases hworkers i with heq | heq
    · exact hshutdown (h.knows i (by rwa [← heq]))
    · simp [heq, knowsStop] at hi
  case proper =>
    intro i
    rcases hworkers i with heq | heq
    · rw [heq]
      exact h.proper i
    · simp [heq, Proper]

theorem PoolSync.destroyStep (h : PoolSync s) (hstep : s.destroyStep s.destroyer = some s') :
    PoolSync s' := by
  have hannounced := h.announced
  cases hpc : s.destroyer with
  | loadShutdown =>
    rw [hpc] at hstep hannounced
    cases hstep
    have hnot : s.shutdown = false := hannounced
    refine h.destroyer_moves (fun _ => Or.inl rfl) rfl ?_ id ?_ fun _ ho _ => ho
    · simp [hnot, hasStored]
    · simp [hnot, destroyerInside]
  | storeShutdown =>
    rw [hpc] at hstep
    cases hstep
    refine h.destroyer_moves (fun _ => Or.inl rfl) rfl ?_ (fun _ => rfl) ?_ fun _ ho _ => ho <;>
      by_cases hn : 0 < n <;> simp [hn, hasStored, destroyerInside]
  | stopTask i =>
    rw [hpc] at hstep hannounced
    cases hstep
    have hset : s.shutdown = true := hannounced
    refine h.destroyer_moves (fun _ => Or.inl rfl) rfl ?_ id ?_ fun _ ho _ => ho <;>
      by_cases hn : i + 1 < n <;> simp [hn, hset, hasStored, destroyerInside, ThreadPool.push]
  | lock =>
    rw [hpc] at hstep hannounced
    simp only [ThreadPool.destroyStep] at hstep
    split at hstep
    case isTrue hfree =>
      cases hstep
      refine h.destroyer_moves (fun _ => Or.inl rfl) rfl hannounced id (fun _ => rfl) ?_
      intro o ho
      simp [ho] at hfree
    case isFalse => cases hstep
  | broadcast =>
    rw [hpc] at hstep hannounced
    cases hstep
    have hmine : s.mutex = some .destroyer := h.destroyer (by simp [hpc, destroyerInside])
    refine h.destroyer_moves ?_ rfl hannounced id (fun _ => hmine) fun _ ho _ => ho
    intro i
    by_cases hi : s.workers i = .waiting <;> simp [ThreadPool.wakeAll, hi]
  | unlock =>
    rw [hpc] at hstep hannounced
    cases hstep
    have hset : s.shutdown = true := hannounced
    have hmine : s.mutex = some .destroyer := h.destroyer (by simp [hpc, destroyerInside])
    refine h.destroyer_moves (fun _ => Or.inl rfl) rfl ?_ id ?_ ?_
    · by_cases hn : 0 < n <;> simp [hn, hset, hasStored]
    · by_cases hn : 0 < n <;> simp [hn, destroyerInside]
    · exact fun o ho hne => absurd (Option.some.inj (ho.symm.trans hmine)) hne
  | join i =>
    rw [hpc] at hstep hannounced
    simp only [ThreadPool.destroyStep] at hstep
    split at hstep
    case isTrue =>
      cases hstep
      have hset : s.shutdown = true := hannounced
      refine h.destroyer_moves (fun _ => Or.inl rfl) rfl ?_ id ?_ fun _ ho _ => ho <;>
        by_cases hn : i + 1 < n <;> simp [hn, hset, hasStored, destroyerInside]
    case isFalse => cases hstep
  | idle | done | busy =>
    rw [hpc] at hstep
    cases hstep

variable [DecidableEq C]

theorem PoolSync.step (h : PoolSync s) (hstep : ThreadPool.step l s = some s') : PoolSync s' := by
  cases l with
  | enqueueTask c func arg =>
    simp only [ThreadPool.step] at hstep
    split at hstep
    case isTrue =>
      cases hstep
      exact h.caller_moves rfl rfl rfl rfl (by simp [callerInside]) fun _ ho _ => ho
    case isFalse => cases hstep
  | caller c => exact h.callerStep hstep
  | signal c woken =>
    obtain ⟨hpc, s₁, hs₁, rfl⟩ := signalStep_eq_some hstep
    rcases hs₁ with ⟨i, -, hwake⟩ | ⟨-, -, rfl⟩
    · refine (h.wake hwake).signal ?_
      obtain ⟨-, rfl⟩ := wake_eq_some hwake
      exact hpc
    · exact h.signal hpc
  | worker i => exact h.workerStep hstep
  | wake i => exact h.wake hstep
  | destroy =>
    simp only [ThreadPool.step] at hstep
    split at hstep
    case isTrue hpc =>
      cases hstep
      have hannounced := h.announced
      rw [hpc] at hannounced
      exact h.destroyer_moves (fun _ => Or.inl rfl) rfl hannounced id (by simp [destroyerInside])
        fun _ ho _ => ho
    case isFalse => cases hstep
  | destroyer => exact h.destroyStep hstep

end Efio.Proofs.Evthrpool
