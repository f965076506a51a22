import Efio.Lib.Counted
import Efio.Proofs.Evthrpool.PoolSync
import Efio.Spec.PoolTasks
import Mathlib.Algebra.Order.Group.Multiset

/-!
# `Efio.Proofs.Evthrpool.PoolTasks`: the thread pool runs every task once

`TaskInv s` keeps the account of the tasks: those in the queue, those in
the hands of the workers and those executed are together the ones that have
been enqueued. The stop tasks that `destroy_thread_pool` enqueues come last
in the queue. A worker leaves when it has taken one of them, or has found
the queue empty with `_shutdown` set, and in both cases the queue holds
only stop tasks from then on (`TaskInv.left`).
-/

set_option autoImplicit false

namespace Efio.Proofs.Evthrpool

open Efio.Lib
open Efio.Evthrpool
open Efio.Spec

variable {n : Nat} {C : Type} {s s' : ThreadPool n C} {i : Fin n} {c : C} {l : PoolLabel n C}
variable {q : WorkerPc} {qe : PoolTask} {ts : List PoolTask}

/-! ### The account -/

/-- The tasks that are not stop tasks. -/
def realTasks (ts : List PoolTask) : List PoolTask := ts.filter (·.taskFunction ≠ 0)

/-- The account of a worker. -/
def handed (p : WorkerPc) : Multiset PoolTask := realTasks (hand p)

/-- The worker has executed a task and not yet counted it. -/
def uncounted (p : WorkerPc) : Nat := if p = .count then 1 else 0

/-- The worker has left, or will with the stop task it has taken. -/
def leaving : WorkerPc → Bool
  | .exited => true
  | .unlockTask qe => qe.taskFunction = 0
  | _ => false

/-- What holds in every state. -/
structure TaskInv (s : ThreadPool n C) : Prop where
  sync : PoolSync s
  tasks : (realTasks s.taskQueue : Multiset PoolTask) + ∑ i, handed (s.workers i) + s.executed = s.enqueued
  distinct : s.enqueued.Nodup
  older : ∀ t ∈ s.enqueued, t.seq < s.nextSeq
  counts : s.executed.length = s.getTaskCount + ∑ i, uncounted (s.workers i)
  stopsLast : s.taskQueue.Pairwise fun t t' => t.taskFunction = 0 → t'.taskFunction = 0
  left : (∃ i, leaving (s.workers i) = true) → realTasks s.taskQueue = []
  running : s.shutdown = false →
    (∀ t ∈ s.taskQueue, t.taskFunction ≠ 0) ∧ ∀ i, leaving (s.workers i) = false
  quiet : s.destroyer ≠ .idle → ∀ c, s.callers c = .idle
  given : ∀ c func arg, s.callers c = .enqueue func arg → func ≠ 0

theorem realTasks_cons (qe : PoolTask) (ts : List PoolTask) :
    realTasks (qe :: ts) = realTasks [qe] ++ realTasks ts := List.filter_append [qe] ts

theorem realTasks_suffix {ts ts' : List PoolTask} (h : ts' <:+ ts) (hnil : realTasks ts = []) :
    realTasks ts' = [] := by
  rw [realTasks, List.filter_eq_nil_iff] at hnil ⊢
  exact fun t ht => hnil t (h.subset ht)

/-- The worker `i` moves to `q`, with a task from the front of the queue, one
that it executes, or none. -/
theorem TaskInv.worker_moves (h : TaskInv s) (hsync : PoolSync s')
    (hworkers : s'.workers = Function.update s.workers i q) (hcallers : s'.callers = s.callers)
    (hdestroyer : s'.destroyer = s.destroyer) (hshutdown : s'.shutdown = s.shutdown)
    (henqueued : s'.enqueued = s.enqueued) (hseq : s'.nextSeq = s.nextSeq)
    (hqueue : s'.taskQueue <:+ s.taskQueue)
    (htasks : (realTasks s'.taskQueue : Multiset PoolTask) + handed q + s'.executed =
      (realTasks s.taskQueue : Multiset PoolTask) + handed (s.workers i) + s.executed)
    (hcounts : s'.executed.length + (s.getTaskCount + uncounted (s.workers i)) =
      s.executed.length + (s'.getTaskCount + uncounted q))
    (hleaving : leaving q = true → leaving (s.workers i) = true ∨
      s.shutdown = true ∧ realTasks s'.taskQueue = []) : TaskInv s' := by
  have hother : ∀ {j}, j ≠ i → s'.workers j = s.workers j := fun hj => by simp [hworkers, hj]
  have hself : s'.workers i = q := by simp [hworkers]
  constructor
  case sync => exact hsync
  case tasks =>
    have hsum := sum_update handed s.workers i q
    rw [henqueued, ← h.tasks, hworkers]
    refine add_right_cancel (b := handed (s.workers i)) ?_
    calc _ = (realTasks s'.taskQueue : Multiset PoolTask) + s'.executed +
          (∑ j, handed (Function.update s.workers i q j) + handed (s.workers i)) := by ac_rfl
      _ = (realTasks s'.taskQueue + handed q + s'.executed) + ∑ j, handed (s.workers j) := by
          rw [hsum]
          ac_rfl
      _ = _ := by
          rw [htasks]
          ac_rfl
  case distinct => rw [henqueued]; exact h.distinct
  case older => rw [henqueued, hseq]; exact h.older
  case counts =>
    have hsum := sum_update uncounted s.workers i q
    have hbefore := h.counts
    rw [hworkers]
    omega
  case stopsLast => exact h.stopsLast.sublist hqueue.sublist
  case left =>
    rintro ⟨j, hj⟩
    by_cases hji : j = i
    · subst hji
      rw [hself] at hj
      rcases hleaving hj with hbefore | ⟨-, hnil⟩
      · exact realTasks_suffix hqueue (h.left ⟨j, hbefore⟩)
      · exact hnil
    · rw [hother hji] at hj
      exact realTasks_suffix hqueue (h.left ⟨j, hj⟩)
  case running =>
    rw [hshutdown]
    intro hopen
    obtain ⟨hreal, hstay⟩ := h.running hopen
    refine ⟨fun t ht => hreal t (hqueue.subset ht), fun j => ?_⟩
    by_cases hji : j = i
    · subst hji
      rw [hself]
      cases hq : leaving q with
      | false => rfl
      | true =>
        rcases hleaving hq with hbefore | ⟨hset, -⟩
        · simp [hstay j] at hbefore
        · simp [hopen] at hset
    · rw [hother hji]
      exact hstay j
  case quiet => rw [hdestroyer, hcallers]; exact h.quiet
  case given => rw [hcallers]; exact h.given

/-- The worker goes on without a task. -/
theorem TaskInv.worker_goes (h : TaskInv s) (hsync : PoolSync s')
    (hworkers : s'.workers = Function.update s.workers i q) (hcallers : s'.callers = s.callers)
    (hdestroyer : s'.destroyer = s.destroyer) (hshutdown : s'.shutdown = s.shutdown)
    (henqueued : s'.enqueued = s.enqueued) (hseq : s'.nextSeq = s.nextSeq)
    (hqueue : s'.taskQueue = s.taskQueue) (hexecuted : s'.executed = s.executed)
    (hcount : s'.taskCount = s.taskCount) (hhand : handed q = handed (s.workers i))
    (huncounted : uncounted q = uncounted (s.workers i))
    (hleaving : leaving q = true → leaving (s.workers i) = true) : TaskInv s' := by
  refine h.worker_moves hsync hworkers hcallers hdestroyer hshutdown henqueued hseq
    (hqueue ▸ List.suffix_refl _) ?_ ?_ fun hq => Or.inl (hleaving hq)
  · rw [hqueue, hexecuted, hhand]
  · rw [hexecuted, huncounted, ThreadPool.getTaskCount, ThreadPool.getTaskCount, hcount]

/-- The worker takes a task from the queue, or finds it empty. -/
theorem TaskInv.worker_dequeues (h : TaskInv s) {found : PoolTask → WorkerPc} {empty : WorkerPc}
    (hsync : PoolSync (s.dequeueBy i found empty)) (hhand : handed (s.workers i) = 0)
    (huncounted : uncounted (s.workers i) = 0)
    (hfound : ∀ qe, handed (found qe) = realTasks [qe] ∧ uncounted (found qe) = 0 ∧
      (leaving (found qe) = true → qe.taskFunction = 0))
    (hempty : handed empty = 0 ∧ uncounted empty = 0 ∧
      (leaving empty = true → s.shutdown = true)) : TaskInv (s.dequeueBy i found empty) := by
  unfold ThreadPool.dequeueBy at hsync ⊢
  cases hqueue : s.taskQueue with
  | nil =>
    rw [hqueue] at hsync
    refine h.worker_moves hsync rfl rfl rfl rfl rfl rfl (List.suffix_refl _) ?_ ?_ ?_
    · rw [hempty.1, hhand]
      rfl
    · rw [hempty.2.1, huncounted]
      rfl
    · exact fun hq => Or.inr ⟨hempty.2.2 hq, by simp [ThreadPool.goto, hqueue, realTasks]⟩
  | cons qe rest =>
    rw [hqueue] at hsync
    obtain ⟨hreal, hcount, hstop⟩ := hfound qe
    refine h.worker_moves hsync rfl rfl rfl rfl rfl rfl ?_ ?_ ?_ ?_
    · rw [hqueue]
      exact List.suffix_cons qe rest
    · rw [hreal, hhand, hqueue, realTasks_cons qe rest, ← Multiset.coe_add]
      simp only [ThreadPool.goto, add_zero]
      ac_rfl
    · rw [hcount, huncounted]
      rfl
    · intro hq
      have hnull : qe.taskFunction = 0 := hstop hq
      -- Behind a stop task there are only stop tasks, and one has been enqueued.
      have horder := h.stopsLast
      rw [hqueue, List.pairwise_cons] at horder
      refine Or.inr ⟨?_, ?_⟩
      · by_contra hopen
        have hne := (h.running (Bool.eq_false_of_not_eq_true hopen)).1 qe (by simp [hqueue])
        exact hne hnull
      · refine List.filter_eq_nil_iff.mpr fun t ht => ?_
        simpa using horder.1 t ht hnull

theorem handed_afterLoop (b : Bool) (qe : PoolTask) : handed (afterLoop b (some qe)) = realTasks [qe] := by
  cases b <;> by_cases hqe : qe.taskFunction = 0 <;> simp [afterLoop, hqe, handed, hand, realTasks]

theorem uncounted_afterLoop (b : Bool) (qe : Option PoolTask) : uncounted (afterLoop b qe) = 0 := by
  cases b <;> cases qe <;> simp only [afterLoop] <;> (try split) <;> rfl

theorem leaving_afterLoop (b : Bool) (qe : PoolTask) (h : leaving (afterLoop b (some qe)) = true) :
    qe.taskFunction = 0 := by
  by_contra hqe
  cases b <;> simp [afterLoop, hqe, leaving] at h

theorem TaskInv.workerStep (h : TaskInv s) (hstep : s.workerStep i (s.workers i) = some s') :
    TaskInv s' := by
  have hsync : PoolSync s' := h.sync.workerStep hstep
  have hloop : ∀ (b : Bool) (qe : PoolTask), handed (afterLoop b (some qe)) = realTasks [qe] ∧
      uncounted (afterLoop b (some qe)) = 0 ∧
      (leaving (afterLoop b (some qe)) = true → qe.taskFunction = 0) := fun b qe =>
    ⟨handed_afterLoop b qe, uncounted_afterLoop b _, leaving_afterLoop b qe⟩
  cases hpc : s.workers i with
  | loadShutdown | reload =>
    rw [hpc] at hstep
    cases hstep
    refine h.worker_goes hsync rfl rfl rfl rfl rfl rfl rfl rfl rfl ?_ ?_ ?_ <;>
      cases s.shutdown <;> simp [hpc, afterLoop, handed, hand, uncounted, leaving]
  | dequeue | dequeueAgain =>
    rw [hpc] at hstep
    cases hstep
    exact h.worker_dequeues hsync (by simp [hpc, handed, hand, realTasks]) (by simp [hpc, uncounted])
      (hloop false) ⟨rfl, rfl, by simp [leaving]⟩
  | drain =>
    rw [hpc] at hstep
    cases hstep
    have hset : s.shutdown = true := h.sync.knows i (by simp [hpc, knowsStop])
    exact h.worker_dequeues hsync (by simp [hpc, handed, hand, realTasks]) (by simp [hpc, uncounted])
      (hloop true) ⟨rfl, rfl, fun _ => hset⟩
  | lockedDequeue =>
    rw [hpc] at hstep
    cases hstep
    refine h.worker_dequeues hsync (by simp [hpc, handed, hand, realTasks]) (by simp [hpc, uncounted])
      (fun qe => ⟨rfl, rfl, ?_⟩) ⟨rfl, rfl, by simp [leaving]⟩
    simp [leaving]
  | lock | reacquire =>
    rw [hpc] at hstep
    simp only [ThreadPool.workerStep] at hstep
    split at hstep
    case isTrue =>
      cases hstep
      exact h.worker_goes hsync rfl rfl rfl rfl rfl rfl rfl rfl rfl (by simp [hpc, handed, hand])
        (by simp [hpc, uncounted]) (by simp [leaving])
    case isFalse => cases hstep
  | lockedLoad =>
    rw [hpc] at hstep
    cases hstep
    refine h.worker_goes hsync rfl rfl rfl rfl rfl rfl rfl rfl rfl ?_ ?_ ?_ <;>
      cases s.shutdown <;> simp [hpc, handed, hand, uncounted, leaving]
  | unlockStop | condWait | unlock =>
    rw [hpc] at hstep
    cases hstep
    exact h.worker_goes hsync rfl rfl rfl rfl rfl rfl rfl rfl rfl
      (by simp [hpc, afterLoop, handed, hand]) (by simp [hpc, afterLoop, uncounted])
      (by simp [afterLoop, leaving])
  | unlockTask qe =>
    rw [hpc] at hstep
    cases hstep
    refine h.worker_goes hsync rfl rfl rfl rfl rfl rfl rfl rfl rfl ?_ ?_ ?_
    · rw [handed_afterLoop, hpc]
      rfl
    · rw [uncounted_afterLoop, hpc]
      rfl
    · intro hleaving
      simp [hpc, leaving, leaving_afterLoop false qe hleaving]
  | execute qe =>
    have hproper := h.sync.proper i
    rw [hpc] at hstep hproper
    have hne : qe.taskFunction ≠ 0 := hproper
    simp only [ThreadPool.workerStep, if_neg hne] at hstep
    cases hstep
    -- The task goes from the hand to the record.
    refine h.worker_moves hsync rfl rfl rfl rfl rfl rfl (List.suffix_refl _) ?_ ?_ (by simp [leaving])
    · simp [hpc, handed, hand, realTasks, hne, ThreadPool.goto, ← Multiset.coe_add]
      ac_rfl
    · simp [hpc, uncounted, ThreadPool.goto, ThreadPool.getTaskCount]
      omega
  | count =>
    rw [hpc] at hstep
    cases hstep
    refine h.worker_moves hsync rfl rfl rfl rfl rfl rfl (List.suffix_refl _) ?_ ?_ (by simp [leaving])
    · simp [hpc, handed, hand, ThreadPool.goto]
    · have hsum := sum_update (fun k : Nat => k) s.taskCount i (s.taskCount i + 1)
      simp [hpc, uncounted, ThreadPool.goto, ThreadPool.getTaskCount]
      omega
  | waiting | exited | aborted =>
    rw [hpc] at hstep
    cases hstep

theorem TaskInv.wake (h : TaskInv s) (hstep : s.wake i = some s') : TaskInv s' := by
  have hsync : PoolSync s' := h.sync.wake hstep
  obtain ⟨hpc, rfl⟩ := wake_eq_some hstep
  exact h.worker_goes hsync rfl rfl rfl rfl rfl rfl rfl rfl rfl (by simp [hpc, handed, hand])
    (by simp [hpc, uncounted]) (by simp [leaving])

/-! ### The other threads -/

section Callers

variable [DecidableEq C] {p : CallerPc}

/-- A caller moves, and the tasks stay. -/
theorem TaskInv.caller_moves (h : TaskInv s) (hsync : PoolSync s') (hworkers : s'.workers = s.workers)
    (hcallers : s'.callers = Function.update s.callers c p) (hdestroyer : s'.destroyer = s.destroyer)
    (hshutdown : s'.shutdown = s.shutdown) (henqueued : s'.enqueued = s.enqueued)
    (hseq : s'.nextSeq = s.nextSeq) (hqueue : s'.taskQueue = s.taskQueue)
    (hexecuted : s'.executed = s.executed) (hcount : s'.taskCount = s.taskCount)
    (hquiet : s.destroyer ≠ .idle → p = .idle)
    (hgiven : ∀ func arg, p = .enqueue func arg → func ≠ 0) : TaskInv s' := by
  constructor
  case sync => exact hsync
  case tasks => rw [hqueue, hworkers, hexecuted, henqueued]; exact h.tasks
  case distinct => rw [henqueued]; exact h.distinct
  case older => rw [henqueued, hseq]; exact h.older
  case counts => rw [hexecuted, hworkers, ThreadPool.getTaskCount, hcount]; exact h.counts
  case stopsLast => rw [hqueue]; exact h.stopsLast
  case left => rw [hworkers, hqueue]; exact h.left
  case running => rw [hshutdown, hworkers, hqueue]; exact h.running
  case quiet =>
    rw [hdestroyer]
    intro hbusy c'
    by_cases hc : c' = c
    · simp [hcallers, hc, hquiet hbusy]
    · simp [hcallers, hc, h.quiet hbusy c']
  case given =>
    intro c' func arg hpc
    by_cases hc : c' = c
    · exact hgiven func arg (by simpa [hcallers, hc] using hpc)
    · exact h.given c' func arg (by simpa [hcallers, hc] using hpc)

/-- `enqueue_task` enqueues its task. Nobody destroys the pool meanwhile. -/
theorem TaskInv.enqueue (h : TaskInv s) {func arg : Nat} (hpc : s.callers c = .enqueue func arg)
    (hsync : PoolSync ({ s.push func arg with
      enqueued := s.enqueued ++ [PoolTask.mk func arg s.nextSeq] }.callerGoto c .addCond)) :
    TaskInv ({ s.push func arg with
      enqueued := s.enqueued ++ [PoolTask.mk func arg s.nextSeq] }.callerGoto c .addCond) := by
  have hne : func ≠ 0 := h.given c func arg hpc
  have hidle : s.destroyer = .idle := by
    by_contra hbusy
    cases hpc.symm.trans (h.quiet hbusy c)
  have hopen : s.shutdown = false := h.sync.announced.trans (by rw [hidle]; rfl)
  obtain ⟨hreal, hstay⟩ := h.running hopen
  have hnew : realTasks (s.taskQueue ++ [PoolTask.mk func arg s.nextSeq]) =
      realTasks s.taskQueue ++ [PoolTask.mk func arg s.nextSeq] := by
    simp [realTasks, hne]
  have hmem : ∀ t ∈ s.taskQueue ++ [PoolTask.mk func arg s.nextSeq], t.taskFunction ≠ 0 := by
    intro t ht
    rcases List.mem_append.mp ht with ht | ht
    · exact hreal t ht
    · rw [List.mem_singleton.mp ht]
      exact hne
  constructor
  case sync => exact hsync
  case tasks =>
    have htasks := h.tasks
    simp only [ThreadPool.callerGoto, ThreadPool.push, hnew]
    rw [← Multiset.coe_add, ← Multiset.coe_add, ← htasks]
    ac_rfl
  case distinct =>
    -- The number of the new task is larger than all others.
    rw [← List.concat_eq_append]
    refine h.distinct.concat fun hin => ?_
    exact Nat.lt_irrefl _ (h.older _ hin)
  case older =>
    intro t ht
    rcases List.mem_append.mp ht with ht | ht
    · exact Nat.lt_succ_of_lt (h.older t ht)
    · rw [List.mem_singleton.mp ht]
      exact Nat.lt_succ_self _
  case counts => exact h.counts
  case stopsLast =>
    refine List.Pairwise.imp_of_mem (R := fun _ _ => True) ?_ (List.pairwise_of_forall fun _ _ => trivial)
    exact fun ht _ _ hnull => absurd hnull (hmem _ ht)
  case left =>
    rintro ⟨i, hi⟩
    simp only [ThreadPool.callerGoto, ThreadPool.push] at hi
    simp [hstay i] at hi
  case running => exact fun _ => ⟨hmem, hstay⟩
  case quiet => exact fun hbusy => absurd hidle hbusy
  case given =>
    intro c' func' arg' hpc'
    by_cases hc : c' = c
    · simp [ThreadPool.callerGoto, hc] at hpc'
    · exact h.given c' func' arg' (by simpa [ThreadPool.callerGoto, ThreadPool.push, hc] using hpc')

theorem TaskInv.callerStep (h : TaskInv s) (hstep : s.callerStep c (s.callers c) = some s') :
    TaskInv s' := by
  have hsync : PoolSync s' := h.sync.callerStep hstep
  have hbusy : s.callers c ≠ .idle → s.destroyer ≠ .idle → False := fun hne hbusy =>
    hne (h.quiet hbusy c)
  cases hpc : s.callers c with
  | enqueue func arg =>
    rw [hpc] at hstep
    cases hstep
    exact h.enqueue hpc hsync
  | addCond =>
    rw [hpc] at hstep
    cases hstep
    exact h.caller_moves hsync rfl rfl rfl rfl rfl rfl rfl rfl rfl
      (fun hd => (hbusy (by simp [hpc]) hd).elim) (by simp)
  | lock =>
    rw [hpc] at hstep
    simp only [ThreadPool.callerStep] at hstep
    split at hstep
    case isTrue =>
      cases hstep
      exact h.caller_moves hsync rfl rfl rfl rfl rfl rfl rfl rfl rfl
        (fun hd => (hbusy (by simp [hpc]) hd).elim) (by simp)
    case isFalse => cases hstep
  | unlock =>
    rw [hpc] at hstep
    cases hstep
    exact h.caller_moves hsync rfl rfl rfl rfl rfl rfl rfl rfl rfl (fun _ => rfl) (by simp)
  | idle | signal =>
    rw [hpc] at hstep
    cases hstep

theorem TaskInv.signal (h : TaskInv s) {woken : Option (Fin n)} (hsync : PoolSync s')
    (hstep : s.signalStep c woken = some s') : TaskInv s' := by
  obtain ⟨hpc, s₁, hs₁, rfl⟩ := signalStep_eq_some hstep
  have hinv : TaskInv s₁ ∧ s₁.callers c = .signal := by
    rcases hs₁ with ⟨i, -, hwake⟩ | ⟨-, -, rfl⟩
    · refine ⟨h.wake hwake, ?_⟩
      obtain ⟨-, rfl⟩ := wake_eq_some hwake
      exact hpc
    · exact ⟨h, hpc⟩
  refine hinv.1.caller_moves hsync rfl rfl rfl rfl rfl rfl rfl rfl rfl ?_ (by simp)
  intro hbusy
  cases hinv.2.symm.trans (hinv.1.quiet hbusy c)

end Callers

/-- `destroy_thread_pool` moves. It enqueues stop tasks only. -/
theorem TaskInv.destroyer_moves (h : TaskInv s) (hsync : PoolSync s') {stops : List PoolTask}
    (hworkers : ∀ i, handed (s'.workers i) = handed (s.workers i) ∧
      uncounted (s'.workers i) = uncounted (s.workers i) ∧
      leaving (s'.workers i) = leaving (s.workers i))
    (hcallers : s'.callers = s.callers) (henqueued : s'.enqueued = s.enqueued)
    (hseq : s.nextSeq ≤ s'.nextSeq) (hqueue : s'.taskQueue = s.taskQueue ++ stops)
    (hstops : ∀ t ∈ stops, t.taskFunction = 0) (hexecuted : s'.executed = s.executed)
    (hcount : s'.taskCount = s.taskCount)
    (hopen : s'.shutdown = false → s.shutdown = false ∧ stops = [])
    (hquiet : ∀ c, s.callers c = .idle) : TaskInv s' := by
  have hreal : realTasks s'.taskQueue = realTasks s.taskQueue := by
    have hnone : realTasks stops = [] := List.filter_eq_nil_iff.mpr fun t ht => by simp [hstops t ht]
    rw [hqueue, realTasks, List.filter_append]
    exact (congrArg (realTasks s.taskQueue ++ ·) hnone).trans (List.append_nil _)
  constructor
  case sync => exact hsync
  case tasks =>
    rw [hreal, hexecuted, henqueued, Finset.sum_congr rfl fun i _ => (hworkers i).1]
    exact h.tasks
  case distinct => rw [henqueued]; exact h.distinct
  case older =>
    rw [henqueued]
    exact fun t ht => Nat.lt_of_lt_of_le (h.older t ht) hseq
  case counts =>
    rw [hexecuted, ThreadPool.getTaskCount, hcount,
      Finset.sum_congr rfl fun i _ => (hworkers i).2.1]
    exact h.counts
  case stopsLast =>
    rw [hqueue, List.pairwise_append]
    refine ⟨h.stopsLast, ?_, fun _ _ t ht _ => hstops t ht⟩
    refine List.Pairwise.imp_of_mem (R := fun _ _ => True) ?_ (List.pairwise_of_forall fun _ _ => trivial)
    exact fun _ ht _ _ => hstops _ ht
  case left =>
    rw [hreal]
    rintro ⟨i, hi⟩
    exact h.left ⟨i, (hworkers i).2.2.symm.trans hi⟩
  case running =>
    intro hnot
    obtain ⟨hbefore, rfl⟩ := hopen hnot
    obtain ⟨htasks, hstay⟩ := h.running hbefore
    rw [hqueue, List.append_nil]
    exact ⟨htasks, fun i => (hworkers i).2.2.trans (hstay i)⟩
  case quiet => exact fun _ c => by rw [hcallers]; exact hquiet c
  case given => rw [hcallers]; exact h.given

/-- `destroy_thread_pool` moves and enqueues nothing. -/
theorem TaskInv.destroyer_passes (h : TaskInv s) (hsync : PoolSync s')
    (hworkers : ∀ i, handed (s'.workers i) = handed (s.workers i) ∧
      uncounted (s'.workers i) = uncounted (s.workers i) ∧
      leaving (s'.workers i) = leaving (s.workers i))
    (hcallers : s'.callers = s.callers) (henqueued : s'.enqueued = s.enqueued)
    (hseq : s'.nextSeq = s.nextSeq) (hqueue : s'.taskQueue = s.taskQueue)
    (hexecuted : s'.executed = s.executed) (hcount : s'.taskCount = s.taskCount)
    (hopen : s'.shutdown = false → s.shutdown = false)
    (hquiet : ∀ c, s.callers c = .idle) : TaskInv s' :=
  h.destroyer_moves hsync hworkers hcallers henqueued hseq.ge (by rw [hqueue, List.append_nil])
    (by simp) hexecuted hcount (fun hnot => ⟨hopen hnot, rfl⟩) hquiet

theorem TaskInv.destroyStep (h : TaskInv s) (hstep : s.destroyStep s.destroyer = some s') :
    TaskInv s' := by
  have hsync : PoolSync s' := h.sync.destroyStep hstep
  have hannounced := h.sync.announced
  have hquiet := h.quiet
  have hsame : ∀ i, handed (s.workers i) = handed (s.workers i) ∧
      uncounted (s.workers i) = uncounted (s.workers i) ∧
      leaving (s.workers i) = leaving (s.workers i) := fun _ => ⟨rfl, rfl, rfl⟩
  cases hpc : s.destroyer with
  | loadShutdown =>
    rw [hpc] at hstep hquiet
    cases hstep
    exact h.destroyer_passes hsync hsame rfl rfl rfl rfl rfl rfl id (hquiet (by simp))
  | storeShutdown =>
    rw [hpc] at hstep hquiet
    cases hstep
    exact h.destroyer_passes hsync hsame rfl rfl rfl rfl rfl rfl (fun hnot => by cases hnot) (hquiet (by simp))
  | stopTask i =>
    rw [hpc] at hstep hannounced hquiet
    cases hstep
    have hset : s.shutdown = true := hannounced
    exact h.destroyer_moves hsync hsame rfl rfl (Nat.le_succ _) rfl (by simp) rfl rfl
      (fun hnot => absurd (hset.symm.trans hnot) (by simp)) (hquiet (by simp))
  | lock =>
    rw [hpc] at hstep hquiet
    simp only [ThreadPool.destroyStep] at hstep
    split at hstep
    case isTrue =>
      cases hstep
      exact h.destroyer_passes hsync hsame rfl rfl rfl rfl rfl rfl id (hquiet (by simp))
    case isFalse => cases hstep
  | broadcast =>
    rw [hpc] at hstep hquiet
    cases hstep
    refine h.destroyer_passes hsync ?_ rfl rfl rfl rfl rfl rfl id (hquiet (by simp))
    intro i
    by_cases hi : s.workers i = .waiting <;>
      simp [ThreadPool.wakeAll, hi, handed, hand, uncounted, leaving]
  | unlock =>
    rw [hpc] at hstep hquiet
    cases hstep
    exact h.destroyer_passes hsync hsame rfl rfl rfl rfl rfl rfl id (hquiet (by simp))
  | join i =>
    rw [hpc] at hstep hquiet
    simp only [ThreadPool.destroyStep] at hstep
    split at hstep
    case isTrue =>
      cases hstep
      exact h.destroyer_passes hsync hsame rfl rfl rfl rfl rfl rfl id (hquiet (by simp))
    case isFalse => cases hstep
  | idle | done | busy =>
    rw [hpc] at hstep
    cases hstep

variable [DecidableEq C]

theorem TaskInv.step (h : TaskInv s) (hok : DestroyedLast s l) (hstep : ThreadPool.step l s = some s') :
    TaskInv s' := by
  have hsync : PoolSync s' := h.sync.step hstep
  cases l with
  | enqueueTask c func arg =>
    obtain ⟨hne, hidle⟩ := hok
    simp only [ThreadPool.step] at hstep
    split at hstep
    case isTrue =>
      cases hstep
      refine h.caller_moves hsync rfl rfl rfl rfl rfl rfl rfl rfl rfl (fun hbusy => absurd hidle hbusy) ?_
      intro func' arg' heq
      cases heq
      exact hne
    case isFalse => cases hstep
  | caller c => exact h.callerStep hstep
  | signal c woken => exact h.signal hsync hstep
  | worker i => exact h.workerStep hstep
  | wake i => exact h.wake hstep
  | destroy =>
    simp only [ThreadPool.step] at hstep
    split at hstep
    case isTrue =>
      cases hstep
      exact h.destroyer_passes hsync (fun _ => ⟨rfl, rfl, rfl⟩) rfl rfl rfl rfl rfl rfl id hok
    case isFalse => cases hstep
  | destroyer => exact h.destroyStep hstep

/-! ### The result -/

omit [DecidableEq C] in
/-- An enqueued task is in one place. -/
theorem TaskInv.kept (h : TaskInv s) {t : PoolTask} (ht : t ∈ s.enqueued) :
    t ∈ s.taskQueue ∨ (∃ i, t ∈ hand (s.workers i)) ∨ t ∈ s.executed := by
  have hmem : t ∈ (s.enqueued : Multiset PoolTask) := ht
  rw [← h.tasks, Multiset.mem_add, Multiset.mem_add, Multiset.mem_sum] at hmem
  rcases hmem with (hqueue | ⟨i, -, hhand⟩) | hexecuted
  · exact Or.inl (List.mem_filter.mp hqueue).1
  · exact Or.inr (Or.inl ⟨i, (List.mem_filter.mp hhand).1⟩)
  · exact Or.inr (Or.inr hexecuted)

omit [DecidableEq C] in
/-- When all workers have left, the queue and the hands are empty. -/
theorem TaskInv.drained (h : TaskInv s) (hn : 0 < n) (hexited : ∀ i, s.workers i = .exited) :
    s.executed.Perm s.enqueued ∧ s.getTaskCount = s.enqueued.length := by
  have hnone : realTasks s.taskQueue = [] := h.left ⟨⟨0, hn⟩, by rw [hexited]; rfl⟩
  have htasks := h.tasks
  have hcounts := h.counts
  simp only [hexited, hnone] at htasks hcounts
  have hperm : s.executed.Perm s.enqueued := by
    refine Multiset.coe_eq_coe.mp ?_
    simpa [handed, hand, realTasks] using htasks
  refine ⟨hperm, ?_⟩
  rw [← hperm.length_eq, hcounts]
  simp [uncounted]

end Efio.Proofs.Evthrpool
