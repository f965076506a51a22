import Efio.Lib.Counted
import Efio.Proofs.Evds.PQueueOrder
import Efio.Spec.PQueueAdmission

/-!
# `Efio.Proofs.Evds.PQueueAdmission`: the two counters of an `ev_pqueue`

As long as they do not wrap around, the counters say how many enqueues are
left (`Ledger`): `lb_count` is the number of enqueues that have raised it
less the dequeues admitted, and less the testers that have yet to put back
what they took; `ub_count` is the number of enqueues that have raised it
less the dequeues that have lowered it. So no tester is admitted in excess,
and when `ub_count` is not positive every enqueue is matched
(`pqueue_exactAdmission`).

The counters are of 32 bits. With `2 ^ 31` elements in the queue both are
negative (`not_pqueue_exactAdmission`).
-/

set_option autoImplicit false

namespace Efio.Proofs.Evds

open Efio.Lib
open Efio.Evds
open Efio.Spec

variable {s s' : EvPQueue} {x x' : WatchedPQueue} {l : PQueueLabel} {t u : Nat} {q : PQueuePc}

/-! ### What an access does to the counters -/

/-- The thread has been admitted and has yet to lower `ub_count`. -/
def lowers : PQueuePc → Bool
  | .deqCount | .ubDec _ => true
  | _ => false

/-- The thread has yet to put back what it took from `lb_count`. -/
def repairs : PQueuePc → Bool
  | .incLb => true
  | _ => false

/-- The access is to a counter. -/
def countsNext : PQueuePc → Bool
  | .ubInc _ | .lbInc _ _ | .decLb | .incLb | .testUb | .ubDec _ => true
  | _ => false

/-- The call has returned `NULL`. -/
def answersNull : PQueuePc → Bool
  | .idle (some .null) => true
  | _ => false

/-- What an access of the thread at the place `p` that goes on at `q` does
to the counters. -/
inductive CounterAccess (s s' : EvPQueue) : PQueuePc → PQueuePc → Prop where
  | raise (data : Nat) (hub : s'.ubCount = atomicInt (s.ubCount + 1)) (hlb : s'.lbCount = s.lbCount) :
      CounterAccess s s' (.ubInc data) (.enqCount data)
  | permit (data : Nat) (k : Int) (hub : s'.ubCount = s.ubCount)
      (hlb : s'.lbCount = atomicInt (s.lbCount + 1)) : CounterAccess s s' (.lbInc data k) (.alloc data k)
  | admitted (hpos : 0 < s.lbCount) (hub : s'.ubCount = s.ubCount)
      (hlb : s'.lbCount = atomicInt (s.lbCount - 1)) : CounterAccess s s' .decLb .deqCount
  | fail (hub : s'.ubCount = s.ubCount) (hlb : s'.lbCount = atomicInt (s.lbCount - 1)) :
      CounterAccess s s' .decLb .incLb
  | repair (hub : s'.ubCount = s.ubCount) (hlb : s'.lbCount = atomicInt (s.lbCount + 1)) :
      CounterAccess s s' .incLb .testUb
  | again (hub : s'.ubCount = s.ubCount) (hlb : s'.lbCount = s.lbCount) : CounterAccess s s' .testUb .testLb
  | refuse (hnone : s.ubCount ≤ 0) (hub : s'.ubCount = s.ubCount) (hlb : s'.lbCount = s.lbCount) :
      CounterAccess s s' .testUb (.idle (some .null))
  | lower (k : Int) (hub : s'.ubCount = atomicInt (s.ubCount - 1)) (hlb : s'.lbCount = s.lbCount) :
      CounterAccess s s' (.ubDec k) (.deqEnter k)
  | other (p q : PQueuePc) (hp : countsNext p = false) (hlowers : lowers q = lowers p)
      (hrepairs : repairs q = repairs p) (hnull : answersNull q = false) (hub : s'.ubCount = s.ubCount)
      (hlb : s'.lbCount = s.lbCount) : CounterAccess s s' p q

/-- An access that waits. -/
theorem counterAccess_wait {p : PQueuePc} (hpc : s.pc t = p) (hp : countsNext p = false)
    (hnull : answersNull p = false) : ∃ q, s.pc = Function.update s.pc t q ∧ CounterAccess s s p q :=
  ⟨p, by rw [← hpc, Function.update_eq_self], .other p p hp rfl rfl hnull rfl rfl⟩

/-- An access to other words. -/
theorem counterAccess_goto {p : PQueuePc} (hpc : s'.pc = Function.update s.pc t q) (hp : countsNext p = false)
    (hlowers : lowers q = lowers p) (hrepairs : repairs q = repairs p) (hnull : answersNull q = false)
    (hub : s'.ubCount = s.ubCount) (hlb : s'.lbCount = s.lbCount) :
    ∃ q, s'.pc = Function.update s.pc t q ∧ CounterAccess s s' p q :=
  ⟨q, hpc, .other p q hp hlowers hrepairs hnull hub hlb⟩

theorem counterAccess_of_enqueue (h : s.enqueueStep t (s.pc t) = some s') :
    ∃ q, s'.pc = Function.update s.pc t q ∧ CounterAccess s s' (s.pc t) q := by
  cases hpc : s.pc t <;> rw [hpc] at h <;> simp only [EvPQueue.enqueueStep, Option.some.injEq,
    reduceCtorEq] at h
  case ubInc data =>
    subst h
    exact ⟨_, rfl, .raise data rfl rfl⟩
  case lbInc data k =>
    subst h
    exact ⟨_, rfl, .permit data k rfl rfl⟩
  case enqEnter p k =>
    subst h
    split
    · exact counterAccess_goto rfl rfl rfl rfl rfl rfl rfl
    · exact counterAccess_wait hpc rfl rfl
  case link p last k =>
    subst h
    split <;> exact counterAccess_goto rfl rfl rfl rfl rfl rfl rfl
  all_goals
    subst h
    exact counterAccess_goto rfl rfl rfl rfl rfl rfl rfl

theorem counterAccess_of_empty (h : s.emptyStep t (s.pc t) = some s') :
    ∃ q, s'.pc = Function.update s.pc t q ∧ CounterAccess s s' (s.pc t) q := by
  cases hpc : s.pc t <;> rw [hpc] at h <;> simp only [EvPQueue.emptyStep, Option.some.injEq,
    reduceCtorEq] at h
  case testLb =>
    subst h
    refine ⟨_, rfl, ?_⟩
    split
    · exact .other _ _ rfl rfl rfl rfl rfl rfl
    · exact .other _ _ rfl rfl rfl rfl rfl rfl
  case decLb =>
    subst h
    refine ⟨_, rfl, ?_⟩
    split
    · exact .fail rfl rfl
    · exact .admitted (by omega) rfl rfl
  case incLb =>
    subst h
    exact ⟨_, rfl, .repair rfl rfl⟩
  case testUb =>
    subst h
    refine ⟨_, rfl, ?_⟩
    split
    · exact .again rfl rfl
    · exact .refuse (by omega) rfl rfl

theorem counterAccess_of_dequeue (h : s.dequeueStep t (s.pc t) = some s') :
    ∃ q, s'.pc = Function.update s.pc t q ∧ CounterAccess s s' (s.pc t) q := by
  cases hpc : s.pc t <;> rw [hpc] at h <;> simp only [EvPQueue.dequeueStep, Option.some.injEq,
    reduceCtorEq] at h
  case ubDec k =>
    subst h
    exact ⟨_, rfl, .lower k rfl rfl⟩
  case deqEnter k | loadHead k | spin k a =>
    subst h
    split
    · first
        | exact counterAccess_goto rfl rfl rfl rfl rfl rfl rfl
        | exact counterAccess_wait hpc rfl rfl
    · first
        | exact counterAccess_goto rfl rfl rfl rfl rfl rfl rfl
        | exact counterAccess_wait hpc rfl rfl
  case storeHead k a second =>
    subst h
    refine ⟨_, rfl, ?_⟩
    split <;> exact .other _ _ rfl rfl rfl rfl rfl rfl
  case casTail k a =>
    subst h
    split <;> exact counterAccess_goto rfl rfl rfl rfl rfl rfl rfl
  all_goals
    subst h
    exact counterAccess_goto rfl rfl rfl rfl rfl rfl rfl

theorem counterAccess_of_step (h : EvPQueue.step (.access t) s = some s') :
    ∃ q, s'.pc = Function.update s.pc t q ∧ CounterAccess s s' (s.pc t) q := by
  simp only [EvPQueue.step, EvPQueue.threadStep, Option.or_eq_some_iff] at h
  obtain h | ⟨-, h | ⟨-, h⟩⟩ := h
  · exact counterAccess_of_enqueue h
  · exact counterAccess_of_empty h
  · exact counterAccess_of_dequeue h

theorem atomicInt_of_isInt {n : Int} (h : IsInt n) : atomicInt n = n := by
  rw [IsInt] at h
  exact Int.bmod_eq_of_le (by omega) (by omega)

/-! ### The ledger -/

/-- What the counters say. -/
structure Counts (s : EvPQueue) (raised permitted admitted : Nat) : Prop where
  ub : Counted lowers s.pc (s.ubCount - raised + admitted)
  lb : Counted repairs s.pc (permitted - admitted - s.lbCount)
  le : admitted ≤ permitted

/-- A thread moves, and the counters with it. -/
theorem Counts.move {raised permitted admitted raised' permitted' admitted' : Nat} {d e : Int}
    (h : Counts s raised permitted admitted) (hpc : s'.pc = Function.update s.pc t q)
    (hlowers : share lowers q - share lowers (s.pc t) = d)
    (hrepairs : share repairs q - share repairs (s.pc t) = e)
    (hub : s'.ubCount - raised' + admitted' = s.ubCount - raised + admitted + d)
    (hlb : permitted' - admitted' - s'.lbCount = permitted - admitted - s.lbCount + e)
    (hle : admitted' ≤ permitted') : Counts s' raised' permitted' admitted' where
  ub := by
    rw [hpc, hub, ← hlowers]
    exact h.ub.update t q
  lb := by
    rw [hpc, hlb, ← hrepairs]
    exact h.lb.update t q
  le := hle

/-- The record behind an access. -/
theorem Counts.access (h : Counts x.queue x.raised x.permitted x.admitted)
    (hok : NoWrap x.queue (x.queue.pc t)) (hstep : EvPQueue.step (.access t) x.queue = some s) :
    Counts s (x.raisedBy (.access t)) (x.permittedBy (.access t)) (x.admittedBy s (.access t)) := by
  obtain ⟨q, hpc, haccess⟩ := counterAccess_of_step hstep
  have hself : s.pc t = q := by rw [hpc, Function.update_self]
  obtain ⟨p, hp⟩ : ∃ p, x.queue.pc t = p := ⟨_, rfl⟩
  have hle := h.le
  rw [hp] at haccess hok
  simp only [WatchedPQueue.raisedBy, WatchedPQueue.permittedBy, WatchedPQueue.admittedBy, hself, hp]
  cases haccess with
  | raise data hub hlb =>
    rw [atomicInt_of_isInt hok] at hub
    show Counts s (x.raised + 1) x.permitted x.admitted
    exact h.move (d := 0) (e := 0) hpc (by rw [hp]; rfl) (by rw [hp]; rfl) (by omega) (by omega) hle
  | permit data k hub hlb =>
    rw [atomicInt_of_isInt hok] at hlb
    show Counts s x.raised (x.permitted + 1) x.admitted
    exact h.move (d := 0) (e := 0) hpc (by rw [hp]; rfl) (by rw [hp]; rfl) (by omega) (by omega) (by omega)
  | admitted hpos hub hlb =>
    rw [atomicInt_of_isInt hok] at hlb
    show Counts s x.raised x.permitted (x.admitted + 1)
    -- What is on the counter is an enqueue that no dequeue was admitted for.
    have hnonneg := h.lb.nonneg
    exact h.move (d := 1) (e := 0) hpc (by rw [hp]; rfl) (by rw [hp]; rfl) (by omega) (by omega) (by omega)
  | fail hub hlb =>
    rw [atomicInt_of_isInt hok] at hlb
    show Counts s x.raised x.permitted x.admitted
    exact h.move (d := 0) (e := 1) hpc (by rw [hp]; rfl) (by rw [hp]; rfl) (by omega) (by omega) hle
  | repair hub hlb =>
    rw [atomicInt_of_isInt hok] at hlb
    show Counts s x.raised x.permitted x.admitted
    exact h.move (d := 0) (e := -1) hpc (by rw [hp]; rfl) (by rw [hp]; rfl) (by omega) (by omega) hle
  | again hub hlb | refuse hnone hub hlb =>
    show Counts s x.raised x.permitted x.admitted
    exact h.move (d := 0) (e := 0) hpc (by rw [hp]; rfl) (by rw [hp]; rfl) (by omega) (by omega) hle
  | lower k hub hlb =>
    rw [atomicInt_of_isInt hok] at hub
    show Counts s x.raised x.permitted x.admitted
    exact h.move (d := -1) (e := 0) hpc (by rw [hp]; rfl) (by rw [hp]; rfl) (by omega) (by omega) hle
  | other p q hplain hlowers hrepairs hnull hub hlb =>
    have hsame : Counts s x.raised x.permitted x.admitted := by
      refine h.move (d := 0) (e := 0) hpc ?_ ?_ (by omega) (by omega) hle
      · rw [hp, share, share, hlowers]
        exact Int.sub_self _
      · rw [hp, share, share, hrepairs]
        exact Int.sub_self _
    cases p <;> first | exact hsame | cases hplain

theorem Counts.step (h : Counts x.queue x.raised x.permitted x.admitted) (hok : CountersFit x l)
    (hstep : EvPQueue.step l x.queue = some s) :
    Counts s (x.raisedBy l) (x.permittedBy l) (x.admittedBy s l) := by
  cases l with
  | access t => exact h.access hok hstep
  | call t c =>
    rw [EvPQueue.step] at hstep
    split at hstep
    · rename_i r hpc
      obtain rfl := (Option.some.inj hstep).symm
      refine h.move (d := 0) (e := 0) rfl ?_ ?_ (Int.add_zero _).symm (Int.add_zero _).symm h.le
      · rw [hpc]
        cases c <;> rfl
      · rw [hpc]
        cases c <;> rfl
    · cases hstep
  | malloc t a =>
    rw [EvPQueue.step, EvPQueue.mallocStep] at hstep
    split at hstep
    · rename_i data k hpc
      split at hstep
      · cases hstep
      · obtain rfl := (Option.some.inj hstep).symm
        exact h.move (d := 0) (e := 0) rfl (by rw [hpc]; rfl) (by rw [hpc]; rfl) (Int.add_zero _).symm
          (Int.add_zero _).symm h.le
    · cases hstep

/-! ### The calls that have returned -/

theorem pgoto_pc_self (s : EvPQueue) (t : Nat) (q : PQueuePc) : (s.goto t q).pc t = q := by
  simp only [EvPQueue.goto, Function.update_self]

/-- Only by an access does a call return `NULL`, and then `ub_count` was not
positive. -/
theorem answersNull_of_step (h : EvPQueue.step l s = some s') (hnull : s'.pc u = .idle (some .null)) :
    s.pc u = .idle (some .null) ∨ (s.pc u = .testUb ∧ s.ubCount ≤ 0) := by
  have hother : ∀ {t : Nat} {q : PQueuePc}, u ≠ t → s'.pc = Function.update s.pc t q →
      s.pc u = .idle (some .null) := by
    intro t q hu hpc
    rw [← hnull, hpc, Function.update_of_ne hu]
  cases l with
  | access t =>
    obtain ⟨q, hpc, haccess⟩ := counterAccess_of_step h
    by_cases hu : u = t
    · subst hu
      rw [hpc, Function.update_self] at hnull
      subst hnull
      generalize s.pc u = p at haccess
      cases haccess with
      | refuse hnone => exact .inr ⟨rfl, hnone⟩
      | other p q hplain hlowers hrepairs hnull => cases hnull
    · exact .inl (hother hu hpc)
  | call t c =>
    rw [EvPQueue.step] at h
    split at h
    · by_cases hu : u = t
      · subst hu
        rw [← Option.some.inj h, pgoto_pc_self] at hnull
        cases c <;> cases hnull
      · exact .inl (hother hu (congrArg EvPQueue.pc (Option.some.inj h)).symm)
    · cases h
  | malloc t a =>
    rw [EvPQueue.step, EvPQueue.mallocStep] at h
    split at h
    · split at h
      · cases h
      · by_cases hu : u = t
        · subst hu
          rw [← Option.some.inj h, pgoto_pc_self] at hnull
          cases hnull
        · exact .inl (hother hu (congrArg EvPQueue.pc (Option.some.inj h)).symm)
    · cases h

/-- The record in every state. -/
structure Ledger (x : WatchedPQueue) : Prop where
  counts : Counts x.queue x.raised x.permitted x.admitted
  instant : ∀ t, isBetween (x.queue.pc t) = false → x.raised ≤ x.admitted → x.matched t = true
  matched : ∀ t, x.queue.pc t = .idle (some .null) → x.matched t = true

theorem pstep_eq_some (h : WatchedPQueue.step l x = some x') :
    EvPQueue.step l x.queue = some x'.queue ∧ x'.raised = x.raisedBy l ∧ x'.permitted = x.permittedBy l ∧
      x'.admitted = x.admittedBy x'.queue l ∧ x'.matched = x.matchedBy x'.queue l := by
  obtain ⟨s, hstep, rfl⟩ := Option.map_eq_some_iff.mp h
  exact ⟨hstep, rfl, rfl, rfl, rfl⟩

theorem Ledger.step (h : Ledger x) (hok : CountersFit x l) (hstep : WatchedPQueue.step l x = some x') :
    Ledger x' := by
  obtain ⟨hqueue, hraised, hpermitted, hadmitted, hmatched⟩ := pstep_eq_some hstep
  refine ⟨?_, ?_, ?_⟩
  · rw [hraised, hpermitted, hadmitted]
    exact h.counts.step hok hqueue
  · intro u hbusy hinstant
    rw [hraised, hadmitted] at hinstant
    have hnot : ¬isBetween (x'.queue.pc u) = true := by
      rw [hbusy]
      exact Bool.false_ne_true
    simp only [hmatched, WatchedPQueue.matchedBy, if_neg hnot, decide_eq_true hinstant, Bool.or_true]
  · intro u hnull
    have hidle : isBetween (x'.queue.pc u) = true := by
      rw [hnull]
      rfl
    simp only [hmatched, WatchedPQueue.matchedBy, if_pos hidle]
    obtain hbefore | ⟨hpc, hnone⟩ := answersNull_of_step hqueue hnull
    · exact h.matched u hbefore
    · -- `ub_count` is not positive, and so no enqueue is left.
      have hnonneg := h.counts.ub.nonneg
      exact h.instant u (by rw [hpc]; rfl) (by omega)

theorem ledger_init (N : Int) : Ledger (WatchedPQueue.start (EvPQueue.init N)) where
  counts := by
    have hnone : ∀ P : PQueuePc → Bool, P (.idle none) = false →
        Counted P (fun _ : Nat => PQueuePc.idle none) 0 := by
      intro P hP
      exact ⟨∅, fun t => by simp [hP], rfl⟩
    exact ⟨hnone _ rfl, hnone _ rfl, Nat.le_refl 0⟩
  instant := by
    intro t hbusy
    cases hbusy
  matched := by
    intro t hnull
    cases hnull

/-- **Admission is exact** in every run in which no counter wraps around: no
more dequeues are admitted than enqueues have raised `lb_count`, and a call
that has returned `NULL` had an instant at which every enqueue that had
raised `ub_count` was matched by an admitted dequeue. -/
theorem pqueue_exactAdmission (N : Int)
    (h : Reach WatchedPQueue.step CountersFit (WatchedPQueue.start (EvPQueue.init N)) x) :
    ExactAdmission x := by
  have hledger := h.invariant (ledger_init N) fun _ _ _ => Ledger.step
  exact ⟨hledger.counts.le, hledger.matched⟩

/-- The thread 0 enqueues, and the threads 1 and 2 both take one off
`lb_count`: the thread 2 puts its one back, asks once more, and returns
`NULL` when the other has lowered `ub_count`. -/
def twoTesters : List PQueueLabel :=
  [[.call 0 (.enqueue 7), .access 0, .access 0, .access 0, .malloc 0 16], List.replicate 4 (.access 0),
    [.call 1 .dequeue, .call 2 .dequeue, .access 1, .access 2, .access 1], List.replicate 4 (.access 2),
    List.replicate 2 (.access 1), [.access 2]].flatten

theorem pqueue_exactAdmission_sample :
    ∃ x : WatchedPQueue, x.admitted = 1 ∧ x.permitted = 1 ∧ x.queue.pc 2 = .idle (some .null) ∧
      ExactAdmission x := by
  have hrun : (run WatchedPQueue.step CountersFit twoTesters (WatchedPQueue.start (EvPQueue.init 2))).map
      (fun x => (x.admitted, x.permitted, x.queue.pc 2)) = some (1, 1, .idle (some .null)) := by
    decide +kernel
  obtain ⟨x, hx, heq⟩ := Option.map_eq_some_iff.mp hrun
  obtain ⟨hadmitted, hpermitted, hpc⟩ : x.admitted = 1 ∧ x.permitted = 1 ∧
      x.queue.pc 2 = .idle (some .null) := by simpa using heq
  exact ⟨x, hadmitted, hpermitted, hpc, pqueue_exactAdmission 2 (Reach.of_run .init twoTesters hx)⟩

/-! ### A queue with very many elements -/

/-- One thread enqueues, and the thread 1 has not made a call: the place of
the first one, the counters, the guard of the only lane, the enqueues so
far, and a bound on the nodes. -/
structure Solo (q : PQueuePc) (enq ub lb guard : Int) (raised nodes : Nat) (x : WatchedPQueue) : Prop where
  lanes : x.queue.N = 1
  pc : x.queue.pc 0 = q
  other : x.queue.pc 1 = .idle none
  enq : x.queue.enqCounter = enq
  ub : x.queue.ubCount = ub
  lb : x.queue.lbCount = lb
  guard : x.queue.eGuard 0 = guard
  live : ∀ a, nodes < a → x.queue.live a = false
  raised : x.raised = raised
  admitted : x.admitted = 0
  unmatched : x.matched 1 = false

variable {enq enq' ub ub' lb lb' guard guard' : Int} {raised raised' nodes nodes' : Nat} {p : PQueuePc}

/-- A step of the thread 0. -/
theorem Solo.next (h : Solo p enq ub lb guard raised nodes x) (hstep : EvPQueue.step l x.queue = some s)
    (hpc : s.pc = Function.update x.queue.pc 0 q) (hN : s.N = x.queue.N)
    (hadmitted : x.admittedBy s l = x.admitted) (henq : s.enqCounter = enq') (hub : s.ubCount = ub')
    (hlb : s.lbCount = lb') (hguard : s.eGuard 0 = guard') (hraised : x.raisedBy l = raised')
    (hlive : ∀ a, nodes' < a → s.live a = false) :
    ∃ x', WatchedPQueue.step l x = some x' ∧ Solo q enq' ub' lb' guard' raised' nodes' x' := by
  have hother : s.pc 1 = .idle none := by
    rw [hpc, Function.update_of_ne Nat.one_ne_zero, h.other]
  refine ⟨_, congrArg (Option.map _) hstep, hN.trans h.lanes, ?_, hother, henq, hub, hlb, hguard, hlive,
    hraised, hadmitted.trans h.admitted, ?_⟩
  · exact (congrFun hpc 0).trans (Function.update_self ..)
  · have hidle : isBetween (s.pc 1) = true := by
      rw [hother]
      rfl
    exact (if_pos hidle).trans h.unmatched

/-- An access of the enqueue. -/
theorem Solo.access (h : Solo p enq ub lb guard raised nodes x) (hstep : x.queue.enqueueStep 0 p = some s)
    (hpc : s.pc = Function.update x.queue.pc 0 q) (hN : s.N = x.queue.N)
    (henq : s.enqCounter = enq') (hub : s.ubCount = ub') (hlb : s.lbCount = lb')
    (hguard : s.eGuard 0 = guard') (hraised : x.raisedBy (.access 0) = raised')
    (hlive : s.live = x.queue.live) :
    ∃ x', WatchedPQueue.step (.access 0) x = some x' ∧ Solo q enq' ub' lb' guard' raised' nodes x' := by
  refine h.next ?_ hpc hN ?_ henq hub hlb hguard hraised ?_
  · rw [EvPQueue.step, EvPQueue.threadStep, h.pc, hstep]
    rfl
  · -- No access of an enqueue is the one that admits.
    simp only [WatchedPQueue.admittedBy, h.pc]
    cases p <;> first | rfl | cases hstep
  · rw [hlive]
    exact h.live

theorem Solo.raisedBy_access (h : Solo p enq ub lb guard raised nodes x) (hp : ∀ data, p ≠ .ubInc data) :
    x.raisedBy (.access 0) = raised := by
  simp only [WatchedPQueue.raisedBy, h.pc]
  cases p with
  | ubInc data => exact absurd rfl (hp data)
  | _ => exact h.raised

theorem index_one (count : Int) : EvPQueue.index 1 count = 0 := Int.tmod_one count

/-- The start of an enqueue, up to the `malloc` of its node. -/
theorem Solo.start {r : Option QueueResult} {k : Nat}
    (h : Solo (.idle r) k ub lb (k - 1) k k x) :
    ∃ x', Reach WatchedPQueue.step (fun _ _ => True) x x' ∧
      Solo (.alloc 7 k) (atomicInt (k + 1)) (atomicInt (ub + 1)) (atomicInt (lb + 1)) (k - 1) (k + 1) k x' := by
  obtain ⟨x₁, hx₁, h₁⟩ := h.next (l := .call 0 (.enqueue 7)) (s := x.queue.goto 0 (.ubInc 7))
    (by simp only [EvPQueue.step, h.pc]; rfl) rfl rfl rfl h.enq h.ub h.lb h.guard h.raised h.live
  have hraised : x₁.raisedBy (.access 0) = k + 1 := by
    simp only [WatchedPQueue.raisedBy, h₁.pc, h₁.raised]
  obtain ⟨x₂, hx₂, h₂⟩ := h₁.access rfl rfl rfl h₁.enq (congrArg (fun n => atomicInt (n + 1)) h₁.ub) h₁.lb
    h₁.guard hraised rfl
  obtain ⟨x₃, hx₃, h₃⟩ := h₂.access rfl rfl rfl (congrArg (fun n => atomicInt (n + 1)) h₂.enq) h₂.ub h₂.lb
    h₂.guard (h₂.raisedBy_access (by intro _ he; cases he)) rfl
  rw [h₂.enq] at h₃
  obtain ⟨x₄, hx₄, h₄⟩ := h₃.access rfl rfl rfl h₃.enq h₃.ub (congrArg (fun n => atomicInt (n + 1)) h₃.lb)
    h₃.guard (h₃.raisedBy_access (by intro _ he; cases he)) rfl
  exact ⟨x₄, (((Reach.init.step trivial hx₁).step trivial hx₂).step trivial hx₃).step trivial hx₄, h₄⟩

/-- The rest of it, on the only lane. -/
theorem Solo.append {k : Nat} (h : Solo (.alloc 7 k) enq ub lb (k - 1) raised k x) :
    ∃ x', Reach WatchedPQueue.step (fun _ _ => True) x x' ∧
      Solo (.idle (some .done)) enq ub lb k raised (k + 1) x' := by
  have hfree : ¬(k + 1 = 0 ∨ x.queue.live (k + 1) = true) := by
    rw [h.live (k + 1) (Nat.lt_succ_self k)]
    simp
  have hlive : ∀ a, k + 1 < a → Function.update x.queue.live (k + 1) true a = false := by
    intro a ha
    rw [Function.update_of_ne (Nat.ne_of_gt ha)]
    exact h.live a (Nat.lt_of_succ_lt ha)
  obtain ⟨x₁, hx₁, h₁⟩ := h.next (l := .malloc 0 (k + 1))
    (s := { x.queue.store (k + 1) { data := 7, next := 0 } with
      live := Function.update x.queue.live (k + 1) true }.goto 0 (.enqEnter (k + 1) k))
    (by simp only [EvPQueue.step, EvPQueue.mallocStep, h.pc, if_neg hfree]) rfl rfl rfl h.enq h.ub h.lb
    h.guard h.raised hlive
  have henter : (k : Int) - x₁.queue.N = x₁.queue.eGuard (EvPQueue.index x₁.queue.N k) := by
    rw [h₁.lanes, index_one, h₁.guard]
  obtain ⟨x₂, hx₂, h₂⟩ := h₁.access (congrArg some (if_pos henter)) rfl rfl h₁.enq h₁.ub h₁.lb h₁.guard
    (h₁.raisedBy_access (by intro _ he; cases he)) rfl
  obtain ⟨x₃, hx₃, h₃⟩ := h₂.access rfl rfl rfl h₂.enq h₂.ub h₂.lb h₂.guard
    (h₂.raisedBy_access (by intro _ he; cases he)) rfl
  have hexit : Function.update x₃.queue.eGuard (EvPQueue.index x₃.queue.N k) (k : Int) 0 = k := by
    rw [h₃.lanes, index_one, Function.update_self]
  obtain ⟨x₄, hx₄, h₄⟩ := h₃.access rfl rfl rfl h₃.enq h₃.ub h₃.lb hexit
    (h₃.raisedBy_access (by intro _ he; cases he)) rfl
  have hlink : ∃ x', WatchedPQueue.step (.access 0) x₄ = some x' ∧
      Solo (.idle (some .done)) enq ub lb k raised (k + 1) x' := by
    by_cases hlast : x₂.queue.tail (EvPQueue.index x₂.queue.N k) = 0
    · exact h₄.access (congrArg some (if_pos hlast)) rfl rfl h₄.enq h₄.ub h₄.lb h₄.guard
        (h₄.raisedBy_access (by intro _ he; cases he)) rfl
    · exact h₄.access (congrArg some (if_neg hlast)) rfl rfl h₄.enq h₄.ub h₄.lb h₄.guard
        (h₄.raisedBy_access (by intro _ he; cases he)) rfl
  obtain ⟨x₅, hx₅, h₅⟩ := hlink
  exact ⟨x₅, ((((Reach.init.step trivial hx₁).step trivial hx₂).step trivial hx₃).step trivial hx₄).step
    trivial hx₅, h₅⟩

/-- As many enqueues as a counter of 32 bits can hold. -/
theorem solo_enqueues : ∀ k : Nat, k ≤ 2 ^ 31 →
    ∃ x, Reach WatchedPQueue.step (fun _ _ => True) (WatchedPQueue.start (EvPQueue.init 1)) x ∧
      ∃ r, Solo (.idle r) (atomicInt k) (atomicInt k) (atomicInt k) (k - 1) k k x := by
  intro k
  induction k with
  | zero => exact fun _ => ⟨_, .init, none, rfl, rfl, rfl, rfl, rfl, rfl, rfl, fun _ _ => rfl, rfl, rfl, rfl⟩
  | succ k ih =>
    intro hk
    obtain ⟨x, hx, r, h⟩ := ih (by omega)
    rw [atomicInt_of_lt (by omega) (by omega)] at h
    obtain ⟨x₁, hadmit, h₁⟩ := h.start
    obtain ⟨x₂, happend, h₂⟩ := h₁.append
    have hback : ((k + 1 : Nat) : Int) - 1 = k := by omega
    rw [hback]
    exact ⟨x₂, (hx.trans hadmit).trans happend, _, h₂⟩

/-- The thread 1 is at `q` when both counters have wrapped around, and has
not had a matched instant. -/
structure Misled (q : PQueuePc) (x : WatchedPQueue) : Prop where
  pc : x.queue.pc 1 = q
  ub : x.queue.ubCount ≤ 0
  lb : x.queue.lbCount ≤ 0
  behind : x.admitted < x.raised
  unmatched : x.matched 1 = false

theorem Misled.next (h : Misled p x) (hstep : EvPQueue.step l x.queue = some s) (hs : s = x.queue.goto 1 q)
    (hraised : x.raisedBy l = x.raised) (hadmitted : x.admittedBy s l = x.admitted) :
    ∃ x', WatchedPQueue.step l x = some x' ∧ Misled q x' := by
  subst hs
  have hbehind : x.admittedBy (x.queue.goto 1 q) l < x.raisedBy l := by
    rw [hraised, hadmitted]
    exact h.behind
  have hunmatched : x.matchedBy (x.queue.goto 1 q) l 1 = false := by
    simp only [WatchedPQueue.matchedBy, h.unmatched, decide_eq_false (Nat.not_le_of_lt hbehind)]
    cases l <;> simp
  have hpc : (x.queue.goto 1 q).pc 1 = q := pgoto_pc_self ..
  exact ⟨_, congrArg (Option.map _) hstep, hpc, h.ub, h.lb, hbehind, hunmatched⟩

/-- The dequeue of the thread 1. -/
theorem Misled.dequeue (h : Misled (.idle none) x) :
    ∃ x', Reach WatchedPQueue.step (fun _ _ => True) x x' ∧ Misled (.idle (some .null)) x' := by
  have hcall : EvPQueue.step (.call 1 .dequeue) x.queue = some (x.queue.goto 1 .testLb) := by
    simp only [EvPQueue.step, h.pc]
    rfl
  obtain ⟨x₁, hx₁, h₁⟩ := h.next hcall rfl rfl rfl
  have htestLb : EvPQueue.step (.access 1) x₁.queue = some (x₁.queue.goto 1 .testUb) := by
    rw [EvPQueue.step, EvPQueue.threadStep, h₁.pc]
    exact congrArg (fun q => some (x₁.queue.goto 1 q)) (if_neg (Int.not_lt.mpr h₁.lb))
  obtain ⟨x₂, hx₂, h₂⟩ := h₁.next htestLb rfl (by simp only [WatchedPQueue.raisedBy, h₁.pc])
    (by simp only [WatchedPQueue.admittedBy, h₁.pc])
  have htestUb : EvPQueue.step (.access 1) x₂.queue = some (x₂.queue.goto 1 (.idle (some .null))) := by
    rw [EvPQueue.step, EvPQueue.threadStep, h₂.pc]
    exact congrArg (fun q => some (x₂.queue.goto 1 q)) (if_neg (Int.not_lt.mpr h₂.ub))
  obtain ⟨x₃, hx₃, h₃⟩ := h₂.next htestUb rfl (by simp only [WatchedPQueue.raisedBy, h₂.pc])
    (by simp only [WatchedPQueue.admittedBy, h₂.pc])
  exact ⟨x₃, ((Reach.init.step trivial hx₁).step trivial hx₂).step trivial hx₃, h₃⟩

/-- After 2^31 enqueues both counters are negative, and a dequeue that runs
alone then returns `NULL` without any instant at which they were matched. -/
theorem not_pqueue_exactAdmission :
    ¬∀ (N : Int) (x : WatchedPQueue),
      Reach WatchedPQueue.step (fun _ _ => True) (WatchedPQueue.start (EvPQueue.init N)) x →
        ExactAdmission x := by
  intro hall
  obtain ⟨x, hx, r, h⟩ := solo_enqueues (2 ^ 31) (Nat.le_refl _)
  have hnegative : atomicInt ((2 ^ 31 : Nat) : Int) ≤ 0 := by decide
  have hmisled : Misled (.idle none) x :=
    ⟨h.other, h.ub.trans_le hnegative, h.lb.trans_le hnegative, by rw [h.admitted, h.raised]; decide, h.unmatched⟩
  obtain ⟨x', hdequeue, h'⟩ := hmisled.dequeue
  have hmatched := (hall 1 x' (hx.trans hdequeue)).matched 1 h'.pc
  rw [h'.unmatched] at hmatched
  cases hmatched

end Efio.Proofs.Evds
