import Efio.Proofs.Evds.PQueueFifo
import Efio.Spec.LaneTickets
import Mathlib.Algebra.GroupWithZero.Nat
import Mathlib.Algebra.Order.GroupWithZero.Basic
import Mathlib.Algebra.Order.Ring.Int

/-!
# `Efio.Proofs.Evds.LaneTickets`: tickets and their lanes

The `k`-th ticket of a counter is `k`, wrapped to 32 bits. From `2 ^ 31`
on it is negative for `2 ^ 31` calls, and so is its remainder, unless it
is 0. `inRange_lane_iff` says so of one ticket, `next_lane_iff` of two
that follow one another: the number of lanes is a power of two, so that
the wrap itself does no harm.

`Tickets` and `PaTickets` say that the threads have such tickets. For a
size above `2 ^ 30` the shifts of `get_nearest_power_of_2` end at 0, and
there is no lane.
-/

set_option autoImplicit false

namespace Efio.Proofs.Evds

open Efio.Lib
open Efio.Evds
open Efio.Spec

variable {N c : Int} {k n : Nat}

/-! ### Tickets -/

theorem atomicInt_add (x y : Int) : atomicInt (atomicInt x + y) = atomicInt (x + y) := Int.bmod_add_bmod

theorem ticket_zero : ticket 0 = 0 := by decide

theorem atomicInt_ticket (k : Nat) : atomicInt (ticket k) = ticket k := by
  simp only [ticket, atomicInt, Int.bmod_bmod]

theorem ticket_succ (k : Nat) : atomicInt (ticket k + 1) = ticket (k + 1) := by
  rw [ticket, atomicInt_add, ticket, Int.natCast_add, Int.natCast_one]

theorem ticket_sub (k : Nat) : (2 ^ 32 : Int) ∣ ticket k - k := by
  have hdvd : ((2 ^ 32 : Nat) : Int) ∣ Int.bmod k (2 ^ 32) - k := Int.dvd_bmod_sub_self
  rwa [Int.natCast_pow] at hdvd

theorem dvd_ticket_iff (hdvd : N ∣ 2 ^ 32) (k : Nat) : N ∣ ticket k ↔ N ∣ (k : Int) := by
  have hsub : N ∣ ticket k - k := Int.dvd_trans hdvd (ticket_sub k)
  exact ⟨fun h => by simpa using Int.dvd_sub h hsub, fun h => by simpa using Int.dvd_add hsub h⟩

theorem ticket_emod (hdvd : N ∣ 2 ^ 32) (k : Nat) : ticket k % N = k % N := by
  exact Int.emod_eq_emod_iff_emod_sub_eq_zero.mpr
    (Int.emod_eq_zero_of_dvd (Int.dvd_trans hdvd (ticket_sub k)))

theorem ticket_nonneg_iff (k : Nat) : 0 ≤ ticket k ↔ k % 2 ^ 32 < 2 ^ 31 := by
  rw [ticket, atomicInt, Int.bmod_def]
  split <;> omega

/-- The lane of a ticket is in the array if and only if the ticket is not
negative or a multiple of the number of lanes. -/
theorem inRange_lane_iff (hN : 0 < N) (hdvd : N ∣ 2 ^ 32) (k : Nat) :
    InRange N (EvPQueue.index N (ticket k)) ↔ Fits N k := by
  rw [EvPQueue.index, inRange_tmod_iff hN, ticket_nonneg_iff, dvd_ticket_iff hdvd, Fits]

/-- And then it is the lane behind that of the ticket before. -/
theorem next_lane_iff (hN : 0 < N) (hdvd : N ∣ 2 ^ 32) (k : Nat) :
    EvPQueue.index N (ticket (k + 1)) = (EvPQueue.index N (ticket k) + 1) % N ↔ Fits N (k + 1) := by
  have hbefore : EvPQueue.index N (ticket k) % N = ticket k % N := by
    rw [EvPQueue.index, Int.tmod_def, Int.sub_mul_emod_self_left]
  have hnext : (EvPQueue.index N (ticket k) + 1) % N = ticket (k + 1) % N := by
    rw [Int.add_emod, hbefore, ticket_emod hdvd, ← Int.add_emod, ticket_emod hdvd, Int.natCast_add,
      Int.natCast_one]
  rw [← inRange_lane_iff hN hdvd, hnext]
  refine ⟨fun heq => ?_, tmod_eq_of_inRange⟩
  rw [heq]
  exact inRange_emod hN _

/-! ### Powers of two -/

theorem atomicInt_two_pow {j : Nat} (hj : j < 30) : atomicInt (2 * 2 ^ j) = 2 ^ (j + 1) := by
  have hle : (2 : Int) ^ (j + 1) ≤ 2 ^ 30 := pow_le_pow_right₀ (by decide) hj
  have hpos : (0 : Int) < 2 ^ (j + 1) := Int.pow_pos (by decide)
  have hdouble : (2 : Int) * 2 ^ j = 2 ^ (j + 1) := by rw [Int.pow_succ, Int.mul_comm]
  rw [hdouble]
  refine Int.bmod_eq_of_le ?_ ?_ <;> omega

/-- The loop of `get_nearest_power_of_2` from `2 ^ j` on. -/
theorem intPowerOf2From_cases (n : Int) (i : Nat) (hi : i ≤ 30) :
    (∃ j ≤ 30, intPowerOf2From n (i + 2) (2 ^ (30 - i)) = 2 ^ j) ∧ n ≤ 2 ^ 30 ∨
      intPowerOf2From n (i + 2) (2 ^ (30 - i)) = 0 ∧ 2 ^ 30 < n := by
  induction i with
  | zero =>
    rw [intPowerOf2From]
    by_cases hle : (2 : Int) ^ (30 - 0) ≥ n
    · rw [if_pos hle]
      exact .inl ⟨⟨30, Nat.le_refl _, rfl⟩, hle⟩
    · -- The shifts go on to `-2 ^ 31` and to 0.
      have hlt : (2 : Int) ^ 30 < n := Int.lt_of_not_ge hle
      have hneg : ¬atomicInt (2 * 2 ^ (30 - 0)) ≥ n := by
        have hmin : atomicInt (2 * 2 ^ (30 - 0)) = -2 ^ 31 := by decide
        omega
      rw [if_neg hle, intPowerOf2From, if_neg hneg, intPowerOf2From]
      exact .inr ⟨by decide, hlt⟩
  | succ i ih =>
    rw [intPowerOf2From]
    by_cases hge : (2 : Int) ^ (30 - (i + 1)) ≥ n
    · rw [if_pos hge]
      have hle : (2 : Int) ^ (30 - (i + 1)) ≤ 2 ^ 30 := pow_le_pow_right₀ (by decide) (by omega)
      exact .inl ⟨⟨30 - (i + 1), by omega, rfl⟩, Int.le_trans hge hle⟩
    · rw [if_neg hge, atomicInt_two_pow (by omega)]
      have hexp : 30 - (i + 1) + 1 = 30 - i := by omega
      rw [hexp]
      exact ih (by omega)

/-- What `create_evpaq` makes: a power of two, or no lane at all. -/
theorem intPowerOf2_cases (n : Int) :
    (0 < intPowerOf2 n ∧ intPowerOf2 n ∣ 2 ^ 32) ∧ n ≤ 2 ^ 30 ∨ intPowerOf2 n = 0 ∧ 2 ^ 30 < n := by
  refine (intPowerOf2From_cases n 30 (Nat.le_refl _)).imp (And.imp_left ?_) id
  rintro ⟨j, hj, hpow⟩
  have hpow : intPowerOf2 n = 2 ^ j := hpow
  rw [hpow]
  exact ⟨Int.pow_pos (by decide), pow_dvd_pow 2 (by omega)⟩

theorem nearestPowerOf2From_pow (n : Int) (i j : Nat) :
    ∃ l ≤ j + i, nearestPowerOf2From n i (2 ^ j) = 2 ^ l := by
  induction i generalizing j with
  | zero => exact ⟨j, Nat.le_refl _, rfl⟩
  | succ i ih =>
    rw [nearestPowerOf2From]
    split
    · exact ⟨j, by omega, rfl⟩
    · obtain ⟨l, hl, hpow⟩ := ih (j + 1)
      refine ⟨l, by omega, ?_⟩
      rw [← hpow, Int.pow_succ, Int.mul_comm]

/-- What `create_ev_pqueue` makes. -/
theorem lanes_of_create {n : Int} {s : EvPQueue} (h : EvPQueue.create n = some s) :
    s = EvPQueue.init s.N ∧ 0 < s.N ∧ s.N ∣ 2 ^ 32 := by
  unfold EvPQueue.create at h
  split at h
  · cases h
  · cases h
    obtain ⟨l, hl, hpow⟩ := nearestPowerOf2From_pow n 32 0
    have hN : (EvPQueue.init (nearestPowerOf2 n)).N = 2 ^ l := hpow
    rw [hN]
    refine ⟨?_, Int.pow_pos (by decide), pow_dvd_pow 2 (by omega)⟩
    exact congrArg EvPQueue.init hpow

/-! ### The tickets of an `ev_pqueue` -/

/-- The counters are the next tickets, and the threads have earlier ones. -/
structure Tickets (s : EvPQueue) : Prop where
  enqCounter : s.enqCounter = ticket s.enqueued.length
  deqCounter : s.deqCounter = ticket s.dequeues
  enq : ∀ t c, (enqTurn (s.pc t)).ticket = some c → ∃ k, k < s.enqueued.length ∧ c = ticket k
  deq : ∀ t c, (deqTurn (s.pc t)).ticket = some c → ∃ k, k < s.dequeues ∧ c = ticket k

section Steps

variable {s s' : EvPQueue} {t : Nat} {q : PQueuePc}

/-- A step that draws no ticket. -/
theorem Tickets.move (h : Tickets s) (hpc : s'.pc = Function.update s.pc t q)
    (hcounters : s'.enqCounter = s.enqCounter ∧ s'.deqCounter = s.deqCounter)
    (hdrawn : s'.enqueued = s.enqueued ∧ s'.dequeues = s.dequeues)
    (henq : ∀ c, (enqTurn q).ticket = some c → (enqTurn (s.pc t)).ticket = some c)
    (hdeq : ∀ c, (deqTurn q).ticket = some c → (deqTurn (s.pc t)).ticket = some c) : Tickets s' := by
  refine ⟨?_, ?_, ?_, ?_⟩
  · rw [hcounters.1, hdrawn.1]
    exact h.enqCounter
  · rw [hcounters.2, hdrawn.2]
    exact h.deqCounter
  · intro u c hc
    rw [hpc] at hc
    rw [hdrawn.1]
    by_cases hu : u = t
    · subst hu
      rw [Function.update_self] at hc
      exact h.enq u c (henq c hc)
    · rw [Function.update_of_ne hu] at hc
      exact h.enq u c hc
  · intro u c hc
    rw [hpc] at hc
    rw [hdrawn.2]
    by_cases hu : u = t
    · subst hu
      rw [Function.update_self] at hc
      exact h.deq u c (hdeq c hc)
    · rw [Function.update_of_ne hu] at hc
      exact h.deq u c hc

/-- An enqueue draws a ticket. -/
theorem Tickets.enqCount (h : Tickets s) (data : Nat) :
    Tickets ({ s with
      enqCounter := atomicInt (s.enqCounter + 1)
      enqueued := s.enqueued ++ [data] }.goto t (.lbInc data s.enqCounter)) := by
  have hlength : (s.enqueued ++ [data]).length = s.enqueued.length + 1 := List.length_append
  refine ⟨?_, h.deqCounter, ?_, ?_⟩
  · show atomicInt (s.enqCounter + 1) = ticket (s.enqueued ++ [data]).length
    rw [h.enqCounter, ticket_succ, hlength]
  · intro u c hc
    show ∃ k, k < (s.enqueued ++ [data]).length ∧ c = ticket k
    rw [hlength]
    simp only [EvPQueue.goto] at hc
    by_cases hu : u = t
    · subst hu
      rw [Function.update_self] at hc
      cases hc
      exact ⟨s.enqueued.length, Nat.lt_succ_self _, h.enqCounter⟩
    · rw [Function.update_of_ne hu] at hc
      obtain ⟨k, hk, heq⟩ := h.enq u c hc
      exact ⟨k, Nat.lt_succ_of_lt hk, heq⟩
  · intro u c hc
    simp only [EvPQueue.goto] at hc
    by_cases hu : u = t
    · subst hu
      rw [Function.update_self] at hc
      cases hc
    · rw [Function.update_of_ne hu] at hc
      exact h.deq u c hc

/-- A dequeue draws a ticket. -/
theorem Tickets.deqCount (h : Tickets s) :
    Tickets ({ s with
      deqCounter := atomicInt (s.deqCounter + 1)
      dequeues := s.dequeues + 1 }.goto t (.ubDec s.deqCounter)) := by
  refine ⟨h.enqCounter, ?_, ?_, ?_⟩
  · show atomicInt (s.deqCounter + 1) = ticket (s.dequeues + 1)
    rw [h.deqCounter, ticket_succ]
  · intro u c hc
    simp only [EvPQueue.goto] at hc
    by_cases hu : u = t
    · subst hu
      rw [Function.update_self] at hc
      cases hc
    · rw [Function.update_of_ne hu] at hc
      exact h.enq u c hc
  · intro u c hc
    show ∃ k, k < s.dequeues + 1 ∧ c = ticket k
    simp only [EvPQueue.goto] at hc
    by_cases hu : u = t
    · subst hu
      rw [Function.update_self] at hc
      cases hc
      exact ⟨s.dequeues, Nat.lt_succ_self _, h.deqCounter⟩
    · rw [Function.update_of_ne hu] at hc
      obtain ⟨k, hk, heq⟩ := h.deq u c hc
      exact ⟨k, Nat.lt_succ_of_lt hk, heq⟩

theorem Tickets.enqueueStep (h : Tickets s) (hq : s.pc t = q) (hstep : s.enqueueStep t q = some s') :
    Tickets s' := by
  cases q with
  | enqCount data =>
    cases hstep
    exact h.enqCount data
  | enqEnter p c | link p last c =>
    simp only [EvPQueue.enqueueStep, Option.some.injEq] at hstep
    split at hstep <;> subst hstep
    all_goals first
      | exact h
      | refine h.move (t := t) rfl ⟨rfl, rfl⟩ ⟨rfl, rfl⟩ ?_ ?_ <;> rw [hq] <;> exact fun _ hc => hc
      | refine h.move (t := t) rfl ⟨rfl, rfl⟩ ⟨rfl, rfl⟩ ?_ ?_ <;> exact fun _ hc => by cases hc
  | ubInc data | lbInc data c | exchange p c | enqExit p last c =>
    cases hstep
    refine h.move (t := t) rfl ⟨rfl, rfl⟩ ⟨rfl, rfl⟩ ?_ ?_ <;> rw [hq] <;> exact fun _ hc => hc
  | _ => cases hstep

theorem Tickets.emptyStep (h : Tickets s) (hq : s.pc t = q) (hstep : s.emptyStep t q = some s') :
    Tickets s' := by
  cases q with
  | testLb | decLb | testUb =>
    simp only [EvPQueue.emptyStep, Option.some.injEq] at hstep
    subst hstep
    refine h.move (t := t) rfl ⟨rfl, rfl⟩ ⟨rfl, rfl⟩ ?_ ?_ <;> split <;> exact fun _ hc => by cases hc
  | incLb =>
    cases hstep
    refine h.move (t := t) rfl ⟨rfl, rfl⟩ ⟨rfl, rfl⟩ ?_ ?_ <;> exact fun _ hc => by cases hc
  | _ => cases hstep

theorem Tickets.dequeueStep (h : Tickets s) (hq : s.pc t = q) (hstep : s.dequeueStep t q = some s') :
    Tickets s' := by
  cases q with
  | deqCount =>
    cases hstep
    exact h.deqCount
  | deqEnter c | loadHead c | spin c first | casTail c first =>
    simp only [EvPQueue.dequeueStep, Option.some.injEq] at hstep
    split at hstep <;> subst hstep
    all_goals first
      | exact h
      | refine h.move (t := t) rfl ⟨rfl, rfl⟩ ⟨rfl, rfl⟩ ?_ ?_ <;> rw [hq] <;> exact fun _ hc => hc
  | storeHead c first second =>
    simp only [EvPQueue.dequeueStep, Option.some.injEq] at hstep
    subst hstep
    refine h.move (t := t) rfl ⟨rfl, rfl⟩ ⟨rfl, rfl⟩ ?_ ?_ <;> rw [hq] <;> split <;> exact fun _ hc => hc
  | ubDec c | loadNext c first | reload c first | restoreHead c first second | deqExit c first
  | readData c first =>
    cases hstep
    refine h.move (t := t) rfl ⟨rfl, rfl⟩ ⟨rfl, rfl⟩ ?_ ?_ <;> rw [hq] <;> exact fun _ hc => hc
  | free c first data =>
    cases hstep
    refine h.move (t := t) rfl ⟨rfl, rfl⟩ ⟨rfl, rfl⟩ ?_ ?_ <;> exact fun _ hc => by cases hc
  | _ => cases hstep

theorem Tickets.step (h : Tickets s) {l : PQueueLabel} (hstep : EvPQueue.step l s = some s') :
    Tickets s' := by
  unfold EvPQueue.step at hstep
  cases l with
  | call t call =>
    simp only at hstep
    split at hstep
    · cases hstep
      refine h.move (t := t) rfl ⟨rfl, rfl⟩ ⟨rfl, rfl⟩ ?_ ?_ <;>
        cases call <;> exact fun _ hc => by cases hc
    · cases hstep
  | malloc t a =>
    simp only [EvPQueue.mallocStep] at hstep
    split at hstep
    · rename_i data c hq
      split at hstep
      · cases hstep
      · cases hstep
        refine h.move (t := t) rfl ⟨rfl, rfl⟩ ⟨rfl, rfl⟩ ?_ ?_ <;> rw [hq] <;> exact fun _ hc => hc
    · cases hstep
  | access t =>
    simp only [EvPQueue.threadStep, Option.or_eq_some_iff] at hstep
    rcases hstep with hstep | ⟨-, hstep | ⟨-, hstep⟩⟩
    · exact h.enqueueStep rfl hstep
    · exact h.emptyStep rfl hstep
    · exact h.dequeueStep rfl hstep

end Steps

theorem tickets_init (N : Int) : Tickets (EvPQueue.init N) where
  enqCounter := ticket_zero.symm
  deqCounter := ticket_zero.symm
  enq := fun _ _ hc => by cases hc
  deq := fun _ _ hc => by cases hc

/-! ### The tickets of an `ev_paqueue` -/

/-- What the count of a thread is: `dequeue_evpaq` has counted on from its
ticket. -/
def Counted (s : PaLanes) : PaLanesPc → Prop
  | .idle => True
  | .enqueue eCount => ∃ k, k < s.enqueues ∧ eCount = ticket k
  | .test dCount _ => ∃ k m : Nat, k < s.dequeues ∧ atomicInt (dCount + 1) = ticket (k + m)
  | .lane dCount _ => ∃ k m : Nat, k < s.dequeues ∧ dCount = ticket (k + m)

/-- The counters are the next tickets, and the threads have counted on
from earlier ones. -/
structure PaTickets (s : PaLanes) : Prop where
  enqCounter : s.enqCounter = ticket s.enqueues
  deqCounter : s.deqCounter = ticket s.dequeues
  counted : ∀ t, Counted s (s.pc t)

section PaSteps

variable {s s' : PaLanes} {t : Nat} {q : PaLanesPc}

theorem Counted.mono (henq : s.enqueues ≤ s'.enqueues) (hdeq : s.dequeues ≤ s'.dequeues)
    (h : Counted s q) : Counted s' q := by
  cases q with
  | idle => trivial
  | enqueue eCount =>
    obtain ⟨k, hk, heq⟩ := h
    exact ⟨k, Nat.lt_of_lt_of_le hk henq, heq⟩
  | test dCount tryCount | lane dCount tryCount =>
    obtain ⟨k, m, hk, heq⟩ := h
    exact ⟨k, m, Nat.lt_of_lt_of_le hk hdeq, heq⟩

theorem PaTickets.move (h : PaTickets s) (henq : s'.enqCounter = ticket s'.enqueues)
    (hdeq : s'.deqCounter = ticket s'.dequeues)
    (hle : s.enqueues ≤ s'.enqueues ∧ s.dequeues ≤ s'.dequeues)
    (hpc : s'.pc = Function.update s.pc t q) (hq : Counted s' q) : PaTickets s' := by
  refine ⟨henq, hdeq, ?_⟩
  intro u
  rw [hpc]
  by_cases hu : u = t
  · rwa [hu, Function.update_self]
  · rw [Function.update_of_ne hu]
    exact (h.counted u).mono hle.1 hle.2

theorem PaTickets.step (h : PaTickets s) {l : PaLanesLabel} (hstep : PaLanes.step l s = some s') :
    PaTickets s' ∧ s'.N = s.N := by
  unfold PaLanes.step at hstep
  cases l with
  | enqueue t =>
    simp only at hstep
    split at hstep <;> cases hstep
    refine ⟨h.move (t := t) ?_ h.deqCounter ⟨Nat.le_succ _, Nat.le_refl _⟩ rfl ?_, rfl⟩
    · show atomicInt (s.enqCounter + 1) = ticket (s.enqueues + 1)
      rw [h.enqCounter, ticket_succ]
    · exact ⟨s.enqueues, Nat.lt_succ_self _, h.enqCounter⟩
  | linked t =>
    simp only at hstep
    split at hstep <;> cases hstep
    exact ⟨h.move (t := t) h.enqCounter h.deqCounter ⟨Nat.le_refl _, Nat.le_refl _⟩ rfl trivial, rfl⟩
  | dequeue t =>
    simp only at hstep
    split at hstep <;> cases hstep
    refine ⟨h.move (t := t) h.enqCounter ?_ ⟨Nat.le_refl _, Nat.le_succ _⟩ rfl ?_, rfl⟩
    · show atomicInt (s.deqCounter + 1) = ticket (s.dequeues + 1)
      rw [h.deqCounter, ticket_succ]
    · -- `d_count--` and `d_count++`
      refine ⟨s.dequeues, 0, Nat.lt_succ_self _, ?_⟩
      rw [atomicInt_add, Int.sub_add_cancel, h.deqCounter, atomicInt_ticket, Nat.add_zero]
  | test t =>
    simp only at hstep
    split at hstep <;> cases hstep
    rename_i dCount tryCount hq
    refine ⟨h.move (t := t) h.enqCounter h.deqCounter ⟨Nat.le_refl _, Nat.le_refl _⟩ rfl ?_, rfl⟩
    have hcounted := h.counted t
    rw [hq] at hcounted
    split
    · exact hcounted
    · trivial
  | found t x =>
    simp only at hstep
    split at hstep <;> cases hstep
    rename_i dCount tryCount hq
    refine ⟨h.move (t := t) h.enqCounter h.deqCounter ⟨Nat.le_refl _, Nat.le_refl _⟩ rfl ?_, rfl⟩
    have hcounted := h.counted t
    rw [hq] at hcounted
    obtain ⟨k, m, hk, heq⟩ := hcounted
    cases x with
    | noTail | busy =>
      refine ⟨k, m + 1, hk, ?_⟩
      rw [heq, ticket_succ]
      rfl
    | claimed => trivial

theorem PaTickets.laneCount (h : PaTickets s) (hc : laneCount (s.pc t) = some c) : ∃ k, c = ticket k := by
  have hcounted := h.counted t
  revert hc hcounted
  cases s.pc t with
  | idle | test _ _ => exact fun hc => by cases hc
  | enqueue eCount =>
    rintro ⟨⟩ ⟨k, -, heq⟩
    exact ⟨k, heq⟩
  | lane dCount tryCount =>
    rintro ⟨⟩ ⟨k, m, -, heq⟩
    exact ⟨k + m, heq⟩

end PaSteps

theorem paTickets_create (n : Int) : PaTickets (PaLanes.create n) where
  enqCounter := ticket_zero.symm
  deqCounter := ticket_zero.symm
  counted := fun _ => trivial

/-! ### All runs -/

theorem tickets_of_reach {n : Int} {s₀ s : EvPQueue} (hcreate : EvPQueue.create n = some s₀)
    (h : Reach EvPQueue.step (fun _ _ => True) s₀ s) : Tickets s ∧ s.N = s₀.N := by
  obtain ⟨hinit, -⟩ := lanes_of_create hcreate
  refine h.invariant (I := fun s => Tickets s ∧ s.N = s₀.N) ⟨hinit ▸ tickets_init _, rfl⟩ ?_
  intro s s' l hs _ hstep
  exact ⟨hs.1.step hstep, (grows_of_step hstep).lanes.trans hs.2⟩

theorem paTickets_of_reach {n : Int} {s : PaLanes}
    (h : Reach PaLanes.step (fun _ _ => True) (PaLanes.create n) s) :
    PaTickets s ∧ s.N = intPowerOf2 n := by
  refine h.invariant (I := fun s => PaTickets s ∧ s.N = intPowerOf2 n) ⟨paTickets_create n, rfl⟩ ?_
  intro s s' l hs _ hstep
  obtain ⟨hnext, hN⟩ := hs.1.step hstep
  exact ⟨hnext, hN.trans hs.2⟩

/-- The number of lanes is a power of two. -/
theorem dvd_of_produced (hN : Produced N) : 0 < N ∧ N ∣ 2 ^ 32 := by
  obtain ⟨hpos, ⟨n, s, hcreate, rfl⟩ | ⟨n, rfl⟩⟩ := hN
  · exact (lanes_of_create hcreate).2
  · obtain ⟨hlanes, -⟩ | ⟨hzero, -⟩ := intPowerOf2_cases n
    · exact hlanes
    · exact absurd hzero (Int.ne_of_gt hpos)

/-- **The lane of a ticket is in the array** if and only if the ticket is
not negative or a multiple of the number of lanes: for all tickets that
the threads have in all states of an `ev_pqueue` and, for a size up to
`2 ^ 30`, of an `ev_paqueue`. Then and only then it is also the lane
behind that of the ticket before. -/
theorem lanes_inRange_iff (n : Int) :
    (∀ s₀ s, EvPQueue.create n = some s₀ → Reach EvPQueue.step (fun _ _ => True) s₀ s →
      ∀ t c, HasTicket s t c →
        ∃ k, c = ticket k ∧ (InRange s.N (EvPQueue.index s.N c) ↔ Fits s.N k)) ∧
    (∀ s, Reach PaLanes.step (fun _ _ => True) (PaLanes.create n) s →
      ∀ t c, laneCount (s.pc t) = some c →
        ∃ k, c = ticket k ∧ (InRange s.N (EvPQueue.index s.N c) ↔ n ≤ 2 ^ 30 ∧ Fits s.N k)) ∧
    ∀ N, Produced N → ∀ k,
      (EvPQueue.index N (ticket (k + 1)) = (EvPQueue.index N (ticket k) + 1) % N ↔ Fits N (k + 1)) := by
  refine ⟨?_, ?_, ?_⟩
  · intro s₀ s hcreate hreach t c hc
    obtain ⟨htickets, hsame⟩ := tickets_of_reach hcreate hreach
    obtain ⟨-, hN, hdvd⟩ := lanes_of_create hcreate
    rw [← hsame] at hN hdvd
    obtain ⟨k, heq⟩ : ∃ k, c = ticket k := by
      obtain ⟨k, -, heq⟩ | ⟨k, -, heq⟩ := hc.imp (htickets.enq t c) (htickets.deq t c)
      · exact ⟨k, heq⟩
      · exact ⟨k, heq⟩
    refine ⟨k, heq, ?_⟩
    rw [heq]
    exact inRange_lane_iff hN hdvd k
  · intro s hreach t c hc
    obtain ⟨htickets, hsame⟩ := paTickets_of_reach hreach
    obtain ⟨k, heq⟩ := htickets.laneCount hc
    refine ⟨k, heq, ?_⟩
    rw [heq]
    obtain ⟨⟨hN, hdvd⟩, hle⟩ | ⟨hzero, hlt⟩ := intPowerOf2_cases n
    · rw [← hsame] at hN hdvd
      rw [inRange_lane_iff hN hdvd, and_iff_right hle]
    · -- There is no lane.
      rw [← hsame] at hzero
      rw [hzero]
      exact iff_of_false (fun h => Int.lt_irrefl 0 h.pos) fun h => absurd h.1 (Int.not_le.mpr hlt)
  · intro N hN k
    obtain ⟨hpos, hdvd⟩ := dvd_of_produced hN
    exact next_lane_iff hpos hdvd k

/-- The first ticket of an `ev_paqueue` with two lanes, and the lane of the
second one. -/
theorem lanes_inRange_iff_sample :
    (∃ k, (0 : Int) = ticket k ∧ (InRange 2 (EvPQueue.index 2 0) ↔ (2 : Int) ≤ 2 ^ 30 ∧ Fits 2 k)) ∧
      (EvPQueue.index 2 (ticket 1) = (EvPQueue.index 2 (ticket 0) + 1) % 2 ↔ Fits 2 1) := by
  have hstart : PaLanes.step (.enqueue 0) (PaLanes.create 2) = some ({ PaLanes.create 2 with
      enqCounter := atomicInt 1
      enqueues := 1 }.goto 0 (.enqueue 0)) := rfl
  exact ⟨(lanes_inRange_iff 2).2.1 _ (.single trivial hstart) 0 0 rfl,
    (lanes_inRange_iff 2).2.2 2 ⟨by decide, .inr ⟨2, by decide⟩⟩ 0⟩

/-! ### An `ev_paqueue` that is asked again and again -/

/-- Where the thread 0 is, and the number of its calls. -/
structure At (s : PaLanes) (q : PaLanesPc) (n : Nat) : Prop where
  reach : Reach PaLanes.step (fun _ _ => True) (PaLanes.create 2) s
  pc : s.pc 0 = q
  dequeues : s.dequeues = n

section Calls

variable {s : PaLanes} {q : PaLanesPc} {d tryCount : Int}

/-- A step that the thread makes with its counters as they are. -/
theorem At.goto (h : At s q n) {l : PaLanesLabel} {q' : PaLanesPc}
    (hstep : PaLanes.step l s = some (s.goto 0 q')) : At (s.goto 0 q') q' n :=
  ⟨h.reach.step trivial hstep, s.goto_pc_self 0 q', h.dequeues⟩

/-- The condition of the loop. -/
theorem At.test (h : At s (.test d tryCount) n) :
    ∃ s', At s' (if tryCount < 2 then .lane (atomicInt (d + 1)) (tryCount + 1) else .idle) n := by
  have hN : s.N = 2 := (paTickets_of_reach h.reach).2.trans (by decide)
  refine ⟨_, h.goto (l := .test 0) ?_⟩
  simp only [PaLanes.step, h.pc, hN]

/-- The lane has no tail. -/
theorem At.noTail (h : At s (.lane d tryCount) n) : ∃ s', At s' (.test d tryCount) n := by
  refine ⟨_, h.goto (l := .found 0 .noTail) ?_⟩
  simp only [PaLanes.step, h.pc]
  rfl

/-- The call fetches its ticket, and goes to the lane of it. -/
theorem At.fetch (h : At s .idle n) : ∃ s', At s' (.lane (ticket n) 1) (n + 1) := by
  have hcall : PaLanes.step (.dequeue 0) s = some ({ s with
      deqCounter := atomicInt (s.deqCounter + 1)
      dequeues := s.dequeues + 1 }.goto 0 (.test (atomicInt (s.deqCounter - 1)) 0)) := by
    simp only [PaLanes.step, h.pc]
  have hafter : At _ (.test (atomicInt (s.deqCounter - 1)) 0) (n + 1) :=
    ⟨h.reach.step trivial hcall, PaLanes.goto_pc_self _ _ _, congrArg (· + 1) h.dequeues⟩
  have hcount : atomicInt (atomicInt (s.deqCounter - 1) + 1) = ticket n := by
    rw [atomicInt_add, Int.sub_add_cancel, (paTickets_of_reach h.reach).1.deqCounter, atomicInt_ticket,
      h.dequeues]
  obtain ⟨s', hs'⟩ := hafter.test
  rw [if_pos (by decide), hcount] at hs'
  exact ⟨s', hs'⟩

/-- A call that finds two lanes without a tail. -/
theorem At.null (h : At s .idle n) : ∃ s', At s' .idle (n + 1) := by
  obtain ⟨s₁, hfetch⟩ := h.fetch
  obtain ⟨s₂, hfirst⟩ := hfetch.noTail
  obtain ⟨s₃, hnext⟩ := hfirst.test
  rw [if_pos (by decide)] at hnext
  obtain ⟨s₄, hsecond⟩ := hnext.noTail
  obtain ⟨s₅, hend⟩ := hsecond.test
  rw [if_neg (by decide)] at hend
  exact ⟨s₅, hend⟩

end Calls

/-- Any number of calls. -/
theorem exists_at (n : Nat) : ∃ s, At s .idle n := by
  induction n with
  | zero => exact ⟨PaLanes.create 2, .init, rfl, rfl⟩
  | succ n ih =>
    obtain ⟨s, hs⟩ := ih
    exact hs.null

/-- Two lanes that are always empty: the call after `2 ^ 31 + 1` others uses
the lane -1. -/
theorem not_lanes_inRange : ¬∀ n s, Reach PaLanes.step (fun _ _ => True) (PaLanes.create n) s →
    ∀ t c, laneCount (s.pc t) = some c → InRange s.N (EvPQueue.index s.N c) := by
  intro hall
  obtain ⟨s, hs⟩ := exists_at (2 ^ 31 + 1)
  obtain ⟨s', hs'⟩ := hs.fetch
  have hN : s'.N = 2 := (paTickets_of_reach hs'.reach).2.trans (by decide)
  have hlane := hall 2 s' hs'.reach 0 (ticket (2 ^ 31 + 1)) (by rw [hs'.pc]; rfl)
  have hfits : ¬Fits 2 (2 ^ 31 + 1) := by
    rw [Fits]
    decide
  rw [hN, inRange_lane_iff (by decide) (by decide)] at hlane
  exact hfits hlane

end Efio.Proofs.Evds
