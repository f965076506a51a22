import Efio.Proofs.Evds.PQueueOrder

/-!
# `Efio.Proofs.Evds.PQueueFifo`: every run of an `ev_pqueue`

Each access keeps `PQueueInv` (`pqueueInv_enqueue`, `pqueueInv_empty`,
`pqueueInv_dequeue`), as long as the tickets have not wrapped around
(`FewOps`). `pqueue_fifo` reads the result off the invariant.
-/

set_option autoImplicit false

namespace Efio.Proofs.Evds

open Efio.Lib
open Efio.Evds
open Efio.Spec

variable {s s' : EvPQueue} {L : Int → List Addr} {out : Int → Nat} {t : Nat}

theorem fewOps_length (hfew : FewOps s') {data : Nat} (heq : s'.enqueued = s.enqueued ++ [data]) :
    s.enqueued.length + 1 < 2 ^ 31 := by
  have h := hfew.1
  rw [heq, List.length_append, List.length_singleton] at h
  exact h

theorem pqueueInv_enqueue (h : PQueueInv s L out) (hN : 0 < s.N)
    (hstep : s.enqueueStep t (s.pc t) = some s') (hfew : FewOps s') :
    ∃ L' out', PQueueInv s' L' out' := by
  cases hpc : s.pc t <;> rw [hpc] at hstep <;> simp only [EvPQueue.enqueueStep, Option.some.injEq,
    reduceCtorEq] at hstep
  case ubInc data =>
    subst hstep
    exact ⟨L, out, h.plain t _ _ _ (by rw [hpc]; rfl) (by rw [hpc]; rfl) (by rw [hpc]; rfl) fun _ => trivial⟩
  case enqCount data =>
    subst hstep
    exact ⟨L, out, h.drawEnq hpc (fewOps_length hfew rfl)⟩
  case lbInc data k =>
    subst hstep
    refine ⟨L, out, h.plain t _ _ _ (by rw [hpc]; rfl) (by rw [hpc]; rfl) (by rw [hpc]; rfl) ?_⟩
    rw [hpc]
    exact id
  case enqEnter p k =>
    split at hstep
    · rename_i hguard
      subst hstep
      exact ⟨L, out, h.enterEnq hpc hguard.symm⟩
    · subst hstep
      exact ⟨L, out, h⟩
  case exchange p k =>
    subst hstep
    exact ⟨_, out, h.exchange hN hpc⟩
  case enqExit p last k =>
    subst hstep
    exact ⟨L, out, h.exitEnq hN hpc⟩
  case link p last k =>
    subst hstep
    exact ⟨L, out, h.link hpc⟩

theorem pqueueInv_empty (h : PQueueInv s L out) (hstep : s.emptyStep t (s.pc t) = some s') :
    PQueueInv s' L out := by
  cases hpc : s.pc t <;> rw [hpc] at hstep <;> simp only [EvPQueue.emptyStep, Option.some.injEq,
    reduceCtorEq] at hstep
  case testLb =>
    subst hstep
    refine h.plain t _ _ _ ?_ ?_ ?_ ?_ <;> rw [hpc] <;> split <;> first | rfl | exact fun _ => trivial
  case decLb =>
    subst hstep
    refine h.plain t _ _ _ ?_ ?_ ?_ ?_ <;> rw [hpc] <;> split <;> first | rfl | exact fun _ => trivial
  case incLb =>
    subst hstep
    exact h.plain t _ _ _ (by rw [hpc]; rfl) (by rw [hpc]; rfl) (by rw [hpc]; rfl) fun _ => trivial
  case testUb =>
    subst hstep
    refine h.plain t _ _ _ ?_ ?_ ?_ ?_ <;> rw [hpc] <;> split <;> first | rfl | exact fun _ => trivial

/-- The head moves to the second element that was read. -/
theorem PQueueInv.advance (h : PQueueInv s L out) (hN : 0 < s.N) {k : Int} {a second : Addr}
    (hturn : deqTurn (s.pc t) = .entered k) (henqTurn : enqTurn (s.pc t) = .outside)
    (hfirst : (L (EvPQueue.index s.N k)).head? = some a)
    (hmine : (prole s.N (s.pc t)).token = some a) (hsecond : second ≠ 0)
    (hnext : (s.mem a).next = second) :
    ∃ L' out', PQueueInv ({ s with
      head := Function.update s.head (EvPQueue.index s.N k) second }.goto t (.deqExit k a)) L' out' := by
  obtain ⟨l, hl, hlists⟩ := h.lists.advance (q := .deqExit k a) hfirst hmine hsecond hnext rfl
    (h.first_data hturn hfirst)
  exact ⟨_, _, h.remove hN hturn henqTurn hl hlists rfl rfl rfl rfl rfl rfl rfl rfl rfl rfl⟩

theorem pqueueInv_dequeue (h : PQueueInv s L out) (hN : 0 < s.N)
    (hstep : s.dequeueStep t (s.pc t) = some s') (hfew : FewOps s') :
    ∃ L' out', PQueueInv s' L' out' := by
  have hreads := h.lists.reads t
  have hstanding := h.lists.standing t
  cases hpc : s.pc t <;> rw [hpc] at hstep hreads hstanding <;> simp only [EvPQueue.dequeueStep,
    Option.some.injEq, reduceCtorEq] at hstep
  case deqCount =>
    subst hstep
    exact ⟨L, out, h.drawDeq hpc hfew.2⟩
  case ubDec k =>
    subst hstep
    exact ⟨L, out, h.plain t _ _ _ (by rw [hpc]; rfl) (by rw [hpc]; rfl) (by rw [hpc]; rfl) fun _ => trivial⟩
  case deqEnter k =>
    split at hstep
    · rename_i hguard
      subst hstep
      exact ⟨L, out, h.enterDeq hpc hguard.symm⟩
    · subst hstep
      exact ⟨L, out, h⟩
  case loadHead k =>
    split at hstep
    · subst hstep
      exact ⟨L, out, h⟩
    · rename_i hhead
      subst hstep
      exact ⟨L, out, h.claim hpc hhead⟩
  case loadNext k a =>
    subst hstep
    exact ⟨L, out, h.plain t _ s.ubCount s.lbCount (by rw [hpc]; rfl) (by rw [hpc]; rfl)
      (by rw [hpc]; rfl) fun _ => Or.inr rfl⟩
  case storeHead k a second =>
    subst hstep
    split
    · rename_i hnull
      subst hnull
      exact ⟨L, out, h.blank hpc⟩
    · rename_i hsecond
      exact h.advance hN (by rw [hpc]; rfl) (by rw [hpc]; rfl) hstanding.1 (by rw [hpc]; rfl) hsecond
        (hreads.resolve_left hsecond)
  case casTail k a =>
    split at hstep
    · rename_i htail
      subst hstep
      obtain ⟨hl, hlists⟩ := h.lists.empty hpc htail
        (h.first_data (t := t) (by rw [hpc]; rfl) hstanding.1)
      exact ⟨_, _, h.remove hN (t := t) (by rw [hpc]; rfl) (by rw [hpc]; rfl) hl hlists
        rfl rfl rfl rfl rfl rfl rfl rfl rfl rfl⟩
    · subst hstep
      exact ⟨L, out, h.plain t _ s.ubCount s.lbCount (by rw [hpc]; rfl) (by rw [hpc]; rfl)
        (by rw [hpc]; rfl) fun _ => trivial⟩
  case spin k a =>
    split at hstep
    · subst hstep
      exact ⟨L, out, h⟩
    · rename_i hnext
      subst hstep
      exact ⟨L, out, h.plain t _ s.ubCount s.lbCount (by rw [hpc]; rfl) (by rw [hpc]; rfl)
        (by rw [hpc]; rfl) fun _ => hnext⟩
  case reload k a =>
    subst hstep
    exact ⟨L, out, h.plain t _ s.ubCount s.lbCount (by rw [hpc]; rfl) (by rw [hpc]; rfl)
      (by rw [hpc]; rfl) fun _ => ⟨hreads, rfl⟩⟩
  case restoreHead k a second =>
    subst hstep
    exact h.advance hN (by rw [hpc]; rfl) (by rw [hpc]; rfl) hstanding.1 (by rw [hpc]; rfl) hreads.1
      hreads.2
  case deqExit k a =>
    subst hstep
    exact ⟨L, out, h.exitDeq hN hpc⟩
  case readData k a =>
    subst hstep
    exact ⟨L, out, h.plain t _ s.ubCount s.lbCount (by rw [hpc]; rfl) (by rw [hpc]; rfl)
      (by rw [hpc]; rfl) fun _ => ⟨hreads, rfl⟩⟩
  case free k a data =>
    subst hstep
    exact ⟨L, out, h.free hpc⟩

theorem pqueueInv_step (h : PQueueInv s L out) (hN : 0 < s.N) {l : PQueueLabel}
    (hstep : EvPQueue.step l s = some s') (hfew : FewOps s') : ∃ L' out', PQueueInv s' L' out' := by
  unfold EvPQueue.step at hstep
  cases l with
  | call t c =>
    simp only at hstep
    split at hstep
    · rename_i last hpc
      obtain rfl := Option.some.inj hstep
      refine ⟨L, out, h.plain t _ s.ubCount s.lbCount ?_ ?_ ?_ ?_⟩ <;> rw [hpc] <;> cases c <;>
        first | rfl | exact fun _ => trivial
    · cases hstep
  | malloc t a =>
    simp only [EvPQueue.mallocStep] at hstep
    split at hstep
    · rename_i data k hpc
      split at hstep
      · cases hstep
      · rename_i hok
        obtain rfl := Option.some.inj hstep
        rw [not_or, Bool.not_eq_true] at hok
        exact ⟨L, out, h.malloc hpc hok.1 hok.2⟩
    · cases hstep
  | access t =>
    simp only [EvPQueue.threadStep, Option.or_eq_some_iff] at hstep
    rcases hstep with hstep | ⟨-, hstep | ⟨-, hstep⟩⟩
    · exact pqueueInv_enqueue h hN hstep hfew
    · exact ⟨L, out, pqueueInv_empty h hstep⟩
    · exact pqueueInv_dequeue h hN hstep hfew

/-! ### Runs -/

/-- The number of lanes stays, and the records only grow. -/
structure Grows (s s' : EvPQueue) : Prop where
  lanes : s'.N = s.N
  enqueued : s.enqueued.length ≤ s'.enqueued.length
  dequeues : s.dequeues ≤ s'.dequeues

theorem grows_of_same (hN : s'.N = s.N) (henq : s'.enqueued = s.enqueued)
    (hdeq : s'.dequeues = s.dequeues) : Grows s s' :=
  ⟨hN, Nat.le_of_eq (congrArg List.length henq.symm), Nat.le_of_eq hdeq.symm⟩

theorem grows_of_enqueue {q : PQueuePc} (h : s.enqueueStep t q = some s') : Grows s s' := by
  cases q <;> simp only [EvPQueue.enqueueStep, Option.some.injEq, reduceCtorEq] at h
  case enqCount data =>
    subst h
    refine ⟨rfl, ?_, Nat.le_refl _⟩
    show s.enqueued.length ≤ (s.enqueued ++ [data]).length
    rw [List.length_append]
    exact Nat.le_add_right _ _
  case enqEnter p k =>
    subst h
    split <;> exact grows_of_same rfl rfl rfl
  case link p last k =>
    subst h
    split <;> exact grows_of_same rfl rfl rfl
  all_goals
    subst h
    exact grows_of_same rfl rfl rfl

theorem grows_of_empty {q : PQueuePc} (h : s.emptyStep t q = some s') : Grows s s' := by
  cases q <;> simp only [EvPQueue.emptyStep, Option.some.injEq, reduceCtorEq] at h
  all_goals
    subst h
    exact grows_of_same rfl rfl rfl

theorem grows_of_dequeue {q : PQueuePc} (h : s.dequeueStep t q = some s') : Grows s s' := by
  cases q <;> simp only [EvPQueue.dequeueStep, Option.some.injEq, reduceCtorEq] at h
  case deqCount =>
    subst h
    exact ⟨rfl, Nat.le_refl _, Nat.le_succ _⟩
  case deqEnter k =>
    subst h
    split <;> exact grows_of_same rfl rfl rfl
  case loadHead k =>
    subst h
    split <;> exact grows_of_same rfl rfl rfl
  case casTail k a =>
    subst h
    split <;> exact grows_of_same rfl rfl rfl
  case spin k a =>
    subst h
    split <;> exact grows_of_same rfl rfl rfl
  all_goals
    subst h
    exact grows_of_same rfl rfl rfl

theorem grows_of_step {l : PQueueLabel} (h : EvPQueue.step l s = some s') : Grows s s' := by
  unfold EvPQueue.step at h
  cases l with
  | call t c =>
    simp only at h
    split at h
    · exact Option.some.inj h ▸ grows_of_same rfl rfl rfl
    · cases h
  | malloc t a =>
    simp only [EvPQueue.mallocStep] at h
    split at h
    · split at h
      · cases h
      · exact Option.some.inj h ▸ grows_of_same rfl rfl rfl
    · cases h
  | access t =>
    simp only [EvPQueue.threadStep, Option.or_eq_some_iff] at h
    rcases h with h | ⟨-, h | ⟨-, h⟩⟩
    · exact grows_of_enqueue h
    · exact grows_of_empty h
    · exact grows_of_dequeue h

theorem pqueueInv_init (N : Int) : PQueueInv (EvPQueue.init N) (fun _ => []) fun _ => 0 := by
  have hguard : ∀ i : Int, i - N = nextDeq N (fun _ => 0) i - N := by
    intro i
    rw [nextDeq, Nat.cast_zero, mul_zero, add_zero]
  have hguard' : ∀ i : Int, i - N = nextEnq N (fun _ => []) (fun _ => 0) i - N := by
    intro i
    rw [nextEnq, List.length_nil, Nat.cast_zero, add_zero, mul_zero, add_zero]
  refine ⟨pInv_init N, ⟨Serving.start hguard', Serving.start hguard, rfl, rfl⟩, ?_, ⟨?_, List.nodup_nil,
    ?_, ?_, ?_⟩⟩
  · intro i j a ha
    cases ha
  · intro k data hk
    cases hk
  · intro k data hk
    cases hk
  · intro k h₀ hk
    exact absurd hk (Int.not_lt.mpr h₀)
  · intro u k hu
    cases hu

theorem pqueueInv_of_reach {N : Int} (hN : 0 < N) {ok : EvPQueue → PQueueLabel → Prop}
    (h : Reach EvPQueue.step ok (EvPQueue.init N) s) (hfew : FewOps s) :
    ∃ L out, PQueueInv s L out := by
  have hinv : s.N = N ∧ (FewOps s → ∃ L out, PQueueInv s L out) := by
    refine h.invariant (I := fun s => s.N = N ∧ (FewOps s → ∃ L out, PQueueInv s L out))
      ⟨rfl, fun _ => ⟨_, _, pqueueInv_init N⟩⟩ ?_
    intro s s' l hs _ hstep
    obtain ⟨hlanes, hold⟩ := hs
    have hgrows := grows_of_step hstep
    refine ⟨hgrows.lanes.trans hlanes, ?_⟩
    -- The bound on the tickets holds of every state before.
    intro hfew
    obtain ⟨L, out, hinv⟩ :=
      hold ⟨hgrows.enqueued.trans_lt hfew.1, hgrows.dequeues.trans_lt hfew.2⟩
    exact pqueueInv_step hinv (hlanes.symm ▸ hN) hstep hfew
  exact hinv.2 hfew

/-! ### The result -/

theorem prole_of_writesNext {N : Int} {q : PQueuePc} {a : Addr} (h : writesNext q = some a) :
    ∃ i p, prole N q = .linking i p a := by
  cases q with
  | enqExit p last k =>
    rw [writesNext] at h
    split at h
    · cases h
    · rename_i hlast
      cases h
      exact ⟨_, p, if_neg hlast⟩
  | link p last k =>
    rw [writesNext] at h
    split at h
    · cases h
    · rename_i hlast
      cases h
      exact ⟨_, p, if_neg hlast⟩
  | _ => cases h

/-- A thread touches its own node, or the one behind which it links. -/
theorem prole_of_touches {N : Int} {q : PQueuePc} {a : Addr} (h : touches q = some a) :
    (∃ i p, prole N q = .linking i p a) ∨ (prole N q).token = some a := by
  cases q with
  | link p last k => exact Or.inl (prole_of_writesNext h)
  | loadNext => exact Or.inr h
  | spin => exact Or.inr h
  | reload => exact Or.inr h
  | readData => exact Or.inr h
  | free => exact Or.inr h
  | _ => cases h

/-- A node whose link is outstanding is on its lane. -/
theorem PInv.mem_of_linking (h : PInv s L) {i : Int} {p a : Addr}
    (hrole : prole s.N (s.pc t) = .linking i p a) : a ∈ L i := by
  have hstanding := h.standing t
  rw [hrole] at hstanding
  exact (behind_mem hstanding.1).1

theorem PQueueInv.ticketFifo (h : PQueueInv s L out) (hN : 0 < s.N) : TicketFifo s := by
  refine ⟨h.returned.fifo, h.returned.once, h.returned.drawn, h.returned.kept, ?_, h.served.deq.alone,
    ?_, ?_, ?_⟩
  · intro u k hu
    obtain ⟨h₀, hk⟩ := h.served.deq.range u k hu
    exact ⟨h₀, hk, h.returned.held u k hu⟩
  · intro u a ha
    rcases prole_of_touches (N := s.N) ha with ⟨i, p, hrole⟩ | htoken
    · exact ((h.lists.shape.lane i).alive a (h.lists.mem_of_linking hrole)).1
    · exact (standing_token_live (h.lists.standing u) h.lists.shape htoken).1
  · intro u v a ha
    obtain ⟨i, p, hrole⟩ := prole_of_writesNext (N := s.N) ha
    have hmem := h.lists.mem_of_linking hrole
    refine ⟨((h.lists.shape.lane i).alive a hmem).1, ?_⟩
    -- A retiring node is on no lane.
    intro hretiring
    have hstanding := h.lists.standing v
    rw [hretiring] at hstanding
    exact hstanding.2.2 i hmem
  · intro u k hk
    have h₀ : 0 ≤ k := by
      rcases hk with hk | hk
      · exact (h.served.enq.range u k hk).1
      · exact (h.served.deq.range u k hk).1
    exact ⟨Int.tmod_nonneg _ h₀, Int.tmod_lt_of_pos k hN⟩

/-- The queue that `create_ev_pqueue` makes has lanes. -/
theorem nearestPowerOf2From_pos (n : Int) (i : Nat) {m : Int} (hm : 0 < m) :
    0 < nearestPowerOf2From n i m := by
  induction i generalizing m with
  | zero => exact hm
  | succ i ih =>
    rw [nearestPowerOf2From]
    split
    · exact hm
    · exact ih (by omega)

/-- A queue that has been created starts with some lanes and no element. -/
theorem init_of_create {n : Int} (h : EvPQueue.create n = some s) : ∃ N, 0 < N ∧ s = EvPQueue.init N := by
  unfold EvPQueue.create at h
  split at h
  · cases h
  · exact ⟨_, nearestPowerOf2From_pos n 32 (by omega), (Option.some.inj h).symm⟩

/-- In every run of any number of threads on a queue with `N` lanes, while
fewer than `2 ^ 31` tickets of each kind have been drawn: the queue is first
in, first out by ticket. -/
theorem pqueue_fifo {N : Int} (hN : 0 < N)
    (h : Reach EvPQueue.step (fun _ _ => True) (EvPQueue.init N) s) (hfew : FewOps s) : TicketFifo s := by
  obtain ⟨L, out, hinv⟩ := pqueueInv_of_reach hN h hfew
  refine hinv.ticketFifo ?_
  have hlanes : s.N = N :=
    h.invariant (I := fun s => s.N = N) rfl fun _ _ _ hs _ hstep => (grows_of_step hstep).lanes.trans hs
  rw [hlanes]
  exact hN

/-- The thread `t` enqueues `data` in a node at `a`, with `n` accesses after
`malloc`. -/
def pEnqueueAt (t a data n : Nat) : List PQueueLabel :=
  [.call t (.enqueue data)] ++ List.replicate 3 (.access t) ++ [.malloc t a] ++
    List.replicate n (.access t)

/-- The thread `t` starts to take out an element, with `n` accesses. -/
def pDequeueBy (t n : Nat) : List PQueueLabel :=
  .call t .dequeue :: List.replicate n (.access t)

/-- Two lanes. The thread 1 has exchanged the third element behind the
first one and not yet linked it when the thread 2 takes the first one out;
the second one is returned first. -/
def lateLink : List PQueueLabel :=
  pEnqueueAt 0 8 70 4 ++ pEnqueueAt 0 16 71 4 ++ pDequeueBy 2 8 ++ pEnqueueAt 1 24 72 2 ++
    List.replicate 3 (.access 2) ++ pDequeueBy 3 12 ++ List.replicate 2 (.access 1) ++
    List.replicate 6 (.access 2)

theorem pqueue_fifo_sample :
    ∃ s : EvPQueue, s.delivered = [(1, 71), (0, 70)] ∧ s.enqueued = [70, 71, 72] ∧ TicketFifo s := by
  have hrun : (run EvPQueue.step (fun _ _ => True) lateLink (EvPQueue.init 2)).map
      (fun s => (s.delivered, s.enqueued, s.dequeues)) =
      some ([(1, 71), (0, 70)], [70, 71, 72], 2) := by decide +kernel
  obtain ⟨s, hs, heq⟩ := Option.map_eq_some_iff.mp hrun
  obtain ⟨hdel, henq, hdeq⟩ : s.delivered = [(1, 71), (0, 70)] ∧ s.enqueued = [70, 71, 72] ∧
      s.dequeues = 2 := by simpa using heq
  refine ⟨s, hdel, henq, pqueue_fifo (N := 2) (by decide) (Reach.of_run .init lateLink hs) ⟨?_, ?_⟩⟩
  · rw [henq]
    decide
  · rw [hdeq]
    decide

end Efio.Proofs.Evds
