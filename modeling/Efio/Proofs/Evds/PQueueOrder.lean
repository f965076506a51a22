import Efio.Proofs.Evds.PQueueList
import Mathlib.Tactic.Ring

/-!
# `Efio.Proofs.Evds.PQueueOrder`: `ev_pqueue` is first in, first out by ticket

`PQueueInv s L out` joins the lists of the lanes with the tickets. `out i`
counts the nodes taken off the lane `i`, so that the node at the place `j`
of `L i` is the one of the ticket `i + N * (out i + j)` (`Stored`), the
next enqueue of the lane has the ticket `i + N * (out i + (L i).length)`,
and the next dequeue has the ticket `i + N * out i` (`Served`).

`pqueue_fifo` holds while the tickets do not wrap around (`FewOps`).
-/

set_option autoImplicit false

namespace Efio.Proofs.Evds

open Efio.Lib
open Efio.Evds
open Efio.Spec

variable {s s' : EvPQueue} {L : Int → List Addr} {out : Int → Nat} {t : Nat} {q : PQueuePc}

/-- The ticket of the next enqueue on the lane `i`. -/
def nextEnq (N : Int) (L : Int → List Addr) (out : Int → Nat) (i : Int) : Int :=
  i + N * (out i + (L i).length)

/-- The ticket of the next dequeue on the lane `i`. -/
def nextDeq (N : Int) (out : Int → Nat) (i : Int) : Int := i + N * out i

theorem nextEnq_snoc (N : Int) (L : Int → List Addr) (out : Int → Nat) (i : Int) (p : Addr) :
    nextEnq N (Function.update L i (L i ++ [p])) out i = nextEnq N L out i + N := by
  rw [nextEnq, nextEnq, Function.update_self, List.length_append, List.length_singleton, Nat.cast_add,
    Nat.cast_one]
  ring

/-- Taking a node off makes no difference to the next enqueue. -/
theorem nextEnq_remove (N : Int) {L : Int → List Addr} (out : Int → Nat) {i : Int} {a : Addr}
    {l : List Addr} (hl : L i = a :: l) (j : Int) :
    nextEnq N (Function.update L i l) (Function.update out i (out i + 1)) j = nextEnq N L out j := by
  by_cases hj : j = i
  · rw [hj, nextEnq, nextEnq, Function.update_self, Function.update_self, hl, List.length_cons]
    push_cast
    ring
  · rw [nextEnq, nextEnq, Function.update_of_ne hj, Function.update_of_ne hj]

theorem nextDeq_remove (N : Int) (out : Int → Nat) (i : Int) :
    nextDeq N (Function.update out i (out i + 1)) i = nextDeq N out i + N := by
  rw [nextDeq, nextDeq, Function.update_self]
  push_cast
  ring

/-- The guards serve the tickets of both kinds in turn. -/
structure Served (s : EvPQueue) (L : Int → List Addr) (out : Int → Nat) : Prop where
  enq : Serving s.N (EvPQueue.index s.N) s.enqueued.length s.eGuard (nextEnq s.N L out)
    fun t => enqTurn (s.pc t)
  deq : Serving s.N (EvPQueue.index s.N) s.dequeues s.dGuard (nextDeq s.N out)
    fun t => deqTurn (s.pc t)
  enqCount : s.enqCounter = s.enqueued.length
  deqCount : s.deqCounter = s.dequeues

/-- The nodes of a lane hold the data of consecutive tickets. -/
def Stored (s : EvPQueue) (L : Int → List Addr) (out : Int → Nat) : Prop :=
  ∀ (i : Int) (j : Nat) (a : Addr), (L i)[j]? = some a → Enqueued s (i + s.N * (out i + j)) (s.mem a).data

/-- What was delivered, and what is still to be. -/
structure Returned (s : EvPQueue) : Prop where
  fifo : ∀ k data, (k, data) ∈ s.delivered → Enqueued s k data
  once : (s.delivered.map Prod.fst).Nodup
  drawn : ∀ k data, (k, data) ∈ s.delivered → 0 ≤ k ∧ k < s.dequeues
  kept : ∀ k : Int, 0 ≤ k → k < s.dequeues →
    (∃ data, (k, data) ∈ s.delivered) ∨ ∃ t, (deqTurn (s.pc t)).ticket = some k
  held : ∀ t k, (deqTurn (s.pc t)).ticket = some k → ∀ data, (k, data) ∉ s.delivered

/-- The invariant of an `ev_pqueue`. -/
structure PQueueInv (s : EvPQueue) (L : Int → List Addr) (out : Int → Nat) : Prop where
  lists : PInv s L
  served : Served s L out
  stored : Stored s L out
  returned : Returned s

/-! ### Tickets -/

theorem atomicInt_of_lt {n : Int} (h₀ : 0 ≤ n) (h : n < 2 ^ 31) : atomicInt n = n := by
  refine Int.bmod_eq_of_le ?_ ?_ <;> omega

theorem enqueued_snoc {data d : Nat} {k : Int} (heq : s'.enqueued = s.enqueued ++ [data])
    (h : Enqueued s k d) : Enqueued s' k d := by
  refine ⟨h.1, ?_⟩
  obtain ⟨hlt, -⟩ := List.getElem?_eq_some_iff.mp h.2
  rw [heq, List.getElem?_append_left hlt]
  exact h.2

theorem goto_turn (f : PQueuePc → Turn) (hf : f q = f (s.pc t)) (hpc : s'.pc = Function.update s.pc t q) :
    ∀ u, f (s'.pc u) = f (s.pc u) := by
  intro u
  rw [hpc]
  by_cases hu : u = t
  · rw [hu, Function.update_self, hf]
  · rw [Function.update_of_ne hu]

theorem goto_self (f : PQueuePc → Turn) : f ((s.goto t q).pc t) = f q :=
  congrArg f (Function.update_self _ _ _)

theorem goto_other (f : PQueuePc → Turn) : ∀ u, u ≠ t → f ((s.goto t q).pc u) = f (s.pc u) :=
  fun _ hu => congrArg f (Function.update_of_ne hu _ _)

/-! ### Frames -/

/-- The counters of the guards and the lists stay, and the thread keeps its
place with its tickets. -/
theorem Served.same (h : Served s L out) (hN : s'.N = s.N) (hpc : s'.pc = Function.update s.pc t q)
    (heG : s'.eGuard = s.eGuard) (hdG : s'.dGuard = s.dGuard) (heC : s'.enqCounter = s.enqCounter)
    (hdC : s'.deqCounter = s.deqCounter) (henq : s'.enqueued = s.enqueued)
    (hdeq : s'.dequeues = s.dequeues) (he : enqTurn q = enqTurn (s.pc t))
    (hd : deqTurn q = deqTurn (s.pc t)) : Served s' L out := by
  refine ⟨?_, ?_, ?_, ?_⟩
  · rw [hN, heG, henq]
    exact h.enq.congr (goto_turn enqTurn he hpc) fun _ => rfl
  · rw [hN, hdG, hdeq]
    exact h.deq.congr (goto_turn deqTurn hd hpc) fun _ => rfl
  · rw [heC, henq]
    exact h.enqCount
  · rw [hdC, hdeq]
    exact h.deqCount

theorem Stored.same (h : Stored s L out) (hN : s'.N = s.N)
    (hdata : ∀ i, ∀ a ∈ L i, (s'.mem a).data = (s.mem a).data)
    (henq : ∀ k d, Enqueued s k d → Enqueued s' k d) : Stored s' L out := by
  intro i j a ha
  rw [hN, hdata i a (List.mem_of_getElem? ha)]
  exact henq _ _ (h i j a ha)

theorem Returned.same (h : Returned s) (hpc : s'.pc = Function.update s.pc t q)
    (hdel : s'.delivered = s.delivered) (hdeq : s'.dequeues = s.dequeues)
    (henq : ∀ k d, Enqueued s k d → Enqueued s' k d)
    (hd : (deqTurn q).ticket = (deqTurn (s.pc t)).ticket) : Returned s' := by
  have hticket : ∀ u, (deqTurn (s'.pc u)).ticket = (deqTurn (s.pc u)).ticket := by
    intro u
    rw [hpc]
    by_cases hu : u = t
    · rw [hu, Function.update_self, hd]
    · rw [Function.update_of_ne hu]
  refine ⟨?_, ?_, ?_, ?_, ?_⟩ <;> rw [hdel]
  · intro k data hk
    exact henq _ _ (h.fifo k data hk)
  · exact h.once
  · rw [hdeq]
    exact h.drawn
  · rw [hdeq]
    intro k h₀ hk
    exact (h.kept k h₀ hk).imp_right fun ⟨u, hu⟩ => ⟨u, (hticket u).trans hu⟩
  · intro u k hu
    rw [hticket] at hu
    exact h.held u k hu

/-- A step that moves its thread and changes at most the counters of
admission. -/
theorem PQueueInv.plain (h : PQueueInv s L out) (t : Nat) (q : PQueuePc) (ub lb : Int)
    (hrole : prole s.N q = prole s.N (s.pc t)) (he : enqTurn q = enqTurn (s.pc t))
    (hd : deqTurn q = deqTurn (s.pc t)) (hreads : PReads s (s.pc t) → PReads s q) :
    PQueueInv ({ s with ubCount := ub, lbCount := lb }.goto t q) L out := by
  refine ⟨?_, h.served.same rfl rfl rfl rfl rfl rfl rfl rfl he hd,
    h.stored.same rfl (fun _ _ _ => rfl) fun _ _ hk => hk,
    h.returned.same rfl rfl rfl (fun _ _ hk => hk) (congrArg Turn.ticket hd)⟩
  refine h.lists.plain rfl rfl rfl rfl rfl rfl hrole (fun _ _ hk => hk) ?_
  exact preads_of_mem (N := s.N) (hreads (h.lists.reads t)) (fun _ _ => rfl) fun _ _ hk => hk

/-! ### `enqueue_ev_pqueue` -/

/-- An enqueue draws its ticket. -/
theorem PQueueInv.drawEnq (h : PQueueInv s L out) {data : Nat} (hpc : s.pc t = .enqCount data)
    (hfew : s.enqueued.length + 1 < 2 ^ 31) :
    PQueueInv ({ s with
      enqCounter := atomicInt (s.enqCounter + 1)
      enqueued := s.enqueued ++ [data] }.goto t (.lbInc data s.enqCounter)) L out := by
  have hcount := h.served.enqCount
  have hmono : ∀ k d, Enqueued s k d → Enqueued ({ s with
      enqCounter := atomicInt (s.enqCounter + 1)
      enqueued := s.enqueued ++ [data] }.goto t (.lbInc data s.enqCounter)) k d :=
    fun _ _ hk => enqueued_snoc rfl hk
  refine ⟨h.lists.plain rfl rfl rfl rfl rfl rfl (by rw [hpc]; rfl) hmono ?_, ⟨?_, ?_, ?_, ?_⟩,
    h.stored.same rfl (fun _ _ _ => rfl) hmono, h.returned.same rfl rfl rfl hmono (by rw [hpc]; rfl)⟩
  · refine ⟨by omega, ?_⟩
    rw [hcount]
    exact List.getElem?_concat_length
  · have hself : enqTurn ((s.goto t (.lbInc data s.enqCounter)).pc t) =
        .waiting (s.enqueued.length : Int) := (goto_self enqTurn).trans (by rw [← hcount]; rfl)
    have hdraw := h.served.enq.draw (by omega) (by rw [hpc]; rfl) hself (goto_other enqTurn)
    show Serving s.N (EvPQueue.index s.N) ((s.enqueued ++ [data]).length : Nat) s.eGuard
      (nextEnq s.N L out) _
    rw [List.length_append, List.length_singleton, Nat.cast_add, Nat.cast_one]
    exact hdraw
  · exact h.served.deq.congr (goto_turn deqTurn (by rw [hpc]; rfl) rfl) fun _ => rfl
  · show atomicInt (s.enqCounter + 1) = ((s.enqueued ++ [data]).length : Nat)
    rw [hcount, atomicInt_of_lt (by omega) (by omega), List.length_append, List.length_singleton,
      Nat.cast_add, Nat.cast_one]
  · exact h.served.deqCount

theorem PQueueInv.malloc (h : PQueueInv s L out) {a : Addr} {k : Int} {data : Nat}
    (hpc : s.pc t = .alloc data k) (hnull : a ≠ 0) (hfree : s.live a = false) :
    PQueueInv ({ s.store a { data := data, next := 0 } with
      live := Function.update s.live a true }.goto t (.enqEnter a k)) L out := by
  refine ⟨h.lists.malloc hpc hnull hfree, h.served.same rfl rfl rfl rfl rfl rfl rfl rfl
    (by rw [hpc]; rfl) (by rw [hpc]; rfl), h.stored.same rfl ?_ fun _ _ hk => hk,
    h.returned.same rfl rfl rfl (fun _ _ hk => hk) (by rw [hpc]; rfl)⟩
  intro i b hb
  have hne : b ≠ a := by
    rintro rfl
    exact Bool.false_ne_true (hfree.symm.trans ((h.lists.shape.lane i).alive b hb).1)
  exact congrArg PNode.data (Function.update_of_ne hne _ _)

/-- The guard lets the enqueue in. -/
theorem PQueueInv.enterEnq (h : PQueueInv s L out) {p : Addr} {k : Int}
    (hpc : s.pc t = .enqEnter p k) (hguard : s.eGuard (EvPQueue.index s.N k) = k - s.N) :
    PQueueInv (s.goto t (.exchange p k)) L out := by
  have hreads := h.lists.reads t
  rw [hpc] at hreads
  refine ⟨h.lists.plain rfl rfl rfl rfl rfl rfl (by rw [hpc]; rfl) (fun _ _ hk => hk) hreads,
    ⟨?_, ?_, h.served.enqCount, h.served.deqCount⟩,
    h.stored.same rfl (fun _ _ _ => rfl) fun _ _ hk => hk,
    h.returned.same rfl rfl rfl (fun _ _ hk => hk) (by rw [hpc]; rfl)⟩
  · exact h.served.enq.enter hguard (by rw [hpc]; rfl) (goto_self enqTurn) (goto_other enqTurn)
  · exact h.served.deq.congr (goto_turn deqTurn (by rw [hpc]; rfl) rfl) fun _ => rfl

/-- The node of the ticket whose turn it is goes to the end of its lane. -/
theorem PQueueInv.exchange (h : PQueueInv s L out) (hN : 0 < s.N) {p : Addr} {k : Int}
    (hpc : s.pc t = .exchange p k) :
    PQueueInv ({ s with tail := Function.update s.tail (EvPQueue.index s.N k) p }.goto t
        (.enqExit p (s.tail (EvPQueue.index s.N k)) k))
      (Function.update L (EvPQueue.index s.N k) (L (EvPQueue.index s.N k) ++ [p])) out := by
  have hreads := h.lists.reads t
  rw [hpc] at hreads
  have hturn : enqTurn (s.pc t) = .entered k := by rw [hpc]; rfl
  obtain ⟨hk, -⟩ := h.served.enq.entered t k hturn
  refine ⟨h.lists.exchange hpc, ⟨?_, ?_, h.served.enqCount, h.served.deqCount⟩, ?_,
    h.returned.same rfl rfl rfl (fun _ _ hk => hk) (by rw [hpc]; rfl)⟩
  · refine h.served.enq.move hN hturn (goto_self enqTurn) (goto_other enqTurn) ?_ ?_
    · exact nextEnq_snoc _ _ _ _ _
    · intro i hi
      simp only [nextEnq, Function.update_of_ne hi]
      rfl
  · exact h.served.deq.congr (goto_turn deqTurn (by rw [hpc]; rfl) rfl) fun _ => rfl
  · intro i j a ha
    by_cases hi : i = EvPQueue.index s.N k
    · rw [hi, Function.update_self] at ha
      rcases Nat.lt_or_ge j (L (EvPQueue.index s.N k)).length with hj | hj
      · rw [List.getElem?_append_left hj] at ha
        rw [hi]
        exact h.stored _ j a ha
      · -- The new node: its place is the one of the ticket `k`.
        obtain ⟨hlt, -⟩ := List.getElem?_eq_some_iff.mp ha
        rw [List.length_append, List.length_singleton] at hlt
        obtain rfl : j = (L (EvPQueue.index s.N k)).length := by omega
        rw [List.getElem?_concat_length] at ha
        obtain rfl := Option.some.inj ha
        rw [hi]
        have heq : EvPQueue.index s.N k +
            s.N * (out (EvPQueue.index s.N k) + ((L (EvPQueue.index s.N k)).length : Nat)) = k := hk.symm
        show Enqueued s (EvPQueue.index s.N k +
          s.N * (out (EvPQueue.index s.N k) + ((L (EvPQueue.index s.N k)).length : Nat))) _
        rw [heq]
        exact hreads.2
    · rw [Function.update_of_ne hi] at ha
      exact h.stored i j a ha

/-- The enqueue lets the next one in. -/
theorem PQueueInv.exitEnq (h : PQueueInv s L out) (hN : 0 < s.N) {p last : Addr} {k : Int}
    (hpc : s.pc t = .enqExit p last k) :
    PQueueInv ({ s with eGuard := Function.update s.eGuard (EvPQueue.index s.N k) k }.goto t
      (.link p last k)) L out := by
  refine ⟨h.lists.plain rfl rfl rfl rfl rfl rfl (by rw [hpc]; rfl) (fun _ _ hk => hk) trivial,
    ⟨?_, ?_, h.served.enqCount, h.served.deqCount⟩,
    h.stored.same rfl (fun _ _ _ => rfl) fun _ _ hk => hk,
    h.returned.same rfl rfl rfl (fun _ _ hk => hk) (by rw [hpc]; rfl)⟩
  · exact h.served.enq.exit hN (by rw [hpc]; rfl) (goto_self enqTurn) (goto_other enqTurn)
  · exact h.served.deq.congr (goto_turn deqTurn (by rw [hpc]; rfl) rfl) fun _ => rfl

/-- The enqueue ends with a store to the head of its lane or to a link. -/
theorem PQueueInv.endEnq (h : PQueueInv s L out) {p last : Addr} {k : Int} {r : Option QueueResult}
    (hpc : s.pc t = .link p last k) (hlists : PInv s' L) (hN : s'.N = s.N)
    (hpc' : s'.pc = Function.update s.pc t (.idle r)) (heG : s'.eGuard = s.eGuard)
    (hdG : s'.dGuard = s.dGuard) (heC : s'.enqCounter = s.enqCounter)
    (hdC : s'.deqCounter = s.deqCounter) (henq : s'.enqueued = s.enqueued)
    (hdeq : s'.dequeues = s.dequeues) (hdel : s'.delivered = s.delivered)
    (hdata : ∀ a, (s'.mem a).data = (s.mem a).data) : PQueueInv s' L out := by
  have hmono : ∀ k d, Enqueued s k d → Enqueued s' k d := fun _ _ hk => enqueued_congr henq hk
  refine ⟨hlists, ⟨?_, ?_, ?_, ?_⟩, h.stored.same hN (fun _ a _ => hdata a) hmono,
    h.returned.same hpc' hdel hdeq hmono (by rw [hpc]; rfl)⟩
  · rw [hN, heG, henq]
    refine h.served.enq.leave (t := t) (k := k) (by rw [hpc]; rfl) ?_ ?_
    · rw [hpc', Function.update_self]
      rfl
    · intro u hu
      rw [hpc', Function.update_of_ne hu]
  · rw [hN, hdG, hdeq]
    exact h.served.deq.congr (goto_turn deqTurn (by rw [hpc]; rfl) hpc') fun _ => rfl
  · rw [heC, henq]
    exact h.served.enqCount
  · rw [hdC, hdeq]
    exact h.served.deqCount

theorem PQueueInv.link (h : PQueueInv s L out) {p last : Addr} {k : Int}
    (hpc : s.pc t = .link p last k) :
    PQueueInv (
      if last = 0 then
        { s with head := Function.update s.head (EvPQueue.index s.N k) p }.goto t (.idle (some .done))
      else (s.store last { s.mem last with next := p }).goto t (.idle (some .done))) L out := by
  split
  · rename_i hlast
    subst hlast
    exact h.endEnq hpc (h.lists.setHead hpc _) rfl rfl rfl rfl rfl rfl rfl rfl rfl fun _ => rfl
  · rename_i hlast
    refine h.endEnq hpc (h.lists.link hpc hlast _) rfl rfl rfl rfl rfl rfl rfl rfl rfl ?_
    intro a
    by_cases ha : a = last
    · rw [ha]
      have hdata := congrArg PNode.data
        (Function.update_self (f := s.mem) last { s.mem last with next := p })
      exact hdata
    · exact congrArg PNode.data (Function.update_of_ne ha _ _)

/-! ### `dequeue_ev_pqueue` -/

/-- A dequeue draws its ticket. -/
theorem Returned.draw (h : Returned s) (hpc : s'.pc = Function.update s.pc t q)
    (hdel : s'.delivered = s.delivered) (hdeq : s'.dequeues = s.dequeues + 1)
    (henq : s'.enqueued = s.enqueued) (hold : (deqTurn (s.pc t)).ticket = none)
    (hnew : (deqTurn q).ticket = some (s.dequeues : Int)) : Returned s' := by
  have hself : (deqTurn (s'.pc t)).ticket = some (s.dequeues : Int) := by
    rw [hpc, Function.update_self, hnew]
  have hother : ∀ u, u ≠ t → (deqTurn (s'.pc u)).ticket = (deqTurn (s.pc u)).ticket := by
    intro u hu
    rw [hpc, Function.update_of_ne hu]
  refine ⟨?_, ?_, ?_, ?_, ?_⟩ <;> rw [hdel]
  · intro k data hk
    exact enqueued_congr henq (h.fifo k data hk)
  · exact h.once
  · intro k data hk
    have := h.drawn k data hk
    omega
  · intro k h₀ hk
    by_cases hlast : k = s.dequeues
    · rw [hlast]
      exact Or.inr ⟨t, hself⟩
    · refine (h.kept k h₀ (by omega)).imp_right ?_
      rintro ⟨u, hu⟩
      refine ⟨u, ?_⟩
      rw [hother u, hu]
      rintro rfl
      rw [hold] at hu
      cases hu
  · intro u k hu data hin
    by_cases hut : u = t
    · rw [hut, hself] at hu
      obtain rfl := Option.some.inj hu
      have := (h.drawn _ data hin).2
      omega
    · rw [hother u hut] at hu
      exact h.held u k hu data hin

theorem PQueueInv.drawDeq (h : PQueueInv s L out) (hpc : s.pc t = .deqCount)
    (hfew : s.dequeues + 1 < 2 ^ 31) :
    PQueueInv ({ s with
      deqCounter := atomicInt (s.deqCounter + 1)
      dequeues := s.dequeues + 1 }.goto t (.ubDec s.deqCounter)) L out := by
  have hcount := h.served.deqCount
  refine ⟨h.lists.plain rfl rfl rfl rfl rfl rfl (by rw [hpc]; rfl) (fun _ _ hk => hk) trivial,
    ⟨?_, ?_, h.served.enqCount, ?_⟩, h.stored.same rfl (fun _ _ _ => rfl) fun _ _ hk => hk,
    h.returned.draw rfl rfl rfl rfl (by rw [hpc]; rfl) (by rw [← hcount]; rfl)⟩
  · exact h.served.enq.congr (goto_turn enqTurn (by rw [hpc]; rfl) rfl) fun _ => rfl
  · have hself : deqTurn ((s.goto t (.ubDec s.deqCounter)).pc t) = .waiting (s.dequeues : Int) :=
      (goto_self deqTurn).trans (by rw [← hcount]; rfl)
    exact h.served.deq.draw (by omega) (by rw [hpc]; rfl) hself (goto_other deqTurn)
  · show atomicInt (s.deqCounter + 1) = ((s.dequeues + 1 : Nat) : Int)
    rw [hcount, atomicInt_of_lt (by omega) (by omega)]
    rfl

/-- The guard lets the dequeue in. -/
theorem PQueueInv.enterDeq (h : PQueueInv s L out) {k : Int} (hpc : s.pc t = .deqEnter k)
    (hguard : s.dGuard (EvPQueue.index s.N k) = k - s.N) :
    PQueueInv (s.goto t (.loadHead k)) L out := by
  refine ⟨h.lists.plain rfl rfl rfl rfl rfl rfl (by rw [hpc]; rfl) (fun _ _ hk => hk) trivial,
    ⟨?_, ?_, h.served.enqCount, h.served.deqCount⟩,
    h.stored.same rfl (fun _ _ _ => rfl) fun _ _ hk => hk,
    h.returned.same rfl rfl rfl (fun _ _ hk => hk) (by rw [hpc]; rfl)⟩
  · exact h.served.enq.congr (goto_turn enqTurn (by rw [hpc]; rfl) rfl) fun _ => rfl
  · exact h.served.deq.enter hguard (by rw [hpc]; rfl) (goto_self deqTurn) (goto_other deqTurn)

/-- A thread that has seen the head of a lane is inside its guard. -/
theorem entered_of_active {N i : Int} {a : Addr} (h : prole N q = .active i a) :
    ∃ k, deqTurn q = .entered k ∧ EvPQueue.index N k = i := by
  cases q with
  | loadNext k b =>
    cases h
    exact ⟨k, rfl, rfl⟩
  | storeHead k b n =>
    cases h
    exact ⟨k, rfl, rfl⟩
  | enqExit p last k =>
    rw [prole] at h
    split at h <;> cases h
  | link p last k =>
    rw [prole] at h
    split at h <;> cases h
  | _ => cases h

theorem PQueueInv.claim (h : PQueueInv s L out) {k : Int} (hpc : s.pc t = .loadHead k)
    (hhead : s.head (EvPQueue.index s.N k) ≠ 0) :
    PQueueInv (s.goto t (.loadNext k (s.head (EvPQueue.index s.N k)))) L out := by
  refine ⟨h.lists.claim hhead ?_, h.served.same rfl rfl rfl rfl rfl rfl rfl rfl (by rw [hpc]; rfl)
    (by rw [hpc]; rfl), h.stored.same rfl (fun _ _ _ => rfl) fun _ _ hk => hk,
    h.returned.same rfl rfl rfl (fun _ _ hk => hk) (by rw [hpc]; rfl)⟩
  intro u hu a hr
  obtain ⟨j, hj, hlane⟩ := entered_of_active hr
  exact hu (h.served.deq.entered_unique (t := t) (k := k) (by rw [hpc]; rfl) hj hlane)

theorem PQueueInv.blank (h : PQueueInv s L out) {a : Addr} {k : Int}
    (hpc : s.pc t = .storeHead k a 0) :
    PQueueInv ({ s with head := Function.update s.head (EvPQueue.index s.N k) 0 }.goto t
      (.casTail k a)) L out :=
  ⟨h.lists.blank hpc, h.served.same rfl rfl rfl rfl rfl rfl rfl rfl (by rw [hpc]; rfl)
    (by rw [hpc]; rfl), h.stored.same rfl (fun _ _ _ => rfl) fun _ _ hk => hk,
    h.returned.same rfl rfl rfl (fun _ _ hk => hk) (by rw [hpc]; rfl)⟩

/-- The first node of the lane holds the data of the ticket whose turn it
is. -/
theorem PQueueInv.first_data (h : PQueueInv s L out) {k : Int} {a : Addr}
    (hturn : deqTurn (s.pc t) = .entered k) (hfirst : (L (EvPQueue.index s.N k)).head? = some a) :
    Enqueued s k (s.mem a).data := by
  obtain ⟨hk, -⟩ := h.served.deq.entered t k hturn
  rw [List.head?_eq_getElem?] at hfirst
  have hdata := h.stored _ 0 a hfirst
  rwa [Nat.cast_zero, add_zero, show EvPQueue.index s.N k + s.N * (out (EvPQueue.index s.N k)) = k
    from hk.symm] at hdata

/-- The node of the ticket whose turn it is is taken off its lane. -/
theorem PQueueInv.remove (h : PQueueInv s L out) (hN : 0 < s.N) {k : Int} {a : Addr} {l : List Addr}
    (hturn : deqTurn (s.pc t) = .entered k) (henqTurn : enqTurn (s.pc t) = .outside)
    (hl : L (EvPQueue.index s.N k) = a :: l)
    (hlists : PInv s' (Function.update L (EvPQueue.index s.N k) l)) (hN' : s'.N = s.N)
    (hpc' : s'.pc = Function.update s.pc t (.deqExit k a)) (hmem : s'.mem = s.mem)
    (heG : s'.eGuard = s.eGuard) (hdG : s'.dGuard = s.dGuard) (heC : s'.enqCounter = s.enqCounter)
    (hdC : s'.deqCounter = s.deqCounter) (henq : s'.enqueued = s.enqueued)
    (hdeq : s'.dequeues = s.dequeues) (hdel : s'.delivered = s.delivered) :
    PQueueInv s' (Function.update L (EvPQueue.index s.N k) l)
      (Function.update out (EvPQueue.index s.N k) (out (EvPQueue.index s.N k) + 1)) := by
  have hmono : ∀ k d, Enqueued s k d → Enqueued s' k d := fun _ _ hk => enqueued_congr henq hk
  refine ⟨hlists, ⟨?_, ?_, ?_, ?_⟩, ?_, h.returned.same hpc' hdel hdeq hmono (by rw [hturn]; rfl)⟩
  · rw [hN', heG, henq]
    exact h.served.enq.congr (goto_turn enqTurn (by rw [henqTurn]; rfl) hpc')
      (nextEnq_remove s.N out hl)
  · rw [hN', hdG, hdeq]
    refine h.served.deq.move hN hturn ?_ ?_ (nextDeq_remove _ _ _) ?_
    · rw [hpc', Function.update_self]
      rfl
    · intro u hu
      rw [hpc', Function.update_of_ne hu]
    · intro i hi
      rw [nextDeq, nextDeq, Function.update_of_ne hi]
  · rw [heC, henq]
    exact h.served.enqCount
  · rw [hdC, hdeq]
    exact h.served.deqCount
  · intro i j b hb
    rw [hN', hmem]
    refine hmono _ _ ?_
    by_cases hi : i = EvPQueue.index s.N k
    · rw [hi, Function.update_self] at hb
      have hdata := h.stored (EvPQueue.index s.N k) (j + 1) b (by rw [hl]; exact hb)
      rw [hi, Function.update_self]
      push_cast at hdata ⊢
      rwa [add_right_comm, add_assoc]
    · rw [Function.update_of_ne hi] at hb
      rw [Function.update_of_ne hi]
      exact h.stored i j b hb

/-- The dequeue lets the next one in. -/
theorem PQueueInv.exitDeq (h : PQueueInv s L out) (hN : 0 < s.N) {a : Addr} {k : Int}
    (hpc : s.pc t = .deqExit k a) :
    PQueueInv ({ s with dGuard := Function.update s.dGuard (EvPQueue.index s.N k) k }.goto t
      (.readData k a)) L out := by
  have hreads := h.lists.reads t
  rw [hpc] at hreads
  refine ⟨h.lists.plain rfl rfl rfl rfl rfl rfl (by rw [hpc]; rfl) (fun _ _ hk => hk) hreads,
    ⟨?_, ?_, h.served.enqCount, h.served.deqCount⟩,
    h.stored.same rfl (fun _ _ _ => rfl) fun _ _ hk => hk,
    h.returned.same rfl rfl rfl (fun _ _ hk => hk) (by rw [hpc]; rfl)⟩
  · exact h.served.enq.congr (goto_turn enqTurn (by rw [hpc]; rfl) rfl) fun _ => rfl
  · exact h.served.deq.exit hN (by rw [hpc]; rfl) (goto_self deqTurn) (goto_other deqTurn)

/-- The data is returned under its ticket. -/
theorem Returned.free (h : Returned s) {k : Int} {data : Nat} (hpc : s'.pc = Function.update s.pc t q)
    (hdel : s'.delivered = s.delivered ++ [(k, data)]) (hdeq : s'.dequeues = s.dequeues)
    (henq : s'.enqueued = s.enqueued) (hold : (deqTurn (s.pc t)).ticket = some k)
    (hnew : (deqTurn q).ticket = none) (hdata : Enqueued s k data) (hrange : 0 ≤ k ∧ k < s.dequeues)
    (halone : ∀ u, u ≠ t → (deqTurn (s.pc u)).ticket ≠ some k) : Returned s' := by
  have hother : ∀ u, u ≠ t → (deqTurn (s'.pc u)).ticket = (deqTurn (s.pc u)).ticket := by
    intro u hu
    rw [hpc, Function.update_of_ne hu]
  have hself : (deqTurn (s'.pc t)).ticket = none := by
    rw [hpc, Function.update_self, hnew]
  have hin : ∀ j d, (j, d) ∈ s.delivered ++ [(k, data)] → (j, d) ∈ s.delivered ∨ j = k ∧ d = data := by
    intro j d hjd
    rw [List.mem_append, List.mem_singleton, Prod.mk.injEq] at hjd
    exact hjd
  refine ⟨?_, ?_, ?_, ?_, ?_⟩ <;> rw [hdel]
  · intro j d hjd
    rcases hin j d hjd with hold | ⟨rfl, rfl⟩
    · exact enqueued_congr henq (h.fifo j d hold)
    · exact enqueued_congr henq hdata
  · rw [List.map_append, List.map_singleton, ← List.concat_eq_append]
    refine h.once.concat ?_
    intro hmem
    obtain ⟨⟨j, d⟩, hjd, rfl⟩ := List.mem_map.mp hmem
    exact h.held t j hold d hjd
  · rw [hdeq]
    intro j d hjd
    rcases hin j d hjd with hold | ⟨rfl, rfl⟩
    · exact h.drawn j d hold
    · exact hrange
  · rw [hdeq]
    intro j h₀ hj
    rcases h.kept j h₀ hj with ⟨d, hd⟩ | ⟨u, hu⟩
    · exact Or.inl ⟨d, List.mem_append_left _ hd⟩
    · by_cases hut : u = t
      · rw [hut, hold] at hu
        obtain rfl := Option.some.inj hu
        exact Or.inl ⟨data, List.mem_append_right _ (List.mem_singleton_self _)⟩
      · exact Or.inr ⟨u, (hother u hut).trans hu⟩
  · intro u j hu d hjd
    have hut : u ≠ t := by
      rintro rfl
      rw [hself] at hu
      cases hu
    rw [hother u hut] at hu
    rcases hin j d hjd with hold' | ⟨rfl, rfl⟩
    · exact h.held u j hu d hold'
    · exact halone u hut hu

theorem PQueueInv.free (h : PQueueInv s L out) {a : Addr} {k : Int} {data : Nat}
    (hpc : s.pc t = .free k a data) :
    PQueueInv ({ s with
      live := Function.update s.live a false
      delivered := s.delivered ++ [(k, data)] }.goto t (.idle (some (.data data)))) L out := by
  have hreads := h.lists.reads t
  rw [hpc] at hreads
  have hticket : (deqTurn (s.pc t)).ticket = some k := by rw [hpc]; rfl
  refine ⟨h.lists.free hpc _ _, ⟨?_, ?_, h.served.enqCount, h.served.deqCount⟩,
    h.stored.same rfl (fun _ _ _ => rfl) fun _ _ hk => hk,
    h.returned.free rfl rfl rfl rfl hticket rfl hreads.1 (h.served.deq.range t k hticket) ?_⟩
  · exact h.served.enq.congr (goto_turn enqTurn (by rw [hpc]; rfl) rfl) fun _ => rfl
  · exact h.served.deq.leave (t := t) (k := k) (by rw [hpc]; rfl) (goto_self deqTurn) (goto_other deqTurn)
  · intro u hu
    exact h.served.deq.other hu hticket

end Efio.Proofs.Evds
