import Efio.Lib.Calls
import Efio.Lib.LinkedList
import Efio.Proofs.Evds.LaneScan
import Efio.Spec.LaneFifo

/-!
# `Efio.Proofs.Evds.BasicQueue`: one thread on the locked queues

With no lock busy all elements go to the lane 0, and a scan begins there:
`LaneZero` says that its list has the data of a plain queue, and that the
other lanes are empty. A dequeue of `ev_mpiqueue` returns the data of the
first node. That of `ev_spiqueue` returns the node itself, which is the
same only for a node that lies where its data points (`locked_fifo`).
-/

set_option autoImplicit false

namespace Efio.Proofs.Evds

open Efio.Lib
open Efio.Evds
open Efio.Spec

variable {m : Malloc} {s : BasicQueues} {xs : List Nat} {x : Nat} {handOut : BasicQueues → Addr → Nat}
  {afterBusy : Int → Int} {N : Int} {fuel : Nat}

/-- The elements `xs` are on the first one of `N` lanes. -/
structure LaneZero (m : Malloc) (N : Int) (s : BasicQueues) (xs : List Nat) : Prop where
  lanes : s.N = N
  index : s.stIndex = 0
  list : ∃ l, TailList (fun a => (s.mem a).next) (s.glArray 0).head (s.glArray 0).tail l ∧
    l.map (fun a => (s.mem a).data) = xs ∧ ∀ a ∈ l, ∃ k, k < s.mallocs ∧ a = m.result k
  data : ∀ x ∈ xs, x ≠ 0
  others : ∀ i, i ≠ 0 → (s.glArray i).head = 0

theorem laneZero_init (m : Malloc) (N : Int) : LaneZero m N (.init N) [] where
  lanes := rfl
  index := rfl
  list := ⟨[], .nil, rfl, fun _ ha => absurd ha List.not_mem_nil⟩
  data := fun _ hx => absurd hx List.not_mem_nil
  others := fun _ _ => rfl

/-! ### Enqueue -/

/-- The new node is put at the end of the lane 0. -/
theorem LaneZero.basicEnqueue (h : LaneZero m N s xs) (data : NonNull) :
    LaneZero m N (s.basicEnqueue m 0 data.addr) (xs ++ [data.addr]) := by
  obtain ⟨l, hlist, hdata, hold⟩ := h.list
  have hnull := m.ne_null s.mallocs
  -- The node is none of those on the lane.
  have hfresh : m.result s.mallocs ∉ l := by
    intro hmem
    obtain ⟨k, hk, heq⟩ := hold _ hmem
    exact Nat.ne_of_gt hk (m.fresh _ _ heq)
  have hne : ∀ a ∈ l, a ≠ m.result s.mallocs := fun a ha heq => hfresh (heq ▸ ha)
  have hmallocs : ∀ a ∈ l ++ [m.result s.mallocs], ∃ k, k < s.mallocs + 1 ∧ a = m.result k := by
    intro a ha
    obtain ha | ha := List.mem_append.mp ha
    · obtain ⟨k, hk, heq⟩ := hold a ha
      exact ⟨k, Nat.lt_succ_of_lt hk, heq⟩
    · exact ⟨s.mallocs, Nat.lt_succ_self _, List.mem_singleton.mp ha⟩
  have hxs : ∀ x ∈ xs ++ [data.addr], x ≠ 0 := by
    intro x hx
    obtain hx | hx := List.mem_append.mp hx
    · exact h.data x hx
    · rw [List.mem_singleton.mp hx]
      exact data.ne_null
  unfold BasicQueues.basicEnqueue
  by_cases htail : (s.glArray 0).tail = 0
  · rw [if_pos htail]
    obtain rfl : l = [] := hlist.tail_eq_zero_iff.mp htail
    refine ⟨h.lanes, h.index, ⟨[m.result s.mallocs], ?_, ?_, hmallocs⟩, hxs, ?_⟩
    · simp only [Function.update_self]
      exact TailList.single hnull (by simp only [Function.update_self])
    · rw [← hdata]
      simp only [List.map_nil, List.nil_append, List.map_cons, Function.update_self]
    · intro i hi
      simp only [Function.update_of_ne hi]
      exact h.others i hi
  · rw [if_neg htail]
    have hcons : l ≠ [] := mt hlist.tail_eq_zero_iff.mpr htail
    have hlast := hne _ (hlist.tail_mem hcons)
    refine ⟨h.lanes, h.index, ⟨l ++ [m.result s.mallocs], ?_, ?_, hmallocs⟩, hxs, ?_⟩
    · simp only [Function.update_self]
      refine hlist.push hcons hnull hfresh ?_ ?_ ?_
      · simp only [Function.update_of_ne hlast.symm, Function.update_self]
      · simp only [Function.update_self]
      · intro b hb hother
        simp only [Function.update_of_ne hother, Function.update_of_ne (hne b hb)]
    · rw [← hdata, List.map_append]
      refine congrArg₂ (· ++ ·) (List.map_congr_left fun a ha => ?_) ?_
      · by_cases hother : a = (s.glArray 0).tail
        · subst hother
          simp only [Function.update_self, Function.update_of_ne hlast]
        · simp only [Function.update_of_ne hother, Function.update_of_ne (hne a ha)]
      · simp only [List.map_cons, List.map_nil, Function.update_of_ne hlast.symm, Function.update_self]
    · intro i hi
      simp only [Function.update_of_ne hi]
      exact h.others i hi

/-! ### Dequeue -/

theorem basicTryDequeue_empty {i : Int} (hempty : (s.glArray i).head = 0) :
    BasicQueues.basicTryDequeue handOut i s = (.empty, s) := by
  simp only [BasicQueues.basicTryDequeue, hempty, ne_eq, not_true_eq_false, if_false]

/-- The first node has the first element. -/
theorem LaneZero.head (h : LaneZero m N s (x :: xs)) :
    (s.glArray 0).head ≠ 0 ∧ (s.mem (s.glArray 0).head).data = x := by
  obtain ⟨l, hlist, hdata, -⟩ := h.list
  cases l with
  | nil => cases hdata
  | cons a l =>
    obtain ⟨hhead, hnull, -⟩ := hlist.pop
    rw [hhead]
    exact ⟨hnull, (List.cons.inj hdata).1⟩

/-- It is taken off the lane 0. -/
theorem LaneZero.basicTryDequeue (h : LaneZero m N s (x :: xs))
    (hsome : handOut s (s.glArray 0).head ≠ 0) : ∃ s',
      BasicQueues.basicTryDequeue handOut 0 s = (.data (handOut s (s.glArray 0).head), s') ∧
        LaneZero m N s' xs := by
  obtain ⟨l, hlist, hdata, hold⟩ := h.list
  cases l with
  | nil => cases hdata
  | cons a l =>
    obtain ⟨hhead, -, hrest⟩ := hlist.pop
    refine ⟨{ s with glArray := Function.update s.glArray 0 ⟨(s.mem (s.glArray 0).head).next,
      if (s.mem (s.glArray 0).head).next = 0 then 0 else (s.glArray 0).tail⟩ }, ?_, ?_⟩
    · simp only [BasicQueues.basicTryDequeue, if_pos h.head.1, if_neg hsome]
    · refine ⟨h.lanes, h.index, ⟨l, ?_, (List.cons.inj hdata).2, fun b hb =>
        hold b (List.mem_cons_of_mem _ hb)⟩, fun y hy => h.data y (List.mem_cons_of_mem _ hy), ?_⟩
      · simp only [Function.update_self, hhead]
        have hlast : ((s.mem a).next = 0) = (l = []) := propext hrest.head_eq_zero_iff
        simp only [hlast]
        exact hrest
      · intro i hi
        simp only [Function.update_of_ne hi]
        exact h.others i hi

theorem LaneZero.head_eq_zero (h : LaneZero m N s []) : (s.glArray 0).head = 0 := by
  obtain ⟨l, hlist, hdata, -⟩ := h.list
  exact hlist.head_eq_zero_iff.mpr (List.map_eq_nil_iff.mp hdata)

/-- A scan of a queue without an element. -/
theorem LaneZero.scan_nil (h : LaneZero m N s []) (hN : 0 < N) (hfuel : N < fuel) :
    BasicQueues.scanned (scan afterBusy (BasicQueues.basicTryDequeue handOut) s.N fuel 0 0 s) =
      .ok (s, .null) := by
  have hempty : ∀ lane, InRange N lane → BasicQueues.basicTryDequeue handOut lane s = (.empty, s) := by
    intro lane _
    by_cases hlane : lane = 0
    · rw [hlane]
      exact basicTryDequeue_empty h.head_eq_zero
    · exact basicTryDequeue_empty (h.others lane hlane)
  have hscan : (scan afterBusy (BasicQueues.basicTryDequeue handOut) N fuel 0 0 s).last = .null ∧
      (scan afterBusy (BasicQueues.basicTryDequeue handOut) N fuel 0 0 s).lanes = s :=
    scan_all_empty hempty ⟨Int.le_refl 0, hN⟩ (Int.le_of_lt hN) (by omega)
  rw [BasicQueues.scanned, h.lanes, hscan.1, hscan.2]

/-- A scan of a queue with an element. -/
theorem LaneZero.scan_cons (h : LaneZero m N s (x :: xs)) (afterBusy : Int → Int) (hN : 0 < N) (hfuel : N < fuel)
    (hsome : handOut s (s.glArray 0).head ≠ 0) : ∃ s',
    BasicQueues.scanned (scan afterBusy (BasicQueues.basicTryDequeue handOut) s.N fuel 0 0 s) =
      .ok (s', .data (handOut s (s.glArray 0).head)) ∧ LaneZero m N s' xs := by
  obtain ⟨s', htry, hs'⟩ := h.basicTryDequeue hsome
  obtain ⟨n, rfl⟩ : ∃ n, fuel = n + 1 := ⟨fuel - 1, by omega⟩
  refine ⟨s', ?_, hs'⟩
  rw [h.lanes, scan_data (Int.ne_of_lt hN) ⟨Int.le_refl 0, hN⟩ htry]
  rfl

/-! ### The calls -/

theorem LaneZero.inRange (h : LaneZero m N s xs) (hN : 0 < N) : InRange s.N 0 :=
  ⟨Int.le_refl 0, h.lanes.symm ▸ hN⟩

/-- A call on an `ev_mpiqueue` does what a call on a plain queue does. -/
theorem LaneZero.mpiqueueCall (h : LaneZero m N s xs) (hN : 0 < N) (hfuel : N < fuel) (call : LaneCall) :
    ∃ s', BasicQueues.mpiqueueCall m fuel call s = .ok (s', (fifoCall call xs).2) ∧
      LaneZero m N s' (fifoCall call xs).1 := by
  cases call with
  | enqueue data =>
    have hzero : s.N ≠ 0 := Int.ne_of_gt (h.inRange hN).pos
    have hindex : s.stIndex.tmod s.N = 0 := by
      rw [h.index, Int.zero_tmod]
    have hsame : { s with stIndex := 0 } = s := by
      rw [← h.index]
    refine ⟨s.basicEnqueue m 0 data.addr, ?_, h.basicEnqueue data⟩
    simp only [BasicQueues.mpiqueueCall, BasicQueues.enqueueEvMpiqueue, if_neg hzero, hindex,
      if_neg (not_not.mpr (h.inRange hN)), hsame]
    rfl
  | dequeue =>
    cases xs with
    | nil => exact ⟨s, h.scan_nil hN hfuel, h⟩
    | cons x xs =>
      have hx : BasicQueues.headData s (s.glArray 0).head = x := h.head.2
      have hsome : BasicQueues.headData s (s.glArray 0).head ≠ 0 := by
        rw [hx]
        exact h.data x List.mem_cons_self
      obtain ⟨s', hscan, hs'⟩ := h.scan_cons id hN hfuel hsome
      rw [hx] at hscan
      exact ⟨s', hscan, hs'⟩

/-- A call on an `ev_spiqueue` returns; a dequeue that finds an element
returns the node. -/
theorem LaneZero.spiqueueCall (h : LaneZero m N s xs) (hN : 0 < N) (hfuel : N < fuel) (call : LaneCall) :
    ∃ s' r, BasicQueues.spiqueueCall m fuel call s = .ok (s', r) ∧ LaneZero m N s' (fifoCall call xs).1 ∧
      (r = (fifoCall call xs).2 ↔ Addressed s call) := by
  cases call with
  | enqueue data =>
    refine ⟨s.basicEnqueue m 0 data.addr, .done, ?_, h.basicEnqueue data, iff_of_true rfl trivial⟩
    simp only [BasicQueues.spiqueueCall, BasicQueues.enqueueEvSpiqueue, h.index,
      if_neg (not_not.mpr (h.inRange hN))]
    rfl
  | dequeue =>
    cases xs with
    | nil =>
      exact ⟨s, .null, h.scan_nil hN hfuel, h, iff_of_true rfl fun hne => absurd h.head_eq_zero hne⟩
    | cons x xs =>
      obtain ⟨hne, hx⟩ := h.head
      have hsome : BasicQueues.headNode s (s.glArray 0).head ≠ 0 := hne
      obtain ⟨s', hscan, hs'⟩ := h.scan_cons (fun _ => 0) hN hfuel hsome
      refine ⟨s', _, hscan, hs', ?_⟩
      have hsame : Addressed s .dequeue ↔ x = (s.glArray 0).head := by
        rw [Addressed, hx]
        exact imp_iff_right hne
      rw [hsame]
      show QueueResult.data (s.glArray 0).head = .data x ↔ _
      rw [QueueResult.data.injEq, eq_comm]

/-- **The queue behind the mutex is a plain queue**, and the one behind the
spin lock is one if and only if each dequeue that finds an element finds it
at the address which is its data. `fuel` bounds the rounds of a scan. -/
theorem locked_fifo (m : Malloc) {N : Int} (hN : 0 < N) {fuel : Nat} (hfuel : N < fuel)
    (calls : List LaneCall) :
    (∃ s, runCalls (BasicQueues.mpiqueueCall m fuel) calls (.init N) =
      .ok (s, (specCalls fifoCall calls []).2)) ∧
    ((∃ s, runCalls (BasicQueues.spiqueueCall m fuel) calls (.init N) =
        .ok (s, (specCalls fifoCall calls []).2)) ↔
      Along (BasicQueues.spiqueueCall m fuel) Addressed calls (.init N)) := by
  refine ⟨?_, ?_⟩
  · have hgood : ∀ s xs call, LaneZero m N s xs → True →
        ∃ s', BasicQueues.mpiqueueCall m fuel call s = .ok (s', (fifoCall call xs).2) ∧
          LaneZero m N s' (fifoCall call xs).1 := fun s xs call hs _ => hs.mpiqueueCall hN hfuel call
    refine (calls_simulate (C := fun _ _ => True) hgood (fun _ _ _ _ _ _ => trivial)
      (laneZero_init m N)).mpr ?_
    exact along_of_forall (Q := fun _ => True) fun _ _ => trivial
  · refine calls_simulate ?_ ?_ (laneZero_init m N)
    · intro s xs call hs haddressed
      obtain ⟨s', r, hcall, hs', hr⟩ := hs.spiqueueCall hN hfuel call
      exact ⟨s', hr.mpr haddressed ▸ hcall, hs'⟩
    · intro s xs call s' hs hcall
      obtain ⟨s₁, r, hcall', -, hr⟩ := hs.spiqueueCall hN hfuel call
      cases hcall.symm.trans hcall'
      exact hr.mp rfl

/-- The nodes lie at 16, 32, and so on. -/
def everySixteen : Malloc where
  result k := 16 * (k + 1)
  ne_null k := by
    show 16 * (k + 1) ≠ 0
    omega
  fresh j k h := by
    have heq : 16 * (j + 1) = 16 * (k + 1) := h
    omega

/-- Two lanes; the first node lies at 16, and its data is 16. -/
theorem locked_fifo_sample :
    (∃ s, runCalls (BasicQueues.mpiqueueCall everySixteen 3) [.enqueue ⟨16, by decide⟩, .dequeue] (.init 2) =
      .ok (s, [.done, .data 16])) ∧
    ((∃ s, runCalls (BasicQueues.spiqueueCall everySixteen 3) [.enqueue ⟨16, by decide⟩, .dequeue] (.init 2) =
        .ok (s, [.done, .data 16])) ↔
      Along (BasicQueues.spiqueueCall everySixteen 3) Addressed [.enqueue ⟨16, by decide⟩, .dequeue]
        (.init 2)) :=
  locked_fifo everySixteen (by decide) (by decide) [.enqueue ⟨16, by decide⟩, .dequeue]

/-- The data is 5, and the dequeue behind the spin lock returns 16. -/
theorem not_locked_fifo : ∃ s,
    runCalls (BasicQueues.spiqueueCall everySixteen 3) [.enqueue ⟨5, by decide⟩, .dequeue] (.init 2) =
      .ok (s, [.done, .data 16]) ∧
    specCalls fifoCall [.enqueue ⟨5, by decide⟩, .dequeue] [] = ([], [.done, .data 5]) :=
  ⟨_, rfl, rfl⟩

end Efio.Proofs.Evds
