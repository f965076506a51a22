import Efio.Proofs.Evds.LaneScan
import Efio.Proofs.Evds.QueueAlone
import Efio.Spec.SharedIndex
import Mathlib.Algebra.BigOperators.Group.Finset.Basic
import Mathlib.Algebra.Order.Group.Multiset

/-!
# `Efio.Proofs.Evds.PiQueue`: several piqueues and one index

`enqueue_ev_piqueue` leaves an index behind that fits the piqueue just used,
and takes it as it is on the next one, which may have fewer lanes.
`piqueues_sideBySide`: as long as each call finds an index that fits, the
piqueues do not disturb each other. The invariant `Holds` of one piqueue
says what is on its lanes; `content` is all of it.
-/

set_option autoImplicit false

namespace Efio.Proofs.Evds

open Efio.Lib
open Efio.Evds
open Efio.Spec

variable {s s' : PiQueues} {p : PiQueue} {xs : Int → List Nat} {N i : Int} {q d : Nat} {a : Addr} {l : PiLabel}

/-! ### The elements on the lanes -/

/-- All elements on `N` lanes. -/
def content (N : Int) (xs : Int → List Nat) : Multiset Nat :=
  ∑ k ∈ Finset.range N.toNat, (xs k : Multiset Nat)

/-- The lane `i` holds other elements now. -/
theorem content_update (hi : InRange N i) (xs : Int → List Nat) (ys : List Nat) :
    content N (Function.update xs i ys) + xs i = content N xs + ys := by
  obtain ⟨k, rfl⟩ : ∃ k : Nat, i = k := ⟨i.toNat, (Int.toNat_of_nonneg hi.1).symm⟩
  have hmem : k ∈ Finset.range N.toNat := Finset.mem_range.mpr ((Int.lt_toNat (n := N)).mpr hi.2)
  have hrest : ∑ j ∈ (Finset.range N.toNat).erase k, (Function.update xs k ys j : Multiset Nat) =
      ∑ j ∈ (Finset.range N.toNat).erase k, (xs j : Multiset Nat) := by
    refine Finset.sum_congr rfl fun j hj => ?_
    rw [Function.update_of_ne (Int.ofNat_inj.not.mpr (Finset.ne_of_mem_erase hj))]
  rw [content, content, ← Finset.add_sum_erase _ _ hmem, hrest, Function.update_self,
    ← Finset.add_sum_erase _ (fun j : Nat => (xs j : Multiset Nat)) hmem, add_comm, ← add_assoc, add_right_comm]

theorem content_push (hi : InRange N i) (d : Nat) :
    content N (Function.update xs i (xs i ++ [d])) = content N xs + {d} := by
  have h := content_update hi xs (xs i ++ [d])
  rw [← Multiset.coe_add, ← add_assoc, add_right_comm] at h
  exact add_right_cancel h

theorem content_pop {rest : List Nat} (hi : InRange N i) (hxs : xs i = d :: rest) :
    content N xs = {d} + content N (Function.update xs i rest) := by
  have h := content_update hi xs rest
  rw [hxs, ← Multiset.cons_coe, ← Multiset.singleton_add, ← add_assoc] at h
  rw [add_comm]
  exact (add_right_cancel h).symm

theorem content_eq_zero (h : ∀ i, InRange N i → xs i = []) : content N xs = 0 := by
  refine Finset.sum_eq_zero fun k hk => ?_
  have hlt : k < N.toNat := Finset.mem_range.mp hk
  rw [h k ⟨Int.natCast_nonneg k, by omega⟩]
  rfl

/-- The lanes of a piqueue hold the elements `xs`. -/
structure Holds (p : PiQueue) (xs : Int → List Nat) : Prop where
  quiet : ∀ i, InRange p.N i → Quiet (p.glArray i) (xs i)
  data : ∀ i, InRange p.N i → ∀ d ∈ xs i, d ≠ 0

/-- A call on the lane `i`. -/
theorem Holds.update {ys : List Nat} {lane : EvQueue} (h : Holds p xs) (hlane : Quiet lane ys)
    (hdata : ∀ d ∈ ys, d ≠ 0) :
    Holds { p with glArray := Function.update p.glArray i lane } (Function.update xs i ys) where
  quiet := by
    intro j hj
    by_cases hji : j = i
    · subst hji
      simp only [Function.update_self]
      exact hlane
    · simp only [Function.update_of_ne hji]
      exact h.quiet j hj
  data := by
    intro j hj
    by_cases hji : j = i
    · subst hji
      rw [Function.update_self]
      exact hdata
    · rw [Function.update_of_ne hji]
      exact h.data j hj

/-- `try_dequeue` on an empty lane. -/
theorem Holds.tryDequeue_empty (h : Holds p xs) (hi : InRange p.N i) (hxs : xs i = []) :
    ∃ glArray, PiQueue.tryDequeue i p.glArray = (.empty, glArray) ∧ Holds { p with glArray := glArray } xs := by
  have hquiet := h.quiet i hi
  rw [hxs] at hquiet
  obtain ⟨lane, hcall, hanswer, hlane⟩ := hquiet.tryDequeueAlone_nil
  refine ⟨Function.update p.glArray i lane, ?_, ?_⟩
  · rw [PiQueue.tryDequeue, hcall]
    exact Prod.ext hanswer rfl
  · have hsame : Function.update xs i [] = xs := by
      rw [← hxs, Function.update_eq_self]
    rw [← hsame]
    exact h.update hlane fun d hd => absurd hd List.not_mem_nil

/-- `try_dequeue` on a lane with an element. -/
theorem Holds.tryDequeue_data {rest : List Nat} (h : Holds p xs) (hi : InRange p.N i) (hxs : xs i = d :: rest) :
    ∃ glArray, PiQueue.tryDequeue i p.glArray = (.data d, glArray) ∧
      Holds { p with glArray := glArray } (Function.update xs i rest) := by
  have hquiet := h.quiet i hi
  have hdata := h.data i hi
  rw [hxs] at hquiet hdata
  obtain ⟨hd, hrest⟩ := List.forall_mem_cons.mp hdata
  obtain ⟨lane, hcall, hpc, hlane⟩ := hquiet.tryDequeueAlone_cons
  refine ⟨Function.update p.glArray i lane, ?_, h.update hlane hrest⟩
  rw [PiQueue.tryDequeue, hcall]
  refine Prod.ext ?_ rfl
  show (lane.pc 0).answer = .data d
  rw [hpc]
  exact if_neg hd

/-- How the scan of `dequeue_ev_piqueue` ends: with `NULL` and no element on
a lane, or with one of the elements, which leaves. -/
theorem Holds.scan {afterBusy : Int → Int} {index : Int} {found : Scan (Int → EvQueue)} (h : Holds p xs)
    (hindex : InRange p.N index)
    (hfound : scan afterBusy PiQueue.tryDequeue p.N (p.N.toNat + 1) index 0 p.glArray = found) :
    (found.last = .null ∧ Holds { p with glArray := found.lanes } xs ∧ content p.N xs = 0) ∨
      ∃ d, found.last = .data d ∧ ∃ xs', Holds { p with glArray := found.lanes } xs' ∧
        content p.N xs = {d} + content p.N xs' := by
  have htry : ∀ lane glArray, InRange p.N lane → Holds { p with glArray := glArray } xs →
      (xs lane = [] ∧ ∃ glArray', PiQueue.tryDequeue lane glArray = (.empty, glArray') ∧
        Holds { p with glArray := glArray' } xs) ∨
      ∃ d glArray', PiQueue.tryDequeue lane glArray = (.data d, glArray') ∧
        ∃ xs', Holds { p with glArray := glArray' } xs' ∧ content p.N xs = {d} + content p.N xs' := by
    intro lane glArray hlane hholds
    cases hxs : xs lane with
    | nil => exact .inl ⟨rfl, hholds.tryDequeue_empty hlane hxs⟩
    | cons d rest =>
      obtain ⟨glArray', hanswer, hrest⟩ := hholds.tryDequeue_data hlane hxs
      exact .inr ⟨d, glArray', hanswer, _, hrest, content_pop hlane hxs⟩
  have hpos := hindex.pos
  rw [← hfound]
  refine (scan_lanes htry h hindex (Int.le_of_lt hpos) (by omega)).imp_left ?_
  rintro ⟨hnull, hholds, hempty⟩
  refine ⟨hnull, hholds, content_eq_zero fun i hi => ?_⟩
  obtain ⟨k, hk, rfl⟩ := exists_around hi index
  exact hempty k (by omega)

/-! ### All piqueues -/

/-- What has been put into a piqueue has been delivered or is on its lanes. -/
structure Serves (p : PiQueue) (enqueued delivered : List Nat) (xs : Int → List Nat) : Prop where
  holds : Holds p xs
  sum : (enqueued : Multiset Nat) = delivered + content p.N xs

/-- What the calls keep, as long as their indices fit. -/
structure Apart (s : PiQueues) : Prop where
  fault : s.fault = none
  index : 0 ≤ s.stIndex
  inRange : ∀ u ∈ s.used, InRange (s.queues u.1).N u.2
  queue : ∀ q, ∃ xs, Serves (s.queues q) (s.enqueued q) (s.delivered q) xs ∧
    (s.last = some (q, .null) → content (s.queues q).N xs = 0)

/-- No call changes a number of lanes. -/
theorem update_N {queues : Nat → PiQueue} {glArray : Int → EvQueue} (q q' : Nat) :
    (Function.update queues q { queues q with glArray := glArray } q').N = (queues q').N := by
  by_cases hq : q' = q
  · subst hq
    rw [Function.update_self]
  · rw [Function.update_of_ne hq]

/-- The lanes used by a call are in range, and so all. -/
theorem inRange_used {used new : List (Nat × Int)} {glArray : Int → EvQueue}
    (h : ∀ u ∈ used, InRange (s.queues u.1).N u.2)
    (hnew : ∀ u ∈ new, u.1 = q ∧ InRange (s.queues q).N u.2) :
    ∀ u ∈ used ++ new, InRange (Function.update s.queues q { s.queues q with glArray := glArray } u.1).N u.2 := by
  intro u hu
  rw [update_N]
  obtain hu | hu := List.mem_append.mp hu
  · exact h u hu
  · obtain ⟨hq, hindex⟩ := hnew u hu
    rwa [hq]

/-- A call on one piqueue leaves the others as they are. -/
theorem Apart.queue_of_call (h : Apart s)
    (hcall : ∃ xs, Serves (s'.queues q) (s'.enqueued q) (s'.delivered q) xs ∧
      (s'.last = some (q, .null) → content (s'.queues q).N xs = 0))
    (hother : ∀ q' ≠ q, s'.queues q' = s.queues q' ∧ s'.enqueued q' = s.enqueued q' ∧
      s'.delivered q' = s.delivered q')
    (hlast : ∃ r, s'.last = some (q, r)) (q' : Nat) :
    ∃ xs, Serves (s'.queues q') (s'.enqueued q') (s'.delivered q') xs ∧
      (s'.last = some (q', .null) → content (s'.queues q').N xs = 0) := by
  by_cases hq : q' = q
  · exact hq ▸ hcall
  · obtain ⟨hqueue, henqueued, hdelivered⟩ := hother q' hq
    obtain ⟨xs, hserves, -⟩ := h.queue q'
    obtain ⟨r, hlast⟩ := hlast
    rw [hqueue, henqueued, hdelivered]
    refine ⟨xs, hserves, ?_⟩
    intro hnull
    exact absurd (Prod.mk.inj (Option.some.inj (hlast.symm.trans hnull))).1.symm hq

theorem Apart.sideBySide (h : Apart s) : SideBySide s where
  fault := h.fault
  inRange := h.inRange
  delivered := by
    intro q
    obtain ⟨xs, hserves, -⟩ := h.queue q
    rw [hserves.sum]
    exact Multiset.le_add_right _ _
  null := by
    intro q hlast
    obtain ⟨xs, hserves, hnull⟩ := h.queue q
    rw [hserves.sum, hnull hlast, add_zero]

theorem apart_create (n : Nat → Int) : Apart (PiQueues.create n) where
  fault := rfl
  index := Int.le_refl 0
  inRange := fun u hu => absurd hu List.not_mem_nil
  queue := by
    intro q
    refine ⟨fun _ => [], ⟨⟨fun _ _ => quiet_create, fun _ _ d hd => absurd hd List.not_mem_nil⟩, ?_⟩, ?_⟩
    · rw [content_eq_zero fun _ _ => rfl]
      rfl
    · intro hlast
      cases hlast

/-- `enqueue_ev_piqueue` with an index that fits. -/
theorem Apart.enqueue (h : Apart s) (hd : d ≠ 0) (hfits : s.stIndex < (s.queues q).N)
    (hstep : s.enqueueEvPiqueue q d a = some s') : Apart s' := by
  obtain ⟨xs, hserves, -⟩ := h.queue q
  have hindex : InRange (s.queues q).N s.stIndex := ⟨h.index, hfits⟩
  rw [PiQueues.enqueueEvPiqueue, if_neg (not_not.mpr hindex)] at hstep
  split at hstep
  · cases hstep
  · rename_i hnot
    obtain ⟨hnull, hfree⟩ := not_or.mp hnot
    obtain ⟨lane, hcall, hlane⟩ :=
      (hserves.holds.quiet _ hindex).enqueueAlone hnull (Bool.eq_false_of_not_eq_true hfree) d
    rw [hcall] at hstep
    obtain rfl := (Option.some.inj hstep).symm
    have hdata : ∀ e ∈ xs s.stIndex ++ [d], e ≠ 0 :=
      List.forall_mem_append.mpr ⟨hserves.holds.data _ hindex, List.forall_mem_singleton.mpr hd⟩
    have hpushed : Serves { s.queues q with glArray := Function.update (s.queues q).glArray s.stIndex lane }
        (s.enqueued q ++ [d]) (s.delivered q) (Function.update xs s.stIndex (xs s.stIndex ++ [d])) := by
      refine ⟨hserves.holds.update hlane hdata, ?_⟩
      rw [content_push hindex, ← add_assoc, ← hserves.sum]
      rfl
    refine ⟨h.fault, (nextIndex_inRange hindex).1, ?_, h.queue_of_call (q := q) ?_ ?_ ⟨_, rfl⟩⟩
    · exact inRange_used h.inRange (List.forall_mem_singleton.mpr ⟨rfl, hindex⟩)
    · refine ⟨_, by simpa only [Function.update_self] using hpushed, ?_⟩
      intro hnull
      cases hnull
    · intro q' hq
      simp only [Function.update_of_ne hq, and_self]

/-- The lanes that a scan has used, when it ends with `NULL` or an element. -/
theorem mem_lanesOf {found : Scan (Int → EvQueue)} (hvisits : ∀ v ∈ found.visits, InRange N v.1)
    (hlast : found.last = .null ∨ ∃ d, found.last = .data d) :
    ∀ u ∈ PiQueues.lanesOf q found, u.1 = q ∧ InRange N u.2 := by
  intro u hu
  have hmap : u ∈ found.visits.map fun v => (q, v.1) := by
    obtain hlast | ⟨d, hlast⟩ := hlast
    · simpa only [PiQueues.lanesOf, hlast, List.append_nil] using hu
    · simpa only [PiQueues.lanesOf, hlast, List.append_nil] using hu
  obtain ⟨v, hv, rfl⟩ := List.mem_map.mp hmap
  exact ⟨rfl, hvisits v hv⟩

/-- `dequeue_ev_piqueue` with an index that fits. -/
theorem Apart.dequeue (h : Apart s) (hN : 0 < (s.queues q).N)
    (hfits : 0 ≤ s.stDindex ∨ (s.queues q).N ∣ s.stDindex) (hstep : s.dequeue q = some s') : Apart s' := by
  obtain ⟨xs, hserves, -⟩ := h.queue q
  have hindex : InRange (s.queues q).N (s.stDindex.tmod (s.queues q).N) := (inRange_tmod_iff hN).mpr hfits
  simp only [PiQueues.dequeue, dequeueEvPiqueue, if_neg (Int.ne_of_gt hN)] at hstep
  generalize hfound : scan _ PiQueue.tryDequeue (s.queues q).N _ _ 0 _ = found at hstep
  have hvisits : ∀ v ∈ found.visits, InRange (s.queues q).N v.1 := by
    rw [← hfound]
    exact scan_inRange hindex
  obtain ⟨hlast, hholds, hcontent⟩ | ⟨d, hlast, xs', hholds, hcontent⟩ := hserves.holds.scan hindex hfound
  · simp only [hlast] at hstep
    obtain rfl := (Option.some.inj hstep).symm
    refine ⟨h.fault, h.index, inRange_used h.inRange (mem_lanesOf hvisits (.inl hlast)),
      h.queue_of_call (q := q) ?_ ?_ ⟨_, rfl⟩⟩
    · have hrest : Serves { s.queues q with glArray := found.lanes } (s.enqueued q) (s.delivered q) xs :=
        ⟨hholds, hserves.sum⟩
      refine ⟨xs, by simpa only [Function.update_self] using hrest, ?_⟩
      intro _
      simpa only [Function.update_self] using hcontent
    · intro q' hq
      simp only [Function.update_of_ne hq, and_self]
  · simp only [hlast] at hstep
    obtain rfl := (Option.some.inj hstep).symm
    refine ⟨h.fault, h.index, inRange_used h.inRange (mem_lanesOf hvisits (.inr ⟨d, hlast⟩)),
      h.queue_of_call (q := q) ?_ ?_ ⟨_, rfl⟩⟩
    · have hrest : Serves { s.queues q with glArray := found.lanes } (s.enqueued q)
          (s.delivered q ++ [d]) xs' := by
        refine ⟨hholds, ?_⟩
        rw [hserves.sum, hcontent, ← add_assoc]
        rfl
      refine ⟨xs', by simpa only [Function.update_self] using hrest, ?_⟩
      intro hnull
      cases hnull
    · intro q' hq
      simp only [Function.update_of_ne hq, and_self]

theorem Apart.step (h : Apart s) (hok : IndexFits s l) (hstep : PiQueues.step l s = some s') : Apart s' := by
  have hrun : ¬s.fault.isSome = true := by
    rw [h.fault]
    exact Bool.false_ne_true
  cases l with
  | enqueue q data a =>
    rw [PiQueues.step, if_neg hrun] at hstep
    exact h.enqueue hok.1 hok.2 hstep
  | dequeue q =>
    rw [PiQueues.step, if_neg hrun] at hstep
    exact h.dequeue hok.1 hok.2 hstep

/-- **Piqueues side by side**: when each call has found an index that fits,
all lanes used are lanes of their piqueue, and each piqueue has delivered
of what was put into it, and all of it when it has answered `NULL`. -/
theorem piqueues_sideBySide (n : Nat → Int) {s : PiQueues}
    (h : Reach PiQueues.step IndexFits (PiQueues.create n) s) : SideBySide s :=
  (h.invariant (apart_create n) fun _ _ _ => Apart.step).sideBySide

/-- Four lanes and one: the smaller piqueue is used when the index is 0. -/
theorem piqueues_sideBySide_sample : ∃ s, s.last = some (1, .null) ∧ SideBySide s :=
  ⟨_, rfl, piqueues_sideBySide (fun q => if q = 0 then 4 else 1)
    (Reach.of_run .init [.enqueue 1 7 16, .dequeue 1, .enqueue 0 8 32, .dequeue 1] rfl)⟩

/-- Four lanes and one: an enqueue on the larger piqueue leaves the index 1,
which is outside of the smaller one. -/
theorem not_piqueues_sideBySide :
    ∃ s, Reach PiQueues.step (fun _ _ => True) (PiQueues.create fun q => if q = 0 then 4 else 1) s ∧
      ¬SideBySide s := by
  refine ⟨_, Reach.of_run .init [.enqueue 0 7 16, .enqueue 1 8 32] rfl, ?_⟩
  intro hside
  cases hside.fault

end Efio.Proofs.Evds
