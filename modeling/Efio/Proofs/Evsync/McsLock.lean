import Efio.Lib.DelayedLinks
import Efio.Spec.McsQueue
import Mathlib.Data.List.Nodup

/-!
# `Efio.Proofs.Evsync.McsLock`: the MCS lock is fair and frees safely

`McsInv s Q` describes every state: `Q` are the threads, with their nodes,
that have exchanged themselves into `tail` and not yet handed the lock
over. Their nodes are linked from behind, with `tail` at the end. Only the
thread at the front may find its node unlocked, since a releaser unlocks
the node behind its own and leaves.

`McsFlow s Q` says that the exchanged threads are those that have left and
then `Q`, and that the granted ones are those that have left and, while
somebody is inside, the front of `Q`. The theorem `mcsLock_fair` follows.
-/

set_option autoImplicit false

namespace Efio.Proofs.Evsync

open Efio.Lib
open Efio.Evsync
open Efio.Spec

variable {T : Type} [DecidableEq T] {s s' : McsLock T} {Q Q' : List (T × NodePtr)} {t u : T}
variable {q : McsPc} {a ptr pred : NodePtr} {l : McsLabel T}

/-! ### The invariant -/

/-- The links of the nodes. -/
def mcsNext (s : McsLock T) (a : NodePtr) : NodePtr := (s.mem a).next

/-- The nodes of the queue. -/
def nodes (Q : List (T × NodePtr)) : List NodePtr := Q.map Prod.snd

/-- The queue in the memory. -/
structure McsShape (s : McsLock T) (Q : List (T × NodePtr)) : Prop where
  links : Delayed (mcsNext s) (nodes Q)
  nodup : (nodes Q).Nodup
  alive : ∀ a ∈ nodes Q, s.live a = true ∧ a ≠ 0
  tail : s.tail = (nodes Q).getLast?.getD 0

/-- A node outside the queue. -/
def Apart (s : McsLock T) (Q : List (T × NodePtr)) (a : NodePtr) : Prop :=
  s.live a = true ∧ a ≠ 0 ∧ a ∉ nodes Q

/-- Where the node of the thread `t` is. -/
def McsStanding (s : McsLock T) (Q : List (T × NodePtr)) (t : T) : McsRole → Prop
  | .none => True
  | .fresh ptr => Apart s Q ptr ∧ mcsNext s ptr = 0
  | .linking ptr pred => (t, ptr) ∈ Q ∧ [pred, ptr] <:+: nodes Q ∧ mcsNext s pred = 0
  | .waiting ptr => (t, ptr) ∈ Q ∧ ((s.mem ptr).locked = 0 → Q.head? = some (t, ptr))
  | .holding ptr => Q.head? = some (t, ptr)
  | .retiring ptr => Apart s Q ptr

/-- What the thread has read or written is still there. -/
def McsReads (s : McsLock T) : McsPc → Prop
  | .link ptr _ => (s.mem ptr).locked = 1
  | .loadNext ptr => mcsNext s ptr ≠ 0
  | .unlock ptr next => mcsNext s ptr ≠ 0 ∧ mcsNext s ptr = next
  | _ => True

/-- The invariant of the memory. -/
structure McsInv (s : McsLock T) (Q : List (T × NodePtr)) : Prop where
  shape : McsShape s Q
  standing : ∀ t, McsStanding s Q t (mcsRole (s.pc t))
  node : ∀ t u a, (mcsRole (s.pc t)).node = some a → (mcsRole (s.pc u)).node = some a → t = u
  reads : ∀ t, McsReads s (s.pc t)

/-- The order of the exchanges and of the grants. -/
def McsFlow (s : McsLock T) (Q : List (T × NodePtr)) : Prop :=
  ∃ left, s.exchanged = left ++ Q ∧
    ((∃ t, holds (s.pc t)) ∧ s.granted = left ++ Q.head?.toList ∨
      (∀ t, ¬ holds (s.pc t)) ∧ s.granted = left)

omit [DecidableEq T] in
theorem mcsInv_init : McsInv (McsLock.init T) [] where
  shape := ⟨.nil, List.nodup_nil, fun a ha => by simp [nodes] at ha, rfl⟩
  standing _ := trivial
  node t u a h := by simp [McsLock.init, mcsRole, McsRole.node] at h
  reads _ := trivial

omit [DecidableEq T] in
theorem mcsFlow_init : McsFlow (McsLock.init T) [] :=
  ⟨[], rfl, Or.inr ⟨fun t h => by simp [holds, McsLock.init, mcsRole] at h, rfl⟩⟩

/-! ### The queue -/

omit [DecidableEq T] in
theorem mem_nodes (h : (t, a) ∈ Q) : a ∈ nodes Q := List.mem_map_of_mem h

omit [DecidableEq T] in
/-- A node of the queue belongs to one thread. -/
theorem owner_unique (hnodup : (nodes Q).Nodup) (ht : (t, a) ∈ Q) (hu : (u, a) ∈ Q) : t = u :=
  congrArg Prod.fst (List.inj_on_of_nodup_map hnodup ht hu rfl)

omit [DecidableEq T] in
theorem McsShape.eq_nil (h : McsShape s Q) (hnull : s.tail = 0) : Q = [] := by
  have htail := h.tail
  cases hlast : (nodes Q).getLast? with
  | none => exact List.map_eq_nil_iff.mp (List.getLast?_eq_none_iff.mp hlast)
  | some a =>
    rw [hlast, hnull] at htail
    exact absurd htail.symm (h.alive a (List.mem_of_getLast? hlast)).2

omit [DecidableEq T] in
theorem McsShape.getLast (h : McsShape s Q) (hne : s.tail ≠ 0) :
    (nodes Q).getLast? = some s.tail := by
  have htail := h.tail
  cases hlast : (nodes Q).getLast? with
  | none =>
    rw [hlast] at htail
    exact absurd htail hne
  | some a =>
    rw [hlast] at htail
    rw [htail]
    rfl

omit [DecidableEq T] in
theorem McsShape.congr (h : McsShape s Q) (hnext : ∀ a ∈ nodes Q, mcsNext s' a = mcsNext s a)
    (hlive : ∀ a ∈ nodes Q, s'.live a = s.live a) (htail : s'.tail = s.tail) : McsShape s' Q := by
  refine ⟨h.links.congr hnext, h.nodup, ?_, htail.trans h.tail⟩
  intro a ha
  rw [hlive a ha]
  exact h.alive a ha

/-! ### The threads -/

/-- The node whose link the thread knows to be missing. -/
def unlinked : McsRole → Option NodePtr
  | .fresh ptr => some ptr
  | .linking _ pred => some pred
  | _ => none

theorem unlinked_eq_some {r : McsRole} (h : unlinked r = some a) :
    r = .fresh a ∨ ∃ ptr, r = .linking ptr a := by
  cases r <;> simp_all [unlinked]

omit [DecidableEq T] in
/-- What a thread looks at has not changed. -/
theorem standing_congr {r : McsRole} (h : McsStanding s Q t r)
    (hnext : ∀ a, unlinked r = some a → mcsNext s' a = mcsNext s a)
    (hlocked : ∀ ptr, r = .waiting ptr → (s'.mem ptr).locked = (s.mem ptr).locked)
    (hlive : ∀ a, r.node = some a → s.live a = true → s'.live a = true) : McsStanding s' Q t r := by
  cases r with
  | none => trivial
  | fresh ptr => exact ⟨⟨hlive ptr rfl h.1.1, h.1.2⟩, (hnext ptr rfl).trans h.2⟩
  | linking ptr pred => exact ⟨h.1, h.2.1, (hnext pred rfl).trans h.2.2⟩
  | waiting ptr =>
    refine ⟨h.1, fun hzero => h.2 ?_⟩
    rwa [← hlocked ptr rfl]
  | holding ptr => exact h
  | retiring ptr => exact ⟨hlive ptr rfl h.1, h.2⟩

omit [DecidableEq T] in
theorem reads_congr (h : McsReads s q)
    (hnext : ∀ a, (mcsRole q).node = some a → mcsNext s a ≠ 0 → mcsNext s' a = mcsNext s a)
    (hlocked : ∀ ptr pred, mcsRole q = .linking ptr pred → (s'.mem ptr).locked = (s.mem ptr).locked) :
    McsReads s' q := by
  cases q with
  | link ptr pred => exact (hlocked ptr pred rfl).trans h
  | loadNext ptr =>
    have hsame := hnext ptr rfl h
    rwa [McsReads, hsame]
  | unlock ptr next =>
    have hsame := hnext ptr rfl h.1
    rwa [McsReads, hsame]
  | _ => trivial

omit [DecidableEq T] in
/-- A node is allocated as long as a thread has it. -/
theorem McsInv.node_live (h : McsInv s Q) (ha : (mcsRole (s.pc t)).node = some a) :
    s.live a = true ∧ a ≠ 0 := by
  have hstanding := h.standing t
  cases hr : mcsRole (s.pc t) <;> rw [hr] at hstanding ha <;> cases ha
  case fresh => exact ⟨hstanding.1.1, hstanding.1.2.1⟩
  case linking => exact h.shape.alive a (mem_nodes hstanding.1)
  case waiting => exact h.shape.alive a (mem_nodes hstanding.1)
  case holding => exact h.shape.alive a (mem_nodes (List.mem_of_mem_head? hstanding))
  case retiring => exact ⟨hstanding.1, hstanding.2.1⟩

/-- The thread `t` moves to `q`. Its node is the one it had, or nobody
else's. -/
theorem McsInv.move (h : McsInv s Q) (hpc : s'.pc = Function.update s.pc t q) (hshape : McsShape s' Q')
    (hstanding : McsStanding s' Q' t (mcsRole q))
    (hnode : ∀ a, (mcsRole q).node = some a → ∀ u, u ≠ t → (mcsRole (s.pc u)).node ≠ some a)
    (hreads : McsReads s' q)
    (hothers : ∀ u, u ≠ t → McsStanding s' Q' u (mcsRole (s.pc u)) ∧ McsReads s' (s.pc u)) :
    McsInv s' Q' := by
  have hself : s'.pc t = q := by simp [hpc]
  have hother : ∀ u, u ≠ t → s'.pc u = s.pc u := fun u hu => by simp [hpc, hu]
  constructor
  case shape => exact hshape
  case standing =>
    intro u
    by_cases hu : u = t
    · rw [hu, hself]
      exact hstanding
    · rw [hother u hu]
      exact (hothers u hu).1
  case node =>
    intro u v a hu hv
    by_cases hut : u = t <;> by_cases hvt : v = t
    · rw [hut, hvt]
    · rw [hut, hself] at hu
      rw [hother v hvt] at hv
      exact absurd hv (hnode a hu v hvt)
    · rw [hvt, hself] at hv
      rw [hother u hut] at hu
      exact absurd hu (hnode a hv u hut)
    · rw [hother u hut] at hu
      rw [hother v hvt] at hv
      exact h.node u v a hu hv
  case reads =>
    intro u
    by_cases hu : u = t
    · rw [hu, hself]
      exact hreads
    · rw [hother u hu]
      exact (hothers u hu).2

omit [DecidableEq T] in
/-- The thread keeps its node. -/
theorem McsInv.node_of_eq (h : McsInv s Q) {r : McsRole} (hr : r.node = (mcsRole (s.pc t)).node) :
    ∀ a, r.node = some a → ∀ u, u ≠ t → (mcsRole (s.pc u)).node ≠ some a :=
  fun a ha u hu hother => hu (h.node u t a hother (hr.symm.trans ha))

/-- The thread moves, and the memory stays. -/
theorem McsInv.plain (h : McsInv s Q) (hpc : s'.pc = Function.update s.pc t q) (hmem : s'.mem = s.mem)
    (hlive : s'.live = s.live) (htail : s'.tail = s.tail)
    (hnode : (mcsRole q).node = (mcsRole (s.pc t)).node) (hstanding : McsStanding s Q t (mcsRole q))
    (hreads : McsReads s q) : McsInv s' Q := by
  have hnext : ∀ a, mcsNext s' a = mcsNext s a := fun a => by rw [mcsNext, mcsNext, hmem]
  have hlocked : ∀ a, (s'.mem a).locked = (s.mem a).locked := fun a => by rw [hmem]
  have hkeep : ∀ {u r}, McsStanding s Q u r → McsStanding s' Q u r := fun hr =>
    standing_congr hr (fun a _ => hnext a) (fun a _ => hlocked a) fun a _ ha => by rwa [hlive]
  have hread : ∀ {q}, McsReads s q → McsReads s' q := fun hq =>
    reads_congr hq (fun a _ _ => hnext a) fun a _ _ => hlocked a
  refine h.move hpc (h.shape.congr (fun a _ => hnext a) (fun a _ => by rw [hlive]) htail)
    (hkeep hstanding) (h.node_of_eq hnode) (hread hreads) ?_
  exact fun u _ => ⟨hkeep (h.standing u), hread (h.reads u)⟩

/-! ### The steps of `mcs_get_access` -/

/-- The thread gets its node. -/
theorem McsInv.malloc (h : McsInv s Q) (hne : a ≠ 0) (hfree : s.live a = false) :
    McsInv ({ s.store a { locked := 0, next := 0 } with
      live := Function.update s.live a true }.goto t (.exchange a)) Q := by
  have hdead : ∀ {b}, s.live b = true → b ≠ a := by
    rintro b hb rfl
    exact Bool.false_ne_true (hfree.symm.trans hb)
  have hnot : a ∉ nodes Q := fun hin => hdead (h.shape.alive a hin).1 rfl
  have hmem : ∀ {b}, b ≠ a → Function.update s.mem a { locked := 0, next := 0 } b = s.mem b :=
    fun hb => Function.update_of_ne hb _ _
  refine h.move rfl (h.shape.congr ?_ ?_ rfl) ?_ ?_ trivial ?_
  · exact fun b hb => congrArg McsNode.next (hmem (hdead (h.shape.alive b hb).1))
  · exact fun b hb => Function.update_of_ne (hdead (h.shape.alive b hb).1) _ _
  · exact ⟨⟨Function.update_self _ _ _, hne, hnot⟩, by simp [mcsNext, McsLock.goto, McsLock.store]⟩
  · intro b hb u _ hu
    obtain rfl : a = b := by simpa [mcsRole, McsRole.node] using hb
    exact hdead (h.node_live hu).1 rfl
  · intro u _
    have hmine : ∀ {b}, (mcsRole (s.pc u)).node = some b → b ≠ a := fun hb => hdead (h.node_live hb).1
    have hstanding := h.standing u
    refine ⟨standing_congr hstanding ?_ ?_ ?_, reads_congr (h.reads u) ?_ ?_⟩
    · intro b hb
      refine congrArg McsNode.next (hmem (hdead ?_))
      rcases unlinked_eq_some hb with hr | ⟨ptr, hr⟩ <;> rw [hr] at hstanding
      · exact hstanding.1.1
      · exact (h.shape.alive b (behind_mem hstanding.2.1).1).1
    · exact fun b hb => congrArg McsNode.locked (hmem (hmine (by rw [hb]; rfl)))
    · intro b hb hlive
      exact (Function.update_of_ne (hmine hb) _ _).trans hlive
    · exact fun b hb _ => congrArg McsNode.next (hmem (hmine hb))
    · exact fun b pred hb => congrArg McsNode.locked (hmem (hmine (by rw [hb]; rfl)))

/-- The exchange on `tail` puts the thread at the end of the queue. -/
theorem McsInv.exchange (h : McsInv s Q) (hpc : s.pc t = .exchange ptr)
    (hs : s'.pc = Function.update s.pc t q) (hmem : s'.mem = s.mem) (hlive : s'.live = s.live)
    (htail : s'.tail = ptr)
    (hq : q = if s.tail ≠ 0 then .setLocked ptr s.tail else .inside ptr) :
    McsInv s' (Q ++ [(t, ptr)]) := by
  have hrole : mcsRole (s.pc t) = .fresh ptr := by rw [hpc]; rfl
  have hstanding := h.standing t
  rw [hrole] at hstanding
  obtain ⟨⟨hptr, hne, hnot⟩, hnone⟩ := hstanding
  have hnodes : nodes (Q ++ [(t, ptr)]) = nodes Q ++ [ptr] := by simp [nodes]
  have hnext : mcsNext s' = mcsNext s := by
    funext a
    rw [mcsNext, mcsNext, hmem]
  refine h.move hs ⟨?_, ?_, ?_, ?_⟩ ?_ ?_ ?_ ?_
  · rw [hnodes, hnext]
    exact h.shape.links.snoc hnone
  · rw [hnodes, ← List.concat_eq_append]
    exact h.shape.nodup.concat hnot
  · intro a ha
    rw [hnodes, List.mem_append, List.mem_singleton] at ha
    rw [hlive]
    rcases ha with ha | rfl
    · exact h.shape.alive a ha
    · exact ⟨hptr, hne⟩
  · simp [hnodes, htail]
  · by_cases hempty : s.tail = 0
    · simp [hq, hempty, mcsRole, McsStanding, h.shape.eq_nil hempty]
    · have hlast := h.shape.getLast hempty
      rw [hq, if_pos hempty]
      refine ⟨by simp, ?_, ?_⟩
      · rw [hnodes]
        exact behind_snoc hlast
      · rw [hnext]
        exact h.shape.links.next_last hlast
  · refine h.node_of_eq ?_
    rw [hrole, hq]
    split <;> rfl
  · rw [hq]
    split <;> trivial
  · intro u hu
    have hapart : ∀ {b}, (mcsRole (s.pc u)).node = some b → Apart s Q b →
        Apart s' (Q ++ [(t, ptr)]) b := by
      intro b hb hb'
      refine ⟨by rw [hlive]; exact hb'.1, hb'.2.1, ?_⟩
      rw [hnodes, List.mem_append, List.mem_singleton]
      rintro (hin | rfl)
      · exact hb'.2.2 hin
      · exact hu (h.node u t b hb (by rw [hrole]; rfl))
    have hstanding := h.standing u
    constructor
    · cases hr : mcsRole (s.pc u) <;> rw [hr] at hstanding hapart
      case none => trivial
      case fresh b => exact ⟨hapart rfl hstanding.1, by rw [hnext]; exact hstanding.2⟩
      case linking b pred =>
        refine ⟨List.mem_append_left _ hstanding.1, ?_, by rw [hnext]; exact hstanding.2.2⟩
        rw [hnodes]
        exact behind_append hstanding.2.1
      case waiting b =>
        refine ⟨List.mem_append_left _ hstanding.1, ?_⟩
        rw [hmem]
        intro hzero
        simp [List.head?_append, hstanding.2 hzero]
      case holding b =>
        have hfirst : Q.head? = some (u, b) := hstanding
        simp [McsStanding, List.head?_append, hfirst]
      case retiring b => exact hapart rfl hstanding
    · exact reads_congr (h.reads u) (fun a _ _ => congrFun hnext a) fun a _ _ => by rw [hmem]

/-- The thread locks its node. -/
theorem McsInv.setLocked (h : McsInv s Q) (hpc : s.pc t = .setLocked ptr pred) :
    McsInv ((s.store ptr { s.mem ptr with locked := 1 }).goto t (.link ptr pred)) Q := by
  have hrole : mcsRole (s.pc t) = .linking ptr pred := by rw [hpc]; rfl
  have hnext : ∀ a, mcsNext ((s.store ptr { s.mem ptr with locked := 1 }).goto t (.link ptr pred)) a
      = mcsNext s a := by
    intro a
    by_cases ha : a = ptr
    · simp [ha, mcsNext, McsLock.goto, McsLock.store]
    · simp [ha, mcsNext, McsLock.goto, McsLock.store]
  have hother : ∀ {u a}, u ≠ t → (mcsRole (s.pc u)).node = some a →
      Function.update s.mem ptr { s.mem ptr with locked := 1 } a = s.mem a := by
    intro u a hu ha
    refine Function.update_of_ne ?_ _ _
    rintro rfl
    exact hu (h.node u t a ha (by rw [hrole]; rfl))
  refine h.move rfl (h.shape.congr (fun a _ => hnext a) (fun _ _ => rfl) rfl) ?_ (h.node_of_eq ?_) ?_ ?_
  · have hstanding := h.standing t
    rw [hrole] at hstanding
    exact ⟨hstanding.1, hstanding.2.1, (hnext pred).trans hstanding.2.2⟩
  · rw [hrole]
    rfl
  · simp [McsReads, McsLock.goto, McsLock.store]
  · intro u hu
    refine ⟨standing_congr (h.standing u) (fun a _ => hnext a) ?_ (fun _ _ hlive => hlive),
      reads_congr (h.reads u) (fun a _ _ => hnext a) ?_⟩
    · exact fun b hb => congrArg McsNode.locked (hother hu (by rw [hb]; rfl))
    · exact fun b _ hb => congrArg McsNode.locked (hother hu (by rw [hb]; rfl))

/-- The link to the node is stored, which the thread in front may wait for. -/
theorem McsInv.link (h : McsInv s Q) (hpc : s.pc t = .link ptr pred) :
    McsInv ((s.store pred { s.mem pred with next := ptr }).goto t (.spin ptr)) Q := by
  have hrole : mcsRole (s.pc t) = .linking ptr pred := by rw [hpc]; rfl
  have hstanding := h.standing t
  rw [hrole] at hstanding
  obtain ⟨hmem, hbehind, hnone⟩ := hstanding
  have hnext : mcsNext ((s.store pred { s.mem pred with next := ptr }).goto t (.spin ptr))
      = Function.update (mcsNext s) pred ptr := by
    funext a
    by_cases ha : a = pred
    · simp [ha, mcsNext, McsLock.goto, McsLock.store]
    · simp [ha, mcsNext, McsLock.goto, McsLock.store]
  have hlocked : ∀ a, (Function.update s.mem pred { s.mem pred with next := ptr } a).locked
      = (s.mem a).locked := by
    intro a
    by_cases ha : a = pred
    · simp [ha]
    · simp [ha]
  have hother : ∀ {a}, a ≠ pred → Function.update (mcsNext s) pred ptr a = mcsNext s a :=
    fun ha => Function.update_of_ne ha _ _
  refine h.move rfl ⟨?_, h.shape.nodup, h.shape.alive, h.shape.tail⟩ ⟨hmem, ?_⟩ (h.node_of_eq ?_)
    trivial ?_
  · rw [hnext]
    exact h.shape.links.store h.shape.nodup hbehind
  · -- The node has been locked before.
    intro hzero
    have hread := h.reads t
    rw [hpc] at hread
    have hone : (s.mem ptr).locked = 1 := hread
    have hsame : (s.mem ptr).locked = 0 := (hlocked ptr).symm.trans hzero
    omega
  · rw [hrole]
    rfl
  · intro u hu
    have hu' := h.standing u
    refine ⟨standing_congr hu' ?_ (fun a _ => hlocked a) (fun _ _ hlive => hlive),
      reads_congr (h.reads u) ?_ fun a _ _ => hlocked a⟩
    · intro b hb
      rw [hnext]
      refine hother ?_
      rintro rfl
      rcases unlinked_eq_some hb with hr | ⟨ptr', hr⟩ <;> rw [hr] at hu'
      · exact hu'.1.2.2 (behind_mem hbehind).1
      · -- One node stands behind `pred`.
        obtain rfl := behind_unique h.shape.nodup hbehind hu'.2.1
        exact hu (owner_unique h.shape.nodup hu'.1 hmem)
    · intro b _ hsome
      rw [hnext]
      refine hother ?_
      rintro rfl
      exact hsome hnone

/-! ### The steps of `mcs_relinquish` -/

omit [DecidableEq T] in
/-- What is behind the front of the queue. -/
theorem McsInv.front (h : McsInv s Q) (hrole : mcsRole (s.pc t) = .holding ptr) :
    ∃ Q', Q = (t, ptr) :: Q' ∧ ptr ∉ nodes Q' := by
  have hstanding := h.standing t
  rw [hrole] at hstanding
  obtain ⟨Q', rfl⟩ := List.head?_eq_some_iff.mp hstanding
  exact ⟨Q', rfl, (List.nodup_cons.mp h.shape.nodup).1⟩

/-- The thread at the front leaves the queue. The one behind it, if there is
one, may go on. -/
theorem McsInv.leave (h : McsInv s ((t, ptr) :: Q)) (hrole : mcsRole (s.pc t) = .holding ptr)
    (hpc : s'.pc = Function.update s.pc t (.free ptr)) (hlive : s'.live = s.live)
    (hnext : mcsNext s' = mcsNext s) (htail : s'.tail = (nodes Q).getLast?.getD 0)
    (hlinked : Q ≠ [] → mcsNext s ptr ≠ 0)
    (hlocked : ∀ a, (s'.mem a).locked ≠ (s.mem a).locked → ∃ u, Q.head? = some (u, a)) :
    McsInv s' Q := by
  have hnodes : nodes ((t, ptr) :: Q) = ptr :: nodes Q := rfl
  have hnodup := h.shape.nodup
  rw [hnodes] at hnodup
  obtain ⟨hnot, hrest⟩ := List.nodup_cons.mp hnodup
  have hsame : ∀ {a}, (∀ u, Q.head? ≠ some (u, a)) → (s'.mem a).locked = (s.mem a).locked := by
    intro a ha
    by_contra hne
    obtain ⟨u, hu⟩ := hlocked a hne
    exact ha u hu
  have hrest' : ∀ {u b}, u ≠ t → (u, b) ∈ (t, ptr) :: Q → (u, b) ∈ Q := by
    intro u b hu hmem
    rcases List.mem_cons.mp hmem with heq | hmem
    · exact absurd (congrArg Prod.fst heq) hu
    · exact hmem
  refine h.move hpc ⟨?_, hrest, ?_, htail⟩ ?_ (h.node_of_eq ?_) trivial ?_
  · rw [hnext]
    exact h.shape.links.tail
  · intro a ha
    rw [hlive]
    exact h.shape.alive a (List.mem_cons_of_mem _ ha)
  · obtain ⟨halive, hne⟩ := h.shape.alive ptr List.mem_cons_self
    exact ⟨by rw [hlive]; exact halive, hne, hnot⟩
  · rw [hrole]
    rfl
  · intro u hu
    have hstanding := h.standing u
    have hapart : ∀ {b}, Apart s ((t, ptr) :: Q) b → Apart s' Q b := fun hb =>
      ⟨by rw [hlive]; exact hb.1, hb.2.1, fun hin => hb.2.2 (List.mem_cons_of_mem _ hin)⟩
    constructor
    · cases hr : mcsRole (s.pc u) <;> rw [hr] at hstanding
      case none => trivial
      case fresh b => exact ⟨hapart hstanding.1, by rw [hnext]; exact hstanding.2⟩
      case retiring b => exact hapart hstanding
      case linking b pred =>
        have hmem := hrest' hu hstanding.1
        refine ⟨hmem, behind_of_cons hstanding.2.1 ?_, by rw [hnext]; exact hstanding.2.2⟩
        -- The link of the front is there, the one from `pred` is missing.
        rintro rfl
        exact hlinked (List.ne_nil_of_mem hmem) hstanding.2.2
      case waiting b =>
        have hmem := hrest' hu hstanding.1
        refine ⟨hmem, fun hzero => ?_⟩
        by_cases hfirst : ∃ v, Q.head? = some (v, b)
        · obtain ⟨v, hv⟩ := hfirst
          rw [hv, owner_unique hrest (List.mem_of_mem_head? hv) hmem]
        · -- The node was unlocked before, and only the front may see that.
          have hbefore : ((t, ptr) :: Q).head? = some (u, b) :=
            hstanding.2 ((hsame fun v hv => hfirst ⟨v, hv⟩).symm.trans hzero)
          cases hbefore
          exact absurd rfl hu
      case holding b =>
        cases (show some (t, ptr) = some (u, b) from hstanding)
        exact absurd rfl hu
    · refine reads_congr (h.reads u) (fun a _ _ => congrFun hnext a) ?_
      intro b pred hb
      rw [hb] at hstanding
      refine hsame fun v hv => ?_
      -- A node at the front has nobody before it.
      have hmem := hrest' hu hstanding.1
      have hbehind : [pred, b] <:+: nodes Q := by
        refine behind_of_cons hstanding.2.1 ?_
        rintro rfl
        exact hlinked (List.ne_nil_of_mem hmem) hstanding.2.2
      have hhead : (nodes Q).head? = some b := by simp [nodes, hv]
      exact not_behind_first hrest hhead hbehind

/-- The last thread in the queue swings `tail` back. -/
theorem McsInv.casTail (h : McsInv s ((t, ptr) :: Q)) (hpc : s.pc t = .casTail ptr) (htail : s.tail = ptr) :
    Q = [] ∧ McsInv ({ s with tail := 0 }.goto t (.free ptr)) Q := by
  obtain ⟨hnot, -⟩ := List.nodup_cons.mp h.shape.nodup
  have hempty : Q = [] := by
    by_contra hne
    -- The last node would be another one.
    have hlast := h.shape.getLast (htail ▸ (h.shape.alive ptr List.mem_cons_self).2)
    obtain ⟨e, Q', rfl⟩ := List.exists_cons_of_ne_nil hne
    have hlast : (nodes (e :: Q')).getLast? = some ptr := by
      rw [← htail, ← hlast]
      exact (List.getLast?_cons_cons ..).symm
    exact hnot (List.mem_of_getLast? hlast)
  refine ⟨hempty, h.leave (by rw [hpc]; rfl) rfl rfl rfl ?_ (fun hne => absurd hempty hne) ?_⟩
  · rw [hempty]
    rfl
  · exact fun a hne => absurd rfl hne

/-- The thread unlocks the node behind its own. -/
theorem McsInv.unlock (h : McsInv s ((t, ptr) :: Q)) {next : NodePtr} (hpc : s.pc t = .unlock ptr next) :
    McsInv ((s.store next { s.mem next with locked := 0 }).goto t (.free ptr)) Q := by
  obtain ⟨hsome, hread⟩ : mcsNext s ptr ≠ 0 ∧ mcsNext s ptr = next := by
    have hreads := h.reads t
    rwa [hpc] at hreads
  obtain ⟨rest, hrest⟩ : ∃ rest, nodes Q = next :: rest := by
    rw [← hread]
    exact h.shape.links.head_next hsome
  have hlast : (nodes ((t, ptr) :: Q)).getLast? = (nodes Q).getLast? := by
    show (ptr :: nodes Q).getLast? = _
    rw [hrest, List.getLast?_cons_cons]
  refine h.leave (by rw [hpc]; rfl) rfl rfl ?_ ?_ (fun _ => hsome) ?_
  · funext a
    by_cases ha : a = next
    · simp [ha, mcsNext, McsLock.goto, McsLock.store]
    · simp [ha, mcsNext, McsLock.goto, McsLock.store]
  · rw [← hlast]
    exact h.shape.tail
  · intro a hne
    have ha : a = next := by
      by_contra ha
      exact hne (by simp [ha, McsLock.goto, McsLock.store])
    obtain ⟨e, Q', rfl⟩ := List.exists_cons_of_ne_nil (l := Q) (by rintro rfl; cases hrest)
    refine ⟨e.1, ?_⟩
    rw [ha, ← (List.cons.inj hrest).1]
    rfl

/-- The thread frees its node. -/
theorem McsInv.free (h : McsInv s Q) (hpc : s.pc t = .free ptr) :
    McsInv ({ s with live := Function.update s.live ptr false }.goto t .idle) Q := by
  have hrole : mcsRole (s.pc t) = .retiring ptr := by rw [hpc]; rfl
  have hstanding := h.standing t
  rw [hrole] at hstanding
  have hapart : Apart s Q ptr := hstanding
  refine h.move rfl (h.shape.congr (fun _ _ => rfl) ?_ rfl) trivial ?_ trivial ?_
  · intro a ha
    refine Function.update_of_ne ?_ _ _
    rintro rfl
    exact hapart.2.2 ha
  · intro a ha
    cases ha
  · intro u hu
    refine ⟨standing_congr (h.standing u) (fun _ _ => rfl) (fun _ _ => rfl) ?_,
      reads_congr (h.reads u) (fun _ _ _ => rfl) fun _ _ _ => rfl⟩
    intro a ha hlive
    refine (Function.update_of_ne ?_ _ _).trans hlive
    rintro rfl
    exact hu (h.node u t a ha (by rw [hrole]; rfl))

/-! ### The order of the grants -/

omit [DecidableEq T] in
/-- Only the thread at the front holds the lock. -/
theorem McsInv.holder (h : McsInv s Q) (ht : holds (s.pc t)) : ∃ ptr, Q.head? = some (t, ptr) := by
  obtain ⟨ptr, hrole⟩ := ht
  have hstanding := h.standing t
  rw [hrole] at hstanding
  exact ⟨ptr, hstanding⟩

omit [DecidableEq T] in
theorem McsInv.alone (h : McsInv s Q) (ht : holds (s.pc t)) (hu : holds (s.pc u)) : t = u := by
  obtain ⟨_, ht⟩ := h.holder ht
  obtain ⟨_, hu⟩ := h.holder hu
  exact congrArg Prod.fst (Option.some.inj (ht.symm.trans hu))

/-- A step that is neither an exchange nor a grant nor a release. -/
theorem McsFlow.stay (h : McsFlow s Q) (hpc : s'.pc = Function.update s.pc t q)
    (hexchanged : s'.exchanged = s.exchanged) (hgranted : s'.granted = s.granted)
    (hholds : holds q ↔ holds (s.pc t)) : McsFlow s' Q := by
  have hsame : ∀ u, holds (s'.pc u) ↔ holds (s.pc u) := by
    intro u
    by_cases hu : u = t
    · simp [hpc, hu, hholds]
    · simp [hpc, hu]
  obtain ⟨left, hleft, hcases⟩ := h
  refine ⟨left, hexchanged.trans hleft, ?_⟩
  simpa [hsame, hgranted] using hcases

/-- The thread joins the queue, and has the lock if the queue was empty. -/
theorem McsFlow.join (h : McsFlow s Q) (hinv : McsInv s Q) (hpc : s'.pc = Function.update s.pc t q)
    (hexchanged : s'.exchanged = s.exchanged ++ [(t, ptr)])
    (hgranted : s'.granted = s.granted ++ if Q = [] then [(t, ptr)] else [])
    (hbefore : ¬ holds (s.pc t)) (hholds : holds q ↔ Q = []) : McsFlow s' (Q ++ [(t, ptr)]) := by
  obtain ⟨left, hleft, hcases⟩ := h
  refine ⟨left, by rw [hexchanged, hleft, List.append_assoc], ?_⟩
  cases Q with
  | nil =>
    have hself : holds (s'.pc t) := by simp [hpc, hholds]
    have hnobody : s.granted = left := by
      rcases hcases with ⟨-, hgranted⟩ | ⟨-, hgranted⟩ <;> simpa using hgranted
    exact Or.inl ⟨⟨t, hself⟩, by simp [hgranted, hnobody]⟩
  | cons e Q' =>
    have hsame : ∀ u, holds (s'.pc u) ↔ holds (s.pc u) := by
      intro u
      by_cases hu : u = t
      · simp [hpc, hu, hholds, hbefore]
      · simp [hpc, hu]
    simpa [hsame, hgranted] using hcases

/-- The thread at the front finds its node unlocked. -/
theorem McsFlow.grant (h : McsFlow s Q) (hinv : McsInv s Q) (hpc : s'.pc = Function.update s.pc t q)
    (hexchanged : s'.exchanged = s.exchanged) (hgranted : s'.granted = s.granted ++ [(t, ptr)])
    (hfirst : Q.head? = some (t, ptr)) (hbefore : ¬ holds (s.pc t)) (hholds : holds q) :
    McsFlow s' Q := by
  obtain ⟨left, hleft, hcases⟩ := h
  refine ⟨left, hexchanged.trans hleft, Or.inl ⟨⟨t, by simpa [hpc] using hholds⟩, ?_⟩⟩
  rcases hcases with ⟨⟨u, hu⟩, -⟩ | ⟨-, hnobody⟩
  · -- The thread at the front is this one, which waits.
    obtain ⟨ptr', hhead⟩ := hinv.holder hu
    cases hfirst.symm.trans hhead
    exact absurd hu hbefore
  · rw [hgranted, hnobody, hfirst]
    rfl

/-- The thread at the front hands the lock over. -/
theorem McsFlow.leave (h : McsFlow s ((t, ptr) :: Q)) (hinv : McsInv s ((t, ptr) :: Q))
    (hpc : s'.pc = Function.update s.pc t q) (hexchanged : s'.exchanged = s.exchanged)
    (hgranted : s'.granted = s.granted) (hbefore : holds (s.pc t)) (hholds : ¬ holds q) :
    McsFlow s' Q := by
  obtain ⟨left, hleft, hcases⟩ := h
  refine ⟨left ++ [(t, ptr)], by rw [hexchanged, hleft, List.append_assoc]; rfl, Or.inr ⟨?_, ?_⟩⟩
  · intro u hu
    by_cases hut : u = t
    · exact hholds (by simpa [hpc, hut] using hu)
    · rw [hpc, Function.update_of_ne hut] at hu
      exact hut (hinv.alone hu hbefore)
  · rcases hcases with ⟨-, hfirst⟩ | ⟨hnobody, -⟩
    · exact hgranted.trans hfirst
    · exact absurd hbefore (hnobody t)

/-! ### All steps -/

/-- The queue in the memory, and the order of the grants. -/
def McsFair (s : McsLock T) : Prop := ∃ Q, McsInv s Q ∧ McsFlow s Q

/-- A step that changes only the place of the thread. -/
theorem McsInv.goto (h : McsInv s Q) (hflow : McsFlow s Q) (hrole : mcsRole q = mcsRole (s.pc t))
    (hreads : McsReads s q) : McsFair (s.goto t q) := by
  refine ⟨Q, h.plain rfl rfl rfl rfl (by rw [hrole]) ?_ hreads,
    hflow.stay rfl rfl rfl (by rw [holds, holds, hrole])⟩
  rw [hrole]
  exact h.standing t

theorem McsFair.getAccess (h : McsFair s) (hstep : s.getAccessStep t (s.pc t) = some s') :
    McsFair s' := by
  obtain ⟨Q, hinv, hflow⟩ := h
  cases hpc : s.pc t with
  | exchange ptr =>
    rw [hpc] at hstep
    cases hstep
    have hbefore : ¬ holds (s.pc t) := by simp [hpc, holds, mcsRole]
    by_cases hempty : s.tail = 0
    · have hQ : Q = [] := hinv.shape.eq_nil hempty
      refine ⟨Q ++ [(t, ptr)], ?_⟩
      rw [if_neg (not_not.mpr hempty)]
      refine ⟨hinv.exchange hpc rfl rfl rfl rfl (by simp [hempty]), ?_⟩
      exact hflow.join (q := .inside ptr) hinv rfl rfl (by simp [hQ, McsLock.grant, McsLock.goto])
        hbefore (by simp [hQ, holds, mcsRole])
    · have hQ : Q ≠ [] := by
        rintro rfl
        exact hempty hinv.shape.tail
      refine ⟨Q ++ [(t, ptr)], ?_⟩
      rw [if_pos hempty]
      refine ⟨hinv.exchange hpc rfl rfl rfl rfl (by simp [hempty]), ?_⟩
      exact hflow.join (q := .setLocked ptr s.tail) hinv rfl rfl (by simp [hQ, McsLock.goto])
        hbefore (by simp [hQ, holds, mcsRole])
  | setLocked ptr pred =>
    rw [hpc] at hstep
    cases hstep
    exact ⟨Q, hinv.setLocked hpc, hflow.stay rfl rfl rfl (by simp [hpc, holds, mcsRole])⟩
  | link ptr pred =>
    rw [hpc] at hstep
    cases hstep
    exact ⟨Q, hinv.link hpc, hflow.stay rfl rfl rfl (by simp [hpc, holds, mcsRole])⟩
  | spin ptr =>
    rw [hpc] at hstep
    cases hstep
    split
    · exact hinv.goto hflow (by rw [hpc]) trivial
    · -- The node is unlocked, so the thread is at the front.
      rename_i hunlocked
      have hstanding := hinv.standing t
      rw [hpc] at hstanding
      have hfirst : Q.head? = some (t, ptr) := hstanding.2 (not_not.mp hunlocked)
      refine ⟨Q, hinv.plain rfl rfl rfl rfl (by rw [hpc]; rfl) hfirst trivial, ?_⟩
      exact hflow.grant hinv rfl rfl rfl hfirst (by simp [hpc, holds, mcsRole]) ⟨ptr, rfl⟩
  | _ =>
    rw [hpc] at hstep
    cases hstep

theorem McsFair.relinquish (h : McsFair s) (hstep : s.relinquishStep t (s.pc t) = some s') :
    McsFair s' := by
  obtain ⟨Q, hinv, hflow⟩ := h
  cases hpc : s.pc t with
  | testNext ptr =>
    rw [hpc] at hstep
    cases hstep
    split
    · exact hinv.goto hflow (by rw [hpc]; rfl) trivial
    · exact hinv.goto hflow (by rw [hpc]; rfl) trivial
  | casTail ptr =>
    rw [hpc] at hstep
    cases hstep
    split
    · rename_i htail
      have hrole : mcsRole (s.pc t) = .holding ptr := by rw [hpc]; rfl
      obtain ⟨Q', rfl, -⟩ := hinv.front hrole
      refine ⟨Q', (hinv.casTail hpc htail).2, ?_⟩
      exact hflow.leave hinv rfl rfl rfl ⟨ptr, by rw [hpc]; rfl⟩ (by simp [holds, mcsRole])
    · exact hinv.goto hflow (by rw [hpc]; rfl) trivial
  | awaitNext ptr =>
    rw [hpc] at hstep
    cases hstep
    split
    · exact hinv.goto hflow (by rw [hpc]) trivial
    · rename_i hsome
      exact hinv.goto hflow (by rw [hpc]; rfl) hsome
  | loadNext ptr =>
    rw [hpc] at hstep
    cases hstep
    have hread := hinv.reads t
    rw [hpc] at hread
    exact hinv.goto hflow (by rw [hpc]; rfl) ⟨hread, rfl⟩
  | unlock ptr next =>
    rw [hpc] at hstep
    cases hstep
    have hrole : mcsRole (s.pc t) = .holding ptr := by rw [hpc]; rfl
    obtain ⟨Q', rfl, -⟩ := hinv.front hrole
    refine ⟨Q', hinv.unlock hpc, ?_⟩
    exact hflow.leave hinv rfl rfl rfl ⟨ptr, by rw [hpc]; rfl⟩ (by simp [holds, mcsRole])
  | free ptr =>
    rw [hpc] at hstep
    cases hstep
    exact ⟨Q, hinv.free hpc, hflow.stay rfl rfl rfl (by simp [hpc, holds, mcsRole])⟩
  | _ =>
    rw [hpc] at hstep
    cases hstep

theorem McsFair.step (h : McsFair s) (hstep : McsLock.step l s = some s') : McsFair s' := by
  cases l with
  | getAccess t =>
    simp only [McsLock.step] at hstep
    split at hstep
    case isFalse => cases hstep
    case isTrue hpc =>
      cases hstep
      obtain ⟨Q, hinv, hflow⟩ := h
      exact hinv.goto hflow (by rw [hpc]; rfl) trivial
  | malloc t a =>
    simp only [McsLock.step] at hstep
    split at hstep
    case isFalse => cases hstep
    case isTrue hfresh =>
      cases hstep
      obtain ⟨Q, hinv, hflow⟩ := h
      obtain ⟨hpc, hne, hfree⟩ := hfresh
      exact ⟨Q, hinv.malloc hne hfree, hflow.stay rfl rfl rfl (by simp [hpc, holds, mcsRole])⟩
  | relinquish t =>
    simp only [McsLock.step] at hstep
    split at hstep
    case h_1 ptr hpc =>
      cases hstep
      obtain ⟨Q, hinv, hflow⟩ := h
      exact hinv.goto hflow (by rw [hpc]; rfl) trivial
    case h_2 => cases hstep
  | access t =>
    rcases Option.or_eq_some_iff.mp hstep with hstep | ⟨-, hstep⟩
    · exact h.getAccess hstep
    · exact h.relinquish hstep

omit [DecidableEq T] in
theorem McsFlow.order (h : McsFlow s Q) : s.granted <+: s.exchanged := by
  obtain ⟨left, hleft, ⟨-, hgranted⟩ | ⟨-, hgranted⟩⟩ := h
  · rw [hleft, hgranted, List.prefix_append_right_inj]
    cases Q with
    | nil => exact List.prefix_refl _
    | cons e Q' => exact ⟨Q', rfl⟩
  · rw [hleft, hgranted]
    exact List.prefix_append _ _

omit [DecidableEq T] in
theorem McsInv.alive (h : McsInv s Q) (ha : a ∈ pointers (s.pc t)) : s.live a = true := by
  -- Of two pointers one is to the node of the thread, the other into the queue.
  have hnode : (mcsRole (s.pc t)).node = some a ∨ a ∈ nodes Q := by
    have hstanding := h.standing t
    have hread := h.reads t
    cases hpc : s.pc t <;> rw [hpc] at ha hstanding hread <;> simp only [pointers, List.mem_cons,
      List.not_mem_nil, or_false] at ha
    case setLocked ptr pred =>
      refine ha.imp (fun h => by rw [h]; rfl) fun heq => ?_
      rw [heq]
      exact (behind_mem hstanding.2.1).1
    case link ptr pred =>
      refine ha.imp (fun h => by rw [h]; rfl) fun heq => ?_
      rw [heq]
      exact (behind_mem hstanding.2.1).1
    case unlock ptr next =>
      refine ha.imp (fun h => by rw [h]; rfl) fun heq => ?_
      have hrole : mcsRole (s.pc t) = .holding ptr := by rw [hpc]; rfl
      obtain ⟨Q', rfl, -⟩ := h.front hrole
      obtain ⟨rest, hrest⟩ := h.shape.links.head_next hread.1
      rw [heq, ← hread.2]
      exact List.mem_cons_of_mem _ (hrest ▸ List.mem_cons_self)
    all_goals exact Or.inl (by rw [ha]; rfl)
  rcases hnode with hmine | hqueue
  · exact (h.node_live hmine).1
  · exact (h.shape.alive a hqueue).1

/-- In every run of any number of threads, at most one thread has the lock,
it is granted in the order of the exchanges on `tail`, and no thread keeps a
pointer to a node that has been freed. -/
theorem mcsLock_fair (h : Reach McsLock.step (fun _ _ => True) (McsLock.init T) s) : FairLock s := by
  obtain ⟨Q, hinv, hflow⟩ : McsFair s := by
    refine h.invariant ⟨[], mcsInv_init, mcsFlow_init⟩ ?_
    exact fun _ _ _ hs _ hstep => McsFair.step hs hstep
  exact ⟨fun t u ht hu => hinv.alone ht hu, hflow.order, fun t a ha => hinv.alive ha⟩

/-- The thread `t` calls `mcs_get_access`, gets the node `a` and makes `n`
accesses. -/
def accessBy (t : Nat) (a : NodePtr) (n : Nat) : List (McsLabel Nat) :=
  [.getAccess t, .malloc t a] ++ List.replicate n (.access t)

/-- Thread 0 finds its node the last one, but thread 1 is behind it and has
not stored its link. Thread 2 gets the node that thread 0 has freed. -/
theorem mcsLock_fair_sample :
    ∃ s : McsLock Nat, s.granted = [(0, 1), (1, 2)] ∧ s.exchanged = [(0, 1), (1, 2), (2, 1)] ∧
      FairLock s :=
  ⟨_, rfl, rfl, mcsLock_fair (Reach.of_run .init
    (accessBy 0 1 1 ++ [.relinquish 0, .access 0] ++ accessBy 1 2 1 ++ List.replicate 2 (.access 0) ++
      List.replicate 2 (.access 1) ++ List.replicate 4 (.access 0) ++ accessBy 2 1 3 ++ [.access 1])
    rfl)⟩

end Efio.Proofs.Evsync
