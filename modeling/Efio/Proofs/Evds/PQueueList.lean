import Efio.Lib.DelayedLinks
import Efio.Spec.PQueueFlow
import Mathlib.Algebra.GroupWithZero.Nat
import Mathlib.Data.List.Nodup

/-!
# `Efio.Proofs.Evds.PQueueList`: the lists of the lanes

`PInv s L` describes the memory in every state of an `ev_pqueue`: `L i` are
the nodes exchanged into the tail of the lane `i` and not yet taken off,
linked from behind (`Delayed`), with the tail at the end and the head,
while it is not `NULL`, at the front.

There is one lemma for each kind of access. `PInv.exchange` puts a node at
the end of its lane, and `PInv.remove` takes off the first one: when the
head moves to the second element, when the tail is cleared, and when the
head is stored again after the link has appeared.
-/

set_option autoImplicit false

namespace Efio.Proofs.Evds

open Efio.Lib
open Efio.Evds
open Efio.Spec

variable {s s' : EvPQueue} {L L' : Int → List Addr} {t : Nat} {q : PQueuePc} {r : PRole} {N : Int}

/-- The links of the nodes. -/
def pnext (s : EvPQueue) (a : Addr) : Addr := (s.mem a).next

/-- Head and tail of a lane, and the list between them. -/
structure LaneShape (s : EvPQueue) (i : Int) (l : List Addr) : Prop where
  links : Delayed (pnext s) l
  nodup : l.Nodup
  alive : ∀ a ∈ l, s.live a = true ∧ a ≠ 0
  tail : s.tail i = l.getLast?.getD 0
  head : s.head i ≠ 0 → l.head? = some (s.head i)

/-- The lanes, which share no node. -/
structure PShape (s : EvPQueue) (L : Int → List Addr) : Prop where
  lane : ∀ i, LaneShape s i (L i)
  apart : ∀ i j a, a ∈ L i → a ∈ L j → i = j

/-- Where the node of a thread is. -/
def Standing (s : EvPQueue) (L : Int → List Addr) : PRole → Prop
  | .none => True
  | .fresh a | .retiring a => s.live a = true ∧ a ≠ 0 ∧ ∀ i, a ∉ L i
  | .linking i p last => [last, p] <:+: L i ∧ pnext s last = 0
  | .heading i p => (L i).head? = some p ∧ s.head i = 0
  | .active i a => (L i).head? = some a ∧ s.head i = a
  | .blanked i a => (L i).head? = some a ∧ s.head i = 0

/-- The invariant of the memory. -/
structure PInv (s : EvPQueue) (L : Int → List Addr) : Prop where
  shape : PShape s L
  standing : ∀ t, Standing s L (prole s.N (s.pc t))
  token : ∀ t u a, (prole s.N (s.pc t)).token = some a → (prole s.N (s.pc u)).token = some a → t = u
  reads : ∀ t, PReads s (s.pc t)

/-! ### Roles -/

theorem standing_of_owned {a : Addr} (h : Standing s L r) (hr : r.owned = some a) :
    s.live a = true ∧ a ≠ 0 ∧ ∀ i, a ∉ L i := by
  cases r <;> cases hr <;> exact h

/-- A token is the address of an allocated node. -/
theorem standing_token_live (h : Standing s L r) (hshape : PShape s L) {a : Addr}
    (htoken : r.token = some a) : s.live a = true ∧ a ≠ 0 := by
  cases r <;> cases htoken
  case fresh => exact ⟨h.1, h.2.1⟩
  case linking i last => exact (hshape.lane i).alive a (behind_mem h.1).2
  case heading i => exact (hshape.lane i).alive a (List.mem_of_mem_head? h.1)
  case active i => exact (hshape.lane i).alive a (List.mem_of_mem_head? h.1)
  case blanked i => exact (hshape.lane i).alive a (List.mem_of_mem_head? h.1)
  case retiring => exact ⟨h.1, h.2.1⟩

/-- The first node of a lane with a stored head is the token of nobody but
the thread that has seen it. -/
theorem standing_token_ne_head (h : Standing s L r) (hshape : PShape s L) {i : Int} {a b : Addr}
    (hfirst : (L i).head? = some a) (hhead : s.head i ≠ 0) (hr : ∀ j c, r ≠ .active j c)
    (htoken : r.token = some b) : b ≠ a := by
  have hmem : a ∈ L i := List.mem_of_mem_head? hfirst
  rintro rfl
  cases r <;> cases htoken
  case fresh => exact h.2.2 i hmem
  case linking j last =>
    -- A node with a predecessor is not the first one.
    obtain rfl := hshape.apart j i b (behind_mem h.1).2 hmem
    have hnodup := (hshape.lane j).nodup
    cases hl : L j with
    | nil =>
      rw [hl] at hmem
      cases hmem
    | cons c l =>
      rw [hl] at hfirst hnodup
      obtain rfl := Option.some.inj hfirst
      have hnot := (List.nodup_cons.mp hnodup).1
      have hbehind := h.1
      rw [hl] at hbehind
      rcases behind_cons hbehind with ⟨l', -, hl'⟩ | hbehind
      · exact hnot (hl' ▸ List.mem_cons_self)
      · exact hnot (behind_mem hbehind).2
  case heading j =>
    obtain rfl := hshape.apart j i b (List.mem_of_mem_head? h.1) hmem
    exact hhead h.2
  case active j => exact hr j b rfl
  case blanked j =>
    obtain rfl := hshape.apart j i b (List.mem_of_mem_head? h.1) hmem
    exact hhead h.2
  case retiring => exact h.2.2 i hmem

/-! ### What the threads know -/

/-- What has been read stays there when the data does, and when only missing
links of nodes on the lanes are stored. -/
theorem preads_congr (h : PReads s q)
    (hnext : ∀ a, (prole N q).token = some a → (s'.mem a).next = (s.mem a).next ∨
      (s.mem a).next = 0 ∧ (prole N q).owned ≠ some a)
    (hdata : ∀ a, (prole N q).token = some a → (s'.mem a).data = (s.mem a).data)
    (henq : ∀ k d, Enqueued s k d → Enqueued s' k d) : PReads s' q := by
  have hfresh : ∀ p : Addr, ∀ k : Int, (prole N q).token = some p → (prole N q).owned = some p →
      (s.mem p).next = 0 ∧ Enqueued s k (s.mem p).data →
      (s'.mem p).next = 0 ∧ Enqueued s' k (s'.mem p).data := by
    intro p k htoken howned hp
    rw [hdata p htoken]
    rcases hnext p htoken with heq | ⟨-, hne⟩
    · exact ⟨heq.trans hp.1, henq k _ hp.2⟩
    · exact absurd howned hne
  cases q with
  | lbInc data k => exact henq k data h
  | alloc data k => exact henq k data h
  | enqEnter p k => exact hfresh p k rfl rfl h
  | exchange p k => exact hfresh p k rfl rfl h
  | storeHead k a second =>
    rcases hnext a rfl with heq | ⟨hnone, -⟩
    · exact h.imp_right fun h => heq.trans h
    · exact Or.inl (h.elim id fun h => h.symm.trans hnone)
  | reload k a =>
    rcases hnext a rfl with heq | ⟨hnone, -⟩
    · exact fun hnone => h (heq.symm.trans hnone)
    · exact absurd hnone h
  | restoreHead k a second =>
    rcases hnext a rfl with heq | ⟨hnone, -⟩
    · exact ⟨h.1, heq.trans h.2⟩
    · exact absurd (h.2.symm.trans hnone) h.1
  | deqExit k a =>
    show Enqueued s' k (s'.mem a).data
    rw [hdata a rfl]
    exact henq k _ h
  | readData k a =>
    show Enqueued s' k (s'.mem a).data
    rw [hdata a rfl]
    exact henq k _ h
  | free k a data => exact ⟨henq k data h.1, (hdata a rfl).trans h.2⟩
  | _ => trivial

/-- The memory is the same where the thread looks. -/
theorem preads_of_mem (h : PReads s q) (hmem : ∀ a, (prole N q).token = some a → s'.mem a = s.mem a)
    (henq : ∀ k d, Enqueued s k d → Enqueued s' k d) : PReads s' q :=
  preads_congr h (fun a ha => Or.inl (congrArg PNode.next (hmem a ha)))
    (fun a ha => congrArg PNode.data (hmem a ha)) henq

theorem enqueued_congr {k : Int} {d : Nat} (heq : s'.enqueued = s.enqueued) (h : Enqueued s k d) :
    Enqueued s' k d := by
  rw [Enqueued, heq]
  exact h

/-! ### One thread moves -/

/-- The thread `t` moves to `q`. Its token is the one it had, or nobody
else's. -/
theorem PInv.move (h : PInv s L) (hN : s'.N = s.N) (hpc : s'.pc = Function.update s.pc t q)
    (hshape : PShape s' L') (hstanding : Standing s' L' (prole s.N q))
    (htoken : ∀ a, (prole s.N q).token = some a → ∀ u, u ≠ t → (prole s.N (s.pc u)).token ≠ some a)
    (hreads : PReads s' q)
    (hothers : ∀ u, u ≠ t → Standing s' L' (prole s.N (s.pc u)) ∧ PReads s' (s.pc u)) :
    PInv s' L' := by
  have hself : s'.pc t = q := by rw [hpc, Function.update_self]
  have hother : ∀ u, u ≠ t → s'.pc u = s.pc u := by
    intro u hu
    rw [hpc, Function.update_of_ne hu]
  refine ⟨hshape, ?_, ?_, ?_⟩ <;> rw [hN] at *
  · intro u
    by_cases hu : u = t
    · rw [hu, hself]
      exact hstanding
    · rw [hother u hu]
      exact (hothers u hu).1
  · intro u v a hu hv
    by_cases hut : u = t <;> by_cases hvt : v = t
    · rw [hut, hvt]
    · rw [hut, hself] at hu
      rw [hother v hvt] at hv
      exact absurd hv (htoken a hu v hvt)
    · rw [hvt, hself] at hv
      rw [hother u hut] at hu
      exact absurd hu (htoken a hv u hut)
    · rw [hother u hut] at hu
      rw [hother v hvt] at hv
      exact h.token u v a hu hv
  · intro u
    by_cases hu : u = t
    · rw [hu, hself]
      exact hreads
    · rw [hother u hu]
      exact (hothers u hu).2

/-- The thread keeps its token, or drops it. -/
theorem PInv.token_of_eq (h : PInv s L) (hr : ∀ a, r.token = some a → (prole s.N (s.pc t)).token = some a) :
    ∀ a, r.token = some a → ∀ u, u ≠ t → (prole s.N (s.pc u)).token ≠ some a := by
  intro a ha u hu hother
  exact hu (h.token u t a hother (hr a ha))

/-! ### Steps that change neither lists nor nodes -/

theorem PShape.congr (h : PShape s L) (hmem : s'.mem = s.mem) (hlive : s'.live = s.live)
    (htail : s'.tail = s.tail) (hhead : s'.head = s.head) : PShape s' L := by
  refine ⟨fun i => ⟨?_, (h.lane i).nodup, ?_, ?_, ?_⟩, h.apart⟩
  · exact (h.lane i).links.congr fun a _ => by rw [pnext, pnext, hmem]
  · rw [hlive]
    exact (h.lane i).alive
  · rw [htail]
    exact (h.lane i).tail
  · rw [hhead]
    exact (h.lane i).head

/-- The lane at whose front the thread stands. -/
def PRole.front : PRole → Option Int
  | .heading i _ | .active i _ | .blanked i _ => some i
  | _ => Option.none

/-- A thread looks at the head of a lane only from its front. -/
theorem standing_congr (h : Standing s L r) (hmem : s'.mem = s.mem) (hlive : s'.live = s.live)
    (hhead : ∀ i, PRole.front r = some i → s'.head i = s.head i) : Standing s' L r := by
  cases r with
  | none => trivial
  | linking i p last => exact ⟨h.1, by rw [pnext, hmem]; exact h.2⟩
  | fresh a =>
    rw [Standing, hlive]
    exact h
  | retiring a =>
    rw [Standing, hlive]
    exact h
  | heading i p => exact ⟨h.1, (hhead i rfl).trans h.2⟩
  | active i a => exact ⟨h.1, (hhead i rfl).trans h.2⟩
  | blanked i a => exact ⟨h.1, (hhead i rfl).trans h.2⟩

/-- Two threads do not stand at the front of one lane. -/
theorem front_ne (h : Standing s L r) {i : Int} {a : Addr} (hfirst : (L i).head? = some a)
    (hne : r.token ≠ some a) : PRole.front r ≠ some i := by
  intro hfront
  cases r <;> cases hfront
  case heading p => exact hne (h.1.symm.trans hfirst)
  case active b => exact hne (h.1.symm.trans hfirst)
  case blanked b => exact hne (h.1.symm.trans hfirst)

/-- The thread moves, and the lists, the nodes and its part stay. -/
theorem PInv.plain (h : PInv s L) (hN : s'.N = s.N) (hpc : s'.pc = Function.update s.pc t q)
    (hmem : s'.mem = s.mem) (hlive : s'.live = s.live) (htail : s'.tail = s.tail)
    (hhead : s'.head = s.head) (hrole : prole s.N q = prole s.N (s.pc t))
    (henq : ∀ k d, Enqueued s k d → Enqueued s' k d) (hreads : PReads s' q) : PInv s' L := by
  refine h.move hN hpc (h.shape.congr hmem hlive htail hhead) ?_ (h.token_of_eq ?_) hreads ?_
  · rw [hrole]
    exact standing_congr (h.standing t) hmem hlive fun i _ => congrFun hhead i
  · rw [hrole]
    exact fun _ ha => ha
  · intro u _
    exact ⟨standing_congr (h.standing u) hmem hlive fun i _ => congrFun hhead i,
      preads_of_mem (N := s.N) (h.reads u) (fun a _ => congrFun hmem a) henq⟩

/-- The thread sees that the head is not `NULL`. -/
theorem PInv.claim (h : PInv s L) {k : Int}
    (hhead : s.head (EvPQueue.index s.N k) ≠ 0)
    (hserved : ∀ u, u ≠ t → ∀ a, prole s.N (s.pc u) ≠ .active (EvPQueue.index s.N k) a) :
    PInv (s.goto t (.loadNext k (s.head (EvPQueue.index s.N k)))) L := by
  have hfirst := (h.shape.lane (EvPQueue.index s.N k)).head hhead
  refine h.move rfl rfl (h.shape.congr rfl rfl rfl rfl) ⟨hfirst, rfl⟩ ?_ trivial ?_
  · intro a ha u hu hau
    obtain rfl := Option.some.inj ha
    refine standing_token_ne_head (h.standing u) h.shape hfirst hhead ?_ hau rfl
    intro j c hr
    -- A thread that has seen the same node stands on the same lane.
    have hstanding := h.standing u
    rw [hr] at hstanding hau
    obtain rfl := Option.some.inj hau
    obtain rfl := h.shape.apart j _ _ (List.mem_of_mem_head? hstanding.1) (List.mem_of_mem_head? hfirst)
    exact hserved u hu _ hr
  · intro u _
    exact ⟨standing_congr (h.standing u) rfl rfl fun _ _ => rfl,
      preads_of_mem (N := s.N) (h.reads u) (fun _ _ => rfl) fun _ _ he => he⟩

/-! ### `enqueue_ev_pqueue` -/

/-- `malloc` returns a node that is nobody's, and the enqueue fills it in. -/
theorem PInv.malloc (h : PInv s L) {a : Addr} {k : Int} {data : Nat}
    (hpc : s.pc t = .alloc data k) (hnull : a ≠ 0) (hfree : s.live a = false) :
    PInv ({ s.store a { data := data, next := 0 } with
      live := Function.update s.live a true }.goto t (.enqEnter a k)) L := by
  have hnew : ∀ b, s.live b = true → b ≠ a := by
    rintro b hb rfl
    exact Bool.false_ne_true (hfree.symm.trans hb)
  have hself : (s.store a { data := data, next := 0 }).mem a = { data := data, next := 0 } :=
    Function.update_self _ _ _
  have hmem : ∀ b, s.live b = true → (s.store a { data := data, next := 0 }).mem b = s.mem b :=
    fun b hb => Function.update_of_ne (hnew b hb) _ _
  have hlive : ∀ b, s.live b = true → Function.update s.live a true b = true := by
    intro b hb
    rw [Function.update_of_ne (hnew b hb)]
    exact hb
  have hout : ∀ i, a ∉ L i := by
    intro i hin
    exact hnew a ((h.shape.lane i).alive a hin).1 rfl
  refine h.move rfl rfl ⟨fun i => ⟨?_, (h.shape.lane i).nodup, ?_, (h.shape.lane i).tail,
    (h.shape.lane i).head⟩, h.shape.apart⟩ ⟨Function.update_self _ _ _, hnull, hout⟩ ?_ ?_ ?_
  · exact (h.shape.lane i).links.congr fun b hb =>
      congrArg PNode.next (hmem b ((h.shape.lane i).alive b hb).1)
  · intro b hb
    exact ⟨hlive b ((h.shape.lane i).alive b hb).1, ((h.shape.lane i).alive b hb).2⟩
  · -- A fresh node is nobody's token, since tokens are allocated.
    intro b hb u _ hu
    obtain rfl := Option.some.inj hb
    exact hnew a (standing_token_live (h.standing u) h.shape hu).1 rfl
  · have hreads := h.reads t
    rw [hpc] at hreads
    have hdata : (s.store a { data := data, next := 0 }).mem a = { data := data, next := 0 } := hself
    refine ⟨congrArg PNode.next hdata, ?_⟩
    show Enqueued s k ((s.store a { data := data, next := 0 }).mem a).data
    rw [hdata]
    exact hreads
  · intro u _
    refine ⟨?_, preads_of_mem (N := s.N) (h.reads u) ?_ fun _ _ he => he⟩
    · have hu := h.standing u
      cases hr : prole s.N (s.pc u) <;> rw [hr] at hu
      case none => trivial
      case linking i p last =>
        exact ⟨hu.1, (congrArg PNode.next
          (hmem last ((h.shape.lane i).alive last (behind_mem hu.1).1).1)).trans hu.2⟩
      case fresh b => exact ⟨hlive b hu.1, hu.2⟩
      case retiring b => exact ⟨hlive b hu.1, hu.2⟩
      case heading i p => exact hu
      case active i b => exact hu
      case blanked i b => exact hu
    · intro b hb
      exact hmem b (standing_token_live (h.standing u) h.shape hb).1

/-- The last address of a lane is its tail. -/
theorem LaneShape.getLast_of_tail {i : Int} {l : List Addr} (h : LaneShape s i l)
    (hne : s.tail i ≠ 0) : l.getLast? = some (s.tail i) := by
  have htail := h.tail
  cases hlast : l.getLast? with
  | none =>
    rw [hlast] at htail
    exact absurd htail hne
  | some a =>
    rw [hlast] at htail
    rw [htail]
    rfl

/-- The tail is `NULL` only when the lane is empty. -/
theorem LaneShape.eq_nil_of_tail {i : Int} {l : List Addr} (h : LaneShape s i l)
    (hnull : s.tail i = 0) : l = [] := by
  have htail := h.tail
  cases hlast : l.getLast? with
  | none => exact List.getLast?_eq_none_iff.mp hlast
  | some a =>
    rw [hlast, hnull] at htail
    exact absurd htail.symm (h.alive a (List.mem_of_getLast? hlast)).2

/-- The lane `i` changes to `l`. -/
theorem PShape.update (h : PShape s L) {i : Int} {l : List Addr} (hlane : LaneShape s' i l)
    (hother : ∀ j, j ≠ i → LaneShape s' j (L j)) (hapart : ∀ j, j ≠ i → ∀ a ∈ l, a ∉ L j) :
    PShape s' (Function.update L i l) := by
  refine ⟨?_, ?_⟩
  · intro j
    by_cases hj : j = i
    · rw [hj, Function.update_self]
      exact hlane
    · rw [Function.update_of_ne hj]
      exact hother j hj
  · intro j j' a ha ha'
    by_cases hj : j = i <;> by_cases hj' : j' = i
    · rw [hj, hj']
    · rw [hj, Function.update_self] at ha
      rw [Function.update_of_ne hj'] at ha'
      exact absurd ha' (hapart j' hj' a ha)
    · rw [hj', Function.update_self] at ha'
      rw [Function.update_of_ne hj] at ha
      exact absurd ha (hapart j hj a ha')
    · rw [Function.update_of_ne hj] at ha
      rw [Function.update_of_ne hj'] at ha'
      exact h.apart j j' a ha ha'

/-- A lane whose head and tail stay. -/
theorem LaneShape.congr {i : Int} {l : List Addr} (h : LaneShape s i l) (hmem : s'.mem = s.mem)
    (hlive : s'.live = s.live) (htail : s'.tail i = s.tail i) (hhead : s'.head i = s.head i) :
    LaneShape s' i l := by
  refine ⟨h.links.congr fun a _ => ?_, h.nodup, ?_, ?_, ?_⟩
  · rw [pnext, pnext, hmem]
  · rw [hlive]
    exact h.alive
  · rw [htail]
    exact h.tail
  · rw [hhead]
    exact h.head

theorem PInv.exchange (h : PInv s L) {p : Addr} {k : Int} (hpc : s.pc t = .exchange p k) :
    PInv ({ s with tail := Function.update s.tail (EvPQueue.index s.N k) p }.goto t
        (.enqExit p (s.tail (EvPQueue.index s.N k)) k))
      (Function.update L (EvPQueue.index s.N k) (L (EvPQueue.index s.N k) ++ [p])) := by
  have hrole : prole s.N (s.pc t) = .fresh p := by rw [hpc]; rfl
  have hmine : (prole s.N (s.pc t)).token = some p := by rw [hrole]; rfl
  obtain ⟨hlive, hne, hnot⟩ := standing_of_owned (h.standing t) (a := p) (by rw [hrole]; rfl)
  have hnone : pnext s p = 0 := by
    have hreads := h.reads t
    rw [hpc] at hreads
    exact hreads.1
  generalize hi : EvPQueue.index s.N k = i
  have hlane := h.shape.lane i
  have hself : Function.update L i (L i ++ [p]) i = L i ++ [p] := Function.update_self _ _ _
  -- Every lane keeps its nodes, and its first one.
  have hkeep : ∀ j, L j <+: Function.update L i (L i ++ [p]) j := by
    intro j
    by_cases hj : j = i
    · rw [hj, hself]
      exact List.prefix_append _ _
    · rw [Function.update_of_ne hj]
  have hfirst : ∀ j a, (L j).head? = some a → (Function.update L i (L i ++ [p]) j).head? = some a := by
    intro j a ha
    obtain ⟨l, hl⟩ := hkeep j
    rw [← hl, List.head?_append, ha]
    rfl
  have hnew : ∀ j b, b ∈ Function.update L i (L i ++ [p]) j → b ∈ L j ∨ b = p := by
    intro j b hb
    by_cases hj : j = i
    · rw [hj, hself, List.mem_append, List.mem_singleton] at hb
      rw [hj]
      exact hb
    · rw [Function.update_of_ne hj] at hb
      exact Or.inl hb
  refine h.move rfl rfl (h.shape.update ⟨?_, ?_, ?_, ?_, ?_⟩ ?_ ?_) ?_ ?_ trivial ?_
  · exact hlane.links.snoc hnone
  · rw [← List.concat_eq_append]
    exact hlane.nodup.concat (hnot i)
  · intro a ha
    rw [List.mem_append, List.mem_singleton] at ha
    rcases ha with ha | rfl
    · exact hlane.alive a ha
    · exact ⟨hlive, hne⟩
  · rw [List.getLast?_concat]
    exact Function.update_self _ _ _
  · intro hhead
    rw [List.head?_append, hlane.head hhead]
    rfl
  · intro j hj
    exact (h.shape.lane j).congr rfl rfl (Function.update_of_ne hj _ _) rfl
  · intro j hj a ha hin
    rw [List.mem_append, List.mem_singleton] at ha
    rcases ha with ha | rfl
    · exact hj (h.shape.apart j i a hin ha)
    · exact hnot j hin
  · rw [prole, hi]
    by_cases htail : s.tail i = 0
    · -- The lane was empty, and its head is `NULL`.
      have hnil := hlane.eq_nil_of_tail htail
      rw [if_pos htail]
      refine ⟨by rw [hself, hnil]; rfl, ?_⟩
      by_contra hhead
      have hsome := hlane.head hhead
      rw [hnil] at hsome
      cases hsome
    · have hlast := hlane.getLast_of_tail htail
      rw [if_neg htail]
      refine ⟨?_, hlane.links.next_last hlast⟩
      rw [hself]
      exact behind_snoc hlast
  · refine h.token_of_eq ?_
    intro a ha
    rw [hmine, ← ha, prole]
    split <;> rfl
  · intro u hu
    refine ⟨?_, preads_of_mem (N := s.N) (h.reads u) (fun _ _ => rfl) fun _ _ he => he⟩
    have hstanding := h.standing u
    have hother : ∀ a, (prole s.N (s.pc u)).token = some a → a ≠ p := by
      rintro a ha rfl
      exact hu (h.token u t a ha hmine)
    cases hr : prole s.N (s.pc u) <;> rw [hr] at hstanding hother
    case none => trivial
    case linking j p' last =>
      obtain ⟨l, hl⟩ := hkeep j
      exact ⟨hl ▸ behind_append hstanding.1, hstanding.2⟩
    case fresh b =>
      exact ⟨hstanding.1, hstanding.2.1, fun j hb =>
        (hnew j b hb).elim (hstanding.2.2 j) (hother b rfl)⟩
    case retiring b =>
      exact ⟨hstanding.1, hstanding.2.1, fun j hb =>
        (hnew j b hb).elim (hstanding.2.2 j) (hother b rfl)⟩
    case heading j p' => exact ⟨hfirst j p' hstanding.1, hstanding.2⟩
    case active j b => exact ⟨hfirst j b hstanding.1, hstanding.2⟩
    case blanked j b => exact ⟨hfirst j b hstanding.1, hstanding.2⟩

/-- The thread at the front of the lane `i` stores its head. -/
theorem PInv.store_head (h : PInv s L) {i : Int} {a n : Addr} (hfirst : (L i).head? = some a)
    (hmine : (prole s.N (s.pc t)).token = some a) (hn : n ≠ 0 → n = a)
    (hstanding : Standing { s with head := Function.update s.head i n } L (prole s.N q))
    (htoken : ∀ b, (prole s.N q).token = some b → b = a)
    (hreads : PReads ({ s with head := Function.update s.head i n }.goto t q) q) :
    PInv ({ s with head := Function.update s.head i n }.goto t q) L := by
  refine h.move rfl rfl ⟨?_, h.shape.apart⟩ ?_ (h.token_of_eq ?_) hreads ?_
  · intro j
    have hlane := h.shape.lane j
    by_cases hj : j = i
    · subst hj
      refine ⟨hlane.links, hlane.nodup, hlane.alive, hlane.tail, ?_⟩
      show Function.update s.head j n j ≠ 0 → (L j).head? = some (Function.update s.head j n j)
      rw [Function.update_self]
      intro hne
      rw [hn hne]
      exact hfirst
    · exact hlane.congr rfl rfl rfl (Function.update_of_ne hj _ _)
  · exact standing_congr hstanding rfl rfl fun _ _ => rfl
  · intro b hb
    rw [htoken b hb]
    exact hmine
  · intro u hu
    refine ⟨standing_congr (h.standing u) rfl rfl ?_,
      preads_of_mem (N := s.N) (h.reads u) (fun _ _ => rfl) fun _ _ he => he⟩
    intro j hj
    refine Function.update_of_ne ?_ _ _
    rintro rfl
    exact front_ne (h.standing u) hfirst (fun hau => hu (h.token u t a hau hmine)) hj

/-- The head is stored for a lane that was empty. -/
theorem PInv.setHead (h : PInv s L) {p : Addr} {k : Int} (hpc : s.pc t = .link p 0 k)
    (last : Option QueueResult) :
    PInv ({ s with head := Function.update s.head (EvPQueue.index s.N k) p }.goto t (.idle last)) L := by
  have hrole : prole s.N (s.pc t) = .heading (EvPQueue.index s.N k) p := by
    rw [hpc, prole, if_pos rfl]
  have hstanding := h.standing t
  rw [hrole] at hstanding
  refine h.store_head hstanding.1 (by rw [hrole]; rfl) (fun _ => rfl) trivial ?_ trivial
  intro b hb
  cases hb

/-- The link to the new node is stored. -/
theorem PInv.link (h : PInv s L) {p last : Addr} {k : Int} (hpc : s.pc t = .link p last k)
    (hlast : last ≠ 0) (result : Option QueueResult) :
    PInv ((s.store last { s.mem last with next := p }).goto t (.idle result)) L := by
  have hrole : prole s.N (s.pc t) = .linking (EvPQueue.index s.N k) p last := by
    rw [hpc, prole, if_neg hlast]
  have hstanding := h.standing t
  rw [hrole] at hstanding
  obtain ⟨hbehind, hnone⟩ := hstanding
  generalize EvPQueue.index s.N k = i at hrole hbehind
  have hmem : last ∈ L i := (behind_mem hbehind).1
  have hother : ∀ a, a ≠ last → (s.store last { s.mem last with next := p }).mem a = s.mem a :=
    fun a ha => Function.update_of_ne ha _ _
  have hself : (s.store last { s.mem last with next := p }).mem last =
      { s.mem last with next := p } := Function.update_self _ _ _
  have hnext : pnext (s.store last { s.mem last with next := p }) =
      Function.update (pnext s) last p := by
    funext a
    by_cases ha : a = last
    · rw [ha, Function.update_self]
      exact congrArg PNode.next hself
    · rw [Function.update_of_ne ha]
      exact congrArg PNode.next (hother a ha)
  refine h.move rfl rfl ⟨fun j => ⟨?_, (h.shape.lane j).nodup, (h.shape.lane j).alive,
    (h.shape.lane j).tail, (h.shape.lane j).head⟩, h.shape.apart⟩ trivial ?_ trivial ?_
  · show Delayed (pnext (s.store last { s.mem last with next := p })) (L j)
    rw [hnext]
    by_cases hj : j = i
    · rw [hj]
      exact (h.shape.lane i).links.store (h.shape.lane i).nodup hbehind
    · refine (h.shape.lane j).links.congr fun a ha => Function.update_of_ne ?_ _ _
      rintro rfl
      exact hj (h.shape.apart j i a ha hmem)
  · intro a ha
    cases ha
  · intro u hu
    have hu' := h.standing u
    refine ⟨?_, preads_congr (N := s.N) (h.reads u) ?_ ?_ fun _ _ he => he⟩
    · cases hr : prole s.N (s.pc u) <;> rw [hr] at hu'
      case linking j p' last' =>
        refine ⟨hu'.1, ?_⟩
        -- Another thread links from another node: `last` has one successor.
        have hne : last' ≠ last := by
          rintro rfl
          obtain rfl := h.shape.apart j i last' (behind_mem hu'.1).1 hmem
          obtain rfl := behind_unique (h.shape.lane j).nodup hbehind hu'.1
          exact hu (h.token u t p (by rw [hr]; rfl) (by rw [hrole]; rfl))
        exact (congrArg PNode.next (hother last' hne)).trans hu'.2
      all_goals exact hu'
    · intro a _
      by_cases ha : a = last
      · -- What was read of `last` was that its link is missing.
        rw [ha]
        refine Or.inr ⟨hnone, ?_⟩
        intro howned
        exact (standing_of_owned hu' howned).2.2 i hmem
      · exact Or.inl (congrArg PNode.next (hother a ha))
    · intro a _
      by_cases ha : a = last
      · rw [ha]
        have hdata := congrArg PNode.data hself
        exact hdata
      · exact congrArg PNode.data (hother a ha)

/-! ### `dequeue_ev_pqueue` -/

/-- The head of a lane is set to `NULL`, since no second element was seen. -/
theorem PInv.blank (h : PInv s L) {a : Addr} {k : Int} (hpc : s.pc t = .storeHead k a 0) :
    PInv ({ s with head := Function.update s.head (EvPQueue.index s.N k) 0 }.goto t
      (.casTail k a)) L := by
  have hrole : prole s.N (s.pc t) = .active (EvPQueue.index s.N k) a := by rw [hpc]; rfl
  have hstanding := h.standing t
  rw [hrole] at hstanding
  refine h.store_head hstanding.1 (by rw [hrole]; rfl) (fun hne => absurd rfl hne)
    ⟨hstanding.1, Function.update_self _ _ _⟩ ?_ trivial
  intro b hb
  exact (Option.some.inj hb).symm

/-- The first node of the lane `i` is taken off. -/
theorem PInv.remove (h : PInv s L) {i : Int} {a : Addr} {l : List Addr} (hN : s'.N = s.N)
    (hpc : s'.pc = Function.update s.pc t q) (hmem : s'.mem = s.mem) (hlive : s'.live = s.live)
    (henq : s'.enqueued = s.enqueued) (hl : L i = a :: l)
    (hmine : (prole s.N (s.pc t)).token = some a)
    (hlinked : ∀ p, [a, p] <:+: L i → pnext s a ≠ 0)
    (hhead : s'.head i ≠ 0 → l.head? = some (s'.head i)) (htail : s'.tail i = l.getLast?.getD 0)
    (hhead' : ∀ j, j ≠ i → s'.head j = s.head j) (htail' : ∀ j, j ≠ i → s'.tail j = s.tail j)
    (hrole : prole s.N q = .retiring a) (hreads : PReads s' q) :
    PInv s' (Function.update L i l) := by
  have hlane := h.shape.lane i
  have hfirst : (L i).head? = some a := by rw [hl]; rfl
  rw [hl] at hlane
  have hnodup := List.nodup_cons.mp hlane.nodup
  have hsub : ∀ j b, b ∈ Function.update L i l j → b ∈ L j := by
    intro j b hb
    by_cases hj : j = i
    · rw [hj, Function.update_self] at hb
      rw [hj, hl]
      exact List.mem_cons_of_mem _ hb
    · rwa [Function.update_of_ne hj] at hb
  refine h.move hN hpc (h.shape.update ⟨?_, hnodup.2, ?_, htail, hhead⟩ ?_ ?_) ?_ (h.token_of_eq ?_)
    hreads ?_
  · exact hlane.links.tail.congr fun b _ => by rw [pnext, pnext, hmem]
  · intro b hb
    rw [hlive]
    exact hlane.alive b (List.mem_cons_of_mem _ hb)
  · intro j hj
    exact (h.shape.lane j).congr hmem hlive (htail' j hj) (hhead' j hj)
  · intro j hj b hb hin
    exact hj (h.shape.apart j i b hin (hl ▸ List.mem_cons_of_mem _ hb))
  · rw [hrole]
    obtain ⟨halive, hne⟩ := hlane.alive a List.mem_cons_self
    refine ⟨by rw [hlive]; exact halive, hne, ?_⟩
    intro j hin
    obtain rfl := h.shape.apart j i a (hsub j a hin) (hl ▸ List.mem_cons_self)
    rw [Function.update_self] at hin
    exact hnodup.1 hin
  · intro b hb
    rw [hrole] at hb
    exact hmine.trans hb
  · intro u hu
    have hu' := h.standing u
    have hfront := front_ne hu' hfirst fun hau => hu (h.token u t a hau hmine)
    refine ⟨?_, preads_of_mem (N := s.N) (h.reads u) (fun b _ => congrFun hmem b) fun _ _ he =>
      enqueued_congr henq he⟩
    have hstay : ∀ j, PRole.front (prole s.N (s.pc u)) = some j →
        Function.update L i l j = L j ∧ s'.head j = s.head j := by
      intro j hj
      have hne : j ≠ i := by
        rintro rfl
        exact hfront hj
      exact ⟨Function.update_of_ne hne _ _, hhead' j hne⟩
    cases hr : prole s.N (s.pc u) <;> rw [hr] at hu' hstay
    case none => trivial
    case fresh b =>
      exact ⟨by rw [hlive]; exact hu'.1, hu'.2.1, fun j hb => hu'.2.2 j (hsub j b hb)⟩
    case retiring b =>
      exact ⟨by rw [hlive]; exact hu'.1, hu'.2.1, fun j hb => hu'.2.2 j (hsub j b hb)⟩
    case linking j p last =>
      refine ⟨?_, by rw [pnext, hmem]; exact hu'.2⟩
      by_cases hj : j = i
      · -- A link that is still missing is not the one behind `a`.
        subst hj
        have hne : last ≠ a := by
          rintro rfl
          exact hlinked p hu'.1 hu'.2
        rw [Function.update_self]
        exact behind_of_cons (hl ▸ hu'.1) hne
      · rw [Function.update_of_ne hj]
        exact hu'.1
    case heading j p =>
      obtain ⟨hL, hh⟩ := hstay j rfl
      exact ⟨hL ▸ hu'.1, hh.trans hu'.2⟩
    case active j b =>
      obtain ⟨hL, hh⟩ := hstay j rfl
      exact ⟨hL ▸ hu'.1, hh.trans hu'.2⟩
    case blanked j b =>
      obtain ⟨hL, hh⟩ := hstay j rfl
      exact ⟨hL ▸ hu'.1, hh.trans hu'.2⟩

/-- The head moves to the second element. -/
theorem PInv.advance (h : PInv s L) {i : Int} {a second : Addr} (hfirst : (L i).head? = some a)
    (hmine : (prole s.N (s.pc t)).token = some a) (hsecond : second ≠ 0)
    (hnext : pnext s a = second) (hrole : prole s.N q = .retiring a) (hreads : PReads s q) :
    ∃ l, L i = a :: l ∧
      PInv ({ s with head := Function.update s.head i second }.goto t q) (Function.update L i l) := by
  obtain ⟨l, hl⟩ : ∃ l, L i = a :: l := List.head?_eq_some_iff.mp hfirst
  refine ⟨l, hl, ?_⟩
  have hlane := h.shape.lane i
  rw [hl] at hlane
  obtain ⟨rest, rfl⟩ := hlane.links.head_next (hnext.symm ▸ hsecond)
  refine h.remove rfl rfl rfl rfl rfl hl hmine ?_ ?_ ?_ (fun j hj => Function.update_of_ne hj _ _)
    (fun _ _ => rfl) hrole (preads_of_mem (N := s.N) hreads (fun _ _ => rfl) fun _ _ he => he)
  · intro p _ hnone
    exact hsecond (hnext.symm.trans hnone)
  · intro _
    rw [hnext]
    exact congrArg some (Function.update_self (f := s.head) _ _).symm
  · have htail := hlane.tail
    rw [List.getLast?_cons_cons] at htail
    exact htail

/-- The tail is cleared: the node was the only one of its lane. -/
theorem PInv.empty (h : PInv s L) {a : Addr} {k : Int} (hpc : s.pc t = .casTail k a)
    (htail : s.tail (EvPQueue.index s.N k) = a) (hreads : PReads s (.deqExit k a)) :
    L (EvPQueue.index s.N k) = [a] ∧
      PInv ({ s with tail := Function.update s.tail (EvPQueue.index s.N k) 0 }.goto t (.deqExit k a))
        (Function.update L (EvPQueue.index s.N k) []) := by
  have hrole : prole s.N (s.pc t) = .blanked (EvPQueue.index s.N k) a := by rw [hpc]; rfl
  have hstanding := h.standing t
  rw [hrole] at hstanding
  obtain ⟨hfirst, hhead⟩ := hstanding
  generalize EvPQueue.index s.N k = i at hrole hfirst hhead htail
  obtain ⟨l, hl⟩ : ∃ l, L i = a :: l := List.head?_eq_some_iff.mp hfirst
  have hlane := h.shape.lane i
  rw [hl] at hlane
  have hlast := hlane.getLast_of_tail (htail.symm ▸ (hlane.alive a List.mem_cons_self).2)
  obtain rfl : l = [] := by
    cases l with
    | nil => rfl
    | cons c rest =>
      rw [htail, List.getLast?_cons_cons] at hlast
      exact absurd (List.mem_of_getLast? hlast) (List.nodup_cons.mp hlane.nodup).1
  refine ⟨hl, h.remove rfl rfl rfl rfl rfl hl (by rw [hrole]; rfl) ?_ ?_ (Function.update_self _ _ _)
    (fun _ _ => rfl) (fun j hj => Function.update_of_ne hj _ _) rfl
    (preads_of_mem (N := s.N) hreads (fun _ _ => rfl) fun _ _ he => he)⟩
  · intro p hbehind
    rw [hl] at hbehind
    exact absurd hbehind.length_le (by simp)
  · intro hne
    exact absurd hhead hne

/-- The node is freed. -/
theorem PInv.free (h : PInv s L) {a : Addr} {k : Int} {data : Nat} (hpc : s.pc t = .free k a data)
    (delivered : List (Int × Nat)) (last : Option QueueResult) :
    PInv ({ s with
      live := Function.update s.live a false
      delivered := delivered }.goto t (.idle last)) L := by
  have hrole : prole s.N (s.pc t) = .retiring a := by rw [hpc]; rfl
  obtain ⟨-, -, hnot⟩ := standing_of_owned (h.standing t) (a := a) (by rw [hrole]; rfl)
  have hlive : ∀ b, b ≠ a → Function.update s.live a false b = s.live b :=
    fun b hb => Function.update_of_ne hb _ _
  refine h.move rfl rfl ⟨fun i => ⟨(h.shape.lane i).links, (h.shape.lane i).nodup, ?_,
    (h.shape.lane i).tail, (h.shape.lane i).head⟩, h.shape.apart⟩ trivial ?_ trivial ?_
  · intro b hb
    have hne : b ≠ a := by
      rintro rfl
      exact hnot i hb
    exact ⟨(hlive b hne).trans ((h.shape.lane i).alive b hb).1, ((h.shape.lane i).alive b hb).2⟩
  · intro b hb
    cases hb
  · intro u hu
    refine ⟨?_, preads_of_mem (N := s.N) (h.reads u) (fun _ _ => rfl) fun _ _ he => he⟩
    have hu' := h.standing u
    have hne : ∀ b, (prole s.N (s.pc u)).token = some b → b ≠ a := by
      rintro b hb rfl
      exact hu (h.token u t b hb (by rw [hrole]; rfl))
    cases hr : prole s.N (s.pc u) <;> rw [hr] at hu' hne
    case fresh b => exact ⟨(hlive b (hne b rfl)).trans hu'.1, hu'.2⟩
    case retiring b => exact ⟨(hlive b (hne b rfl)).trans hu'.1, hu'.2⟩
    all_goals exact hu'

theorem pInv_init (N : Int) : PInv (EvPQueue.init N) fun _ => [] := by
  refine ⟨⟨fun _ => ⟨.nil, List.nodup_nil, ?_, rfl, ?_⟩, ?_⟩, fun _ => trivial, ?_, fun _ => trivial⟩
  · intro a ha
    cases ha
  · intro hne
    exact absurd rfl hne
  · intro i j a ha
    cases ha
  · intro t u a ha
    cases ha

end Efio.Proofs.Evds
