import Efio.Spec.PaQueueFlow
import Mathlib.Data.List.Nodup

/-!
# `Efio.Proofs.Evds.PaQueueList`: the lists of the lanes of an `ev_paqueue`

`PaInv s L` describes the memory in every state: `L i` are the nodes
exchanged into the tail of the lane `i` and not yet taken off, linked from
behind, with the tail at the end. The head, when it is not marked, is
`NULL` or at the front. Of a marked head nothing is said here: it may be
the front that a thread has claimed, or be left behind by a thread that has
cleared the tail, and then an enqueue overwrites it. What matters is said
of the threads (`PaStanding`): only one that is `active` knows the head.

There is one lemma for each kind of access.
-/

set_option autoImplicit false

namespace Efio.Proofs.Evds

open Efio.Lib
open Efio.Evds
open Efio.Spec

variable {s s' : EvPaQueue} {L L' : Nat → List Addr} {t : Nat} {q : PaQueuePc} {r : PaRole}
variable {i : Nat} {a p : Addr} {l : List Addr}

/-- The links of the nodes. -/
def paNext (s : EvPaQueue) (a : Addr) : Addr := (s.mem a).next

/-- Head and tail of a lane, and the list between them. -/
structure PaLane (s : EvPaQueue) (i : Nat) (l : List Addr) : Prop where
  links : Delayed (paNext s) l
  nodup : l.Nodup
  alive : ∀ a ∈ l, s.live a = true ∧ a ≠ 0
  tail : s.tail i = l.getLast?.getD 0
  head : (s.head i).mark = false → (s.head i).addr ≠ 0 → l.head? = some (s.head i).addr

/-- The lanes, which share no node. -/
structure PaShape (s : EvPaQueue) (L : Nat → List Addr) : Prop where
  lane : ∀ i, PaLane s i (L i)
  apart : ∀ i j a, a ∈ L i → a ∈ L j → i = j

/-- Where the node of a thread is. -/
def PaStanding (s : EvPaQueue) (L : Nat → List Addr) : PaRole → Prop
  | .none => True
  | .fresh a | .cleared _ a | .retiring a => s.live a = true ∧ a ≠ 0 ∧ ∀ j, a ∉ L j
  | .linking i p old => [old, p] <:+: L i ∧ paNext s old = 0
  | .heading i p => (L i).head? = some p ∧ ((s.head i).mark = false → (s.head i).addr = 0)
  | .active i h => (L i).head? = some h ∧ s.head i = ⟨h, true⟩

/-- The invariant of the memory. -/
structure PaInv (s : EvPaQueue) (L : Nat → List Addr) : Prop where
  shape : PaShape s L
  standing : ∀ t, PaStanding s L (paRole (s.pc t))
  token : ∀ t u a, (paRole (s.pc t)).token = some a → (paRole (s.pc u)).token = some a → t = u
  reads : ∀ t, PaReads s (s.pc t)

/-- A node that is on no lane and belongs to the thread alone. -/
def PaRole.owned : PaRole → Option Addr
  | .fresh a | .cleared _ a | .retiring a => some a
  | _ => Option.none

theorem paStanding_of_owned (h : PaStanding s L r) (hr : PaRole.owned r = some a) :
    s.live a = true ∧ a ≠ 0 ∧ ∀ j, a ∉ L j := by
  cases r <;> cases hr <;> exact h

theorem paStanding_owned (hr : PaRole.owned r = some a)
    (h : s.live a = true ∧ a ≠ 0 ∧ ∀ j, a ∉ L j) : PaStanding s L r := by
  cases r <;> cases hr <;> exact h

theorem paToken_of_owned (hr : PaRole.owned r = some a) : r.token = some a := by
  cases r <;> cases hr <;> rfl

theorem PaInv.owned (h : PaInv s L) {r : PaRole} (hrole : paRole (s.pc t) = r)
    (hr : PaRole.owned r = some a) : s.live a = true ∧ a ≠ 0 ∧ ∀ j, a ∉ L j :=
  paStanding_of_owned (h.standing t) (hrole ▸ hr)

/-- A token is the address of an allocated node. -/
theorem paToken_live (h : PaStanding s L r) (hshape : PaShape s L) (htoken : r.token = some a) :
    s.live a = true ∧ a ≠ 0 := by
  cases r <;> cases htoken
  case fresh => exact ⟨h.1, h.2.1⟩
  case linking i old => exact (hshape.lane i).alive a (behind_mem h.1).2
  case heading i => exact (hshape.lane i).alive a (List.mem_of_mem_head? h.1)
  case active i => exact (hshape.lane i).alive a (List.mem_of_mem_head? h.1)
  case cleared => exact ⟨h.1, h.2.1⟩
  case retiring => exact ⟨h.1, h.2.1⟩

/-- The unmarked head of a lane is the token of nobody. -/
theorem paToken_ne_head (h : PaStanding s L r) (hshape : PaShape s L) (hfirst : (L i).head? = some a)
    (hhead : s.head i = ⟨a, false⟩) (hnull : a ≠ 0) : r.token ≠ some a := by
  have hmem : a ∈ L i := List.mem_of_mem_head? hfirst
  intro htoken
  cases r <;> cases htoken
  case fresh => exact h.2.2 i hmem
  case linking j old =>
    obtain rfl := hshape.apart j i a (behind_mem h.1).2 hmem
    exact not_behind_first (hshape.lane j).nodup hfirst h.1
  case heading j =>
    obtain rfl := hshape.apart j i a (List.mem_of_mem_head? h.1) hmem
    have hzero := h.2
    rw [hhead] at hzero
    exact hnull (hzero rfl)
  case active j =>
    obtain rfl := hshape.apart j i a (List.mem_of_mem_head? h.1) hmem
    have hmark := h.2
    rw [hhead] at hmark
    cases hmark
  case cleared => exact h.2.2 i hmem
  case retiring => exact h.2.2 i hmem

/-! ### What the threads know -/

/-- What has been read stays there when the data does, and when only missing
links of nodes on the lanes are stored. -/
theorem paReads_congr (h : PaReads s q)
    (hnext : ∀ a, (paRole q).token = some a → paNext s' a = paNext s a ∨
      paNext s a = 0 ∧ PaRole.owned (paRole q) ≠ some a)
    (hdata : ∀ a, (paRole q).token = some a → (s'.mem a).data = (s.mem a).data) : PaReads s' q := by
  have hfresh : ∀ p, (paRole q).token = some p → PaRole.owned (paRole q) = some p →
      paNext s p = 0 → paNext s' p = 0 := by
    intro p htoken howned hnone
    rcases hnext p htoken with heq | ⟨-, hne⟩
    · exact heq.trans hnone
    · exact absurd howned hne
  have hread : ∀ a next, (paRole q).token = some a → next = 0 ∨ paNext s a = next →
      next = 0 ∨ paNext s' a = next := by
    intro a next htoken hold
    rcases hnext a htoken with heq | ⟨hnone, -⟩
    · exact hold.imp_right heq.trans
    · exact .inl (hold.elim id fun h => h.symm.trans hnone)
  cases q with
  | enqCount p => exact hfresh p rfl rfl h
  | exchange p i => exact hfresh p rfl rfl h
  | testTail i a next => exact hread a next rfl h
  | swing i a next =>
    refine hread a next ?_ h
    rw [paRole]
    split <;> rfl
  | free a data => exact (hdata a rfl).trans h
  | markHead d a => exact h
  | _ => trivial

/-- The memory is the same where the thread looks. -/
theorem paReads_of_mem (h : PaReads s q) (hmem : ∀ a, (paRole q).token = some a → s'.mem a = s.mem a) :
    PaReads s' q :=
  paReads_congr h (fun a ha => .inl (congrArg PNode.next (hmem a ha)))
    fun a ha => congrArg PNode.data (hmem a ha)

/-! ### One thread moves -/

/-- The thread `t` moves to `q`. Its token is the one it had, or nobody
else's. -/
theorem PaInv.move (h : PaInv s L) (hpc : s'.pc = Function.update s.pc t q) (hshape : PaShape s' L')
    (hstanding : PaStanding s' L' (paRole q))
    (htoken : ∀ a, (paRole q).token = some a → ∀ u, u ≠ t → (paRole (s.pc u)).token ≠ some a)
    (hreads : PaReads s' q)
    (hothers : ∀ u, u ≠ t → PaStanding s' L' (paRole (s.pc u)) ∧ PaReads s' (s.pc u)) :
    PaInv s' L' := by
  have hself : s'.pc t = q := by rw [hpc, Function.update_self]
  have hother : ∀ u, u ≠ t → s'.pc u = s.pc u := by
    intro u hu
    rw [hpc, Function.update_of_ne hu]
  refine ⟨hshape, ?_, ?_, ?_⟩
  · intro u
    by_cases hu : u = t
    · rw [hu, hself]
      exact hstanding
    · rw [hother u hu]
      exact (hothers u hu).1
  · intro u v a hu hv
    by_cases hut : u = t <;> by_cases hvt : v = t
    · rw [hut, hvt]
    · rw [hut, hself] at hu
      rw [hother v hvt] at hv
      exact absurd hv (htoken a hu v hvt)
    · rw [hvt, hself] at hv
      rw [hother u hut] at hu
      exact absurd hu (htoken a hv u hut)
    · rw [hother u hut] at hu
      rw [hother v hvt] at hv
      exact h.token u v a hu hv
  · intro u
    by_cases hu : u = t
    · rw [hu, hself]
      exact hreads
    · rw [hother u hu]
      exact (hothers u hu).2

/-- The thread keeps its token, or drops it. -/
theorem PaInv.token_of_eq (h : PaInv s L)
    (hr : ∀ a, r.token = some a → (paRole (s.pc t)).token = some a) :
    ∀ a, r.token = some a → ∀ u, u ≠ t → (paRole (s.pc u)).token ≠ some a := by
  intro a ha u hu hother
  exact hu (h.token u t a hother (hr a ha))

/-! ### Lanes that stay -/

/-- A lane whose head and tail stay. -/
theorem PaLane.congr (h : PaLane s i l) (hmem : ∀ a ∈ l, s'.mem a = s.mem a)
    (hlive : ∀ a ∈ l, s'.live a = s.live a) (htail : s'.tail i = s.tail i)
    (hhead : s'.head i = s.head i) : PaLane s' i l := by
  refine ⟨h.links.congr fun a ha => congrArg PNode.next (hmem a ha), h.nodup, ?_, ?_, ?_⟩
  · intro a ha
    rw [hlive a ha]
    exact h.alive a ha
  · rw [htail]
    exact h.tail
  · rw [hhead]
    exact h.head

/-- The last address of a lane is its tail. -/
theorem PaLane.getLast_of_tail (h : PaLane s i l) (hne : s.tail i ≠ 0) : l.getLast? = some (s.tail i) := by
  have htail := h.tail
  cases hlast : l.getLast? with
  | none =>
    rw [hlast] at htail
    exact absurd htail hne
  | some a =>
    rw [hlast] at htail
    rw [htail]
    rfl

/-- The tail is `NULL` only when the lane is empty. -/
theorem PaLane.eq_nil_of_tail (h : PaLane s i l) (hnull : s.tail i = 0) : l = [] := by
  have htail := h.tail
  cases hlast : l.getLast? with
  | none => exact List.getLast?_eq_none_iff.mp hlast
  | some a =>
    rw [hlast, hnull] at htail
    exact absurd htail.symm (h.alive a (List.mem_of_getLast? hlast)).2

/-- The lane `i` changes to `l`. -/
theorem PaShape.update (h : PaShape s L) (hlane : PaLane s' i l)
    (hother : ∀ j, j ≠ i → PaLane s' j (L j)) (hapart : ∀ j, j ≠ i → ∀ a ∈ l, a ∉ L j) :
    PaShape s' (Function.update L i l) := by
  refine ⟨?_, ?_⟩
  · intro j
    by_cases hj : j = i
    · rw [hj, Function.update_self]
      exact hlane
    · rw [Function.update_of_ne hj]
      exact hother j hj
  · intro j j' a ha ha'
    by_cases hj : j = i <;> by_cases hj' : j' = i
    · rw [hj, hj']
    · rw [hj, Function.update_self] at ha
      rw [Function.update_of_ne hj'] at ha'
      exact absurd ha' (hapart j' hj' a ha)
    · rw [hj', Function.update_self] at ha'
      rw [Function.update_of_ne hj] at ha
      exact absurd ha (hapart j hj a ha')
    · rw [Function.update_of_ne hj] at ha
      rw [Function.update_of_ne hj'] at ha'
      exact h.apart j j' a ha ha'

theorem PaShape.congr (h : PaShape s L) (hmem : s'.mem = s.mem) (hlive : s'.live = s.live)
    (htail : s'.tail = s.tail) (hhead : s'.head = s.head) : PaShape s' L :=
  ⟨fun i => (h.lane i).congr (fun a _ => congrFun hmem a) (fun a _ => congrFun hlive a)
    (congrFun htail i) (congrFun hhead i), h.apart⟩

/-- The lane at whose front the thread stands. -/
def PaRole.front : PaRole → Option Nat
  | .heading i _ | .active i _ => some i
  | _ => Option.none

/-- A thread looks at the head of a lane only from its front. -/
theorem paStanding_congr (h : PaStanding s L r) (hmem : s'.mem = s.mem) (hlive : s'.live = s.live)
    (hhead : ∀ i, PaRole.front r = some i → s'.head i = s.head i) : PaStanding s' L r := by
  cases r with
  | none => trivial
  | linking i p old => exact ⟨h.1, by rw [paNext, hmem]; exact h.2⟩
  | fresh a =>
    rw [PaStanding, hlive]
    exact h
  | cleared i a =>
    rw [PaStanding, hlive]
    exact h
  | retiring a =>
    rw [PaStanding, hlive]
    exact h
  | heading i p =>
    rw [PaStanding, hhead i rfl]
    exact h
  | active i a => exact ⟨h.1, (hhead i rfl).trans h.2⟩

/-- Two threads do not stand at the front of one lane. -/
theorem paFront_ne (h : PaStanding s L r) (hfirst : (L i).head? = some a) (hne : r.token ≠ some a) :
    PaRole.front r ≠ some i := by
  intro hfront
  cases r <;> cases hfront
  case heading p => exact hne (h.1.symm.trans hfirst)
  case active b => exact hne (h.1.symm.trans hfirst)

/-- The thread moves, and the lists, the nodes and its part stay. -/
theorem PaInv.plain (h : PaInv s L) (hpc : s'.pc = Function.update s.pc t q) (hmem : s'.mem = s.mem)
    (hlive : s'.live = s.live) (htail : s'.tail = s.tail) (hhead : s'.head = s.head)
    (hrole : paRole q = paRole (s.pc t)) (hreads : PaReads s q) : PaInv s' L := by
  have hmem' : ∀ {q : PaQueuePc}, PaReads s q → PaReads s' q :=
    fun hq => paReads_of_mem hq fun a _ => congrFun hmem a
  refine h.move hpc (h.shape.congr hmem hlive htail hhead) ?_ (h.token_of_eq ?_) (hmem' hreads) ?_
  · rw [hrole]
    exact paStanding_congr (h.standing t) hmem hlive fun i _ => congrFun hhead i
  · rw [hrole]
    exact fun _ ha => ha
  · intro u _
    exact ⟨paStanding_congr (h.standing u) hmem hlive fun i _ => congrFun hhead i, hmem' (h.reads u)⟩

/-! ### `enqueue_evpaq` -/

/-- `malloc` returns a node that is nobody's, and the enqueue fills it in. -/
theorem PaInv.malloc (h : PaInv s L) {data : Nat} (hnull : a ≠ 0) (hfree : s.live a = false) :
    PaInv ({ s.store a { data := data, next := 0 } with
      live := Function.update s.live a true }.goto t (.enqCount a)) L := by
  have hnew : ∀ b, s.live b = true → b ≠ a := by
    rintro b hb rfl
    exact Bool.false_ne_true (hfree.symm.trans hb)
  have hself : (s.store a { data := data, next := 0 }).mem a = { data := data, next := 0 } :=
    Function.update_self _ _ _
  have hmem : ∀ b, s.live b = true → (s.store a { data := data, next := 0 }).mem b = s.mem b :=
    fun b hb => Function.update_of_ne (hnew b hb) _ _
  have hlive : ∀ b, s.live b = true → Function.update s.live a true b = s.live b :=
    fun b hb => Function.update_of_ne (hnew b hb) _ _
  have hlane := fun i b (hb : b ∈ L i) => ((h.shape.lane i).alive b hb).1
  have hout : ∀ i, a ∉ L i := fun i hin => hnew a (hlane i a hin) rfl
  refine h.move rfl ⟨fun i => ?_, h.shape.apart⟩ ⟨Function.update_self _ _ _, hnull, hout⟩ ?_ ?_ ?_
  · exact (h.shape.lane i).congr (fun b hb => hmem b (hlane i b hb)) (fun b hb => hlive b (hlane i b hb))
      rfl rfl
  · -- A fresh node is nobody's token, since tokens are allocated.
    intro b hb u _ hu
    obtain rfl := Option.some.inj hb
    exact hnew a (paToken_live (h.standing u) h.shape hu).1 rfl
  · exact congrArg PNode.next hself
  · intro u _
    refine ⟨?_, paReads_of_mem (h.reads u) fun b hb =>
      hmem b (paToken_live (h.standing u) h.shape hb).1⟩
    have hu := h.standing u
    cases hr : paRole (s.pc u) <;> rw [hr] at hu
    case none => trivial
    case linking i p old =>
      exact ⟨hu.1, (congrArg PNode.next (hmem old (hlane i old (behind_mem hu.1).1))).trans hu.2⟩
    case fresh b => exact ⟨(hlive b hu.1).trans hu.1, hu.2⟩
    case cleared i b => exact ⟨(hlive b hu.1).trans hu.1, hu.2⟩
    case retiring b => exact ⟨(hlive b hu.1).trans hu.1, hu.2⟩
    case heading i p => exact hu
    case active i b => exact hu

/-- The new node is exchanged into the tail of its lane. -/
theorem PaInv.exchange (h : PaInv s L) (hpc : s.pc t = .exchange p i) (xs : Nat → List (Addr × Nat)) :
    PaInv ({ s.setTail i p with exchanged := xs }.goto t
      (if s.tail i ≠ 0 then .link p (s.tail i) i else .setHead p i))
      (Function.update L i (L i ++ [p])) := by
  have hrole : paRole (s.pc t) = .fresh p := by rw [hpc]; rfl
  have hmine : (paRole (s.pc t)).token = some p := by rw [hrole]; rfl
  obtain ⟨hlive, hne, hnot⟩ := h.owned hrole rfl
  have hnone : paNext s p = 0 := by
    have hreads := h.reads t
    rw [hpc] at hreads
    exact hreads
  have hlane := h.shape.lane i
  have hself : Function.update L i (L i ++ [p]) i = L i ++ [p] := Function.update_self _ _ _
  -- Every lane keeps its nodes, and its first one.
  have hkeep : ∀ j, L j <+: Function.update L i (L i ++ [p]) j := by
    intro j
    by_cases hj : j = i
    · rw [hj, hself]
      exact List.prefix_append _ _
    · rw [Function.update_of_ne hj]
  have hfirst : ∀ j a, (L j).head? = some a → (Function.update L i (L i ++ [p]) j).head? = some a := by
    intro j a ha
    obtain ⟨l, hl⟩ := hkeep j
    rw [← hl, List.head?_append, ha]
    rfl
  have hnew : ∀ j b, b ∈ Function.update L i (L i ++ [p]) j → b ∈ L j ∨ b = p := by
    intro j b hb
    by_cases hj : j = i
    · rw [hj, hself, List.mem_append, List.mem_singleton] at hb
      rw [hj]
      exact hb
    · rw [Function.update_of_ne hj] at hb
      exact Or.inl hb
  refine h.move rfl (h.shape.update ⟨?_, ?_, ?_, ?_, ?_⟩ ?_ ?_) ?_ ?_ ?_ ?_
  · exact hlane.links.snoc hnone
  · rw [← List.concat_eq_append]
    exact hlane.nodup.concat (hnot i)
  · intro a ha
    rw [List.mem_append, List.mem_singleton] at ha
    rcases ha with ha | rfl
    · exact hlane.alive a ha
    · exact ⟨hlive, hne⟩
  · rw [List.getLast?_concat]
    exact Function.update_self _ _ _
  · intro hmark hhead
    rw [List.head?_append, hlane.head hmark hhead]
    rfl
  · intro j hj
    exact (h.shape.lane j).congr (fun _ _ => rfl) (fun _ _ => rfl) (Function.update_of_ne hj _ _) rfl
  · intro j hj a ha hin
    rw [List.mem_append, List.mem_singleton] at ha
    rcases ha with ha | rfl
    · exact hj (h.shape.apart j i a hin ha)
    · exact hnot j hin
  · by_cases htail : s.tail i = 0
    · -- The lane was empty: an unmarked head is `NULL`.
      have hnil := hlane.eq_nil_of_tail htail
      rw [if_neg (not_not.mpr htail)]
      refine ⟨by rw [hself, hnil]; rfl, ?_⟩
      intro hmark
      by_contra hhead
      have hsome := hlane.head hmark hhead
      rw [hnil] at hsome
      cases hsome
    · have hlast := hlane.getLast_of_tail htail
      rw [if_pos htail]
      refine ⟨?_, hlane.links.next_last hlast⟩
      rw [hself]
      exact behind_snoc hlast
  · refine h.token_of_eq ?_
    intro a ha
    rw [hmine, ← ha]
    split <;> rfl
  · split <;> trivial
  · intro u hu
    refine ⟨?_, paReads_of_mem (h.reads u) fun _ _ => rfl⟩
    have hstanding := h.standing u
    have hother : ∀ a, (paRole (s.pc u)).token = some a → a ≠ p := by
      rintro a ha rfl
      exact hu (h.token u t a ha hmine)
    have howned : ∀ b, (paRole (s.pc u)).token = some b → (∀ j, b ∉ L j) →
        ∀ j, b ∉ Function.update L i (L i ++ [p]) j :=
      fun b hb hout j hin => (hnew j b hin).elim (hout j) (hother b hb)
    cases hr : paRole (s.pc u) <;> rw [hr] at hstanding howned
    case none => trivial
    case linking j p' old =>
      obtain ⟨l, hl⟩ := hkeep j
      exact ⟨hl ▸ behind_append hstanding.1, hstanding.2⟩
    case fresh b => exact ⟨hstanding.1, hstanding.2.1, howned b rfl hstanding.2.2⟩
    case cleared j b => exact ⟨hstanding.1, hstanding.2.1, howned b rfl hstanding.2.2⟩
    case retiring b => exact ⟨hstanding.1, hstanding.2.1, howned b rfl hstanding.2.2⟩
    case heading j p' => exact ⟨hfirst j p' hstanding.1, hstanding.2⟩
    case active j b => exact ⟨hfirst j b hstanding.1, hstanding.2⟩

/-- The link to the new node is stored. -/
theorem PaInv.link (h : PaInv s L) {old : Addr} (hpc : s.pc t = .link p old i)
    (result : Option QueueResult) :
    PaInv ((s.store old { s.mem old with next := p }).goto t (.idle result)) L := by
  have hrole : paRole (s.pc t) = .linking i p old := by rw [hpc]; rfl
  have hstanding := h.standing t
  rw [hrole] at hstanding
  obtain ⟨hbehind, hnone⟩ := hstanding
  have hmem : old ∈ L i := (behind_mem hbehind).1
  have hother : ∀ a, a ≠ old → (s.store old { s.mem old with next := p }).mem a = s.mem a :=
    fun a ha => Function.update_of_ne ha _ _
  have hself : (s.store old { s.mem old with next := p }).mem old = { s.mem old with next := p } :=
    Function.update_self _ _ _
  have hnext : paNext (s.store old { s.mem old with next := p }) = Function.update (paNext s) old p := by
    funext a
    by_cases ha : a = old
    · rw [ha, Function.update_self]
      exact congrArg PNode.next hself
    · rw [Function.update_of_ne ha]
      exact congrArg PNode.next (hother a ha)
  refine h.move rfl ⟨fun j => ⟨?_, (h.shape.lane j).nodup, (h.shape.lane j).alive,
    (h.shape.lane j).tail, (h.shape.lane j).head⟩, h.shape.apart⟩ trivial ?_ trivial ?_
  · show Delayed (paNext (s.store old { s.mem old with next := p })) (L j)
    rw [hnext]
    by_cases hj : j = i
    · rw [hj]
      exact (h.shape.lane i).links.store (h.shape.lane i).nodup hbehind
    · refine (h.shape.lane j).links.congr fun a ha => Function.update_of_ne ?_ _ _
      rintro rfl
      exact hj (h.shape.apart j i a ha hmem)
  · intro a ha
    cases ha
  · intro u hu
    have hu' := h.standing u
    refine ⟨?_, paReads_congr (h.reads u) ?_ ?_⟩
    · cases hr : paRole (s.pc u) <;> rw [hr] at hu'
      case linking j p' old' =>
        refine ⟨hu'.1, ?_⟩
        -- Another thread links from another node: `old` has one successor.
        have hne : old' ≠ old := by
          rintro rfl
          obtain rfl := h.shape.apart j i old' (behind_mem hu'.1).1 hmem
          obtain rfl := behind_unique (h.shape.lane j).nodup hbehind hu'.1
          exact hu (h.token u t p (by rw [hr]; rfl) (by rw [hrole]; rfl))
        exact (congrArg PNode.next (hother old' hne)).trans hu'.2
      all_goals exact hu'
    · intro a _
      by_cases ha : a = old
      · -- What was read of `old` was that its link is missing.
        rw [ha]
        refine Or.inr ⟨hnone, ?_⟩
        intro howned
        exact (paStanding_of_owned hu' howned).2.2 i hmem
      · exact Or.inl (congrArg PNode.next (hother a ha))
    · intro a _
      by_cases ha : a = old
      · rw [ha]
        have hdata := congrArg PNode.data hself
        exact hdata
      · exact congrArg PNode.data (hother a ha)

/-- The head of the lane `i` changes, and who stands at its front stays
there. -/
theorem PaInv.put_head (h : PaInv s L) {w : HeadWord}
    (hw : w.mark = false → w.addr ≠ 0 → (L i).head? = some w.addr)
    (hpc : s'.pc = Function.update s.pc t q) (hmem : s'.mem = s.mem) (hlive : s'.live = s.live)
    (htail : s'.tail = s.tail) (hhead : s'.head = Function.update s.head i w)
    (hfront : ∀ u, u ≠ t → PaRole.front (paRole (s.pc u)) = some i →
      PaStanding s' L (paRole (s.pc u)))
    (hstanding : PaStanding s' L (paRole q))
    (htoken : ∀ a, (paRole q).token = some a → ∀ u, u ≠ t → (paRole (s.pc u)).token ≠ some a)
    (hreads : PaReads s q) : PaInv s' L := by
  have hmem' : ∀ {q : PaQueuePc}, PaReads s q → PaReads s' q :=
    fun hq => paReads_of_mem hq fun a _ => congrFun hmem a
  refine h.move hpc ⟨fun j => ?_, h.shape.apart⟩ hstanding htoken (hmem' hreads) ?_
  · by_cases hj : j = i
    · have hlane := h.shape.lane i
      rw [hj]
      refine ⟨hlane.links.congr fun a _ => congrArg PNode.next (congrFun hmem a), hlane.nodup, ?_, ?_, ?_⟩
      · rw [hlive]
        exact hlane.alive
      · rw [htail]
        exact hlane.tail
      · rw [hhead, Function.update_self]
        exact hw
    · exact (h.shape.lane j).congr (fun a _ => congrFun hmem a) (fun a _ => congrFun hlive a)
        (congrFun htail j) (by rw [hhead, Function.update_of_ne hj])
  · intro u hu
    refine ⟨?_, hmem' (h.reads u)⟩
    by_cases hi : PaRole.front (paRole (s.pc u)) = some i
    · exact hfront u hu hi
    · refine paStanding_congr (h.standing u) hmem hlive ?_
      intro j hj
      have hne : j ≠ i := fun heq => hi (heq ▸ hj)
      rw [hhead, Function.update_of_ne hne]

/-- The head is stored for a lane that was empty. -/
theorem PaInv.setHead (h : PaInv s L) (hpc : s.pc t = .setHead p i) (result : Option QueueResult) :
    PaInv ((s.putHead i ⟨p, false⟩).goto t (.idle result)) L := by
  have hrole : paRole (s.pc t) = .heading i p := by rw [hpc]; rfl
  have hstanding := h.standing t
  rw [hrole] at hstanding
  refine h.put_head (fun _ _ => hstanding.1) rfl rfl rfl rfl rfl ?_ trivial ?_ trivial
  · intro u hu hfront
    refine absurd hfront (paFront_ne (h.standing u) hstanding.1 ?_)
    exact fun hau => hu (h.token u t p hau (by rw [hrole]; rfl))
  · intro a ha
    cases ha

/-! ### `dequeue_evpaq` -/

/-- The head is marked, and the node behind it is claimed. -/
theorem PaInv.mark (h : PaInv s L) {d : Nat} (hpc : s.pc t = .markHead d a)
    (hhead : s.head (d % s.N) = ⟨a, false⟩) (claims : List (Nat × Nat × Addr × Nat)) :
    (L (d % s.N)).head? = some a ∧ (∀ u, (paRole (s.pc u)).token ≠ some a) ∧
      PaInv ({ s.putHead (d % s.N) ⟨a, true⟩ with claims := claims }.goto t
        (.loadNext (d % s.N) a)) L := by
  generalize d % s.N = i at hhead
  have hnull : a ≠ 0 := by
    have hreads := h.reads t
    rw [hpc] at hreads
    exact hreads
  have hfirst : (L i).head? = some a := by
    have hfirst := (h.shape.lane i).head
    rw [hhead] at hfirst
    exact hfirst rfl hnull
  have htoken : ∀ u, (paRole (s.pc u)).token ≠ some a :=
    fun u => paToken_ne_head (h.standing u) h.shape hfirst hhead hnull
  refine ⟨hfirst, htoken, h.put_head ?_ rfl rfl rfl rfl rfl ?_ ⟨hfirst, Function.update_self _ _ _⟩
    ?_ trivial⟩
  · intro hmark
    cases hmark
  · exact fun u _ hfront => absurd hfront (paFront_ne (h.standing u) hfirst (htoken u))
  · intro b hb u _
    obtain rfl := Option.some.inj hb
    exact htoken u

/-- A thread that is active on a lane stands at its front. -/
theorem PaInv.active (h : PaInv s L) (hrole : paRole (s.pc t) = .active i a) :
    (L i).head? = some a ∧ s.head i = ⟨a, true⟩ := by
  have hstanding := h.standing t
  rw [hrole] at hstanding
  exact hstanding

/-- The tail of a lane on which a thread is active is not `NULL`. -/
theorem PaInv.tail_of_active (h : PaInv s L) (hrole : paRole (s.pc t) = .active i a) : s.tail i ≠ 0 := by
  intro hnull
  have hfirst := (h.active hrole).1
  rw [(h.shape.lane i).eq_nil_of_tail hnull] at hfirst
  cases hfirst

/-- The first node of the lane `i` is taken off by a thread that is active
there. -/
theorem PaInv.remove (h : PaInv s L) (hpc : s'.pc = Function.update s.pc t q) (hmem : s'.mem = s.mem)
    (hlive : s'.live = s.live) (hl : L i = a :: l) (hrole : paRole (s.pc t) = .active i a)
    (hlinked : ∀ p, [a, p] <:+: L i → paNext s a ≠ 0)
    (hhead : (s'.head i).mark = false → (s'.head i).addr ≠ 0 → l.head? = some (s'.head i).addr)
    (htail : s'.tail i = l.getLast?.getD 0) (hhead' : ∀ j, j ≠ i → s'.head j = s.head j)
    (htail' : ∀ j, j ≠ i → s'.tail j = s.tail j) (howned : PaRole.owned (paRole q) = some a)
    (hreads : PaReads s q) : PaInv s' (Function.update L i l) := by
  have hlane := h.shape.lane i
  have hmine : (paRole (s.pc t)).token = some a := by rw [hrole]; rfl
  have hfirst : (L i).head? = some a := by rw [hl]; rfl
  rw [hl] at hlane
  have hnodup := List.nodup_cons.mp hlane.nodup
  have hmem' : ∀ {q : PaQueuePc}, PaReads s q → PaReads s' q :=
    fun hq => paReads_of_mem hq fun a _ => congrFun hmem a
  have hsub : ∀ j b, b ∈ Function.update L i l j → b ∈ L j := by
    intro j b hb
    by_cases hj : j = i
    · rw [hj, Function.update_self] at hb
      rw [hj, hl]
      exact List.mem_cons_of_mem _ hb
    · rwa [Function.update_of_ne hj] at hb
  refine h.move hpc (h.shape.update ⟨?_, hnodup.2, ?_, htail, hhead⟩ ?_ ?_) ?_ (h.token_of_eq ?_)
    (hmem' hreads) ?_
  · exact hlane.links.tail.congr fun b _ => congrArg PNode.next (congrFun hmem b)
  · intro b hb
    rw [hlive]
    exact hlane.alive b (List.mem_cons_of_mem _ hb)
  · intro j hj
    exact (h.shape.lane j).congr (fun b _ => congrFun hmem b) (fun b _ => congrFun hlive b) (htail' j hj)
      (hhead' j hj)
  · intro j hj b hb hin
    exact hj (h.shape.apart j i b hin (hl ▸ List.mem_cons_of_mem _ hb))
  · obtain ⟨halive, hne⟩ := hlane.alive a List.mem_cons_self
    have hout : ∀ j, a ∉ Function.update L i l j := by
      intro j hin
      obtain rfl := h.shape.apart j i a (hsub j a hin) (hl ▸ List.mem_cons_self)
      rw [Function.update_self] at hin
      exact hnodup.1 hin
    exact paStanding_owned howned ⟨hlive ▸ halive, hne, hout⟩
  · intro b hb
    rw [hmine, ← paToken_of_owned howned]
    exact hb
  · intro u hu
    have hu' := h.standing u
    have hfront := paFront_ne hu' hfirst fun hau => hu (h.token u t a hau hmine)
    refine ⟨?_, hmem' (h.reads u)⟩
    have hstay : ∀ j, PaRole.front (paRole (s.pc u)) = some j →
        Function.update L i l j = L j ∧ s'.head j = s.head j := by
      intro j hj
      have hne : j ≠ i := by
        rintro rfl
        exact hfront hj
      exact ⟨Function.update_of_ne hne _ _, hhead' j hne⟩
    have hkeep : ∀ b, (s.live b = true ∧ b ≠ 0 ∧ ∀ j, b ∉ L j) →
        s'.live b = true ∧ b ≠ 0 ∧ ∀ j, b ∉ Function.update L i l j :=
      fun b hb => ⟨hlive ▸ hb.1, hb.2.1, fun j hin => hb.2.2 j (hsub j b hin)⟩
    cases hr : paRole (s.pc u) <;> rw [hr] at hu' hstay
    case none => trivial
    case fresh b => exact hkeep b hu'
    case cleared j b => exact hkeep b hu'
    case retiring b => exact hkeep b hu'
    case linking j p old =>
      refine ⟨?_, by rw [paNext, hmem]; exact hu'.2⟩
      by_cases hj : j = i
      · -- A link that is still missing is not the one behind `a`.
        subst hj
        have hne : old ≠ a := by
          rintro rfl
          exact hlinked p hu'.1 hu'.2
        rw [Function.update_self]
        exact behind_of_cons (hl ▸ hu'.1) hne
      · rw [Function.update_of_ne hj]
        exact hu'.1
    case heading j p =>
      obtain ⟨hL, hh⟩ := hstay j rfl
      exact ⟨hL ▸ hu'.1, hh ▸ hu'.2⟩
    case active j b =>
      obtain ⟨hL, hh⟩ := hstay j rfl
      exact ⟨hL ▸ hu'.1, hh.trans hu'.2⟩

/-- The tail is cleared: the node was the only one of its lane. The mark
stays at the head. -/
theorem PaInv.clear (h : PaInv s L) (hpc : s.pc t = .clearTail i a) (htail : s.tail i = a) :
    L i = [a] ∧ PaInv ((s.setTail i 0).goto t (.swing i a 0)) (Function.update L i []) := by
  have hrole : paRole (s.pc t) = .active i a := by rw [hpc]; rfl
  obtain ⟨hfirst, hhead⟩ := h.active hrole
  obtain ⟨l, hl⟩ : ∃ l, L i = a :: l := List.head?_eq_some_iff.mp hfirst
  have hlane := h.shape.lane i
  rw [hl] at hlane
  have hlast := hlane.getLast_of_tail (h.tail_of_active hrole)
  obtain rfl : l = [] := by
    cases l with
    | nil => rfl
    | cons c rest =>
      rw [htail, List.getLast?_cons_cons] at hlast
      exact absurd (List.mem_of_getLast? hlast) (List.nodup_cons.mp hlane.nodup).1
  refine ⟨hl, h.remove rfl rfl rfl hl hrole ?_ ?_ (Function.update_self _ _ _) (fun _ _ => rfl)
    (fun j hj => Function.update_of_ne hj _ _) rfl (Or.inl rfl)⟩
  · intro p hbehind
    rw [hl] at hbehind
    exact absurd hbehind.length_le (by simp)
  · intro hmark
    have hmark' : (s.head i).mark = false := hmark
    rw [hhead] at hmark'
    cases hmark'

/-- The head moves to the second node. -/
theorem PaInv.advance (h : PaInv s L) {next : Addr} (hpc : s.pc t = .swing i a next) (hnext : next ≠ 0) :
    ∃ l, L i = a :: l ∧ l.head? = some next ∧ s.head i = ⟨a, true⟩ ∧
      PaInv ((s.putHead i ⟨next, false⟩).goto t (.readData a)) (Function.update L i l) := by
  have hrole : paRole (s.pc t) = .active i a := by rw [hpc]; exact if_neg hnext
  obtain ⟨hfirst, hhead⟩ := h.active hrole
  obtain ⟨l, hl⟩ : ∃ l, L i = a :: l := List.head?_eq_some_iff.mp hfirst
  have hlink : paNext s a = next := by
    have hreads := h.reads t
    rw [hpc] at hreads
    exact hreads.resolve_left hnext
  have hlane := h.shape.lane i
  rw [hl] at hlane
  obtain ⟨rest, rfl⟩ := hlane.links.head_next (hlink.symm ▸ hnext)
  refine ⟨_, hl, congrArg some hlink, hhead, h.remove rfl rfl rfl hl hrole ?_ ?_ ?_
    (fun j hj => Function.update_of_ne hj _ _) (fun _ _ => rfl) rfl trivial⟩
  · intro p _ hnone
    exact hnext (hlink.symm.trans hnone)
  · intro _ _
    rw [hlink]
    have hself := Function.update_self (f := s.head) i ⟨next, false⟩
    exact congrArg (fun w => some (HeadWord.addr w)) hself.symm
  · have htail := hlane.tail
    rw [List.getLast?_cons_cons] at htail
    exact htail

/-- The node is freed. -/
theorem PaInv.free (h : PaInv s L) {data : Nat} (hpc : s.pc t = .free a data)
    (returned : List (Nat × Addr × Nat)) (last : Option QueueResult) :
    PaInv ({ s with
      live := Function.update s.live a false
      returned := returned }.goto t (.idle last)) L := by
  have hrole : paRole (s.pc t) = .retiring a := by rw [hpc]; rfl
  obtain ⟨-, -, hnot⟩ := h.owned hrole rfl
  have hlive : ∀ b, b ≠ a → Function.update s.live a false b = s.live b :=
    fun b hb => Function.update_of_ne hb _ _
  refine h.move rfl ⟨fun i => ?_, h.shape.apart⟩ trivial ?_ trivial ?_
  · refine (h.shape.lane i).congr (fun _ _ => rfl) (fun b hb => hlive b ?_) rfl rfl
    rintro rfl
    exact hnot i hb
  · intro b hb
    cases hb
  · intro u hu
    refine ⟨?_, paReads_of_mem (h.reads u) fun _ _ => rfl⟩
    have hu' := h.standing u
    have hne : ∀ b, (paRole (s.pc u)).token = some b → b ≠ a := by
      rintro b hb rfl
      exact hu (h.token u t b hb (by rw [hrole]; rfl))
    cases hr : paRole (s.pc u) <;> rw [hr] at hu' hne
    case fresh b => exact ⟨(hlive b (hne b rfl)).trans hu'.1, hu'.2⟩
    case cleared i b => exact ⟨(hlive b (hne b rfl)).trans hu'.1, hu'.2⟩
    case retiring b => exact ⟨(hlive b (hne b rfl)).trans hu'.1, hu'.2⟩
    all_goals exact hu'

end Efio.Proofs.Evds
