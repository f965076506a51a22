import Efio.Lib.DelayedLinks
import Efio.Proofs.Evds.QueueSteps
import Mathlib.Algebra.GroupWithZero.Nat
import Mathlib.Data.List.Nodup

/-!
# `Efio.Proofs.Evds.QueueInv`: the list between head and tail

`QueueInv s held pending` describes every state of the queue. `pending` are
the nodes exchanged into the tail and not yet claimed, and `held` is the
node of a consumer that has marked the head and not yet cleared the tail
or moved the head. Together they are a list linked from behind
(`Delayed`), with the tail at its end.

There is one lemma for each kind of step. An exchange puts a node at the
end of `pending` (`QueueInv.exchange`), a claim moves the first one to
`held` (`QueueInv.mark`), and `QueueInv.clear` and `QueueInv.swing` empty
`held`.

An enqueue that found the tail empty stores the head later. A consumer
that has cleared the tail may still be about to move the head then
(`head_marked` allows an empty `held`).
-/

set_option autoImplicit false

namespace Efio.Proofs.Evds

open Efio.Lib
open Efio.Evds
open Efio.Spec

variable {s : EvQueue} {held pending : List Addr} {t : Nat}

/-- The links of the nodes. -/
def next (s : EvQueue) (a : Addr) : Addr := (s.mem a).next

/-- Head, tail, and the list between them. -/
structure Shape (s : EvQueue) (held pending : List Addr) : Prop where
  links : Delayed (next s) (held ++ pending)
  nodup : (held ++ pending).Nodup
  alive : ∀ a ∈ held ++ pending, s.live a = true ∧ a ≠ 0
  tail : s.tail = (held ++ pending).getLast?.getD 0
  head_null : s.head.addr = 0 → held = []
  head_open : s.head.mark = false → s.head.addr ≠ 0 → held = [] ∧ pending.head? = some s.head.addr
  head_marked : s.head.mark = true → s.head.addr ≠ 0 ∧ (held = [] ∨ held = [s.head.addr])

/-- Where the node of a thread is. -/
structure Placed (s : EvQueue) (held pending : List Addr) (r : Role) : Prop where
  owned : ∀ a, r.owned = some a → s.live a = true ∧ a ≠ 0 ∧ a ∉ held ++ pending
  linking : ∀ p old b, r = .linking p old b → [old, p] <:+: held ++ pending ∧ next s old = 0
  heading : ∀ p, r = .heading p →
    held = [] ∧ pending.head? = some p ∧ (s.head.addr = 0 ∨ s.head.mark = true)
  active : ∀ h, r = .active h → s.head = ⟨h, true⟩ ∧ held = [h]

/-- The invariant of the queue. -/
structure QueueInv (s : EvQueue) (held pending : List Addr) : Prop where
  shape : Shape s held pending
  placed : ∀ t, Placed s held pending (role (s.pc t))
  token : ∀ t u a, (role (s.pc t)).token = some a → (role (s.pc u)).token = some a → t = u
  reads : ∀ t, Reads s.mem (s.pc t)

/-! ### Roles -/

/-- A token is owned, or it has its place on the list. -/
theorem token_cases {r : Role} {a : Addr} (h : r.token = some a) :
    r.owned = some a ∨ (∃ old b, r = .linking a old b) ∨ r = .heading a ∨ r = .active a := by
  cases r <;> cases h
  case fresh => exact Or.inl rfl
  case linking old b => exact Or.inr (Or.inl ⟨old, b, rfl⟩)
  case heading => exact Or.inr (Or.inr (Or.inl rfl))
  case active => exact Or.inr (Or.inr (Or.inr rfl))
  case cleared => exact Or.inl rfl
  case retiring => exact Or.inl rfl

theorem token_of_owned {r : Role} {a : Addr} (h : r.owned = some a) : r.token = some a := by
  cases r <;> cases h <;> rfl

theorem placed_none : Placed s held pending .none := by
  refine ⟨?_, ?_, ?_, ?_⟩
  · intro a h
    cases h
  · intro p old b h
    cases h
  · intro p h
    cases h
  · intro a h
    cases h

theorem placed_linked (p old : Addr) : Placed s held pending (.linked p old) := by
  refine ⟨?_, ?_, ?_, ?_⟩
  · intro a h
    cases h
  · intro p old b h
    cases h
  · intro p h
    cases h
  · intro a h
    cases h

theorem placed_of_owned {r : Role} {a : Addr} (hr : r.owned = some a) (hlive : s.live a = true)
    (hne : a ≠ 0) (hnot : a ∉ held ++ pending) : Placed s held pending r := by
  refine ⟨?_, ?_, ?_, ?_⟩
  · intro b hb
    obtain rfl := Option.some.inj (hr.symm.trans hb)
    exact ⟨hlive, hne, hnot⟩
  · rintro p old b rfl
    cases hr
  · rintro p rfl
    cases hr
  · rintro b rfl
    cases hr

theorem Placed.mem_of_heading {p : Addr} (h : Placed s held pending (.heading p)) :
    p ∈ held ++ pending := by
  obtain ⟨-, hfirst, -⟩ := h.heading p rfl
  exact List.mem_append_right _ (List.mem_of_mem_head? hfirst)

theorem Placed.mem_of_active {a : Addr} (h : Placed s held pending (.active a)) :
    a ∈ held ++ pending := by
  rw [(h.active a rfl).2]
  exact List.mem_cons_self

/-- A token is the address of an allocated node. -/
theorem Placed.token_live {r : Role} (h : Placed s held pending r) (hshape : Shape s held pending)
    {a : Addr} (htoken : r.token = some a) : s.live a = true ∧ a ≠ 0 := by
  rcases token_cases htoken with howned | ⟨old, b, rfl⟩ | rfl | rfl
  · exact ⟨(h.owned a howned).1, (h.owned a howned).2.1⟩
  · exact hshape.alive a (behind_mem (h.linking a old b rfl).1).2
  · exact hshape.alive a h.mem_of_heading
  · exact hshape.alive a h.mem_of_active

/-- The first node of the list is nobody's token, unless the list is held or
its head is not yet stored. -/
theorem Placed.token_ne_head {r : Role} (h : Placed s held pending r) (hshape : Shape s held pending)
    {a b : Addr} (hopen : s.head = ⟨a, false⟩) (hne : a ≠ 0) (htoken : r.token = some b) : b ≠ a := by
  have haddr : s.head.addr = a := by rw [hopen]
  have hmark : s.head.mark = false := by rw [hopen]
  obtain ⟨hheld, hfirst⟩ := hshape.head_open hmark (haddr.symm ▸ hne)
  rw [haddr] at hfirst
  obtain ⟨rest, rfl⟩ : ∃ rest, pending = a :: rest := by
    cases pending with
    | nil => cases hfirst
    | cons c rest => exact ⟨rest, by rw [Option.some.inj hfirst]⟩
  subst hheld
  rintro rfl
  rcases token_cases htoken with howned | ⟨old, c, rfl⟩ | rfl | rfl
  · exact (h.owned b howned).2.2 List.mem_cons_self
  · -- A node with a predecessor is not the first one.
    have hnodup : (b :: rest).Nodup := hshape.nodup
    rcases behind_cons (h.linking b old c rfl).1 with ⟨l', -, hl'⟩ | hbehind
    · exact (List.nodup_cons.mp hnodup).1 (hl' ▸ List.mem_cons_self)
    · exact (List.nodup_cons.mp hnodup).1 (behind_mem hbehind).2
  · rcases (h.heading b rfl).2.2 with hzero | hmarked
    · exact hne (haddr.symm.trans hzero)
    · exact Bool.false_ne_true (hmark.symm.trans hmarked)
  · rw [(h.active b rfl).1] at hmark
    cases hmark

/-! ### What the threads have read -/

/-- What has been read stays there when the data does, and when only missing
links of nodes on the list are stored. -/
theorem reads_congr {mem mem' : Addr → Node} {q : QueuePc} (h : Reads mem q)
    (hnext : ∀ a, (mem' a).next = (mem a).next ∨ (mem a).next = 0 ∧ (role q).owned ≠ some a)
    (hdata : ∀ a, (mem' a).data = (mem a).data) : Reads mem' q := by
  have hread : ∀ a n : Addr, n = 0 ∨ (mem a).next = n → n = 0 ∨ (mem' a).next = n := by
    intro a n hn
    rcases hnext a with heq | ⟨hnone, -⟩
    · exact hn.imp_right fun h => heq.trans h
    · exact Or.inl (hn.elim id fun h => h.symm.trans hnone)
  cases q with
  | exchange p =>
    rcases hnext p with heq | ⟨-, howned⟩
    · exact heq.trans h
    · exact absurd rfl howned
  | testTail v a n => exact hread a n h
  | swing v a n => exact hread a n h
  | testInflight a d => exact (hdata a).trans h
  | testMagic a d => exact (hdata a).trans h
  | storeMagic a d => exact (hdata a).trans h
  | free a d => exact (hdata a).trans h
  | _ => exact h

theorem token_swing (v : Dequeuer) (a n : Addr) : (role (.swing v a n)).token = some a := by
  by_cases hn : n = 0
  · rw [role, if_pos hn]
    rfl
  · rw [role, if_neg hn]
    rfl

/-- What has been read concerns the thread's own node only. -/
theorem reads_of_token {mem mem' : Addr → Node} {q : QueuePc} (h : Reads mem q)
    (hsame : ∀ a, (role q).token = some a → mem' a = mem a) : Reads mem' q := by
  cases q with
  | exchange p => exact (congrArg Node.next (hsame p rfl)).trans h
  | testTail v a n => exact h.imp_right fun heq => (congrArg Node.next (hsame a rfl)).trans heq
  | swing v a n =>
    exact h.imp_right fun heq => (congrArg Node.next (hsame a (token_swing v a n))).trans heq
  | testInflight a d => exact (congrArg Node.data (hsame a rfl)).trans h
  | testMagic a d => exact (congrArg Node.data (hsame a rfl)).trans h
  | storeMagic a d => exact (congrArg Node.data (hsame a rfl)).trans h
  | free a d => exact (congrArg Node.data (hsame a rfl)).trans h
  | _ => exact h

/-! ### One thread moves -/

/-- The thread `t` moves to `q`. Its token is the one it had, or nobody
else's. -/
theorem QueueInv.move {s' : EvQueue} {held' pending' : List Addr} {q : QueuePc}
    (h : QueueInv s held pending) (hpc : s'.pc = Function.update s.pc t q)
    (hshape : Shape s' held' pending') (hplaced : Placed s' held' pending' (role q))
    (htoken : ∀ a, (role q).token = some a → ∀ u, u ≠ t → (role (s.pc u)).token ≠ some a)
    (hreads : Reads s'.mem q)
    (hothers : ∀ u, u ≠ t → Placed s' held' pending' (role (s.pc u)) ∧ Reads s'.mem (s.pc u)) :
    QueueInv s' held' pending' := by
  have hself : s'.pc t = q := by rw [hpc, Function.update_self]
  have hother : ∀ u, u ≠ t → s'.pc u = s.pc u := by
    intro u hu
    rw [hpc, Function.update_of_ne hu]
  refine ⟨hshape, ?_, ?_, ?_⟩
  · intro u
    by_cases hu : u = t
    · rw [hu, hself]
      exact hplaced
    · rw [hother u hu]
      exact (hothers u hu).1
  · intro u v a hu hv
    by_cases hut : u = t <;> by_cases hvt : v = t
    · rw [hut, hvt]
    · rw [hut, hself] at hu
      rw [hother v hvt] at hv
      exact absurd hv (htoken a hu v hvt)
    · rw [hvt, hself] at hv
      rw [hother u hut] at hu
      exact absurd hu (htoken a hv u hut)
    · rw [hother u hut] at hu
      rw [hother v hvt] at hv
      exact h.token u v a hu hv
  · intro u
    by_cases hu : u = t
    · rw [hu, hself]
      exact hreads
    · rw [hother u hu]
      exact (hothers u hu).2

/-- The thread keeps its token, or drops it. -/
theorem QueueInv.token_of_eq (h : QueueInv s held pending) {r : Role}
    (hr : ∀ a, r.token = some a → (role (s.pc t)).token = some a) :
    ∀ a, r.token = some a → ∀ u, u ≠ t → (role (s.pc u)).token ≠ some a := by
  intro a ha u hu hother
  exact hu (h.token u t a hother (hr a ha))

/-! ### Steps that only read -/

/-- The list looks at the memory only through the links. -/
theorem Shape.congr {s' : EvQueue} (h : Shape s held pending)
    (hnext : ∀ a ∈ held ++ pending, next s' a = next s a) (hlive : s'.live = s.live)
    (htail : s'.tail = s.tail) (hhead : s'.head = s.head) : Shape s' held pending := by
  refine ⟨h.links.congr hnext, h.nodup, ?_, ?_, ?_, ?_, ?_⟩
  · rw [hlive]
    exact h.alive
  · rw [htail]
    exact h.tail
  · rw [hhead]
    exact h.head_null
  · rw [hhead]
    exact h.head_open
  · rw [hhead]
    exact h.head_marked

theorem Placed.congr {s' : EvQueue} {r : Role} (h : Placed s held pending r)
    (hnext : ∀ a ∈ held ++ pending, next s' a = next s a) (hlive : s'.live = s.live)
    (hhead : s'.head = s.head) : Placed s' held pending r := by
  refine ⟨?_, ?_, ?_, ?_⟩
  · rw [hlive]
    exact h.owned
  · intro p old b hr
    obtain ⟨hbehind, hnone⟩ := h.linking p old b hr
    exact ⟨hbehind, (hnext old (behind_mem hbehind).1).trans hnone⟩
  · rw [hhead]
    exact h.heading
  · rw [hhead]
    exact h.active

/-- A step that changes neither links nor data, and not the role. -/
theorem QueueInv.same {s' : EvQueue} {q : QueuePc} (h : QueueInv s held pending)
    (hpc : s'.pc = Function.update s.pc t q) (hnext : ∀ a, (s'.mem a).next = (s.mem a).next)
    (hdata : ∀ a, (s'.mem a).data = (s.mem a).data) (hlive : s'.live = s.live)
    (htail : s'.tail = s.tail) (hhead : s'.head = s.head)
    (hplaced : Placed s' held pending (role q))
    (htoken : ∀ a, (role q).token = some a → (role (s.pc t)).token = some a)
    (hreads : Reads s'.mem q) : QueueInv s' held pending := by
  have hlinks : ∀ a ∈ held ++ pending, next s' a = next s a := fun a _ => hnext a
  refine h.move hpc (h.shape.congr hlinks hlive htail hhead) hplaced (h.token_of_eq htoken) hreads ?_
  intro u _
  exact ⟨(h.placed u).congr hlinks hlive hhead, reads_congr (h.reads u) (fun a => Or.inl (hnext a)) hdata⟩

theorem QueueInv.plain (h : QueueInv s held pending) (t : Nat) (q : QueuePc) {mem : Addr → Node}
    (e d : Nat) (hrole : role q = role (s.pc t)) (hmem : SameNodes s.mem mem)
    (hreads : Reads s.mem (s.pc t) → Reads mem q) :
    QueueInv ({ s with mem := mem, eCount := e, dCount := d }.goto t q) held pending := by
  refine h.same rfl hmem.next hmem.data rfl rfl rfl ?_ ?_ (hreads (h.reads t))
  · rw [hrole]
    exact (h.placed t).congr (fun a _ => hmem.next a) rfl rfl
  · rw [hrole]
    exact fun _ ha => ha

/-- A store that leaves `next` and `data` of the node as they are. -/
theorem store_same (a : Addr) (n : Node) (hnext : n.next = (s.mem a).next)
    (hdata : n.data = (s.mem a).data) :
    (∀ b, ((s.store a n).mem b).next = (s.mem b).next) ∧
      ∀ b, ((s.store a n).mem b).data = (s.mem b).data := by
  refine ⟨?_, ?_⟩ <;> intro b <;> show _ = _ <;> by_cases hb : b = a
  · rw [hb, ← hnext]
    exact congrArg Node.next (Function.update_self _ _ _)
  · exact congrArg Node.next (Function.update_of_ne hb _ _)
  · rw [hb, ← hdata]
    exact congrArg Node.data (Function.update_self _ _ _)
  · exact congrArg Node.data (Function.update_of_ne hb _ _)

theorem QueueInv.raise (h : QueueInv s held pending) {p old : Addr}
    (hpc : s.pc t = .raiseInflight p old) :
    QueueInv ((s.store old { s.mem old with inflight := 1 }).goto t (.checkMagic p old))
      held pending := by
  obtain ⟨hnext, hdata⟩ := store_same (s := s) old { s.mem old with inflight := 1 } rfl rfl
  have hlink := h.placed t
  rw [hpc] at hlink
  have hself : Placed (s.store old { s.mem old with inflight := 1 }) held pending
      (role (.raiseInflight p old)) := hlink.congr (fun a _ => hnext a) rfl rfl
  refine h.same rfl hnext hdata rfl rfl rfl ⟨?_, ?_, ?_, ?_⟩ ?_ trivial
  · intro a ha
    cases ha
  · intro p' old' b hr
    cases hr
    exact hself.linking p old false rfl
  · intro p' hr
    cases hr
  · intro a hr
    cases hr
  · rw [hpc]
    exact fun _ ha => ha

theorem QueueInv.drop (h : QueueInv s held pending) {old : Addr} (q : QueuePc)
    (hrole : role q = .none) (hreads : ∀ mem, Reads mem q) :
    QueueInv ((s.store old { s.mem old with inflight := 0 }).goto t q) held pending := by
  obtain ⟨hnext, hdata⟩ := store_same (s := s) old { s.mem old with inflight := 0 } rfl rfl
  refine h.same rfl hnext hdata rfl rfl rfl ?_ ?_ (hreads _)
  · rw [hrole]
    exact placed_none
  · rw [hrole]
    intro a ha
    cases ha

/-! ### `enqueue` -/

theorem QueueInv.malloc (h : QueueInv s held pending) {a : Addr} (n : Node) (gid : Nat)
    (hnull : a ≠ 0) (hfree : s.live a = false) (hnext : n.next = 0) :
    QueueInv ({ s.store a n with
      gid := gid
      live := Function.update s.live a true }.goto t (.exchange a)) held pending := by
  have hnew : ∀ b, s.live b = true → b ≠ a := by
    rintro b hb rfl
    exact Bool.false_ne_true (hfree.symm.trans hb)
  have hmem : ∀ b, b ≠ a → (s.store a n).mem b = s.mem b := fun b hb => Function.update_of_ne hb _ _
  have hlive : ∀ b, s.live b = true → Function.update s.live a true b = true := by
    intro b hb
    rw [Function.update_of_ne (hnew b hb)]
    exact hb
  have hlist : a ∉ held ++ pending := by
    intro hin
    exact hnew a (h.shape.alive a hin).1 rfl
  have hlinks : ∀ b ∈ held ++ pending, (s.store a n).mem b = s.mem b := by
    intro b hb
    exact hmem b (hnew b (h.shape.alive b hb).1)
  refine h.move rfl ⟨?_, h.shape.nodup, ?_, h.shape.tail, h.shape.head_null, h.shape.head_open,
    h.shape.head_marked⟩ ?_ ?_ ?_ ?_
  · exact h.shape.links.congr fun b hb => congrArg Node.next (hlinks b hb)
  · intro b hb
    exact ⟨hlive b (h.shape.alive b hb).1, (h.shape.alive b hb).2⟩
  · exact placed_of_owned rfl (Function.update_self _ _ _) hnull hlist
  · -- A fresh node is nobody's token, since tokens are allocated.
    intro b hb u _ hu
    obtain rfl := Option.some.inj hb
    exact hnew a ((h.placed u).token_live h.shape hu).1 rfl
  · show ((s.store a n).mem a).next = 0
    rw [← hnext]
    exact congrArg Node.next (Function.update_self _ _ _)
  · intro u _
    refine ⟨⟨?_, ?_, (h.placed u).heading, (h.placed u).active⟩, ?_⟩
    · intro b hb
      obtain ⟨hb, hne, hnot⟩ := (h.placed u).owned b hb
      exact ⟨hlive b hb, hne, hnot⟩
    · intro p old b hr
      obtain ⟨hbehind, hnone⟩ := (h.placed u).linking p old b hr
      exact ⟨hbehind, (congrArg Node.next (hlinks old (behind_mem hbehind).1)).trans hnone⟩
    · refine reads_of_token (h.reads u) ?_
      intro b hb
      exact hmem b (hnew b ((h.placed u).token_live h.shape hb).1)

/-- The last address of the list is the tail. -/
theorem Shape.getLast_of_tail (h : Shape s held pending) (hne : s.tail ≠ 0) :
    (held ++ pending).getLast? = some s.tail := by
  have htail := h.tail
  cases hlast : (held ++ pending).getLast? with
  | none =>
    rw [hlast] at htail
    exact absurd htail hne
  | some a =>
    rw [hlast] at htail
    rw [htail]
    rfl

/-- The tail is `NULL` only when the list is empty. -/
theorem Shape.eq_nil_of_tail (h : Shape s held pending) (hnull : s.tail = 0) : held ++ pending = [] := by
  have htail := h.tail
  cases hlast : (held ++ pending).getLast? with
  | none => exact List.getLast?_eq_none_iff.mp hlast
  | some a =>
    rw [hlast, hnull] at htail
    exact absurd htail.symm (h.alive a (List.mem_of_getLast? hlast)).2

theorem QueueInv.exchange (h : QueueInv s held pending) {p : Addr} (hpc : s.pc t = .exchange p)
    (exchanged : List (Nat × Nat)) :
    QueueInv ({ s with tail := p, exchanged := exchanged }.goto t (.count p s.tail))
      held (pending ++ [p]) := by
  have hrole : role (s.pc t) = .fresh p := by rw [hpc]; rfl
  obtain ⟨hlive, hne, hnot⟩ := (h.placed t).owned p (by rw [hrole]; rfl)
  have hnone : next s p = 0 := by
    have hreads := h.reads t
    rw [hpc] at hreads
    exact hreads
  have hassoc : held ++ (pending ++ [p]) = (held ++ pending) ++ [p] := (List.append_assoc _ _ _).symm
  have hfirst : ∀ a, pending.head? = some a → (pending ++ [p]).head? = some a := by
    intro a ha
    rw [List.head?_append, ha]
    rfl
  refine h.move rfl ⟨?_, ?_, ?_, ?_, h.shape.head_null, ?_, h.shape.head_marked⟩ ?_ ?_ trivial ?_
  · rw [hassoc]
    exact h.shape.links.snoc hnone
  · rw [hassoc, ← List.concat_eq_append]
    exact h.shape.nodup.concat hnot
  · intro a ha
    rw [hassoc, List.mem_append, List.mem_singleton] at ha
    rcases ha with ha | rfl
    · exact h.shape.alive a ha
    · exact ⟨hlive, hne⟩
  · rw [hassoc, List.getLast?_concat]
    rfl
  · intro hmark haddr
    obtain ⟨hheld, hhead⟩ := h.shape.head_open hmark haddr
    exact ⟨hheld, hfirst _ hhead⟩
  · by_cases htail : s.tail = 0
    · -- The queue was empty, so the head is `NULL` or still marked.
      obtain ⟨rfl, rfl⟩ := List.append_eq_nil_iff.mp (h.shape.eq_nil_of_tail htail)
      refine ⟨?_, ?_, ?_, ?_⟩
      · intro a ha
        rw [role, if_pos htail] at ha
        cases ha
      · intro p' old b hr
        rw [role, if_pos htail] at hr
        cases hr
      · intro p' hr
        rw [role, if_pos htail] at hr
        cases hr
        refine ⟨rfl, rfl, ?_⟩
        by_cases hmark : s.head.mark = true
        · exact Or.inr hmark
        · by_contra hopen
          rw [not_or] at hopen
          cases (h.shape.head_open (Bool.not_eq_true _ ▸ hmark) hopen.1).2
      · intro a hr
        rw [role, if_pos htail] at hr
        cases hr
    · have hlast := h.shape.getLast_of_tail htail
      refine ⟨?_, ?_, ?_, ?_⟩
      · intro a ha
        rw [role, if_neg htail] at ha
        cases ha
      · intro p' old b hr
        rw [role, if_neg htail] at hr
        cases hr
        rw [hassoc]
        exact ⟨behind_snoc hlast, h.shape.links.next_last hlast⟩
      · intro p' hr
        rw [role, if_neg htail] at hr
        cases hr
      · intro a hr
        rw [role, if_neg htail] at hr
        cases hr
  · refine h.token_of_eq ?_
    intro a ha
    rw [hrole, ← ha]
    by_cases htail : s.tail = 0
    · rw [role, if_pos htail]
      rfl
    · rw [role, if_neg htail]
      rfl
  · intro u hu
    refine ⟨⟨?_, ?_, ?_, (h.placed u).active⟩, h.reads u⟩
    · intro a ha
      obtain ⟨hlive', hne', hnot'⟩ := (h.placed u).owned a ha
      refine ⟨hlive', hne', ?_⟩
      rw [hassoc, List.mem_append, List.mem_singleton]
      rintro (hin | rfl)
      · exact hnot' hin
      · exact hu (h.token u t a (token_of_owned ha) (by rw [hrole]; rfl))
    · intro p' old b hr
      obtain ⟨hbehind, hnone'⟩ := (h.placed u).linking p' old b hr
      rw [hassoc]
      exact ⟨behind_append hbehind, hnone'⟩
    · intro p' hr
      obtain ⟨hheld, hhead, hopen⟩ := (h.placed u).heading p' hr
      exact ⟨hheld, hfirst _ hhead, hopen⟩

theorem QueueInv.link (h : QueueInv s held pending) {p old : Addr} (hpc : s.pc t = .link p old) :
    QueueInv ((s.store old { s.mem old with next := p }).goto t (.dropInflight p old))
      held pending := by
  have hrole : role (s.pc t) = .linking p old true := by rw [hpc]; rfl
  obtain ⟨hbehind, hnone⟩ := (h.placed t).linking p old true hrole
  have hold : old ∈ held ++ pending := (behind_mem hbehind).1
  have hother : ∀ a, a ≠ old → (s.store old { s.mem old with next := p }).mem a = s.mem a :=
    fun a ha => Function.update_of_ne ha _ _
  have hself : (s.store old { s.mem old with next := p }).mem old = { s.mem old with next := p } :=
    Function.update_self _ _ _
  have hnext : next (s.store old { s.mem old with next := p }) = Function.update (next s) old p := by
    funext a
    by_cases ha : a = old
    · rw [ha, Function.update_self]
      exact congrArg Node.next hself
    · rw [Function.update_of_ne ha]
      exact congrArg Node.next (hother a ha)
  refine h.move rfl ⟨?_, h.shape.nodup, h.shape.alive, h.shape.tail, h.shape.head_null,
    h.shape.head_open, h.shape.head_marked⟩ (placed_linked p old) ?_ trivial ?_
  · show Delayed (next (s.store old { s.mem old with next := p })) (held ++ pending)
    rw [hnext]
    exact h.shape.links.store h.shape.nodup hbehind
  · intro a ha
    cases ha
  · intro u hu
    refine ⟨⟨(h.placed u).owned, ?_, (h.placed u).heading, (h.placed u).active⟩, ?_⟩
    · intro p' old' b hr
      obtain ⟨hbehind', hnone'⟩ := (h.placed u).linking p' old' b hr
      refine ⟨hbehind', ?_⟩
      -- Another thread links from another node: `old` has one successor.
      have hne : old' ≠ old := by
        rintro rfl
        obtain rfl := behind_unique h.shape.nodup hbehind hbehind'
        exact hu (h.token u t p (by rw [hr]; rfl) (by rw [hrole]; rfl))
      exact (congrArg Node.next (hother old' hne)).trans hnone'
    · refine reads_congr (h.reads u) ?_ ?_
      · intro a
        by_cases ha : a = old
        · -- What was read of `old` was that its link is missing.
          rw [ha]
          refine Or.inr ⟨hnone, ?_⟩
          intro howned
          exact ((h.placed u).owned old howned).2.2 hold
        · exact Or.inl (congrArg Node.next (hother a ha))
      · intro a
        by_cases ha : a = old
        · rw [ha]
          have hdata := congrArg Node.data hself
          exact hdata
        · exact congrArg Node.data (hother a ha)

/-- The head is stored for a queue that was empty. -/
theorem QueueInv.setHead (h : QueueInv s held pending) {p : Addr} (hpc : s.pc t = .setHead p)
    (q : QueuePc) (hq : role q = .none) (hreads : Reads s.mem q) :
    QueueInv ({ s with head := ⟨p, false⟩ }.goto t q) held pending := by
  have hrole : role (s.pc t) = .heading p := by rw [hpc]; rfl
  obtain ⟨hheld, hfirst, -⟩ := (h.placed t).heading p hrole
  have hlive := (h.placed t).token_live h.shape (a := p) (by rw [hrole]; rfl)
  refine h.move rfl ⟨h.shape.links, h.shape.nodup, h.shape.alive, h.shape.tail, fun _ => hheld,
    fun _ _ => ⟨hheld, hfirst⟩, ?_⟩ ?_ ?_ hreads ?_
  · intro hmark
    cases hmark
  · rw [hq]
    exact placed_none
  · rw [hq]
    intro a ha
    cases ha
  · intro u hu
    refine ⟨⟨(h.placed u).owned, (h.placed u).linking, ?_, ?_⟩, h.reads u⟩
    · -- Nobody else is about to store the head.
      intro p' hr
      obtain ⟨-, hfirst', -⟩ := (h.placed u).heading p' hr
      obtain rfl := Option.some.inj (hfirst.symm.trans hfirst')
      exact absurd (h.token u t p (by rw [hr]; rfl) (by rw [hrole]; rfl)) hu
    · intro a hr
      have hheld' := ((h.placed u).active a hr).2
      rw [hheld] at hheld'
      cases hheld'

/-! ### `dequeue` and `try_dequeue` -/

/-- An unmarked head is the first pending node. -/
theorem Shape.pending_of_open (h : Shape s held pending) {a : Addr} (hopen : s.head = ⟨a, false⟩)
    (hne : a ≠ 0) : held = [] ∧ ∃ rest, pending = a :: rest := by
  obtain ⟨hheld, hfirst⟩ := h.head_open (by rw [hopen]) (by rw [hopen]; exact hne)
  rw [hopen] at hfirst
  cases pending with
  | nil => cases hfirst
  | cons c rest =>
    obtain rfl := Option.some.inj hfirst
    exact ⟨hheld, rest, rfl⟩

/-- The head is marked: its node is claimed. -/
theorem QueueInv.mark (h : QueueInv s held pending) {v : Dequeuer} {a : Addr}
    (hpc : s.pc t = .markHead v a) (hopen : s.head = ⟨a, false⟩) (claimed : List (Nat × Nat)) :
    held = [] ∧ ∃ rest, pending = a :: rest ∧
      QueueInv ({ s with head := ⟨a, true⟩, claimed := claimed }.goto t (.loadNext v a)) [a] rest := by
  have hne : a ≠ 0 := by
    have hreads := h.reads t
    rw [hpc] at hreads
    exact hreads
  obtain ⟨rfl, rest, rfl⟩ := h.shape.pending_of_open hopen hne
  refine ⟨rfl, rest, rfl, ?_⟩
  refine h.move rfl ⟨h.shape.links, h.shape.nodup, h.shape.alive, h.shape.tail, ?_, ?_, ?_⟩
    ⟨?_, ?_, ?_, ?_⟩ ?_ trivial ?_
  · intro haddr
    exact absurd haddr hne
  · intro hmark
    cases hmark
  · intro _
    exact ⟨hne, Or.inr rfl⟩
  · intro b hb
    cases hb
  · intro p old b hr
    cases hr
  · intro p hr
    cases hr
  · intro b hr
    cases hr
    exact ⟨rfl, rfl⟩
  · intro b hb u _ hu
    exact (h.placed u).token_ne_head h.shape hopen hne hu (Option.some.inj hb).symm
  · intro u _
    refine ⟨⟨(h.placed u).owned, (h.placed u).linking, ?_, ?_⟩, h.reads u⟩
    · -- A head that is about to be stored is `NULL` or marked.
      intro p hr
      rcases ((h.placed u).heading p hr).2.2 with hzero | hmarked
      · rw [hopen] at hzero
        exact absurd hzero hne
      · rw [hopen] at hmarked
        cases hmarked
    · intro b hr
      have hhead := ((h.placed u).active b hr).1
      rw [hopen] at hhead
      cases hhead

/-- The node of a consumer that has marked the head. -/
theorem QueueInv.active_eq (h : QueueInv s held pending) {a : Addr}
    (hrole : role (s.pc t) = .active a) : s.head = ⟨a, true⟩ ∧ held = [a] :=
  (h.placed t).active a hrole

/-- The tail is cleared: the claimed node was the only one. -/
theorem QueueInv.clear (h : QueueInv s held pending) {v : Dequeuer} {a : Addr}
    (hpc : s.pc t = .clearTail v a) (htail : s.tail = a) :
    held = [a] ∧ pending = [] ∧ QueueInv ({ s with tail := 0 }.goto t (.swing v a 0)) [] [] := by
  have hrole : role (s.pc t) = .active a := by rw [hpc]; rfl
  obtain ⟨hhead, rfl⟩ := h.active_eq hrole
  obtain ⟨hlive, hne⟩ := h.shape.alive a List.mem_cons_self
  have hlast := h.shape.getLast_of_tail (htail.symm ▸ hne)
  obtain rfl : pending = [] := by
    cases pending with
    | nil => rfl
    | cons c rest =>
      rw [htail, List.singleton_append, List.getLast?_cons_cons] at hlast
      exact absurd (List.mem_of_getLast? hlast) (List.nodup_cons.mp h.shape.nodup).1
  refine ⟨rfl, rfl, ?_⟩
  refine h.move rfl ⟨.nil, List.nodup_nil, ?_, rfl, fun _ => rfl, ?_, ?_⟩
    (placed_of_owned rfl hlive hne List.not_mem_nil) ?_ (Or.inl rfl) ?_
  · intro b hb
    cases hb
  · intro hmark
    exact absurd ((congrArg HeadWord.mark hhead).symm.trans hmark) Bool.true_eq_false.mp
  · intro _
    exact ⟨fun haddr => hne ((congrArg HeadWord.addr hhead).symm.trans haddr), Or.inl rfl⟩
  · exact h.token_of_eq fun b hb => by rw [hrole]; exact hb
  · intro u hu
    refine ⟨⟨?_, ?_, ?_, ?_⟩, h.reads u⟩
    · intro b hb
      obtain ⟨hlive', hne', -⟩ := (h.placed u).owned b hb
      exact ⟨hlive', hne', List.not_mem_nil⟩
    · intro p old b hr
      have hlen := ((h.placed u).linking p old b hr).1.length_le
      simp at hlen
    · intro p hr
      cases ((h.placed u).heading p hr).1
    · intro b hr
      obtain rfl := List.singleton_inj.mp ((h.placed u).active b hr).2
      exact absurd (h.token u t a (by rw [hr]; rfl) (by rw [hrole]; rfl)) hu

/-- The head moves past the claimed node. -/
theorem QueueInv.swing (h : QueueInv s held pending) {v : Dequeuer} {a n : Addr} {q : QueuePc}
    (hpc : s.pc t = .swing v a n) (hhead : s.head = ⟨a, true⟩) (hq : role q = .retiring a)
    (hreads : Reads s.mem q) :
    QueueInv ({ s with head := ⟨n, false⟩ }.goto t q) [] pending := by
  have hread : n = 0 ∨ (s.mem a).next = n := by
    have hreads := h.reads t
    rw [hpc] at hreads
    exact hreads
  have htoken : ∀ b, (role q).token = some b → (role (s.pc t)).token = some b := by
    intro b hb
    rw [hq] at hb
    rw [hpc, token_swing]
    exact hb
  by_cases hn : n = 0
  · -- The tail was cleared: nothing is held, and the head becomes `NULL`.
    subst hn
    have hrole : role (s.pc t) = .cleared a := by rw [hpc, role, if_pos rfl]
    obtain ⟨hlive, hne, hnot⟩ := (h.placed t).owned a (by rw [hrole]; rfl)
    obtain rfl : held = [] := by
      rcases (h.shape.head_marked (by rw [hhead])).2 with hnil | hone
      · exact hnil
      · rw [hone, hhead] at hnot
        exact absurd List.mem_cons_self hnot
    refine h.move rfl ⟨h.shape.links, h.shape.nodup, h.shape.alive, h.shape.tail, fun _ => rfl, ?_, ?_⟩
      ?_ (h.token_of_eq htoken) hreads ?_
    · intro _ haddr
      exact absurd rfl haddr
    · intro hmark
      cases hmark
    · rw [hq]
      exact placed_of_owned rfl hlive hne hnot
    · intro u _
      refine ⟨⟨(h.placed u).owned, (h.placed u).linking, ?_, ?_⟩, h.reads u⟩
      · intro p hr
        obtain ⟨hheld, hfirst, -⟩ := (h.placed u).heading p hr
        exact ⟨hheld, hfirst, Or.inl rfl⟩
      · intro b hr
        cases ((h.placed u).active b hr).2
  · -- The link was seen: its target is the first pending node.
    have hrole : role (s.pc t) = .active a := by rw [hpc, role, if_neg hn]
    obtain ⟨-, rfl⟩ := h.active_eq hrole
    obtain ⟨hlive, hne⟩ := h.shape.alive a List.mem_cons_self
    have hnext : next s a = n := hread.resolve_left hn
    obtain ⟨rest, hrest⟩ := h.shape.links.head_next (hnext.symm ▸ hn)
    rw [hnext] at hrest
    have hrest' : pending = n :: rest := hrest
    subst hrest'
    have hnodup := List.nodup_cons.mp h.shape.nodup
    refine h.move rfl ⟨h.shape.links.tail, hnodup.2, ?_, ?_, fun _ => rfl, fun _ _ => ⟨rfl, rfl⟩, ?_⟩
      ?_ (h.token_of_eq htoken) hreads ?_
    · intro b hb
      exact h.shape.alive b (List.mem_cons_of_mem _ hb)
    · have htail := h.shape.tail
      rw [List.singleton_append, List.getLast?_cons_cons] at htail
      exact htail
    · intro hmark
      cases hmark
    · rw [hq]
      exact placed_of_owned rfl hlive hne hnodup.1
    · intro u hu
      refine ⟨⟨?_, ?_, ?_, ?_⟩, h.reads u⟩
      · intro b hb
        obtain ⟨hlive', hne', hnot⟩ := (h.placed u).owned b hb
        exact ⟨hlive', hne', fun hin => hnot (List.mem_cons_of_mem _ hin)⟩
      · -- A link that is still missing is not the one that was seen.
        intro p old b hr
        obtain ⟨hbehind, hnone⟩ := (h.placed u).linking p old b hr
        refine ⟨behind_of_cons hbehind ?_, hnone⟩
        rintro rfl
        exact hn (hnext.symm.trans hnone)
      · intro p hr
        cases ((h.placed u).heading p hr).1
      · intro b hr
        obtain rfl := List.singleton_inj.mp ((h.placed u).active b hr).2
        exact absurd (h.token u t a (by rw [hr]; rfl) (by rw [hrole]; rfl)) hu

/-- A node is freed. -/
theorem QueueInv.free (h : QueueInv s held pending) {a d : Nat} (hpc : s.pc t = .free a d)
    (returned : List (Nat × Nat)) (q : QueuePc) (hq : role q = .none)
    (hreads : ∀ mem, Reads mem q) :
    QueueInv ({ s.store a Node.scrubbed with
      live := Function.update s.live a false
      returned := returned }.goto t q) held pending := by
  have hrole : role (s.pc t) = .retiring a := by rw [hpc]; rfl
  obtain ⟨-, -, hnot⟩ := (h.placed t).owned a (by rw [hrole]; rfl)
  have hmem : ∀ b, b ≠ a → (s.store a Node.scrubbed).mem b = s.mem b :=
    fun b hb => Function.update_of_ne hb _ _
  have hlist : ∀ b ∈ held ++ pending, b ≠ a := by
    rintro b hb rfl
    exact hnot hb
  have htoken : ∀ u, u ≠ t → ∀ b, (role (s.pc u)).token = some b → b ≠ a := by
    rintro u hu b hb rfl
    exact hu (h.token u t b hb (by rw [hrole]; rfl))
  refine h.move rfl ⟨?_, h.shape.nodup, ?_, h.shape.tail, h.shape.head_null, h.shape.head_open,
    h.shape.head_marked⟩ ?_ ?_ (hreads _) ?_
  · exact h.shape.links.congr fun b hb => congrArg Node.next (hmem b (hlist b hb))
  · intro b hb
    show Function.update s.live a false b = true ∧ b ≠ 0
    rw [Function.update_of_ne (hlist b hb)]
    exact h.shape.alive b hb
  · rw [hq]
    exact placed_none
  · rw [hq]
    intro b hb
    cases hb
  · intro u hu
    refine ⟨⟨?_, ?_, (h.placed u).heading, (h.placed u).active⟩, ?_⟩
    · intro b hb
      show Function.update s.live a false b = true ∧ _
      rw [Function.update_of_ne (htoken u hu b (token_of_owned hb))]
      exact (h.placed u).owned b hb
    · intro p old b hr
      obtain ⟨hbehind, hnone⟩ := (h.placed u).linking p old b hr
      have hne := hlist old (behind_mem hbehind).1
      exact ⟨hbehind, (congrArg Node.next (hmem old hne)).trans hnone⟩
    · exact reads_of_token (h.reads u) fun b hb => hmem b (htoken u hu b hb)

/-- While a node is claimed, the tail is not `NULL`. -/
theorem QueueInv.tail_ne_null (h : QueueInv s held pending) {a : Addr}
    (hrole : role (s.pc t) = .active a) : s.tail ≠ 0 := by
  intro htail
  have hnil := h.shape.eq_nil_of_tail htail
  rw [(h.active_eq hrole).2] at hnil
  cases hnil

theorem queueInv_create : QueueInv EvQueue.create [] [] := by
  refine ⟨⟨.nil, List.nodup_nil, ?_, rfl, fun _ => rfl, ?_, ?_⟩, fun _ => placed_none, ?_,
    fun _ => trivial⟩
  · intro a ha
    cases ha
  · intro _ hne
    exact absurd rfl hne
  · intro hmark
    cases hmark
  · intro t u a ha
    cases ha

end Efio.Proofs.Evds
