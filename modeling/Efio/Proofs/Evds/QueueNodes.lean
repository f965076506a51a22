import Efio.Proofs.Evds.QueueOrder

/-!
# `Efio.Proofs.Evds.QueueNodes`: the head update and the freed nodes

Two things the queue relies on hold only under a condition on the schedule.

* `headCas_succeeds`: the last compare-exchange of a consumer finds the
  head it has marked, as long as an enqueue that found the tail `NULL`
  stores the head only when it is `NULL` (`HeadWasNull`). A consumer that
  has cleared the tail and not yet moved the head is overtaken otherwise
  (`not_headCas_succeeds`).
* `freed_unused`: nobody uses a node that is freed, as long as a consumer
  moves the head past a node only when its `inflight` is `0`
  (`EpilogueDone`). An enqueue that has stored its link still has to clear
  `inflight`: `try_dequeue` frees the node under it, and `dequeue` aborts
  (`not_freed_unused`).
-/

set_option autoImplicit false

namespace Efio.Proofs.Evds

open Efio.Lib
open Efio.Evds
open Efio.Spec

variable {s s' : EvQueue} {held pending : List Addr} {t : Nat} {l : QueueLabel}

/-! ### The head update -/

/-- The thread that makes an access. -/
def accessor : QueueLabel → Option Nat
  | .access t => some t
  | _ => none

/-- The node that is about to be stored in the head. -/
def newHead : QueuePc → Option Addr
  | .setHead p => some p
  | _ => none

/-- An enqueue that found the tail `NULL` stores the head only when it is
`NULL`. -/
def HeadWasNull (s : EvQueue) (l : QueueLabel) : Prop :=
  ∀ t ∈ accessor l, ∀ _p ∈ newHead (s.pc t), s.head.addr = 0

instance : DecidableRel HeadWasNull := fun s l =>
  inferInstanceAs (Decidable (∀ t ∈ accessor l, ∀ _p ∈ newHead (s.pc t), s.head.addr = 0))

/-- A consumer that has cleared the tail still finds its mark, and no head
update has failed. -/
structure Unpassed (s : EvQueue) : Prop where
  cleared : ∀ t h, role (s.pc t) = .cleared h → s.head = ⟨h, true⟩
  aborted : s.aborted ≠ some .headCas

/-- The other threads, and `t` in its new role, keep their mark. -/
theorem Unpassed.move {q : QueuePc} (h : Unpassed s) (hpc : s'.pc = Function.update s.pc t q)
    (haborted : s'.aborted = s.aborted)
    (hself : ∀ a, role q = .cleared a → s'.head = ⟨a, true⟩)
    (hothers : ∀ u a, u ≠ t → role (s.pc u) = .cleared a → s'.head = ⟨a, true⟩) : Unpassed s' := by
  refine ⟨?_, haborted ▸ h.aborted⟩
  intro u a hu
  rw [hpc] at hu
  by_cases hut : u = t
  · rw [hut, Function.update_self] at hu
    exact hself a hu
  · rw [Function.update_of_ne hut] at hu
    exact hothers u a hut hu

/-- A step that leaves the head as it is, to a role that has not just
cleared the tail. -/
theorem Unpassed.same {q : QueuePc} (h : Unpassed s) (hpc : s'.pc = Function.update s.pc t q)
    (haborted : s'.aborted = s.aborted) (hhead : s'.head = s.head)
    (hself : ∀ a, role q = .cleared a → role (s.pc t) = .cleared a) : Unpassed s' := by
  refine h.move hpc haborted ?_ ?_
  · intro a ha
    rw [hhead]
    exact h.cleared t a (hself a ha)
  · intro u a _ hu
    rw [hhead]
    exact h.cleared u a hu

/-- A marked head is the one a swinging consumer has marked. -/
theorem Unpassed.head_eq (h : Unpassed s) (hinv : QueueInv s held pending) {v : Dequeuer} {a n : Addr}
    (hpc : s.pc t = .swing v a n) : s.head = ⟨a, true⟩ := by
  by_cases hn : n = 0
  · exact h.cleared t a (by rw [hpc, role, if_pos hn])
  · exact (hinv.active_eq (t := t) (by rw [hpc, role, if_neg hn])).1

theorem Unpassed.step (h : Unpassed s) (hinv : QueueInv s held pending) (hok : HeadWasNull s l)
    (hstep : EvQueue.step l s = some s') : Unpassed s' := by
  cases queueStep_of_step hstep with
  | plain t q mem e d hrole hmem hreads =>
    exact h.same rfl rfl rfl fun a ha => hrole.symm.trans ha
  | malloc hpc hnull hfree =>
    refine h.same rfl rfl rfl ?_
    intro a ha
    cases ha
  | exchange hpc =>
    refine h.same rfl rfl rfl ?_
    intro a ha
    rw [role] at ha
    split at ha <;> cases ha
  | raise hpc =>
    refine h.same rfl rfl rfl ?_
    intro a ha
    cases ha
  | link hpc =>
    refine h.same rfl rfl rfl ?_
    intro a ha
    cases ha
  | drop hpc =>
    refine h.same rfl rfl rfl ?_
    intro a ha
    cases ha
  | @setHead t p hpc =>
    have hnull : s.head.addr = 0 := hok t rfl p (by rw [hpc]; rfl)
    refine h.move rfl rfl ?_ ?_
    · intro a ha
      cases ha
    · -- The head is `NULL`, so no consumer has it marked.
      intro u a _ hu
      have hne := ((hinv.placed u).owned a (by rw [hu]; rfl)).2.1
      rw [h.cleared u a hu] at hnull
      exact absurd hnull hne
  | @mark t v a hpc hhead =>
    refine h.move rfl rfl ?_ ?_
    · intro b hb
      cases hb
    · intro u b _ hu
      have hmarked := h.cleared u b hu
      rw [hhead] at hmarked
      cases hmarked
  | @clear t v a hpc htail =>
    have hrole : role (s.pc t) = .active a := by rw [hpc]; rfl
    refine h.move rfl rfl ?_ ?_
    · intro b hb
      rw [role, if_pos rfl] at hb
      cases hb
      exact (hinv.active_eq hrole).1
    · intro u b _ hu
      exact h.cleared u b hu
  | giveUp hpc htail =>
    refine h.same rfl rfl rfl ?_
    intro a ha
    cases ha
  | @swing t v a n q hpc hhead hrole hreads =>
    refine h.move rfl rfl ?_ ?_
    · intro b hb
      rw [hrole] at hb
      cases hb
    · -- Two consumers have not marked the same head.
      intro u b hut hu
      have hmarked := (h.cleared u b hu).symm.trans hhead
      cases hmarked
      exact absurd (hinv.token u t _ (by rw [hu]; rfl) (by rw [hpc, token_swing])) hut
  | free hpc =>
    refine h.same rfl rfl rfl ?_
    intro a ha
    cases ha
  | abort hcause =>
    refine ⟨h.cleared, ?_⟩
    intro heq
    obtain rfl := Option.some.inj heq
    obtain ⟨t, v, a, n, hpc, hne⟩ := hcause
    exact hne (h.head_eq hinv hpc)

/-- In every run in which an enqueue stores the head only over `NULL`: the
last compare-exchange of a consumer finds the head it has marked, and no
process aborts because it does not. -/
theorem headCas_succeeds (h : Reach EvQueue.step HeadWasNull EvQueue.create s) :
    (∀ t v a n, s.pc t = .swing v a n → s.head = ⟨a, true⟩) ∧ s.aborted ≠ some .headCas := by
  have hinv : Queued s ∧ Unpassed s := by
    refine h.invariant (I := fun s => Queued s ∧ Unpassed s) ⟨queued_create, ⟨?_, ?_⟩⟩ ?_
    · intro t a ha
      cases ha
    · intro heq
      cases heq
    · rintro s s' l ⟨hq, hu⟩ hok hstep
      obtain ⟨held, pending, hinv, -⟩ := id hq
      exact ⟨hq.step hstep, hu.step hinv hok hstep⟩
  obtain ⟨⟨held, pending, hq, -⟩, hu⟩ := hinv
  exact ⟨fun t v a n hpc => hu.head_eq hq hpc, hu.aborted⟩

/-- A consumer has cleared the tail and moves the head to `NULL`; the next
enqueue stores it after that. -/
theorem headCas_succeeds_sample :
    ∃ s : EvQueue, s.pc 1 = .swing .dequeue 8 0 ∧
      (∀ t v a n, s.pc t = .swing v a n → s.head = ⟨a, true⟩) ∧ s.aborted ≠ some .headCas :=
  ⟨_, rfl, headCas_succeeds (Reach.of_run .init
    (enqueueAt 0 8 70 2 ++ dequeueBy 1 .dequeue 6 ++ enqueueAt 2 16 71 1) rfl)⟩

/-- A consumer has cleared the tail; an enqueue finds it `NULL` and stores
the head; the consumer no longer finds its mark and aborts. -/
theorem not_headCas_succeeds :
    ∃ s : EvQueue, Reach EvQueue.step (fun _ _ => True) EvQueue.create s ∧
      s.aborted = some .headCas :=
  ⟨_, Reach.of_run .init
    (enqueueAt 0 8 70 2 ++ dequeueBy 1 .dequeue 6 ++ enqueueAt 2 16 71 2 ++ [.access 1]) rfl, rfl⟩

/-! ### The freed nodes -/

/-- The node whose head a consumer is about to move past. -/
def passedNode : QueuePc → Option Addr
  | .swing _ h _ => some h
  | _ => none

/-- A consumer moves the head past a node only when its `inflight` is `0`. -/
def EpilogueDone (s : EvQueue) (l : QueueLabel) : Prop :=
  ∀ t ∈ accessor l, ∀ h ∈ passedNode (s.pc t), (s.mem h).inflight = 0

instance : DecidableRel EpilogueDone := fun s l =>
  inferInstanceAs (Decidable (∀ t ∈ accessor l, ∀ h ∈ passedNode (s.pc t), (s.mem h).inflight = 0))

/-- The old tail an enqueue still has to access. -/
def oldTail : QueuePc → Option Addr
  | .count _ old | .raiseInflight _ old | .checkMagic _ old | .link _ old | .dropInflight _ old =>
    some old
  | _ => none

/-- The old tail whose `inflight` an enqueue has set, and whether it has
stored the link. -/
def raisedOn : Role → Option (Addr × Bool)
  | .linking _ old true => some (old, false)
  | .linked _ old => some (old, true)
  | _ => none

/-- An enqueue between its two stores of `inflight` shows in the node, and
nobody has taken the node off the list. -/
structure Epilogue (s : EvQueue) : Prop where
  raised : ∀ u old b, raisedOn (role (s.pc u)) = some (old, b) → (s.mem old).inflight = 1
  linked : ∀ u old, raisedOn (role (s.pc u)) = some (old, true) → s.live old = true ∧ next s old ≠ 0
  unowned : ∀ u v old, raisedOn (role (s.pc u)) = some (old, true) → (role (s.pc v)).owned ≠ some old
  alone : ∀ u v old, raisedOn (role (s.pc u)) = some (old, true) →
    raisedOn (role (s.pc v)) = some (old, true) → u = v
  inflight : ∀ a, s.live a = true → (s.mem a).inflight ≠ 0 →
    ∃ u b, raisedOn (role (s.pc u)) = some (a, b)
  aborted : s.aborted ≠ some .stillInflight

theorem raisedOn_linking {r : Role} {old : Addr} (h : raisedOn r = some (old, false)) :
    ∃ p, r = .linking p old true := by
  cases r with
  | linking p old' b =>
    cases b <;> cases h
    exact ⟨p, rfl⟩
  | _ => cases h

/-- A node whose link is missing is not one whose link is stored. -/
theorem Epilogue.ne_of_linking (h : Epilogue s) (hinv : QueueInv s held pending) {u v : Nat}
    {p old old' : Addr} {b : Bool} (hlink : role (s.pc u) = .linking p old b)
    (hlinked : raisedOn (role (s.pc v)) = some (old', true)) : old' ≠ old := by
  rintro rfl
  exact (h.linked v old' hlinked).2 ((hinv.placed u).linking p old' b hlink).2

/-- The thread moves and keeps its part in `inflight`; the memory stays as it
is, and what the thread now owns nobody has just linked from. -/
theorem Epilogue.same {q : QueuePc} (h : Epilogue s) (hpc : s'.pc = Function.update s.pc t q)
    (hmem : ∀ a, (s'.mem a).next = (s.mem a).next ∧ (s'.mem a).inflight = (s.mem a).inflight)
    (hlive : s'.live = s.live) (haborted : s'.aborted = s.aborted)
    (hraised : raisedOn (role q) = raisedOn (role (s.pc t)))
    (howned : ∀ a, (role q).owned = some a → ∀ u, raisedOn (role (s.pc u)) ≠ some (a, true)) :
    Epilogue s' := by
  have hrole : ∀ u, raisedOn (role (s'.pc u)) = raisedOn (role (s.pc u)) := by
    intro u
    rw [hpc]
    by_cases hu : u = t
    · rw [hu, Function.update_self, hraised]
    · rw [Function.update_of_ne hu]
  refine ⟨?_, ?_, ?_, ?_, ?_, haborted ▸ h.aborted⟩
  · intro u old b hu
    rw [hrole] at hu
    rw [(hmem old).2]
    exact h.raised u old b hu
  · intro u old hu
    rw [hrole] at hu
    rw [hlive]
    exact ⟨(h.linked u old hu).1, fun hzero => (h.linked u old hu).2 ((hmem old).1.symm.trans hzero)⟩
  · intro u v old hu hv
    rw [hrole] at hu
    rw [hpc] at hv
    by_cases hvt : v = t
    · rw [hvt, Function.update_self] at hv
      exact howned old hv u hu
    · rw [Function.update_of_ne hvt] at hv
      exact h.unowned u v old hu hv
  · intro u v old hu hv
    rw [hrole] at hu hv
    exact h.alone u v old hu hv
  · intro a ha hne
    rw [hlive] at ha
    rw [(hmem a).2] at hne
    obtain ⟨u, b, hu⟩ := h.inflight a ha hne
    exact ⟨u, b, (hrole u).trans hu⟩

/-- The role of each thread after a step of `t`. -/
theorem pc_cases {q : QueuePc} (hpc : s'.pc = Function.update s.pc t q) (u : Nat) :
    u = t ∧ s'.pc u = q ∨ u ≠ t ∧ s'.pc u = s.pc u := by
  rw [hpc]
  by_cases hu : u = t
  · exact Or.inl ⟨hu, by rw [hu, Function.update_self]⟩
  · exact Or.inr ⟨hu, Function.update_of_ne hu _ _⟩

theorem raisedOn_of_owned {r : Role} {a : Addr} (h : r.owned = some a) : raisedOn r = none := by
  cases r <;> cases h <;> rfl

/-- The thread `t` changes the node `x`, in which no other enqueue has set the
flag. -/
theorem Epilogue.store {q : QueuePc} {x : Addr} (h : Epilogue s)
    (hpc : s'.pc = Function.update s.pc t q) (hmem : ∀ a, a ≠ x → s'.mem a = s.mem a)
    (hlive : ∀ a, a ≠ x → s'.live a = s.live a) (haborted : s'.aborted = s.aborted)
    (hothers : ∀ u b, u ≠ t → raisedOn (role (s.pc u)) ≠ some (x, b))
    (hbefore : ∀ a b, raisedOn (role (s.pc t)) = some (a, b) → a = x)
    (hafter : ∀ a b, raisedOn (role q) = some (a, b) → a = x ∧ (s'.mem x).inflight = 1)
    (hlinked : ∀ a, raisedOn (role q) = some (a, true) →
      s'.live x = true ∧ (s'.mem x).next ≠ 0 ∧ ∀ v, v ≠ t → (role (s.pc v)).owned ≠ some x)
    (howned : ∀ a, (role q).owned = some a → ∀ u, u ≠ t → raisedOn (role (s.pc u)) ≠ some (a, true))
    (hflag : s'.live x = true → (s'.mem x).inflight ≠ 0 → ∃ b, raisedOn (role q) = some (x, b)) :
    Epilogue s' := by
  refine ⟨?_, ?_, ?_, ?_, ?_, haborted ▸ h.aborted⟩
  · intro u a b hu
    rcases pc_cases hpc u with ⟨-, hq⟩ | ⟨hut, hq⟩ <;> rw [hq] at hu
    · obtain ⟨rfl, hone⟩ := hafter a b hu
      exact hone
    · have hne : a ≠ x := fun hax => hothers u b hut (hax ▸ hu)
      rw [hmem a hne]
      exact h.raised u a b hu
  · intro u a hu
    rcases pc_cases hpc u with ⟨-, hq⟩ | ⟨hut, hq⟩ <;> rw [hq] at hu
    · obtain ⟨rfl, -⟩ := hafter a true hu
      exact ⟨(hlinked a hu).1, (hlinked a hu).2.1⟩
    · have hne : a ≠ x := fun hax => hothers u true hut (hax ▸ hu)
      rw [next, hmem a hne, hlive a hne]
      exact h.linked u a hu
  · intro u v a hu hv
    rcases pc_cases hpc u with ⟨-, hq⟩ | ⟨hut, hq⟩ <;> rw [hq] at hu <;>
      rcases pc_cases hpc v with ⟨-, hq'⟩ | ⟨hvt, hq'⟩ <;> rw [hq'] at hv
    · rw [raisedOn_of_owned hv] at hu
      cases hu
    · obtain ⟨rfl, -⟩ := hafter a true hu
      exact (hlinked a hu).2.2 v hvt hv
    · exact howned a hv u hut hu
    · exact h.unowned u v a hu hv
  · intro u v a hu hv
    rcases pc_cases hpc u with ⟨hut, hq⟩ | ⟨hut, hq⟩ <;> rw [hq] at hu <;>
      rcases pc_cases hpc v with ⟨hvt, hq'⟩ | ⟨hvt, hq'⟩ <;> rw [hq'] at hv
    · rw [hut, hvt]
    · obtain ⟨rfl, -⟩ := hafter a true hu
      exact absurd hv (hothers v true hvt)
    · obtain ⟨rfl, -⟩ := hafter a true hv
      exact absurd hu (hothers u true hut)
    · exact h.alone u v a hu hv
  · intro a ha hne
    by_cases hax : a = x
    · subst hax
      obtain ⟨b, hb⟩ := hflag ha hne
      refine ⟨t, b, ?_⟩
      rw [hpc, Function.update_self]
      exact hb
    · rw [hlive a hax] at ha
      rw [hmem a hax] at hne
      obtain ⟨u, b, hu⟩ := h.inflight a ha hne
      refine ⟨u, b, ?_⟩
      rcases pc_cases hpc u with ⟨hut, -⟩ | ⟨-, hq⟩
      · exact absurd (hbefore a b (hut ▸ hu)) hax
      · rw [hq]
        exact hu

/-- A flag is set only in an allocated node. -/
theorem Epilogue.live (h : Epilogue s) (hinv : QueueInv s held pending) {u : Nat} {old : Addr} {b : Bool}
    (hu : raisedOn (role (s.pc u)) = some (old, b)) : s.live old = true := by
  cases b with
  | false =>
    obtain ⟨p, hlink⟩ := raisedOn_linking hu
    exact (hinv.shape.alive old (behind_mem ((hinv.placed u).linking p old true hlink).1).1).1
  | true => exact (h.linked u old hu).1

/-- Only one enqueue links from a node. -/
theorem Epilogue.others_of_linking (h : Epilogue s) (hinv : QueueInv s held pending) {p old : Addr}
    {b : Bool} (hlink : role (s.pc t) = .linking p old b) (u : Nat) (c : Bool) (hut : u ≠ t) :
    raisedOn (role (s.pc u)) ≠ some (old, c) := by
  intro hu
  cases c with
  | false =>
    obtain ⟨p', hlink'⟩ := raisedOn_linking hu
    obtain rfl := behind_unique hinv.shape.nodup ((hinv.placed t).linking p old b hlink).1
      ((hinv.placed u).linking p' old true hlink').1
    exact hut (hinv.token u t p (by rw [hlink']; rfl) (by rw [hlink]; rfl))
  | true => exact h.ne_of_linking hinv hlink hu rfl

theorem Epilogue.malloc (h : Epilogue s) (hinv : QueueInv s held pending) {a data : Nat}
    (hpc : s.pc t = .alloc data) (hfree : s.live a = false) (n : Node) (hn : n.inflight = 0)
    (gid : Nat) :
    Epilogue ({ s.store a n with gid := gid, live := Function.update s.live a true }.goto t
      (.exchange a)) := by
  have hothers : ∀ u b, raisedOn (role (s.pc u)) ≠ some (a, b) := by
    intro u b hu
    exact Bool.false_ne_true (hfree.symm.trans (h.live hinv hu))
  refine h.store (x := a) rfl (fun b hb => s.store_mem_of_ne hb n)
    (fun b hb => Function.update_of_ne hb _ _) rfl (fun u b _ => hothers u b) ?_ ?_ ?_ ?_ ?_
  · intro b c hb
    rw [hpc] at hb
    cases hb
  · intro b c hb
    cases hb
  · intro b hb
    cases hb
  · intro b hb u _
    obtain rfl := Option.some.inj hb
    exact hothers u true
  · intro _ hne
    exact absurd ((congrArg Node.inflight (s.store_mem_self a n)).trans hn) hne

/-- The flag is set. -/
theorem Epilogue.raise (h : Epilogue s) (hinv : QueueInv s held pending) {p old : Addr}
    (hpc : s.pc t = .raiseInflight p old) :
    Epilogue ((s.store old { s.mem old with inflight := 1 }).goto t (.checkMagic p old)) := by
  have hlink : role (s.pc t) = .linking p old false := by rw [hpc]; rfl
  refine h.store (x := old) rfl (fun b hb => s.store_mem_of_ne hb _) (fun _ _ => rfl) rfl
    (h.others_of_linking hinv hlink) ?_ ?_ ?_ ?_ ?_
  · intro b c hb
    rw [hlink] at hb
    cases hb
  · intro b c hb
    cases hb
    exact ⟨rfl, congrArg Node.inflight (s.store_mem_self old _)⟩
  · intro b hb
    cases hb
  · intro b hb
    cases hb
  · intro _ _
    exact ⟨false, rfl⟩

/-- The link is stored: the flag stays set until the last store. -/
theorem Epilogue.link (h : Epilogue s) (hinv : QueueInv s held pending) {p old : Addr}
    (hpc : s.pc t = .link p old) :
    Epilogue ((s.store old { s.mem old with next := p }).goto t (.dropInflight p old)) := by
  have hlink : role (s.pc t) = .linking p old true := by rw [hpc]; rfl
  have hbehind := ((hinv.placed t).linking p old true hlink).1
  have hself := s.store_mem_self old { s.mem old with next := p }
  refine h.store (x := old) rfl (fun b hb => s.store_mem_of_ne hb _) (fun _ _ => rfl) rfl
    (h.others_of_linking hinv hlink) ?_ ?_ ?_ ?_ ?_
  · intro b c hb
    rw [hlink] at hb
    cases hb
    rfl
  · intro b c hb
    cases hb
    refine ⟨rfl, (congrArg Node.inflight hself).trans ?_⟩
    exact h.raised t old false (by rw [hlink]; rfl)
  · intro b hb
    refine ⟨(hinv.shape.alive old (behind_mem hbehind).1).1, ?_, ?_⟩
    · intro hzero
      exact (hinv.shape.alive p (behind_mem hbehind).2).2 ((congrArg Node.next hself).symm.trans hzero)
    · intro v _ hv
      exact ((hinv.placed v).owned old hv).2.2 (behind_mem hbehind).1
  · intro b hb
    cases hb
  · intro _ _
    exact ⟨true, rfl⟩

/-- The flag is cleared. -/
theorem Epilogue.drop (h : Epilogue s) (hinv : QueueInv s held pending) {p old : Addr}
    (hpc : s.pc t = .dropInflight p old) (q : QueuePc) (hq : role q = .none) :
    Epilogue ((s.store old { s.mem old with inflight := 0 }).goto t q) := by
  have hlinked : raisedOn (role (s.pc t)) = some (old, true) := by rw [hpc]; rfl
  refine h.store (x := old) rfl (fun b hb => s.store_mem_of_ne hb _) (fun _ _ => rfl) rfl ?_ ?_ ?_ ?_
    ?_ ?_
  · intro u c hut hu
    cases c with
    | false =>
      obtain ⟨p', hlink⟩ := raisedOn_linking hu
      exact h.ne_of_linking hinv hlink hlinked rfl
    | true => exact hut (h.alone u t old hu hlinked)
  · intro b c hb
    rw [hlinked] at hb
    cases hb
    rfl
  · intro b c hb
    rw [hq] at hb
    cases hb
  · intro b hb
    rw [hq] at hb
    cases hb
  · intro b hb
    rw [hq] at hb
    cases hb
  · intro _ hne
    exact absurd (congrArg Node.inflight (s.store_mem_self old { s.mem old with inflight := 0 })) hne

/-- A node is freed that nobody has linked from. -/
theorem Epilogue.free (h : Epilogue s) (hinv : QueueInv s held pending) {a d : Nat}
    (hpc : s.pc t = .free a d) (returned : List (Nat × Nat)) (q : QueuePc) (hq : role q = .none) :
    Epilogue ({ s.store a Node.scrubbed with
      live := Function.update s.live a false
      returned := returned }.goto t q) := by
  have howned : (role (s.pc t)).owned = some a := by rw [hpc]; rfl
  refine h.store (x := a) rfl (fun b hb => s.store_mem_of_ne hb _)
    (fun b hb => Function.update_of_ne hb _ _) rfl ?_ ?_ ?_ ?_ ?_ ?_
  · intro u c _ hu
    cases c with
    | false =>
      obtain ⟨p, hlink⟩ := raisedOn_linking hu
      exact ((hinv.placed t).owned a howned).2.2
        (behind_mem ((hinv.placed u).linking p a true hlink).1).1
    | true => exact h.unowned u t a hu howned
  · intro b c hb
    rw [hpc] at hb
    cases hb
  · intro b c hb
    rw [hq] at hb
    cases hb
  · intro b hb
    rw [hq] at hb
    cases hb
  · intro b hb
    rw [hq] at hb
    cases hb
  · intro hlive
    have hdead : Function.update s.live a false a = true := hlive
    rw [Function.update_self] at hdead
    cases hdead

/-- Nobody has set the flag of a node that a consumer owns. -/
theorem Epilogue.inflight_of_owned (h : Epilogue s) (hinv : QueueInv s held pending) {a : Addr}
    (howned : (role (s.pc t)).owned = some a) : (s.mem a).inflight = 0 := by
  by_contra hne
  obtain ⟨u, b, hu⟩ := h.inflight a ((hinv.placed t).owned a howned).1 hne
  cases b with
  | false =>
    obtain ⟨p, hlink⟩ := raisedOn_linking hu
    exact ((hinv.placed t).owned a howned).2.2 (behind_mem ((hinv.placed u).linking p a true hlink).1).1
  | true => exact h.unowned u t a hu howned

theorem Epilogue.step (h : Epilogue s) (hinv : QueueInv s held pending) (hok : EpilogueDone s l)
    (hstep : EvQueue.step l s = some s') : Epilogue s' := by
  cases queueStep_of_step hstep with
  | plain t q mem e d hrole hmem hreads =>
    refine h.same rfl (fun a => ⟨hmem.next a, hmem.inflight a⟩) rfl rfl (by rw [hrole]) ?_
    intro a ha u hu
    rw [hrole] at ha
    exact h.unowned u t a hu ha
  | malloc hpc hnull hfree => exact h.malloc hinv hpc hfree _ rfl _
  | @exchange t p hpc =>
    refine h.same rfl (fun _ => ⟨rfl, rfl⟩) rfl rfl ?_ ?_
    · rw [hpc]
      show raisedOn (role (.count p s.tail)) = none
      rw [role]
      split <;> rfl
    · intro a ha
      rw [role] at ha
      split at ha <;> cases ha
  | raise hpc => exact h.raise hinv hpc
  | link hpc => exact h.link hinv hpc
  | drop hpc => exact h.drop hinv hpc _ rfl
  | setHead hpc =>
    refine h.same rfl (fun _ => ⟨rfl, rfl⟩) rfl rfl (by rw [hpc]; rfl) ?_
    intro a ha
    cases ha
  | mark hpc hhead =>
    refine h.same rfl (fun _ => ⟨rfl, rfl⟩) rfl rfl (by rw [hpc]; rfl) ?_
    intro a ha
    cases ha
  | @clear t v a hpc htail =>
    have hrole : role (s.pc t) = .active a := by rw [hpc]; rfl
    refine h.same rfl (fun _ => ⟨rfl, rfl⟩) rfl rfl ?_ ?_
    · rw [hrole, role, if_pos rfl]
      rfl
    · -- The node is the last one, so nothing has been linked behind it.
      intro b hb u hu
      rw [role, if_pos rfl] at hb
      obtain rfl := Option.some.inj hb
      obtain ⟨rfl, rfl, -⟩ := hinv.clear hpc htail
      exact (h.linked u a hu).2 (hinv.shape.links.next_last rfl)
  | giveUp hpc htail =>
    refine h.same rfl (fun _ => ⟨rfl, rfl⟩) rfl rfl (by rw [hpc]; rfl) ?_
    intro a ha
    cases ha
  | @swing t v a n q hpc hhead hrole hreads =>
    refine h.same rfl (fun _ => ⟨rfl, rfl⟩) rfl rfl ?_ ?_
    · rw [hrole, hpc, role]
      split <;> rfl
    · -- Here the schedule matters: an enqueue may have linked and not yet
      -- cleared the flag.
      intro b hb u hu
      rw [hrole] at hb
      obtain rfl := Option.some.inj hb
      have hzero : (s.mem a).inflight = 0 := hok t rfl a (by rw [hpc]; rfl)
      rw [h.raised u a true hu] at hzero
      cases hzero
  | free hpc => exact h.free hinv hpc _ _ rfl
  | abort hcause =>
    refine ⟨h.raised, h.linked, h.unowned, h.alone, h.inflight, ?_⟩
    intro heq
    obtain rfl := Option.some.inj heq
    obtain ⟨t, a, d, hpc, hne⟩ := hcause
    exact hne (h.inflight_of_owned hinv (t := t) (by rw [hpc]; rfl))

/-- In every run in which the head moves past a node only when its `inflight`
is `0`: no enqueue has an access to a node left when the node is freed, and
`dequeue` never finds a node in flight. -/
theorem freed_unused (h : Reach EvQueue.step EpilogueDone EvQueue.create s) :
    (∀ t a d, s.pc t = .free a d → ∀ u, oldTail (s.pc u) ≠ some a) ∧
      s.aborted ≠ some .stillInflight := by
  have hinv : Queued s ∧ Epilogue s := by
    refine h.invariant (I := fun s => Queued s ∧ Epilogue s) ⟨queued_create, ?_⟩ ?_
    · refine ⟨?_, ?_, ?_, ?_, ?_, ?_⟩
      · intro u old b hu
        cases hu
      · intro u old hu
        cases hu
      · intro u v old hu
        cases hu
      · intro u v old hu
        cases hu
      · intro a ha
        cases ha
      · intro heq
        cases heq
    · rintro s s' l ⟨hq, he⟩ hok hstep
      obtain ⟨held, pending, hinv, -⟩ := id hq
      exact ⟨hq.step hstep, he.step hinv hok hstep⟩
  obtain ⟨⟨held, pending, hq, -⟩, he⟩ := hinv
  refine ⟨?_, he.aborted⟩
  intro t a d hpc u hu
  have howned : (role (s.pc t)).owned = some a := by rw [hpc]; rfl
  obtain ⟨-, hne, hnot⟩ := (hq.placed t).owned a howned
  have hlinking : ∀ p b, role (s.pc u) ≠ .linking p a b := by
    intro p b hlink
    exact hnot (behind_mem ((hq.placed u).linking p a b hlink).1).1
  cases hpcu : s.pc u <;> rw [hpcu] at hu <;> cases hu
  case count p =>
    refine hlinking p false ?_
    rw [hpcu, role, if_neg hne]
  case raiseInflight p => exact hlinking p false (by rw [hpcu]; rfl)
  case checkMagic p => exact hlinking p true (by rw [hpcu]; rfl)
  case link p => exact hlinking p true (by rw [hpcu]; rfl)
  case dropInflight p => exact he.unowned u t a (by rw [hpcu]; rfl) howned

/-- The second enqueue has returned before the consumer frees the first
node. -/
theorem freed_unused_sample :
    ∃ s : EvQueue, s.pc 2 = .free 8 70 ∧
      (∀ t a d, s.pc t = .free a d → ∀ u, oldTail (s.pc u) ≠ some a) ∧
        s.aborted ≠ some .stillInflight :=
  ⟨_, rfl, freed_unused (Reach.of_run .init
    (enqueueAt 0 8 70 2 ++ enqueueAt 1 16 71 5 ++ dequeueBy 2 .dequeue 11) rfl)⟩

/-- An enqueue has stored its link behind a node and not yet cleared
`inflight`. `try_dequeue` frees the node; `dequeue` aborts. -/
theorem not_freed_unused :
    (∃ s : EvQueue, Reach EvQueue.step (fun _ _ => True) EvQueue.create s ∧
      s.pc 2 = .free 8 70 ∧ oldTail (s.pc 1) = some 8) ∧
    ∃ s : EvQueue, Reach EvQueue.step (fun _ _ => True) EvQueue.create s ∧
      s.aborted = some .stillInflight :=
  ⟨⟨_, Reach.of_run .init
      (enqueueAt 0 8 70 2 ++ enqueueAt 1 16 71 4 ++ dequeueBy 2 .tryDequeue 7) rfl, rfl, rfl⟩,
    ⟨_, Reach.of_run .init
      (enqueueAt 0 8 70 2 ++ enqueueAt 1 16 71 4 ++ dequeueBy 2 .dequeue 9) rfl, rfl⟩⟩

end Efio.Proofs.Evds
