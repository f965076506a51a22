import Efio.Spec.MemoryBufferFlow
import Mathlib.Data.List.Nodup

/-!
# `Efio.Proofs.Evds.MemoryBufferList`: one producer and one consumer

`ListInv s q` says that `q` are the nodes from the head on, without the
node that `pop_head` is about to return once it has cleared the tail
(`detached`). That node is the reason why the head may point to a node that
is no longer in the list. `HeadOk` lists what the head can be: it is wrong
only while the queue is empty or an `add_node` that found it empty is about
to store it.

`list_spsc` is the result.
-/

set_option autoImplicit false

namespace Efio.Proofs.Evds

open Efio.Lib
open Efio.Evds
open Efio.Spec

variable {s s' : MemoryBufferList} {q l : List Addr} {a b p : Addr}

/-- The node that `pop_head` has taken out by clearing the tail. -/
def detached : ConsumerPc → List Addr
  | .swing hp next => if next = 0 then [hp] else []
  | _ => []

/-- The node of an `add_node` that is not yet exchanged. -/
def newNodes : ProducerPc → List Addr
  | .exchangeTail p => [p]
  | _ => []

/-- The node of an `add_node` that found the list empty. -/
def heading : ProducerPc → Option Addr
  | .loadTail p | .exchangeHead p _ => some p
  | _ => none

/-- What the head can be: the first node, or the `old` one until an
`add_node` has stored it. -/
inductive HeadOk (head old : Addr) : Option Addr → List Addr → Prop where
  | empty (h : head = old) : HeadOk head old none []
  | first {a : Addr} {l : List Addr} (h : head = a) : HeadOk head old none (a :: l)
  | heading {a : Addr} (h : head = old) : HeadOk head old (some a) [a]

/-- What the producer knows. -/
def ProducerOk (s : MemoryBufferList) (q : List Addr) : ProducerPc → Prop
  | .exchangeTail p => s.next p = 0
  | .setNext p old => [old, p] <:+: q ∧ s.next old = 0
  | .exchangeHead p tail => tail = p
  | _ => True

/-- What the consumer knows. -/
def ConsumerOk (s : MemoryBufferList) (q : List Addr) : ConsumerPc → Prop
  | .headReloadTail head => head = 0 ∨ ∃ l, q = head :: l
  | .nextLoad a => a ∈ s.reached
  | .popLoadHead => q ≠ []
  | .popNext hp | .clearTail hp => s.head = hp ∧ ∃ l, q = hp :: l
  | .spin hp => s.head = hp ∧ ∃ b l, q = hp :: b :: l
  | .swing hp next =>
    next = 0 ∨ s.head = hp ∧ (∃ l, q = hp :: next :: l) ∧ ∀ p, s.producer ≠ .setNext p hp
  | _ => True

/-- All nodes that have not been deleted. -/
def nodes (s : MemoryBufferList) (q : List Addr) : List Addr :=
  newNodes s.producer ++ (s.popped ++ (detached s.consumer ++ q))

/-- The list between two steps. -/
structure ListInv (s : MemoryBufferList) (q : List Addr) : Prop where
  added : s.added = s.removed ++ (detached s.consumer ++ q).map s.entry
  tail : s.tail = q.getLast?.getD 0
  nodup : (nodes s q).Nodup
  live : ∀ a ∈ nodes s q, s.live a = true ∧ a ≠ 0
  links : Delayed s.next q
  present : ∀ a b, [a, b] <:+: q → s.next a = b ∨ s.producer = .setNext b a
  head : HeadOk s.head ((detached s.consumer).headD 0) (heading s.producer) q
  producer : ProducerOk s q s.producer
  consumer : ConsumerOk s q s.consumer
  reached : ∀ a ∈ s.reached, a ∈ detached s.consumer ++ q

theorem listInv_create : ListInv .create [] where
  added := rfl
  tail := rfl
  nodup := List.nodup_nil
  live := fun _ h => absurd h List.not_mem_nil
  links := .nil
  present := fun _ _ h => absurd h.length_le (by simp)
  head := .empty rfl
  producer := trivial
  consumer := trivial
  reached := fun _ h => absurd h List.not_mem_nil

/-! ### What the invariant says -/

theorem ListInv.live_of_mem (h : ListInv s q) (ha : a ∈ q) : s.live a = true ∧ a ≠ 0 :=
  h.live a (List.mem_append_right _ (List.mem_append_right _ (List.mem_append_right _ ha)))

theorem ListInv.nodup_queue (h : ListInv s q) : q.Nodup :=
  h.nodup.of_append_right.of_append_right.of_append_right

theorem ListInv.live_detached (h : ListInv s q) (ha : a ∈ detached s.consumer ++ q) :
    s.live a = true ∧ a ≠ 0 :=
  h.live a (List.mem_append_right _ (List.mem_append_right _ ha))

theorem ListInv.tail_eq_zero (h : ListInv s q) : s.tail = 0 ↔ q = [] := by
  rw [h.tail]
  constructor
  · intro hzero
    by_contra hne
    obtain ⟨b, hb⟩ := Option.isSome_iff_exists.mp (List.getLast?_isSome.mpr hne)
    rw [hb, Option.getD_some] at hzero
    exact (h.live_of_mem (List.mem_of_getLast? hb)).2 hzero
  · rintro rfl
    rfl

/-- A head that is not `NULL` is the first node, when no node is
detached. -/
theorem ListInv.head_first (h : ListInv s q) (hdetached : detached s.consumer = []) (hne : s.head ≠ 0) :
    ∃ l, q = s.head :: l := by
  have hhead := h.head
  rw [hdetached] at hhead
  generalize heading s.producer = x at hhead
  cases hhead with
  | empty hzero => exact absurd hzero hne
  | first heq => exact ⟨_, by rw [heq]⟩
  | heading hzero => exact absurd hzero hne

/-- A link that is there leads to a node of the list. -/
theorem ListInv.next_mem (h : ListInv s q) (ha : a ∈ q) (hne : s.next a ≠ 0) : s.next a ∈ q := by
  obtain ⟨l, l', rfl⟩ := List.append_of_mem ha
  have hlinks := h.links
  clear h ha
  induction l with
  | nil =>
    obtain ⟨l'', rfl⟩ := hlinks.head_next hne
    exact List.mem_cons_of_mem _ List.mem_cons_self
  | cons b l ih => exact List.mem_cons_of_mem _ (ih hlinks.tail)

/-! ### Steps that change little -/

/-- The consumer's facts survive what leaves its words alone. -/
theorem ConsumerOk.congr {c : ConsumerPc} (h : ConsumerOk s q c) (hhead : s'.head = s.head)
    (hreached : s'.reached = s.reached)
    (hproducer : ∀ p old, s'.producer = .setNext p old → s.producer = .setNext p old) :
    ConsumerOk s' q c := by
  cases c with
  | swing hp next =>
    obtain hzero | ⟨hfirst, hqueue, hnot⟩ := h
    · exact .inl hzero
    · exact .inr ⟨hhead.trans hfirst, hqueue, fun p heq => hnot p (hproducer p hp heq)⟩
  | nextLoad a =>
    show a ∈ s'.reached
    rw [hreached]
    exact h
  | popNext hp => exact ⟨hhead.trans h.1, h.2⟩
  | clearTail hp => exact ⟨hhead.trans h.1, h.2⟩
  | spin hp => exact ⟨hhead.trans h.1, h.2⟩
  | _ => exact h

/-- The consumer goes on, and may have reached another node. -/
theorem ListInv.consume (h : ListInv s q) {c : ConsumerPc} {r : List Addr}
    (hdetached : detached c = detached s.consumer)
    (hconsumer : ConsumerOk { s with consumer := c, reached := r } q c)
    (hreached : ∀ a ∈ r, a ∈ detached s.consumer ++ q) :
    ListInv { s with consumer := c, reached := r } q where
  added := by rw [hdetached]; exact h.added
  tail := h.tail
  nodup := by unfold nodes; rw [hdetached]; exact h.nodup
  live := by unfold nodes; rw [hdetached]; exact h.live
  links := h.links
  present := h.present
  head := by rw [hdetached]; exact h.head
  producer := by
    have hproducer := h.producer
    cases hp : s.producer <;> rw [hp] at hproducer <;> exact hproducer
  consumer := hconsumer
  reached := by rw [hdetached]; exact hreached

/-- The producer goes on without a store. -/
theorem ListInv.produce (h : ListInv s q) {c : ProducerPc} (hnew : newNodes c = newNodes s.producer)
    (hheading : heading c = heading s.producer) (hnot : ∀ p old, s.producer ≠ .setNext p old)
    (hnot' : ∀ p old, c ≠ .setNext p old) (hproducer : ProducerOk s q c) :
    ListInv (s.produce c) q where
  added := h.added
  tail := h.tail
  nodup := by
    show (newNodes c ++ _).Nodup
    rw [hnew]
    exact h.nodup
  live := by
    show ∀ a ∈ newNodes c ++ _, _
    rw [hnew]
    exact h.live
  links := h.links
  present := fun a b hab => .inl ((h.present a b hab).resolve_right (hnot b a))
  head := by
    show HeadOk _ _ (heading c) q
    rw [hheading]
    exact h.head
  producer := hproducer
  consumer := h.consumer.congr rfl rfl fun p old heq => absurd heq (hnot' p old)
  reached := h.reached

/-! ### Stores -/

@[simp] theorem store_next_self (s : MemoryBufferList) (a : Addr) (n : ListNode) :
    (s.store a n).next a = n.next := by
  simp only [MemoryBufferList.store, MemoryBufferList.next, Function.update_self]

theorem store_next_of_ne (s : MemoryBufferList) (n : ListNode) (hne : b ≠ a) :
    (s.store a n).next b = s.next b := by
  simp only [MemoryBufferList.store, MemoryBufferList.next, Function.update_of_ne hne]

theorem store_entry_of_ne (s : MemoryBufferList) (n : ListNode) (hne : b ≠ a) :
    (s.store a n).entry b = s.entry b := by
  simp only [MemoryBufferList.store, MemoryBufferList.entry, Function.update_of_ne hne]

/-- A store into a node that is not in the list and is not the producer's
new one. -/
theorem ListInv.store_other (h : ListInv s q) (hnew : a ∉ newNodes s.producer)
    (hother : a ∉ detached s.consumer ++ q) (n : ListNode) (hpopped : s'.popped.Sublist s.popped)
    (hlive : ∀ b ∈ nodes s' q, s'.live b = true ∧ b ≠ 0)
    (hs' : s' = { s.store a n with live := s'.live, popped := s'.popped }) : ListInv s' q := by
  have hne : ∀ b ∈ detached s.consumer ++ q, b ≠ a := fun b hb heq => hother (heq ▸ hb)
  have hnext : ∀ b, b ≠ a → s'.next b = s.next b := by
    intro b hb
    rw [hs']
    exact store_next_of_ne s n hb
  have hqueue : ∀ b ∈ q, s'.next b = s.next b := fun b hb => hnext b (hne b (List.mem_append_right _ hb))
  have hentry : (detached s.consumer ++ q).map s'.entry = (detached s.consumer ++ q).map s.entry := by
    refine List.map_congr_left fun b hb => ?_
    rw [hs']
    exact store_entry_of_ne s n (hne b hb)
  obtain ⟨hadded, hremoved, htail, hhead, hproducer, hconsumer, hreached⟩ :
      s'.added = s.added ∧ s'.removed = s.removed ∧ s'.tail = s.tail ∧ s'.head = s.head ∧
        s'.producer = s.producer ∧ s'.consumer = s.consumer ∧ s'.reached = s.reached := by
    rw [hs']
    exact ⟨rfl, rfl, rfl, rfl, rfl, rfl, rfl⟩
  refine ⟨?_, htail.trans h.tail, ?_, hlive, h.links.congr hqueue, ?_, ?_, ?_, ?_, ?_⟩
  · rw [hadded, hremoved, hconsumer, hentry]
    exact h.added
  · have hsub : (nodes s' q).Sublist (nodes s q) := by
      unfold nodes
      rw [hproducer, hconsumer]
      exact (List.Sublist.refl _).append (hpopped.append (List.Sublist.refl _))
    exact h.nodup.sublist hsub
  · intro b c hbc
    rw [hqueue b (behind_mem hbc).1, hproducer]
    exact h.present b c hbc
  · rw [hhead, hconsumer, hproducer]
    exact h.head
  · rw [hproducer]
    have hold := h.producer
    cases hp : s.producer <;> rw [hp] at hold hnew
    case exchangeTail p => exact (hnext p fun heq => hnew (heq ▸ List.mem_singleton_self _)).trans hold
    case setNext p old => exact ⟨hold.1, (hqueue old (behind_mem hold.1).1).trans hold.2⟩
    all_goals exact hold
  · rw [hconsumer]
    exact h.consumer.congr hhead hreached fun p old heq => hproducer ▸ heq
  · rw [hreached, hconsumer]
    exact h.reached

/-! ### The producer -/

/-- `add_node` has a new node. -/
theorem ListInv.new (h : ListInv s q) {buffer : Option Ptr} {size : Nat}
    (hpc : s.producer = .new buffer size) (hnull : a ≠ 0) (hfree : s.live a = false) :
    ListInv ({ s.store a { toBufferNode := .setBuffer buffer size, next := 0 } with
      live := Function.update s.live a true }.produce (.exchangeTail a)) q := by
  obtain ⟨s₁, hs₁⟩ : ∃ s₁, s₁ = { s.store a { toBufferNode := .setBuffer buffer size, next := 0 } with
    live := Function.update s.live a true } := ⟨_, rfl⟩
  have hnot : a ∉ nodes s q := by
    intro hmem
    have hlive := (h.live a hmem).1
    rw [hfree] at hlive
    cases hlive
  have hnodes : nodes s₁ q = nodes s q := by
    rw [hs₁]
    rfl
  have hlive : ∀ b ∈ nodes s₁ q, s₁.live b = true ∧ b ≠ 0 := by
    intro b hb
    rw [hnodes] at hb
    have hne : b ≠ a := fun heq => hnot (heq ▸ hb)
    rw [hs₁]
    exact ⟨(Function.update_of_ne hne _ _).trans (h.live b hb).1, (h.live b hb).2⟩
  have hnew : newNodes s.producer = [] := by rw [hpc]; rfl
  have hnewS₁ : newNodes s₁.producer = [] := by rw [hs₁]; exact hnew
  have hpc₁ : s₁.producer = .new buffer size := by rw [hs₁]; exact hpc
  have h₁ : ListInv s₁ q := by
    refine h.store_other (a := a) ?_ ?_ { toBufferNode := .setBuffer buffer size, next := 0 } ?_ hlive ?_
    · rw [hnew]
      exact List.not_mem_nil
    · exact fun hmem => hnot (List.mem_append_right _ (List.mem_append_right _ hmem))
    · rw [hs₁]
      exact List.Sublist.refl _
    · rw [hs₁]
  have hnodes' : nodes (s₁.produce (.exchangeTail a)) q = a :: nodes s₁ q := by
    unfold nodes
    rw [hnewS₁]
    rfl
  rw [← hs₁]
  refine ⟨h₁.added, h₁.tail, ?_, ?_, h₁.links, ?_, ?_, ?_, ?_, h₁.reached⟩
  · rw [hnodes', hnodes]
    exact List.nodup_cons.mpr ⟨hnot, h.nodup⟩
  · rw [hnodes']
    intro b hb
    obtain rfl | hb := List.mem_cons.mp hb
    · rw [hs₁]
      exact ⟨Function.update_self _ _ _, hnull⟩
    · exact h₁.live b hb
  · intro b c hbc
    refine .inl ((h₁.present b c hbc).resolve_right ?_)
    rw [hpc₁]
    exact ProducerPc.noConfusion
  · have hhead := h₁.head
    rw [hpc₁] at hhead
    exact hhead
  · rw [hs₁]
    exact store_next_self s a _
  · exact h₁.consumer.congr rfl rfl fun p old heq => nomatch heq

/-- The consumer's facts survive another last node. -/
theorem ConsumerOk.snoc {c : ConsumerPc} (h : ConsumerOk s q c) (hnodup : q.Nodup)
    (hhead : s'.head = s.head) (hreached : s'.reached = s.reached)
    (hproducer : ∀ x old, s'.producer = .setNext x old → q.getLast? = some old) :
    ConsumerOk s' (q ++ [p]) c := by
  cases c with
  | headReloadTail a =>
    obtain hzero | ⟨l, rfl⟩ := h
    · exact .inl hzero
    · exact .inr ⟨l ++ [p], rfl⟩
  | nextLoad a =>
    show a ∈ s'.reached
    rw [hreached]
    exact h
  | popLoadHead => exact List.append_ne_nil_of_left_ne_nil h _
  | popNext hp =>
    obtain ⟨hfirst, l, rfl⟩ := h
    exact ⟨hhead.trans hfirst, l ++ [p], rfl⟩
  | clearTail hp =>
    obtain ⟨hfirst, l, rfl⟩ := h
    exact ⟨hhead.trans hfirst, l ++ [p], rfl⟩
  | spin hp =>
    obtain ⟨hfirst, b, l, rfl⟩ := h
    exact ⟨hhead.trans hfirst, b, l ++ [p], rfl⟩
  | swing hp next =>
    obtain hzero | ⟨hfirst, ⟨l, rfl⟩, -⟩ := h
    · exact .inl hzero
    · refine .inr ⟨hhead.trans hfirst, ⟨l ++ [p], rfl⟩, ?_⟩
      intro x heq
      have hlast := hproducer x hp heq
      rw [List.getLast?_cons_cons] at hlast
      exact (List.nodup_cons.mp hnodup).1 (List.mem_of_getLast? hlast)
  | _ => exact h

/-- `add_node` exchanges its node into the tail. -/
theorem ListInv.exchange (h : ListInv s q) (hpc : s.producer = .exchangeTail p) :
    ListInv ({ s with tail := p, added := s.added ++ [s.entry p] }.produce
      (if s.tail ≠ 0 then .setNext p s.tail else .loadTail p)) (q ++ [p]) := by
  have hnone : s.next p = 0 := by
    have hproducer := h.producer
    rw [hpc] at hproducer
    exact hproducer
  have hold : nodes s q = [p] ++ (s.popped ++ (detached s.consumer ++ q)) := by
    unfold nodes
    rw [hpc]
    rfl
  obtain ⟨c, hc⟩ : ∃ c, c = if s.tail ≠ 0 then ProducerPc.setNext p s.tail else .loadTail p := ⟨_, rfl⟩
  have hnewNodes : newNodes c = [] := by
    rw [hc]
    split <;> rfl
  have hlast : s.tail ≠ 0 → q.getLast? = some s.tail := by
    intro hne
    have hsome : q ≠ [] := fun hnil => hne (h.tail_eq_zero.mpr hnil)
    obtain ⟨b, hb⟩ := Option.isSome_iff_exists.mp (List.getLast?_isSome.mpr hsome)
    rw [h.tail, hb, Option.getD_some]
  have hsetNext : ∀ x old, c = .setNext x old → q.getLast? = some old := by
    intro x old heq
    rw [hc] at heq
    split at heq
    · rename_i hne
      cases heq
      exact hlast hne
    · cases heq
  have hnodes : (nodes ({ s with tail := p, added := s.added ++ [s.entry p] }.produce c) (q ++ [p])).Perm
      (nodes s q) := by
    rw [hold]
    unfold nodes
    show (newNodes c ++ (s.popped ++ (detached s.consumer ++ (q ++ [p])))).Perm _
    have hassoc : s.popped ++ (detached s.consumer ++ (q ++ [p])) =
        (s.popped ++ (detached s.consumer ++ q)) ++ [p] := by
      simp only [List.append_assoc]
    rw [hnewNodes, List.nil_append, hassoc]
    exact List.perm_append_comm
  rw [← hc]
  refine ⟨?_, ?_, hnodes.nodup_iff.mpr h.nodup, ?_, h.links.snoc hnone, ?_, ?_, ?_, ?_, ?_⟩
  · show s.added ++ [s.entry p] = s.removed ++ (detached s.consumer ++ (q ++ [p])).map s.entry
    rw [h.added]
    simp only [List.map_append, List.map_cons, List.map_nil, List.append_assoc]
  · show p = _
    rw [List.getLast?_concat, Option.getD_some]
  · exact fun b hb => h.live b (hnodes.mem_iff.mp hb)
  · intro a b hab
    obtain hab | ⟨hlast', rfl⟩ := behind_of_snoc hab
    · refine .inl ((h.present a b hab).resolve_right ?_)
      rw [hpc]
      exact ProducerPc.noConfusion
    · have hne : s.tail ≠ 0 := by
        rw [h.tail, hlast', Option.getD_some]
        exact (h.live_of_mem (List.mem_of_getLast? hlast')).2
      refine .inr ?_
      show c = _
      rw [hc, if_pos hne, h.tail, hlast', Option.getD_some]
  · have hhead := h.head
    rw [hpc] at hhead
    generalize hq : q = q' at hhead
    cases hhead with
    | empty hempty =>
      have hzero : s.tail = 0 := h.tail_eq_zero.mpr hq
      rw [hc, if_neg (not_not.mpr hzero)]
      exact .heading hempty
    | first hfirst =>
      have hne : s.tail ≠ 0 := by
        rw [Ne, h.tail_eq_zero, hq]
        exact List.cons_ne_nil _ _
      rw [hc, if_pos hne]
      exact .first hfirst
  · show ProducerOk _ _ c
    rw [hc]
    split
    · rename_i hne
      exact ⟨behind_snoc (hlast hne), h.links.next_last (hlast hne)⟩
    · trivial
  · exact h.consumer.snoc h.nodup_queue rfl rfl hsetNext
  · intro b hb
    rw [← List.append_assoc]
    exact List.mem_append_left _ (h.reached b hb)

/-- `add_node` stores the link from the old tail. -/
theorem ListInv.setNext (h : ListInv s q) {old : Addr} (hpc : s.producer = .setNext p old) :
    ListInv ((s.store old { s.mem old with next := p }).produce .idle) q := by
  have hproducer := h.producer
  rw [hpc] at hproducer
  obtain ⟨hbehind, -⟩ := hproducer
  have hnext : (s.store old { s.mem old with next := p }).next = Function.update s.next old p := by
    funext b
    by_cases hb : b = old
    · rw [hb, store_next_self, Function.update_self]
    · rw [store_next_of_ne _ _ hb, Function.update_of_ne hb]
  have hentry : (s.store old { s.mem old with next := p }).entry = s.entry := by
    funext b
    by_cases hb : b = old
    · rw [hb]
      simp only [MemoryBufferList.store, MemoryBufferList.entry, Function.update_self]
    · exact store_entry_of_ne _ _ hb
  have hnewNodes : newNodes s.producer = [] := by rw [hpc]; rfl
  have hheading : heading s.producer = none := by rw [hpc]; rfl
  have hnodes : nodes ((s.store old { s.mem old with next := p }).produce .idle) q = nodes s q := by
    unfold nodes
    rw [hnewNodes]
    rfl
  refine ⟨?_, h.tail, ?_, ?_, ?_, ?_, ?_, trivial, ?_, h.reached⟩
  · show s.added = s.removed ++ (detached s.consumer ++ q).map
      (s.store old { s.mem old with next := p }).entry
    rw [hentry]
    exact h.added
  · rw [hnodes]
    exact h.nodup
  · rw [hnodes]
    exact h.live
  · show Delayed (s.store old { s.mem old with next := p }).next q
    rw [hnext]
    exact h.links.store h.nodup_queue hbehind
  · intro a b hab
    refine .inl ?_
    show (s.store old { s.mem old with next := p }).next a = b
    rw [hnext]
    by_cases ha : a = old
    · rw [ha, Function.update_self]
      exact behind_unique h.nodup_queue hbehind (ha ▸ hab)
    · rw [Function.update_of_ne ha]
      refine (h.present a b hab).resolve_right ?_
      rw [hpc]
      intro heq
      exact ha (ProducerPc.setNext.inj heq).2.symm
  · have hhead := h.head
    rw [hheading] at hhead
    exact hhead
  · exact h.consumer.congr rfl rfl fun x y heq => nomatch heq

/-- `add_node` stores the head. -/
theorem ListInv.exchangeHead (h : ListInv s q) {tail : Addr} (hpc : s.producer = .exchangeHead p tail) :
    ListInv ({ s with head := tail }.produce .idle) q := by
  have htail : tail = p := by
    have hproducer := h.producer
    rw [hpc] at hproducer
    exact hproducer
  have hq : q = [p] := by
    have hhead := h.head
    rw [hpc] at hhead
    generalize q = q' at hhead
    cases hhead
    rfl
  have hnewNodes : newNodes s.producer = [] := by rw [hpc]; rfl
  have hnodes : nodes ({ s with head := tail }.produce .idle) q = nodes s q := by
    unfold nodes
    rw [hnewNodes]
    rfl
  refine ⟨h.added, h.tail, ?_, ?_, h.links, ?_, ?_, trivial, ?_, h.reached⟩
  · rw [hnodes]
    exact h.nodup
  · rw [hnodes]
    exact h.live
  · intro a b hab
    rw [hq] at hab
    exact absurd hab.length_le (by simp)
  · rw [hq]
    exact .first htail
  · have hconsumer := h.consumer
    rw [hq] at hconsumer ⊢
    generalize s.consumer = c at hconsumer
    cases c with
    | swing hp next =>
      obtain hzero | ⟨-, ⟨l, hl⟩, -⟩ := hconsumer
      · exact .inl hzero
      · cases hl
    | popNext hp =>
      obtain ⟨-, l, hl⟩ := hconsumer
      cases hl
      exact ⟨htail, [], rfl⟩
    | clearTail hp =>
      obtain ⟨-, l, hl⟩ := hconsumer
      cases hl
      exact ⟨htail, [], rfl⟩
    | spin hp =>
      obtain ⟨-, b, l, hl⟩ := hconsumer
      cases hl
    | _ => exact hconsumer

/-! ### The consumer -/

/-- `pop_head` clears the tail: its node was the only one. -/
theorem ListInv.clear (h : ListInv s q) (hpc : s.consumer = .clearTail p) (htail : s.tail = p) :
    ListInv ({ s with tail := 0 }.consume (.swing p 0)) [] := by
  have hconsumer := h.consumer
  rw [hpc] at hconsumer
  obtain ⟨hfirst, l, hq⟩ := hconsumer
  have hpzero : p ≠ 0 := (h.live_of_mem (hq ▸ List.mem_cons_self)).2
  have hl : l = [] := by
    by_contra hne
    have hlast := h.tail
    have hnodup := h.nodup_queue
    obtain ⟨b, hb⟩ := Option.isSome_iff_exists.mp (List.getLast?_isSome.mpr hne)
    have hcons : (p :: l).getLast? = some b := by
      obtain ⟨c, l', rfl⟩ := List.exists_cons_of_ne_nil hne
      rw [List.getLast?_cons_cons, hb]
    rw [hq, hcons, htail, Option.getD_some] at hlast
    rw [hq] at hnodup
    exact (List.nodup_cons.mp hnodup).1 (hlast ▸ List.mem_of_getLast? hb)
  rw [hl] at hq
  have hdetached : detached s.consumer = [] := by rw [hpc]; rfl
  have hnodes : nodes ({ s with tail := 0 }.consume (.swing p 0)) [] = nodes s q := by
    unfold nodes
    rw [hdetached, hq]
    rfl
  have hheading : heading s.producer = none := by
    have hhead := h.head
    rw [hdetached, hq] at hhead
    generalize heading s.producer = x at hhead
    cases hhead with
    | first => rfl
    | heading hzero => exact absurd (hfirst.symm.trans hzero) hpzero
  refine ⟨?_, rfl, ?_, ?_, .nil, ?_, ?_, ?_, .inl rfl, ?_⟩
  · have hadded := h.added
    rw [hdetached, hq] at hadded
    exact hadded
  · rw [hnodes]
    exact h.nodup
  · rw [hnodes]
    exact h.live
  · exact fun a b hab => absurd hab.length_le (by simp)
  · show HeadOk s.head p (heading s.producer) []
    rw [hheading]
    exact .empty hfirst
  · have hproducer := h.producer
    show ProducerOk _ [] s.producer
    rw [hq] at hproducer
    generalize s.producer = x at hproducer
    cases x with
    | setNext x old => exact absurd hproducer.1.length_le (by simp)
    | _ => exact hproducer
  · have hreached := h.reached
    rw [hdetached, hq] at hreached
    exact hreached

/-- `pop_head` moves the head to the next node. -/
theorem ListInv.swing (h : ListInv s q) {next : Addr} (hpc : s.consumer = .swing p next) (hne : next ≠ 0) :
    ∃ l, q = p :: next :: l ∧ s.head = p ∧ ListInv ({ s with
      head := next, reached := s.reached.filter (· ≠ p), popped := p :: s.popped
      removed := s.removed ++ [s.entry p] }.consume (.idle p)) (next :: l) := by
  have hconsumer := h.consumer
  rw [hpc] at hconsumer
  obtain ⟨hfirst, ⟨l, hq⟩, hnot⟩ := hconsumer.resolve_left hne
  have hdetached : detached s.consumer = [] := by
    rw [hpc]
    exact if_neg hne
  have hheading : heading s.producer = none := by
    have hhead := h.head
    rw [hq] at hhead
    generalize heading s.producer = x at hhead
    cases hhead
    rfl
  have hpnot : p ∉ next :: l := (List.nodup_cons.mp (hq ▸ h.nodup_queue)).1
  obtain ⟨s', hs'⟩ : ∃ s', s' = { s with
      head := next, reached := s.reached.filter (· ≠ p), popped := p :: s.popped
      removed := s.removed ++ [s.entry p] }.consume (.idle p) := ⟨_, rfl⟩
  have hnodes : (nodes s' (next :: l)).Perm (nodes s q) := by
    unfold nodes
    rw [hdetached, hq, hs']
    show (newNodes s.producer ++ (p :: s.popped ++ (next :: l))).Perm
      (newNodes s.producer ++ (s.popped ++ (p :: next :: l)))
    exact List.Perm.append_left _ List.perm_middle.symm
  refine ⟨l, hq, hfirst, ?_⟩
  rw [← hs']
  have hlinks := h.links
  rw [hq] at hlinks
  refine ⟨?_, ?_, hnodes.nodup_iff.mpr h.nodup, ?_, ?_, ?_, ?_, ?_, ?_, ?_⟩
  · have hadded := h.added
    rw [hdetached, hq] at hadded
    rw [hs']
    show s.added = s.removed ++ [s.entry p] ++ (next :: l).map s.entry
    rw [hadded, List.append_assoc]
    rfl
  · have htail := h.tail
    rw [hq, List.getLast?_cons_cons] at htail
    rw [hs']
    exact htail
  · intro b hb
    have hlive := h.live b (hnodes.mem_iff.mp hb)
    rw [hs']
    exact hlive
  · rw [hs']
    exact hlinks.tail
  · intro a b hab
    have hold := h.present a b (hq ▸ List.infix_cons hab)
    rw [hs']
    exact hold
  · rw [hs']
    show HeadOk next 0 (heading s.producer) (next :: l)
    rw [hheading]
    exact .first rfl
  · have hproducer := h.producer
    have hnext : s'.next = s.next := by
      rw [hs']
      rfl
    have hsame : s'.producer = s.producer := by
      rw [hs']
      rfl
    rw [hsame]
    cases hx : s.producer <;> rw [hx] at hproducer
    case setNext x old =>
      have hold : old ≠ p := fun heq => hnot x (heq ▸ hx)
      exact ⟨behind_of_cons (hq ▸ hproducer.1) hold, hnext ▸ hproducer.2⟩
    case exchangeTail x => exact (congrFun hnext x).trans hproducer
    all_goals exact hproducer
  · rw [hs']
    trivial
  · have hreached := h.reached
    rw [hdetached, hq] at hreached
    rw [hs']
    intro b hb
    obtain ⟨hmem, hbne⟩ := List.mem_filter.mp hb
    exact (List.mem_cons.mp (hreached b hmem)).resolve_left (of_decide_eq_true hbne)

/-- `pop_head` returns the node for which it has cleared the tail. The
compare-exchange fails if an `add_node` has stored the head meanwhile. -/
theorem ListInv.swing_detached (h : ListInv s q) (hpc : s.consumer = .swing p 0) :
    ListInv ({ s with
      head := if s.head = p then 0 else s.head
      reached := s.reached.filter (· ≠ p), popped := p :: s.popped
      removed := s.removed ++ [s.entry p] }.consume (.idle p)) q := by
  have hdetached : detached s.consumer = [p] := by
    rw [hpc]
    rfl
  have hpnot : p ∉ q := by
    have hnodup := h.nodup.of_append_right.of_append_right
    rw [hdetached] at hnodup
    exact (List.nodup_cons.mp hnodup).1
  obtain ⟨s', hs'⟩ : ∃ s', s' = { s with
      head := if s.head = p then 0 else s.head
      reached := s.reached.filter (· ≠ p), popped := p :: s.popped
      removed := s.removed ++ [s.entry p] }.consume (.idle p) := ⟨_, rfl⟩
  have hnodes : (nodes s' q).Perm (nodes s q) := by
    unfold nodes
    rw [hdetached, hs']
    show (newNodes s.producer ++ (p :: s.popped ++ q)).Perm (newNodes s.producer ++ (s.popped ++ (p :: q)))
    exact List.Perm.append_left _ List.perm_middle.symm
  rw [← hs']
  refine ⟨?_, ?_, hnodes.nodup_iff.mpr h.nodup, ?_, ?_, ?_, ?_, ?_, ?_, ?_⟩
  · have hadded := h.added
    rw [hdetached] at hadded
    rw [hs']
    show s.added = s.removed ++ [s.entry p] ++ q.map s.entry
    rw [hadded, List.append_assoc]
    rfl
  · rw [hs']
    exact h.tail
  · intro b hb
    have hlive := h.live b (hnodes.mem_iff.mp hb)
    rw [hs']
    exact hlive
  · rw [hs']
    exact h.links
  · rw [hs']
    exact h.present
  · have hhead := h.head
    rw [hdetached] at hhead
    rw [hs']
    show HeadOk (if s.head = p then 0 else s.head) 0 (heading s.producer) q
    generalize heading s.producer = x at hhead
    have hold : List.headD [p] 0 = p := rfl
    rw [hold] at hhead
    cases hhead with
    | empty heq => exact .empty (if_pos heq)
    | @first a l heq =>
      have hne : s.head ≠ p := by
        rw [heq]
        exact fun hap => hpnot (hap ▸ List.mem_cons_self)
      rw [if_neg hne]
      exact .first heq
    | heading heq => exact .heading (if_pos heq)
  · have hproducer := h.producer
    have hsame : s'.producer = s.producer ∧ s'.next = s.next := by
      rw [hs']
      exact ⟨rfl, rfl⟩
    rw [hsame.1]
    cases hx : s.producer <;> rw [hx] at hproducer
    case setNext x old => exact ⟨hproducer.1, hsame.2 ▸ hproducer.2⟩
    case exchangeTail x => exact (congrFun hsame.2 x).trans hproducer
    all_goals exact hproducer
  · rw [hs']
    trivial
  · have hreached := h.reached
    rw [hdetached] at hreached
    rw [hs']
    intro b hb
    obtain ⟨hmem, hbne⟩ := List.mem_filter.mp hb
    exact (List.mem_cons.mp (hreached b hmem)).resolve_left (of_decide_eq_true hbne)

/-- The consumer deletes a popped node. -/
theorem ListInv.delete (h : ListInv s q) (ha : a ∈ s.popped) : ListInv (s.delete a) q := by
  have hsplit := List.nodup_append'.mp h.nodup
  have hpopped := List.nodup_append'.mp hsplit.2.1
  have hmem : a ∈ s.popped ++ (detached s.consumer ++ q) := List.mem_append_left _ ha
  refine h.store_other (fun hnew => hsplit.2.2 hnew hmem) (fun hq => hpopped.2.2 ha hq) .deleted
    List.erase_sublist ?_ rfl
  intro b hb
  have hnodes : nodes (s.delete a) q = newNodes s.producer ++ (s.popped.erase a ++
      (detached s.consumer ++ q)) := rfl
  rw [hnodes] at hb
  have hold : b ∈ nodes s q ∧ b ≠ a := by
    obtain hb | hb := List.mem_append.mp hb
    · exact ⟨List.mem_append_left _ hb, fun heq => hsplit.2.2 (heq ▸ hb) hmem⟩
    · obtain hb | hb := List.mem_append.mp hb
      · obtain ⟨hne, hb⟩ := (List.Nodup.mem_erase_iff hpopped.1).mp hb
        exact ⟨List.mem_append_right _ (List.mem_append_left _ hb), hne⟩
      · exact ⟨List.mem_append_right _ (List.mem_append_right _ hb),
          fun heq => hpopped.2.2 ha (heq ▸ hb)⟩
  obtain ⟨hlive, hnull⟩ := h.live b hold.1
  exact ⟨(Function.update_of_ne hold.2 _ _).trans hlive, hnull⟩

/-- `get_head` or `get_next` returns a node of the list, or `NULL`. -/
theorem ListInv.reach (h : ListInv s q) (hdetached : detached s.consumer = []) (ha : a ≠ 0 → a ∈ q) :
    ListInv (s.reach a) q := by
  refine h.consume (c := .idle a) hdetached.symm trivial ?_
  intro b hb
  split at hb
  · exact h.reached b hb
  · rename_i hne
    obtain rfl | hb := List.mem_cons.mp hb
    · exact List.mem_append_right _ (ha hne)
    · exact h.reached b hb

/-- The consumer goes on in a call, with the pointers it has. -/
theorem ListInv.go (h : ListInv s q) {c : ConsumerPc} (hdetached : detached c = detached s.consumer)
    (hconsumer : ConsumerOk s q c) : ListInv (s.consume c) q :=
  h.consume hdetached (hconsumer.congr rfl rfl fun _ _ heq => heq) h.reached

/-! ### One step -/

theorem ListInv.addNodeStep (h : ListInv s q) (hstep : s.addNodeStep s.producer = some s') :
    ∃ q', ListInv s' q' := by
  cases hpc : s.producer <;> rw [hpc] at hstep <;>
    simp only [MemoryBufferList.addNodeStep, Option.some.injEq, reduceCtorEq] at hstep <;> subst hstep
  case exchangeTail p => exact ⟨_, h.exchange hpc⟩
  case setNext p old => exact ⟨q, h.setNext hpc⟩
  case loadTail p =>
    have hhead := h.head
    have htail := h.tail
    rw [hpc] at hhead
    have hq : q = [p] := by
      generalize q = q' at hhead
      cases hhead
      rfl
    rw [hq] at htail
    refine ⟨q, h.produce ?_ ?_ ?_ ?_ htail⟩
    · rw [hpc]
      rfl
    · rw [hpc]
      rfl
    · rw [hpc]
      exact fun _ _ => ProducerPc.noConfusion
    · exact fun _ _ => ProducerPc.noConfusion
  case exchangeHead p tail => exact ⟨q, h.exchangeHead hpc⟩

theorem ListInv.getStep (h : ListInv s q) (hstep : s.getStep s.consumer = some s') : ListInv s' q := by
  cases hpc : s.consumer <;> rw [hpc] at hstep <;>
    simp only [MemoryBufferList.getStep, Option.some.injEq, reduceCtorEq] at hstep <;> subst hstep
  all_goals have hdetached : detached s.consumer = [] := by rw [hpc]; rfl
  case headLoadTail =>
    split
    · exact h.go hdetached.symm trivial
    · exact h.go hdetached.symm trivial
  case headLoad =>
    split
    · exact h.go hdetached.symm trivial
    · rename_i hne
      obtain ⟨l, hq⟩ := h.head_first hdetached hne
      exact h.reach hdetached fun _ => hq ▸ List.mem_cons_self
  case headReload =>
    refine h.go hdetached.symm ?_
    by_cases hzero : s.head = 0
    · exact .inl hzero
    · exact .inr (h.head_first hdetached hzero)
  case headReloadTail a =>
    have hconsumer := h.consumer
    rw [hpc] at hconsumer
    split
    · exact h.go hdetached.symm trivial
    · split
      · exact h.go hdetached.symm trivial
      · rename_i hne
        obtain ⟨l, hq⟩ := hconsumer.resolve_left hne
        exact h.reach hdetached fun _ => hq ▸ List.mem_cons_self
  case nextLoad a =>
    have hconsumer := h.consumer
    have hreached := h.reached
    rw [hpc] at hconsumer
    rw [hdetached] at hreached
    exact h.reach hdetached fun hne => h.next_mem (hreached a hconsumer) hne

/-- `pop_head` has seen the link from its node. -/
theorem ListInv.see (h : ListInv s q) (hdetached : detached s.consumer = []) (hfirst : s.head = p)
    {l : List Addr} (hq : q = p :: l) (hne : s.next p ≠ 0) : ListInv (s.consume (.swing p (s.next p))) q := by
  refine h.go ((if_neg hne).trans hdetached.symm) (.inr ⟨hfirst, ?_, ?_⟩)
  · have hlinks := h.links
    rw [hq] at hlinks ⊢
    obtain ⟨l', hl'⟩ := hlinks.head_next hne
    exact ⟨l', congrArg _ hl'⟩
  · intro x hx
    have hproducer := h.producer
    rw [hx] at hproducer
    exact hne hproducer.2

theorem ListInv.popHeadStep (h : ListInv s q) (hstep : s.popHeadStep s.consumer = some s') :
    ∃ q', ListInv s' q' := by
  have hconsumer := h.consumer
  cases hpc : s.consumer <;> rw [hpc] at hstep hconsumer <;>
    simp only [MemoryBufferList.popHeadStep, Option.some.injEq, reduceCtorEq] at hstep <;> subst hstep
  case popLoadTail =>
    have hdetached : detached s.consumer = [] := by rw [hpc]; rfl
    refine ⟨q, ?_⟩
    split
    · exact h.go hdetached.symm trivial
    · rename_i hne
      exact h.go hdetached.symm fun hnil => hne (h.tail_eq_zero.mpr hnil)
  case popLoadHead =>
    have hdetached : detached s.consumer = [] := by rw [hpc]; rfl
    refine ⟨q, ?_⟩
    split
    · exact h.go hdetached.symm hconsumer
    · rename_i hne
      exact h.go hdetached.symm ⟨rfl, h.head_first hdetached hne⟩
  case popNext p =>
    have hdetached : detached s.consumer = [] := by rw [hpc]; rfl
    obtain ⟨hfirst, l, hq⟩ := hconsumer
    refine ⟨q, ?_⟩
    split
    · exact h.go hdetached.symm ⟨hfirst, l, hq⟩
    · rename_i hne
      exact h.see hdetached hfirst hq hne
  case clearTail p =>
    have hdetached : detached s.consumer = [] := by rw [hpc]; rfl
    split
    · rename_i htail
      exact ⟨[], h.clear hpc htail⟩
    · rename_i htail
      obtain ⟨hfirst, l, hq⟩ := hconsumer
      refine ⟨q, h.go hdetached.symm ⟨hfirst, ?_⟩⟩
      cases l with
      | nil =>
        have hlast := h.tail
        rw [hq] at hlast
        exact absurd hlast htail
      | cons b l => exact ⟨b, l, hq⟩
  case spin p =>
    have hdetached : detached s.consumer = [] := by rw [hpc]; rfl
    obtain ⟨hfirst, b, l, hq⟩ := hconsumer
    refine ⟨q, ?_⟩
    split
    · exact h.go hdetached.symm ⟨hfirst, b, l, hq⟩
    · rename_i hne
      exact h.see hdetached hfirst hq hne
  case swing p next =>
    by_cases hzero : next = 0
    · rw [hzero] at hpc ⊢
      exact ⟨q, h.swing_detached hpc⟩
    · obtain ⟨l, -, hfirst, hinv⟩ := h.swing hpc hzero
      refine ⟨next :: l, ?_⟩
      rw [if_pos hfirst]
      exact hinv

theorem ListInv.callStep (h : ListInv s q) (hdetached : detached s.consumer = []) {c : ConsumerCall}
    (hstep : s.callStep c = some s') : ListInv s' q := by
  cases c with
  | getHead =>
    cases hstep
    exact h.go hdetached.symm trivial
  | getNext a =>
    simp only [MemoryBufferList.callStep] at hstep
    split at hstep
    · rename_i ha
      cases hstep
      exact h.go hdetached.symm ha
    · cases hstep
  | popHead =>
    cases hstep
    exact h.go hdetached.symm trivial
  | inspect a =>
    simp only [MemoryBufferList.callStep] at hstep
    split at hstep
    · cases hstep
      exact h
    · cases hstep
  | delete a =>
    simp only [MemoryBufferList.callStep] at hstep
    split at hstep
    · rename_i ha
      cases hstep
      exact h.delete ha
    · cases hstep

/-- Every step keeps the invariant. -/
theorem ListInv.step (h : ListInv s q) {l : ListLabel} (hstep : MemoryBufferList.step l s = some s') :
    ∃ q', ListInv s' q' := by
  cases l with
  | addNode buffer size =>
    simp only [MemoryBufferList.step] at hstep
    split at hstep
    · rename_i hidle
      cases hstep
      refine ⟨q, h.produce ?_ ?_ ?_ ?_ trivial⟩
      · rw [hidle]
        rfl
      · rw [hidle]
        rfl
      · rw [hidle]
        exact fun _ _ => ProducerPc.noConfusion
      · exact fun _ _ => ProducerPc.noConfusion
    · cases hstep
  | new a =>
    simp only [MemoryBufferList.step, MemoryBufferList.newStep] at hstep
    split at hstep
    · rename_i buffer size hpc
      split at hstep
      · cases hstep
      · rename_i hfree
        obtain ⟨hnull, hlive⟩ := not_or.mp hfree
        cases hstep
        exact ⟨q, h.new hpc hnull (Bool.eq_false_iff.mpr hlive)⟩
    · cases hstep
  | produce => exact h.addNodeStep hstep
  | call c =>
    simp only [MemoryBufferList.step] at hstep
    split at hstep
    · rename_i last hpc
      exact ⟨q, h.callStep (by rw [hpc]; rfl) hstep⟩
    · cases hstep
  | consume =>
    obtain hget | ⟨-, hpop⟩ := Option.or_eq_some_iff.mp hstep
    · exact ⟨q, h.getStep hget⟩
    · exact h.popHeadStep hpop

/-! ### All runs -/

theorem ListInv.listed_eq (h : ListInv s q) : listed s = detached s.consumer ++ q := by
  have hfst : (Prod.fst ∘ s.entry) = id := rfl
  rw [listed, h.added, List.drop_left' rfl, List.map_map, hfst, List.map_id]

/-- `pop_head` waits only for the producer. -/
theorem ListInv.waits (h : ListInv s q) (hadding : ¬Adding s.producer) :
    (s.consumer = .popLoadHead → s.head ≠ 0) ∧ ∀ hp, s.consumer = .spin hp → s.next hp ≠ 0 := by
  have hheading : heading s.producer = none := by
    cases hpc : s.producer <;> rw [hpc] at hadding
    case loadTail p => exact absurd trivial hadding
    case exchangeHead p tail => exact absurd trivial hadding
    all_goals rfl
  have hconsumer := h.consumer
  refine ⟨?_, ?_⟩
  · intro hpc
    rw [hpc] at hconsumer
    have hhead := h.head
    have hlive : ∀ a ∈ q, a ≠ 0 := fun a ha => (h.live_of_mem ha).2
    rw [hheading] at hhead
    generalize q = q' at hhead hconsumer hlive
    cases hhead with
    | empty => exact absurd rfl hconsumer
    | @first a l heq =>
      rw [heq]
      exact hlive a List.mem_cons_self
  · intro hp hpc
    rw [hpc] at hconsumer
    obtain ⟨-, b, l, hq⟩ := hconsumer
    have hbehind : [hp, b] <:+: q := by
      rw [hq]
      exact ⟨[], l, rfl⟩
    have hnext := (h.present hp b hbehind).resolve_right fun hx => hadding (by rw [hx]; trivial)
    rw [hnext]
    exact (h.live_of_mem (behind_mem hbehind).2).2

theorem ListInv.spscList (h : ListInv s q) : SpscList s where
  order := by
    rw [h.added]
    exact List.prefix_append _ _
  once := by
    rw [h.listed_eq]
    exact h.nodup.of_append_right
  reached := by
    rw [h.listed_eq]
    exact h.reached
  live := by
    rw [h.listed_eq]
    exact fun a ha => (h.live a (List.mem_append_right _ ha)).1
  waits := h.waits

/-- Nobody looks into a node that has been deleted. -/
theorem ListInv.dereferenced (h : ListInv s q) {l : ListLabel} (hstep : MemoryBufferList.step l s = some s')
    (ha : dereferenced s l = some a) : s.live a = true := by
  cases l with
  | addNode buffer size => cases ha
  | new x => cases ha
  | produce =>
    have hproducer := h.producer
    cases hpc : s.producer <;> simp only [Spec.dereferenced, hpc, reduceCtorEq, Option.some.injEq] at ha
    rw [hpc, ha] at hproducer
    exact (h.live_of_mem (behind_mem hproducer.1).1).1
  | consume =>
    have hconsumer := h.consumer
    cases hpc : s.consumer <;> simp only [Spec.dereferenced, hpc, reduceCtorEq, Option.some.injEq] at ha <;>
      rw [hpc, ha] at hconsumer
    case nextLoad x => exact (h.live_detached (h.reached a hconsumer)).1
    case popNext x =>
      obtain ⟨-, l, hq⟩ := hconsumer
      exact (h.live_of_mem (hq ▸ List.mem_cons_self)).1
    case spin x =>
      obtain ⟨-, b, l, hq⟩ := hconsumer
      exact (h.live_of_mem (hq ▸ List.mem_cons_self)).1
  | call c =>
    have hpopped : ∀ x ∈ s.popped, s.live x = true := fun x hx =>
      (h.live x (List.mem_append_right _ (List.mem_append_left _ hx))).1
    simp only [MemoryBufferList.step] at hstep
    split at hstep
    · cases c <;> simp only [Spec.dereferenced, reduceCtorEq, Option.some.injEq] at ha <;>
        simp only [MemoryBufferList.callStep] at hstep
      case inspect x =>
        split at hstep
        · rename_i hmem
          obtain hmem | hmem := hmem
          · exact ha ▸ (h.live_detached (h.reached x hmem)).1
          · exact ha ▸ hpopped x hmem
        · cases hstep
      case delete x =>
        split at hstep
        · rename_i hmem
          exact ha ▸ hpopped x hmem
        · cases hstep
    · cases hstep

/-- `pop_head` returns `NULL` only when all nodes have been popped. -/
theorem ListInv.pop_null (h : ListInv s q) (hpop : InPop s.consumer)
    (hstep : MemoryBufferList.step .consume s = some s') (hnull : s'.consumer = .idle 0) :
    s.removed = s.added := by
  have hstep : (s.getStep s.consumer).or (s.popHeadStep s.consumer) = some s' := hstep
  cases hpc : s.consumer <;> rw [hpc] at hpop hstep
  case popLoadTail =>
    have hdetached : detached s.consumer = [] := by rw [hpc]; rfl
    simp only [MemoryBufferList.getStep, MemoryBufferList.popHeadStep, Option.none_or,
      Option.some.injEq] at hstep
    subst hstep
    split at hnull
    · rename_i hzero
      have hadded := h.added
      rw [hdetached, h.tail_eq_zero.mp hzero] at hadded
      rw [hadded]
      exact (List.append_nil _).symm
    · cases hnull
  case popLoadHead =>
    cases hstep
    unfold MemoryBufferList.consume at hnull
    split at hnull <;> cases hnull
  case popNext p =>
    cases hstep
    unfold MemoryBufferList.consume at hnull
    split at hnull <;> cases hnull
  case clearTail p =>
    simp only [MemoryBufferList.getStep, MemoryBufferList.popHeadStep, Option.none_or,
      Option.some.injEq] at hstep
    subst hstep
    split at hnull <;> cases hnull
  case spin p =>
    cases hstep
    unfold MemoryBufferList.consume at hnull
    split at hnull <;> cases hnull
  case swing p next =>
    cases hstep
    have hzero : p = 0 := ConsumerPc.idle.inj hnull
    have hne : p ≠ 0 := by
      by_cases hnext : next = 0
      · refine (h.live_detached (a := p) ?_).2
        rw [hpc, hnext]
        exact List.mem_append_left _ (List.mem_singleton_self p)
      · obtain ⟨l, hq, -⟩ := h.swing hpc hnext
        exact (h.live_of_mem (hq ▸ List.mem_cons_self)).2
    exact absurd hzero hne
  all_goals exact absurd hpop id

/-- **One producer and one consumer**, in any order of their steps: the
nodes come out in the order in which they were added, each once, the nodes
that the consumer reaches are in the list, nobody looks into a deleted
node, and `pop_head` returns `NULL` only when every node that was exchanged
into the tail has been popped. -/
theorem list_spsc (h : Reach MemoryBufferList.step (fun _ _ => True) .create s) :
    SpscList s ∧ ∀ l s', MemoryBufferList.step l s = some s' →
      (∀ a, dereferenced s l = some a → s.live a = true) ∧
      (l = .consume → InPop s.consumer → s'.consumer = .idle 0 → s.removed = s.added) := by
  have hpres : ∀ (s s' : MemoryBufferList) l, (∃ q, ListInv s q) → True →
      MemoryBufferList.step l s = some s' → ∃ q, ListInv s' q :=
    fun _ _ _ hs _ hstep => hs.elim fun _ hq => hq.step hstep
  obtain ⟨q, hinv⟩ := h.invariant (I := fun s => ∃ q, ListInv s q) ⟨[], listInv_create⟩ hpres
  refine ⟨hinv.spscList, ?_⟩
  intro l s' hstep
  refine ⟨fun a ha => hinv.dereferenced hstep ha, ?_⟩
  rintro rfl hpop hnull
  exact hinv.pop_null hpop hstep hnull

/-- The consumer clears the tail, the producer adds a node and stores the
head, and the last compare-exchange of `pop_head` fails. The popped node is
deleted and its address is used again. -/
theorem list_spsc_sample :
    ∃ s : MemoryBufferList, s.head = 16 ∧ s.removed.map Prod.fst = [8] ∧
      s.added.map Prod.fst = [8, 16, 8] ∧ s.reached = [8, 16] ∧ SpscList s ∧
      ∀ l s', MemoryBufferList.step l s = some s' →
        (∀ a, Spec.dereferenced s l = some a → s.live a = true) ∧
        (l = .consume → InPop s.consumer → s'.consumer = .idle 0 → s.removed = s.added) :=
  ⟨_, rfl, rfl, rfl, rfl, list_spsc (Reach.of_run .init
    ([.addNode none 1, .new 8, .produce, .produce, .produce, .call .popHead, .consume, .consume, .consume,
      .consume, .addNode none 2, .new 16, .produce, .produce, .produce, .consume, .call (.inspect 8),
      .call (.delete 8), .addNode none 3, .new 8, .produce, .produce, .call .getHead, .consume, .consume,
      .call (.getNext 16), .consume]) rfl)⟩

end Efio.Proofs.Evds
