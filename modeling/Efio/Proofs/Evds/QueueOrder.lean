import Efio.Proofs.Evds.QueueInv

/-!
# `Efio.Proofs.Evds.QueueOrder`: a queue is an exactly-once FIFO

`Accounts s pending` ties the recorded elements to the nodes: what was
exchanged is what was claimed, followed by the pending nodes, and what was
claimed has been returned or is held by one consumer.

`queue_fifo`: in every state reached without an abort, by any number of
threads, the queue is an exactly-once FIFO, and a `dequeue` that finds the
tail `NULL` finds every exchanged element claimed.

The theorem also covers `try_dequeue`. Its early `free` may let a producer
clear `inflight` in freed memory; neither the links nor the elements
depend on that word.
-/

set_option autoImplicit false

namespace Efio.Proofs.Evds

open Efio.Lib
open Efio.Evds
open Efio.Spec

variable {s s' : EvQueue} {held pending : List Addr} {t : Nat} {l : QueueLabel}

/-- What was exchanged, claimed and returned, and the nodes. -/
structure Accounts (s : EvQueue) (pending : List Addr) : Prop where
  exchanged : s.exchanged = s.claimed ++ pending.map s.elem
  distinct : (s.exchanged.map Prod.fst).Nodup
  issued : ∀ e ∈ s.exchanged, e.1 < s.gid
  new : ∀ t p, (role (s.pc t)).new = some p →
    (s.mem p).id < s.gid ∧ ∀ e ∈ s.exchanged, e.1 ≠ (s.mem p).id
  new_alone : ∀ t u p q, (role (s.pc t)).new = some p → (role (s.pc u)).new = some q →
    (s.mem p).id = (s.mem q).id → t = u
  held : ∀ t e, Holds s t e → e ∈ s.claimed ∧ e ∉ s.returned
  alone : ∀ t u e, Holds s t e → Holds s u e → t = u
  kept : ∀ e ∈ s.claimed, e ∈ s.returned ∨ ∃ t, Holds s t e
  returned : ∀ e ∈ s.returned, e ∈ s.claimed
  once : s.returned.Nodup

theorem token_of_held {r : Role} {a : Addr} (h : r.held = some a) : r.token = some a := by
  cases r <;> cases h <;> rfl

theorem token_of_new {r : Role} {a : Addr} (h : r.new = some a) : r.token = some a := by
  cases r <;> cases h
  rfl

/-- Elements, recorded lists and what the threads hold stay the same. -/
theorem Accounts.congr (h : Accounts s pending) (helem : ∀ a ∈ pending, s'.elem a = s.elem a)
    (hheld : ∀ u e, Holds s' u e ↔ Holds s u e)
    (hnew : ∀ u p, (role (s'.pc u)).new = some p → (role (s.pc u)).new = some p ∧
      (s'.mem p).id = (s.mem p).id)
    (hgid : s'.gid = s.gid) (hexchanged : s'.exchanged = s.exchanged)
    (hclaimed : s'.claimed = s.claimed) (hreturned : s'.returned = s.returned) :
    Accounts s' pending := by
  refine ⟨?_, ?_, ?_, ?_, ?_, ?_, ?_, ?_, ?_, ?_⟩
  · rw [hexchanged, hclaimed, List.map_congr_left helem]
    exact h.exchanged
  · rw [hexchanged]
    exact h.distinct
  · rw [hexchanged, hgid]
    exact h.issued
  · intro u p hu
    obtain ⟨hold, hid⟩ := hnew u p hu
    rw [hexchanged, hgid, hid]
    exact h.new u p hold
  · intro u v p q hu hv heq
    obtain ⟨hu, hp⟩ := hnew u p hu
    obtain ⟨hv, hq⟩ := hnew v q hv
    rw [hp, hq] at heq
    exact h.new_alone u v p q hu hv heq
  · intro u e hu
    rw [hclaimed, hreturned]
    exact h.held u e ((hheld u e).mp hu)
  · intro u v e hu hv
    exact h.alone u v e ((hheld u e).mp hu) ((hheld v e).mp hv)
  · intro e he
    rw [hclaimed] at he
    rw [hreturned]
    refine (h.kept e he).imp_right ?_
    rintro ⟨u, hu⟩
    exact ⟨u, (hheld u e).mpr hu⟩
  · rw [hclaimed, hreturned]
    exact h.returned
  · rw [hreturned]
    exact h.once

/-- One thread moves and keeps what it holds, and the held nodes stay as they
are. -/
theorem holds_iff {q : QueuePc} (hpc : s'.pc = Function.update s.pc t q)
    (hheld : (role q).held = (role (s.pc t)).held)
    (helem : ∀ u a, (role (s.pc u)).held = some a → s'.elem a = s.elem a) (u : Nat) (e : Nat × Nat) :
    Holds s' u e ↔ Holds s u e := by
  have hrole : (role (s'.pc u)).held = (role (s.pc u)).held := by
    rw [hpc]
    by_cases hu : u = t
    · rw [hu, Function.update_self, hheld]
    · rw [Function.update_of_ne hu]
  unfold Holds
  rw [hrole]
  exact exists_congr fun a => and_congr_right fun ha => by rw [helem u a ha]

/-- One thread moves and keeps what it holds; no element changes. -/
theorem Accounts.move {q : QueuePc} (h : Accounts s pending)
    (hpc : s'.pc = Function.update s.pc t q) (hheld : (role q).held = (role (s.pc t)).held)
    (hnew : ∀ p, (role q).new = some p → (role (s.pc t)).new = some p)
    (helem : ∀ a, s'.elem a = s.elem a) (hgid : s'.gid = s.gid)
    (hexchanged : s'.exchanged = s.exchanged) (hclaimed : s'.claimed = s.claimed)
    (hreturned : s'.returned = s.returned) : Accounts s' pending := by
  refine h.congr (fun a _ => helem a) (holds_iff hpc hheld fun _ a _ => helem a) ?_ hgid hexchanged hclaimed hreturned
  intro u p hp
  refine ⟨?_, congrArg Prod.fst (helem p)⟩
  rw [hpc] at hp
  by_cases hu : u = t
  · rw [hu, Function.update_self] at hp
    rw [hu]
    exact hnew p hp
  · rw [Function.update_of_ne hu] at hp
    exact hp

/-- A store that leaves `id` and `data` of the node as they are. -/
theorem elem_store (a : Addr) (n : Node) (hid : n.id = (s.mem a).id) (hdata : n.data = (s.mem a).data)
    (b : Addr) : (s.store a n).elem b = s.elem b := by
  show (((Function.update s.mem a n b).id, (Function.update s.mem a n b).data) : Nat × Nat) = s.elem b
  by_cases hb : b = a
  · rw [hb, Function.update_self, hid, hdata]
    rfl
  · rw [Function.update_of_ne hb]
    rfl

theorem Accounts.exchange (h : Accounts s pending) {p : Addr} (hpc : s.pc t = .exchange p) :
    Accounts ({ s with tail := p, exchanged := s.exchanged ++ [s.elem p] }.goto t (.count p s.tail))
      (pending ++ [p]) := by
  have hrole : role (s.pc t) = .fresh p := by rw [hpc]; rfl
  obtain ⟨hid, hnot⟩ := h.new t p (by rw [hrole]; rfl)
  have hcount : (role (.count p s.tail)).held = none ∧ (role (.count p s.tail)).new = none := by
    by_cases htail : s.tail = 0
    · rw [role, if_pos htail]
      exact ⟨rfl, rfl⟩
    · rw [role, if_neg htail]
      exact ⟨rfl, rfl⟩
  have hheld : ∀ u e, Holds ({ s with tail := p, exchanged := s.exchanged ++ [s.elem p] }.goto t
      (.count p s.tail)) u e ↔ Holds s u e :=
    holds_iff rfl (hcount.1.trans (by rw [hrole]; rfl)) fun _ _ _ => rfl
  have hother : ∀ u q, (role ((Function.update s.pc t (.count p s.tail)) u)).new = some q →
      u ≠ t ∧ (role (s.pc u)).new = some q := by
    intro u q hq
    by_cases hu : u = t
    · rw [hu, Function.update_self, hcount.2] at hq
      cases hq
    · rw [Function.update_of_ne hu] at hq
      exact ⟨hu, hq⟩
  refine ⟨?_, ?_, ?_, ?_, ?_, ?_, ?_, ?_, h.returned, h.once⟩
  · show s.exchanged ++ [s.elem p] = s.claimed ++ (pending ++ [p]).map s.elem
    rw [h.exchanged, List.map_append, List.append_assoc]
    rfl
  · show ((s.exchanged ++ [s.elem p]).map Prod.fst).Nodup
    rw [List.map_append, List.map_singleton, ← List.concat_eq_append]
    refine h.distinct.concat ?_
    intro hin
    obtain ⟨e, he, heq⟩ := List.mem_map.mp hin
    exact hnot e he heq
  · intro e he
    rcases List.mem_append.mp he with he | he
    · exact h.issued e he
    · rw [List.mem_singleton.mp he]
      exact hid
  · intro u q hq
    obtain ⟨hu, hq⟩ := hother u q hq
    obtain ⟨hlt, hne⟩ := h.new u q hq
    refine ⟨hlt, ?_⟩
    intro e he
    rcases List.mem_append.mp he with he | he
    · exact hne e he
    · rw [List.mem_singleton.mp he]
      intro heq
      exact hu (h.new_alone u t q p hq (by rw [hrole]; rfl) heq.symm)
  · intro u v q r hq hr heq
    exact h.new_alone u v q r (hother u q hq).2 (hother v r hr).2 heq
  · intro u e hu
    exact h.held u e ((hheld u e).mp hu)
  · intro u v e hu hv
    exact h.alone u v e ((hheld u e).mp hu) ((hheld v e).mp hv)
  · intro e he
    refine (h.kept e he).imp_right ?_
    rintro ⟨u, hu⟩
    exact ⟨u, (hheld u e).mpr hu⟩

/-- A new node is nobody's token. -/
theorem QueueInv.token_ne_free (h : QueueInv s held pending) {a b : Addr} (hfree : s.live a = false)
    {u : Nat} (htoken : (role (s.pc u)).token = some b) : b ≠ a := by
  rintro rfl
  exact Bool.false_ne_true (hfree.symm.trans ((h.placed u).token_live h.shape htoken).1)

theorem Accounts.malloc (h : Accounts s pending) (hinv : QueueInv s held pending) {a data : Nat}
    (hpc : s.pc t = .alloc data) (hfree : s.live a = false) (n : Node) (hid : n.id = s.gid)
    (live : Addr → Bool) :
    Accounts ({ s.store a n with gid := s.gid + 1, live := live }.goto t (.exchange a)) pending := by
  have hnode : ∀ b, b ≠ a → (s.store a n).mem b = s.mem b := fun b hb => s.store_mem_of_ne hb n
  have hself : ((s.store a n).mem a).id = s.gid := by
    rw [← hid]
    exact congrArg Node.id (s.store_mem_self a n)
  have helem : ∀ b, b ≠ a → (s.store a n).elem b = s.elem b := by
    intro b hb
    show (((s.store a n).mem b).id, ((s.store a n).mem b).data) = _
    rw [hnode b hb]
    rfl
  have hrole : role (s.pc t) = .none := by rw [hpc]; rfl
  have hheld : ∀ u e, Holds ({ s.store a n with gid := s.gid + 1, live := live }.goto t (.exchange a))
      u e ↔ Holds s u e :=
    holds_iff rfl (by rw [hrole]; rfl) fun u b hb =>
      helem b (hinv.token_ne_free hfree (token_of_held hb))
  have hnew : ∀ u q, (role (Function.update s.pc t (.exchange a) u)).new = some q →
      u = t ∧ ((s.store a n).mem q).id = s.gid ∨
        u ≠ t ∧ (role (s.pc u)).new = some q ∧ ((s.store a n).mem q).id = (s.mem q).id := by
    intro u q hq
    by_cases hu : u = t
    · rw [hu, Function.update_self] at hq
      cases hq
      exact Or.inl ⟨hu, hself⟩
    · rw [Function.update_of_ne hu] at hq
      exact Or.inr ⟨hu, hq, by rw [hnode q (hinv.token_ne_free hfree (token_of_new hq))]⟩
  refine ⟨?_, h.distinct, ?_, ?_, ?_, ?_, ?_, ?_, h.returned, h.once⟩
  · refine h.exchanged.trans (congrArg (s.claimed ++ ·) (List.map_congr_left ?_).symm)
    intro b hb
    refine helem b ?_
    rintro rfl
    have hlive := (hinv.shape.alive b (List.mem_append_right _ hb)).1
    exact Bool.false_ne_true (hfree.symm.trans hlive)
  · intro e he
    exact Nat.lt_succ_of_lt (h.issued e he)
  · intro u q hq
    show ((s.store a n).mem q).id < s.gid + 1 ∧ ∀ e ∈ s.exchanged, e.1 ≠ ((s.store a n).mem q).id
    rcases hnew u q hq with ⟨-, hgid⟩ | ⟨-, hq, hsame⟩
    · rw [hgid]
      exact ⟨Nat.lt_succ_self _, fun e he => Nat.ne_of_lt (h.issued e he)⟩
    · rw [hsame]
      exact ⟨Nat.lt_succ_of_lt (h.new u q hq).1, (h.new u q hq).2⟩
  · intro u v q r hq hr heq
    have heq' : ((s.store a n).mem q).id = ((s.store a n).mem r).id := heq
    -- The `id` of the new node is larger than all others.
    rcases hnew u q hq with ⟨hu, hgid⟩ | ⟨-, hq, hsame⟩ <;>
      rcases hnew v r hr with ⟨hv, hgid'⟩ | ⟨-, hr, hsame'⟩
    · rw [hu, hv]
    · have hlt := (h.new v r hr).1
      omega
    · have hlt := (h.new u q hq).1
      omega
    · exact h.new_alone u v q r hq hr (hsame.symm.trans (heq'.trans hsame'))
  · intro u e hu
    exact h.held u e ((hheld u e).mp hu)
  · intro u v e hu hv
    exact h.alone u v e ((hheld u e).mp hu) ((hheld v e).mp hv)
  · intro e he
    refine (h.kept e he).imp_right ?_
    rintro ⟨u, hu⟩
    exact ⟨u, (hheld u e).mpr hu⟩

/-- The first pending element is claimed. -/
theorem Accounts.mark {v : Dequeuer} {a : Addr} {rest : List Addr} (h : Accounts s (a :: rest))
    (hpc : s.pc t = .markHead v a) :
    Accounts ({ s with head := ⟨a, true⟩, claimed := s.claimed ++ [s.elem a] }.goto t (.loadNext v a))
      rest := by
  have hrole : role (s.pc t) = .none := by rw [hpc]; rfl
  have hexchanged : s.exchanged = (s.claimed ++ [s.elem a]) ++ rest.map s.elem := by
    rw [h.exchanged, List.map_cons, List.append_assoc]
    rfl
  have hnot : s.elem a ∉ s.claimed := by
    intro hin
    have hdistinct := h.distinct
    rw [h.exchanged, List.map_append, List.map_cons, List.map_cons, List.nodup_append] at hdistinct
    exact hdistinct.2.2 _ (List.mem_map_of_mem hin) _ List.mem_cons_self rfl
  have hheld : ∀ u e, Holds ({ s with head := ⟨a, true⟩, claimed := s.claimed ++ [s.elem a] }.goto t
      (.loadNext v a)) u e → u = t ∧ e = s.elem a ∨ Holds s u e := by
    rintro u e ⟨b, hb, he⟩
    have hb : (role (Function.update s.pc t (.loadNext v a) u)).held = some b := hb
    by_cases hu : u = t
    · rw [hu, Function.update_self] at hb
      cases hb
      exact Or.inl ⟨hu, he.symm⟩
    · rw [Function.update_of_ne hu] at hb
      exact Or.inr ⟨b, hb, he⟩
  have hself : Holds ({ s with head := ⟨a, true⟩, claimed := s.claimed ++ [s.elem a] }.goto t
      (.loadNext v a)) t (s.elem a) := by
    refine ⟨a, ?_, rfl⟩
    rw [EvQueue.goto_pc_self]
    rfl
  have hkeep : ∀ u e, Holds s u e → Holds ({ s with
      head := ⟨a, true⟩, claimed := s.claimed ++ [s.elem a] }.goto t (.loadNext v a)) u e := by
    rintro u e ⟨b, hb, he⟩
    refine ⟨b, ?_, he⟩
    by_cases hu : u = t
    · rw [hu, hrole] at hb
      cases hb
    · rw [EvQueue.goto_pc_of_ne _ hu]
      exact hb
  have hnew : ∀ u q, (role (Function.update s.pc t (.loadNext v a) u)).new = some q →
      (role (s.pc u)).new = some q := by
    intro u q hq
    by_cases hu : u = t
    · rw [hu, Function.update_self] at hq
      cases hq
    · rw [Function.update_of_ne hu] at hq
      exact hq
  refine ⟨hexchanged, h.distinct, h.issued, ?_, ?_, ?_, ?_, ?_, ?_, h.once⟩
  · intro u q hq
    exact h.new u q (hnew u q hq)
  · intro u v q r hq hr
    exact h.new_alone u v q r (hnew u q hq) (hnew v r hr)
  · intro u e hu
    rcases hheld u e hu with ⟨-, rfl⟩ | hu
    · refine ⟨List.mem_append_right _ (List.mem_singleton_self _), ?_⟩
      intro hin
      exact hnot (h.returned _ hin)
    · exact ⟨List.mem_append_left _ (h.held u e hu).1, (h.held u e hu).2⟩
  · intro u w e hu hw
    rcases hheld u e hu with ⟨hut, rfl⟩ | hu <;> rcases hheld w _ hw with ⟨hwt, heq⟩ | hw
    · rw [hut, hwt]
    · exact absurd (h.held w _ hw).1 hnot
    · exact absurd (heq ▸ (h.held u e hu).1) hnot
    · exact h.alone u w e hu hw
  · intro e he
    rcases List.mem_append.mp he with he | he
    · refine (h.kept e he).imp_right ?_
      rintro ⟨u, hu⟩
      exact ⟨u, hkeep u e hu⟩
    · rw [List.mem_singleton.mp he]
      exact Or.inr ⟨t, hself⟩
  · intro e he
    exact List.mem_append_left _ (h.returned e he)

/-- A held element is returned. -/
theorem Accounts.free (h : Accounts s pending) (hinv : QueueInv s held pending) {a data : Nat}
    (hpc : s.pc t = .free a data) (live : Addr → Bool) (q : QueuePc) (hq : role q = .none) :
    Accounts ({ s.store a Node.scrubbed with
      live := live
      returned := s.returned ++ [((s.mem a).id, data)] }.goto t q) pending := by
  have hrole : role (s.pc t) = .retiring a := by rw [hpc]; rfl
  have hdata : ((s.mem a).id, data) = s.elem a := by
    have hreads := hinv.reads t
    rw [hpc] at hreads
    rw [← show (s.mem a).data = data from hreads]
    rfl
  rw [hdata]
  have hself : Holds s t (s.elem a) := ⟨a, by rw [hrole]; rfl, rfl⟩
  have howned := (hinv.placed t).owned a (by rw [hrole]; rfl)
  have helem : ∀ b, b ≠ a → (s.store a Node.scrubbed).elem b = s.elem b := by
    intro b hb
    show (((s.store a Node.scrubbed).mem b).id, ((s.store a Node.scrubbed).mem b).data) = _
    rw [s.store_mem_of_ne hb]
    rfl
  -- What is held afterwards was held before, by another thread.
  have hheld : ∀ u e, Holds ({ s.store a Node.scrubbed with
      live := live, returned := s.returned ++ [s.elem a] }.goto t q) u e ↔ u ≠ t ∧ Holds s u e := by
    intro u e
    by_cases hu : u = t
    · refine ⟨?_, fun h => absurd hu h.1⟩
      rintro ⟨b, hb, -⟩
      rw [hu, EvQueue.goto_pc_self, hq] at hb
      cases hb
    · unfold Holds
      rw [EvQueue.goto_pc_of_ne _ hu]
      have hsame : ∀ b, (role (s.pc u)).held = some b → (s.store a Node.scrubbed).elem b = s.elem b := by
        intro b hb
        refine helem b ?_
        rintro rfl
        exact hu (hinv.token u t b (token_of_held hb) (by rw [hrole]; rfl))
      refine ⟨?_, ?_⟩
      · rintro ⟨b, hb, he⟩
        exact ⟨hu, b, hb, (hsame b hb).symm.trans he⟩
      · rintro ⟨-, b, hb, he⟩
        exact ⟨b, hb, (hsame b hb).trans he⟩
  have hnew : ∀ u p, (role (Function.update s.pc t q u)).new = some p →
      (role (s.pc u)).new = some p ∧ (s.store a Node.scrubbed).mem p = s.mem p := by
    intro u p hp
    by_cases hu : u = t
    · rw [hu, Function.update_self, hq] at hp
      cases hp
    · rw [Function.update_of_ne hu] at hp
      refine ⟨hp, s.store_mem_of_ne ?_ _⟩
      rintro rfl
      exact hu (hinv.token u t p (token_of_new hp) (by rw [hrole]; rfl))
  refine ⟨?_, h.distinct, h.issued, ?_, ?_, ?_, ?_, ?_, ?_, ?_⟩
  · refine h.exchanged.trans (congrArg (s.claimed ++ ·) (List.map_congr_left ?_).symm)
    intro b hb
    refine helem b ?_
    rintro rfl
    exact howned.2.2 (List.mem_append_right _ hb)
  · intro u p hp
    obtain ⟨hp, hmem⟩ := hnew u p hp
    show ((s.store a Node.scrubbed).mem p).id < s.gid ∧
      ∀ e ∈ s.exchanged, e.1 ≠ ((s.store a Node.scrubbed).mem p).id
    rw [hmem]
    exact h.new u p hp
  · intro u w p r hp hr heq
    obtain ⟨hp, hmem⟩ := hnew u p hp
    obtain ⟨hr, hmem'⟩ := hnew w r hr
    have heq' : ((s.store a Node.scrubbed).mem p).id = ((s.store a Node.scrubbed).mem r).id := heq
    rw [hmem, hmem'] at heq'
    exact h.new_alone u w p r hp hr heq'
  · intro u e hu
    obtain ⟨hut, hu⟩ := (hheld u e).mp hu
    refine ⟨(h.held u e hu).1, ?_⟩
    intro hin
    rcases List.mem_append.mp hin with hin | hin
    · exact (h.held u e hu).2 hin
    · rw [List.mem_singleton.mp hin] at hu
      exact hut (h.alone u t _ hu hself)
  · intro u w e hu hw
    exact h.alone u w e ((hheld u e).mp hu).2 ((hheld w e).mp hw).2
  · intro e he
    by_cases hea : e = s.elem a
    · exact Or.inl (List.mem_append_right _ (List.mem_singleton.mpr hea))
    · rcases h.kept e he with hret | ⟨u, hu⟩
      · exact Or.inl (List.mem_append_left _ hret)
      · refine Or.inr ⟨u, (hheld u e).mpr ⟨?_, hu⟩⟩
        rintro rfl
        obtain ⟨b, hb, rfl⟩ := hu
        rw [hrole] at hb
        cases hb
        exact hea rfl
  · intro e he
    rcases List.mem_append.mp he with he | he
    · exact h.returned e he
    · rw [List.mem_singleton.mp he]
      exact (h.held t _ hself).1
  · show (s.returned ++ [s.elem a]).Nodup
    rw [← List.concat_eq_append]
    exact h.once.concat (h.held t _ hself).2

/-! ### Every step -/

/-- The invariant with some list. -/
def Queued (s : EvQueue) : Prop :=
  ∃ held pending, QueueInv s held pending ∧ Accounts s pending

theorem Queued.step (h : Queued s) (hstep : EvQueue.step l s = some s') : Queued s' := by
  obtain ⟨held, pending, hinv, hacc⟩ := h
  cases queueStep_of_step hstep with
  | plain t q mem e d hrole hmem hreads =>
    refine ⟨held, pending, hinv.plain t q e d hrole hmem hreads, ?_⟩
    refine hacc.move rfl (by rw [hrole]) (fun p hp => by rwa [hrole] at hp) ?_ rfl rfl rfl rfl
    intro a
    exact Prod.ext (hmem.id a) (hmem.data a)
  | malloc hpc hnull hfree =>
    exact ⟨held, pending, hinv.malloc _ _ hnull hfree rfl, hacc.malloc hinv hpc hfree _ rfl _⟩
  | exchange hpc => exact ⟨held, _, hinv.exchange hpc _, hacc.exchange hpc⟩
  | raise hpc =>
    refine ⟨held, pending, hinv.raise hpc, hacc.move rfl ?_ ?_ (elem_store _ _ rfl rfl) rfl rfl rfl rfl⟩
    · rw [hpc]
      rfl
    · intro p hp
      cases hp
  | link hpc =>
    refine ⟨held, pending, hinv.link hpc, hacc.move rfl ?_ ?_ (elem_store _ _ rfl rfl) rfl rfl rfl rfl⟩
    · rw [hpc]
      rfl
    · intro p hp
      cases hp
  | drop hpc =>
    refine ⟨held, pending, hinv.drop _ rfl fun _ => trivial,
      hacc.move rfl ?_ ?_ (elem_store _ _ rfl rfl) rfl rfl rfl rfl⟩
    · rw [hpc]
      rfl
    · intro p hp
      cases hp
  | setHead hpc =>
    refine ⟨held, pending, hinv.setHead hpc _ rfl trivial,
      hacc.move rfl ?_ ?_ (fun _ => rfl) rfl rfl rfl rfl⟩
    · rw [hpc]
      rfl
    · intro p hp
      cases hp
  | mark hpc hhead =>
    obtain ⟨-, rest, rfl, hinv'⟩ := hinv.mark hpc hhead _
    exact ⟨_, rest, hinv', hacc.mark hpc⟩
  | clear hpc htail =>
    obtain ⟨-, rfl, hinv'⟩ := hinv.clear hpc htail
    refine ⟨[], [], hinv', hacc.move rfl ?_ ?_ (fun _ => rfl) rfl rfl rfl rfl⟩
    · rw [hpc]
      rfl
    · intro p hp
      cases hp
  | @giveUp t a n hpc htail =>
    have hrole : role (s.pc t) = .active a := by rw [hpc]; rfl
    exact absurd htail (hinv.tail_ne_null hrole)
  | @swing t v a n q hpc hhead hrole hreads =>
    refine ⟨[], pending, hinv.swing hpc hhead hrole hreads,
      hacc.move rfl ?_ ?_ (fun _ => rfl) rfl rfl rfl rfl⟩
    · rw [hrole, hpc]
      by_cases hn : n = 0
      · rw [role, if_pos hn]
        rfl
      · rw [role, if_neg hn]
        rfl
    · intro p hp
      rw [hrole] at hp
      cases hp
  | free hpc =>
    exact ⟨held, pending, hinv.free hpc _ _ rfl fun _ => trivial, hacc.free hinv hpc _ _ rfl⟩
  | abort hcause =>
    exact ⟨held, pending, ⟨hinv.shape.congr (fun _ _ => rfl) rfl rfl rfl, fun u =>
      (hinv.placed u).congr (fun _ _ => rfl) rfl rfl, hinv.token, hinv.reads⟩,
      ⟨hacc.exchanged, hacc.distinct, hacc.issued, hacc.new, hacc.new_alone, hacc.held, hacc.alone,
        hacc.kept, hacc.returned, hacc.once⟩⟩

theorem queued_create : Queued EvQueue.create := by
  refine ⟨[], [], queueInv_create, ⟨rfl, List.nodup_nil, ?_, ?_, ?_, ?_, ?_, ?_, ?_, List.nodup_nil⟩⟩
  · intro e he
    cases he
  · intro u p hp
    cases hp
  · intro u w p r hp
    cases hp
  · rintro u e ⟨a, ha, -⟩
    cases ha
  · rintro u w e ⟨a, ha, -⟩
    cases ha
  · intro e he
    cases he
  · intro e he
    cases he

theorem queued_of_reach {ok : EvQueue → QueueLabel → Prop}
    (h : Reach EvQueue.step ok EvQueue.create s) : Queued s :=
  h.invariant queued_create fun _ _ _ hs _ hstep => hs.step hstep

/-! ### The result -/

/-- In every run of any number of threads: the queue is an exactly-once
FIFO, and when the empty test of `dequeue` succeeds, every exchanged element
has been claimed. -/
theorem queue_fifo (h : Reach EvQueue.step (fun _ _ => True) EvQueue.create s) :
    Fifo s ∧ ∀ t s', s.pc t = .loadTail .dequeue → EvQueue.step (.access t) s = some s' →
      s'.pc t = .idle (some .null) → s.claimed = s.exchanged := by
  obtain ⟨held, pending, hinv, hacc⟩ := queued_of_reach h
  refine ⟨⟨⟨_, hacc.exchanged.symm⟩, hacc.distinct, hacc.once, hacc.returned, hacc.kept, hacc.held,
    hacc.alone⟩, ?_⟩
  intro t s' hpc hstep hnull
  have htail : s.tail = 0 := by
    unfold EvQueue.step at hstep
    split at hstep
    · cases hstep
    · simp only [EvQueue.threadStep, hpc, EvQueue.enqueueStep, EvQueue.claimStep, Option.or] at hstep
      obtain rfl := Option.some.inj hstep
      rw [EvQueue.goto_pc_self] at hnull
      split at hnull
      · assumption
      · cases hnull
  obtain ⟨-, rfl⟩ := List.append_eq_nil_iff.mp (hinv.shape.eq_nil_of_tail htail)
  rw [hacc.exchanged, List.map_nil, List.append_nil]

/-- The thread `t` enqueues `data` in a node at `a`: up to the exchange, and
then `n` accesses more. -/
def enqueueAt (t a data n : Nat) : List QueueLabel :=
  [.call t (.enqueue data), .malloc t a] ++ List.replicate (n + 1) (.access t)

/-- The thread `t` starts to take out an element, with `n` accesses. -/
def dequeueBy (t : Nat) (v : Dequeuer) (n : Nat) : List QueueLabel :=
  .call t (.dequeue v) :: List.replicate n (.access t)

/-- The first of three elements is returned and its node is used again. -/
theorem queue_fifo_sample :
    ∃ s : EvQueue, s.returned = [(1, 70)] ∧ s.exchanged = [(1, 70), (2, 71), (3, 72)] ∧
      Fifo s ∧ ∀ t s', s.pc t = .loadTail .dequeue → EvQueue.step (.access t) s = some s' →
        s'.pc t = .idle (some .null) → s.claimed = s.exchanged :=
  ⟨_, rfl, rfl, queue_fifo (Reach.of_run .init
    (enqueueAt 0 8 70 2 ++ enqueueAt 1 16 71 1 ++ dequeueBy 2 .dequeue 6 ++
      List.replicate 4 (.access 1) ++ List.replicate 8 (.access 2) ++ enqueueAt 0 8 72 5) rfl)⟩

end Efio.Proofs.Evds
