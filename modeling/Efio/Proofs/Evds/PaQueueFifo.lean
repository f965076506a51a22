import Efio.Proofs.Evds.PQueueFifo
import Efio.Proofs.Evds.PaQueueList

/-!
# `Efio.Proofs.Evds.PaQueueFifo`: every run of an `ev_paqueue`

`PaQueueInv s L` adds to the lists of the lanes what has gone through them
(`PaFlow`), what the threads have returned, and which empty tails a thread
has seen (`PaScanned`). What is exchanged into a lane is what has been
claimed on it, followed by its list. The first node is left out there while
a thread is active, which has claimed it already.

`paqueue_fifo` reads the result off the invariant.
-/

set_option autoImplicit false

namespace Efio.Proofs.Evds

open Efio.Lib
open Efio.Evds
open Efio.Spec

variable {s s' : EvPaQueue} {L L' : Nat → List Addr} {t : Nat} {q : PaQueuePc} {i : Nat} {a p : Addr}
variable {l : List Addr}

/-- The lane that a thread works on. -/
def PaRole.lane : PaRole → Option Nat
  | .linking i _ _ | .heading i _ | .active i _ => some i
  | _ => Option.none

/-- The thread is active on the lane `i`. -/
def PaRole.Active (i : Nat) (r : PaRole) : Prop := ∃ a, r = .active i a

/-- What has gone through the lane `i`, whose list is `l`. Its head is
stored and its links are there, but for the threads that are about to store
them. -/
structure PaFlow (s : EvPaQueue) (i : Nat) (l : List Addr) : Prop where
  free : (¬∃ t, PaRole.Active i (paRole (s.pc t))) → s.exchanged i = claimedOn s i ++ l.map s.elem
  held : (∃ t, PaRole.Active i (paRole (s.pc t))) → s.exchanged i = claimedOn s i ++ l.tail.map s.elem
  first : ∀ a, l.head? = some a →
    s.head i = ⟨a, false⟩ ∨ ∃ t, PaRole.front (paRole (s.pc t)) = some i
  linked : ∀ a b, [a, b] <:+: l → paNext s a = b ∨ ∃ t, paRole (s.pc t) = .linking i b a

/-- The lanes whose tail a dequeue has found `NULL`: the last `tryCount`
ones before it looks at the next, and all of them when it returns `NULL`. -/
def PaScanned (N : Nat) (seen : List Nat) : PaQueuePc → Prop
  | .loadTail dCount tryCount =>
    tryCount < N ∧ ∃ d₀, dCount = d₀ + tryCount ∧ ∀ j < tryCount, (d₀ + j) % N ∈ seen
  | .idle (some .null) => ∀ i < N, i ∈ seen
  | _ => True

/-- What a thread has claimed, and returned. -/
def PaReturned (s : EvPaQueue) (t : Nat) : Prop :=
  (byThread t s.claims).map Prod.snd = byThread t s.returned ++ holding s t

/-- The invariant of the queue. -/
structure PaQueueInv (s : EvPaQueue) (L : Nat → List Addr) : Prop where
  lists : PaInv s L
  flow : ∀ i, PaFlow s i (L i)
  returned : ∀ t, PaReturned s t
  scanned : ∀ t, PaScanned s.N (s.seen t) (s.pc t)

/-! ### One thread moves -/

/-- What some thread plays after the step. -/
theorem exists_paRole {P : PaRole → Prop} (hpc : s'.pc = Function.update s.pc t q)
    (hkeep : P (paRole (s.pc t)) → P (paRole q)) (h : ∃ u, P (paRole (s.pc u))) :
    ∃ u, P (paRole (s'.pc u)) := by
  obtain ⟨u, hu⟩ := h
  refine ⟨u, ?_⟩
  by_cases hut : u = t
  · rw [hpc, hut, Function.update_self]
    exact hkeep (hut ▸ hu)
  · rw [hpc, Function.update_of_ne hut]
    exact hu

/-- What some thread played before it. -/
theorem exists_paRole_of {P : PaRole → Prop} (hpc : s'.pc = Function.update s.pc t q)
    (hback : P (paRole q) → P (paRole (s.pc t))) (h : ∃ u, P (paRole (s'.pc u))) :
    ∃ u, P (paRole (s.pc u)) := by
  obtain ⟨u, hu⟩ := h
  refine ⟨u, ?_⟩
  by_cases hut : u = t
  · rw [hpc, hut, Function.update_self] at hu
    exact hut ▸ hback hu
  · rw [hpc, Function.update_of_ne hut] at hu
    exact hu

theorem holding_of_held (hheld : (paRole (s.pc t)).held = some a) : holding s t = [s.elem a] := by
  rw [holding, hheld]

theorem holding_of_none (hheld : (paRole (s.pc t)).held = none) : holding s t = [] := by
  rw [holding, hheld]

theorem holding_of_pc (hpc : s'.pc = Function.update s.pc t q) (hheld : (paRole q).held = some a) :
    holding s' t = [s'.elem a] := by
  refine holding_of_held ?_
  rw [hpc, Function.update_self]
  exact hheld

theorem paToken_of_held {r : PaRole} (h : r.held = some a) : r.token = some a := by
  cases r <;> cases h <;> rfl

theorem PaInv.elem_holding (h : PaInv s L) (helem : ∀ a, s.live a = true → s'.elem a = s.elem a)
    (hheld : (paRole (s'.pc t)).held = (paRole (s.pc t)).held) : holding s' t = holding s t := by
  cases hr : (paRole (s.pc t)).held with
  | none => rw [holding_of_none hr, holding_of_none (hheld.trans hr)]
  | some a =>
    have hlive := (paToken_live (h.standing t) h.shape (paToken_of_held hr)).1
    rw [holding_of_held hr, holding_of_held (hheld.trans hr), helem a hlive]

/-- The thread `t` claims `cs` and returns `rs`. -/
theorem PaQueueInv.returned_step (h : PaQueueInv s L) (hpc : s'.pc = Function.update s.pc t q)
    (cs : List (Nat × Addr × Nat)) (rs : List (Addr × Nat))
    (hclaims : s'.claims = s.claims ++ cs.map (t, ·))
    (hreturned : s'.returned = s.returned ++ rs.map (t, ·))
    (helem : ∀ a, s.live a = true → s'.elem a = s.elem a)
    (hmine : holding s t ++ cs.map Prod.snd = rs ++ holding s' t) (u : Nat) : PaReturned s' u := by
  have hold := h.returned u
  unfold PaReturned at hold ⊢
  rw [hclaims, hreturned, byThread_append, byThread_append, List.map_append, hold]
  by_cases hu : t = u
  · subst hu
    rw [if_pos rfl, if_pos rfl, List.append_assoc, List.append_assoc, hmine]
  · have hother : (paRole (s'.pc u)).held = (paRole (s.pc u)).held := by
      rw [hpc, Function.update_of_ne (Ne.symm hu)]
    rw [if_neg hu, if_neg hu, List.map_nil, List.append_nil, List.append_nil,
      h.lists.elem_holding helem hother]

/-- A step that claims and returns nothing. -/
theorem PaQueueInv.returned_congr (h : PaQueueInv s L) (hpc : s'.pc = Function.update s.pc t q)
    (hclaims : s'.claims = s.claims) (hreturned : s'.returned = s.returned)
    (hheld : (paRole q).held = (paRole (s.pc t)).held)
    (helem : ∀ a, s.live a = true → s'.elem a = s.elem a) (u : Nat) : PaReturned s' u := by
  refine h.returned_step hpc [] [] (hclaims.trans (List.append_nil _).symm)
    (hreturned.trans (List.append_nil _).symm) helem ?_ u
  have hself : (paRole (s'.pc t)).held = (paRole (s.pc t)).held := by
    rw [hpc, Function.update_self]
    exact hheld
  rw [h.lists.elem_holding helem hself, List.map_nil, List.append_nil, List.nil_append]

theorem PaQueueInv.scanned_congr (h : PaQueueInv s L) (hpc : s'.pc = Function.update s.pc t q)
    (hN : s'.N = s.N) (hseen : ∀ u, u ≠ t → s'.seen u = s.seen u) (hq : PaScanned s.N (s'.seen t) q)
    (u : Nat) : PaScanned s'.N (s'.seen u) (s'.pc u) := by
  rw [hN, hpc]
  by_cases hu : u = t
  · rw [hu, Function.update_self]
    exact hq
  · rw [hseen u hu, Function.update_of_ne hu]
    exact h.scanned u

/-- A lane on which nothing happens. -/
theorem PaFlow.congr (h : PaFlow s i l) (hpc : s'.pc = Function.update s.pc t q)
    (hexchanged : s'.exchanged i = s.exchanged i) (hclaims : claimedOn s' i = claimedOn s i)
    (helem : ∀ a ∈ l, s'.elem a = s.elem a) (hnext : ∀ a ∈ l, paNext s' a = paNext s a)
    (hhead : s'.head i = s.head i)
    (hrole : paRole q = paRole (s.pc t) ∨
      PaRole.lane (paRole q) ≠ some i ∧ PaRole.lane (paRole (s.pc t)) ≠ some i) : PaFlow s' i l := by
  have hkeep : ∀ P : PaRole → Prop, (∀ r, P r → PaRole.lane r = some i) →
      ((∃ u, P (paRole (s'.pc u))) ↔ ∃ u, P (paRole (s.pc u))) := by
    intro P hP
    rcases hrole with heq | ⟨hnew, hold⟩
    · exact ⟨exists_paRole_of hpc fun h => heq ▸ h, exists_paRole hpc fun h => heq ▸ h⟩
    · exact ⟨exists_paRole_of hpc fun h => absurd (hP _ h) hnew,
        exists_paRole hpc fun h => absurd (hP _ h) hold⟩
  have hactive := hkeep (PaRole.Active i) (by rintro _ ⟨a, rfl⟩; rfl)
  have hmap : ∀ l' : List Addr, (∀ a ∈ l', a ∈ l) → l'.map s'.elem = l'.map s.elem :=
    fun l' hsub => List.map_congr_left fun a ha => helem a (hsub a ha)
  refine ⟨?_, ?_, ?_, ?_⟩
  · intro hnone
    rw [hexchanged, hclaims, hmap l fun _ ha => ha]
    exact h.free fun hsome => hnone (hactive.mpr hsome)
  · intro hsome
    rw [hexchanged, hclaims, hmap l.tail fun _ ha => List.mem_of_mem_tail ha]
    exact h.held (hactive.mp hsome)
  · intro a ha
    rw [hhead]
    refine (h.first a ha).imp_right (hkeep (fun r => PaRole.front r = some i) ?_).mpr
    intro r hr
    cases r <;> cases hr <;> rfl
  · intro a b hbehind
    rw [hnext a (behind_mem hbehind).1]
    exact (h.linked a b hbehind).imp_right
      (hkeep (fun r => r = .linking i b a) (by rintro _ rfl; rfl)).mpr

/-- The lane `i` changes to `l`. -/
theorem paFlow_update (hlane : PaFlow s i l) (hother : ∀ j, j ≠ i → PaFlow s j (L j)) (j : Nat) :
    PaFlow s j (Function.update L i l j) := by
  by_cases hj : j = i
  · rw [hj, Function.update_self]
    exact hlane
  · rw [Function.update_of_ne hj]
    exact hother j hj

/-- The thread moves, and its part stays. -/
theorem PaQueueInv.plain (h : PaQueueInv s L) (t : Nat) (q : PaQueuePc) (e d : Nat) (seen : Nat → List Nat)
    (hrole : paRole q = paRole (s.pc t)) (hreads : PaReads s q)
    (hseen : ∀ u, u ≠ t → seen u = s.seen u) (hscanned : PaScanned s.N (seen t) q) :
    PaQueueInv ({ s with enqCounter := e, deqCounter := d, seen := seen }.goto t q) L := by
  refine ⟨h.lists.plain rfl rfl rfl rfl rfl hrole hreads, ?_, ?_, ?_⟩
  · exact fun j => (h.flow j).congr rfl rfl rfl (fun _ _ => rfl) (fun _ _ => rfl) rfl (Or.inl hrole)
  · exact h.returned_congr rfl rfl rfl (by rw [hrole]) fun _ _ => rfl
  · exact h.scanned_congr rfl rfl hseen hscanned

theorem elem_of_mem (hmem : s'.mem = s.mem) : s'.elem = s.elem := by
  funext a
  rw [EvPaQueue.elem, EvPaQueue.elem, hmem]

theorem paNext_of_mem (hmem : s'.mem = s.mem) : paNext s' = paNext s := by
  funext a
  rw [paNext, paNext, hmem]

theorem claimedOn_of_claims (hclaims : s'.claims = s.claims) (i : Nat) : claimedOn s' i = claimedOn s i := by
  rw [claimedOn, claimedOn, hclaims]

/-! ### `enqueue_evpaq` -/

theorem PaQueueInv.malloc (h : PaQueueInv s L) {data : Nat} (hpc : s.pc t = .alloc data) (hnull : a ≠ 0)
    (hfree : s.live a = false) :
    PaQueueInv ({ s.store a { data := data, next := 0 } with
      live := Function.update s.live a true }.goto t (.enqCount a)) L := by
  have hrole : paRole (s.pc t) = .none := by rw [hpc]; rfl
  have hmem : ∀ b, s.live b = true → (s.store a { data := data, next := 0 }).mem b = s.mem b := by
    intro b hb
    refine Function.update_of_ne ?_ _ _
    rintro rfl
    exact Bool.false_ne_true (hfree.symm.trans hb)
  have helem : ∀ b, s.live b = true → (s.store a { data := data, next := 0 }).elem b = s.elem b := by
    intro b hb
    rw [EvPaQueue.elem, EvPaQueue.elem, hmem b hb]
  refine ⟨h.lists.malloc hnull hfree, ?_, ?_, h.scanned_congr rfl rfl (fun _ _ => rfl) trivial⟩
  · intro j
    have hlive := fun b (hb : b ∈ L j) => ((h.lists.shape.lane j).alive b hb).1
    refine (h.flow j).congr rfl rfl rfl (fun b hb => helem b (hlive b hb))
      (fun b hb => congrArg PNode.next (hmem b (hlive b hb))) rfl (Or.inr ⟨?_, ?_⟩)
    · exact fun heq => nomatch heq
    · rw [hrole]
      exact fun heq => nomatch heq
  · exact h.returned_congr rfl rfl rfl (by rw [hrole]; rfl) helem

/-- The exchanged node is the last one of its lane. Its link is to be
stored, or the head when it is the first one. -/
theorem PaFlow.exchange (h : PaFlow s i l) (hlane : PaLane s i l)
    (hfront : ∀ u a, paRole (s.pc u) = .active i a → l.head? = some a)
    (hrole : paRole (s.pc t) = .fresh p)
    (hpc : s'.pc = Function.update s.pc t
      (if s.tail i ≠ 0 then .link p (s.tail i) i else .setHead p i))
    (hexchanged : s'.exchanged i = s.exchanged i ++ [s.elem p]) (hclaims : s'.claims = s.claims)
    (hmem : s'.mem = s.mem) (hhead : s'.head = s.head) : PaFlow s' i (l ++ [p]) := by
  have hkeep : ∀ P : PaRole → Prop, ¬P (.fresh p) → (∃ u, P (paRole (s.pc u))) →
      ∃ u, P (paRole (s'.pc u)) :=
    fun _ hP => exists_paRole hpc fun hfresh => absurd (hrole ▸ hfresh) hP
  have hactive : ¬PaRole.Active i (.fresh p) := by
    rintro ⟨a, ha⟩
    cases ha
  have hself : s'.pc t = if s.tail i ≠ 0 then .link p (s.tail i) i else .setHead p i := by
    rw [hpc, Function.update_self]
  refine ⟨?_, ?_, ?_, ?_⟩
  · intro hnone
    rw [hexchanged, h.free fun hsome => hnone (hkeep _ hactive hsome), claimedOn_of_claims hclaims,
      elem_of_mem hmem, List.map_append, List.append_assoc]
    rfl
  · intro hsome
    obtain ⟨u, a, hu⟩ : ∃ u, PaRole.Active i (paRole (s.pc u)) := by
      refine exists_paRole_of hpc ?_ hsome
      rintro ⟨a, ha⟩
      split at ha <;> cases ha
    obtain ⟨rest, rfl⟩ := List.head?_eq_some_iff.mp (hfront u a hu)
    rw [hexchanged, h.held ⟨u, a, hu⟩, claimedOn_of_claims hclaims, elem_of_mem hmem, List.cons_append,
      List.tail_cons, List.tail_cons, List.map_append, List.append_assoc]
    rfl
  · intro b hb
    rw [hhead]
    cases hl : l with
    | nil =>
      -- The tail was `NULL`, so the thread goes on to store the head.
      have htail : s.tail i = 0 := by rw [hlane.tail, hl]; rfl
      refine Or.inr ⟨t, ?_⟩
      rw [hself, if_neg (not_not.mpr htail)]
      rfl
    | cons c rest =>
      rw [hl] at hb
      refine (h.first b (by rw [hl]; exact hb)).imp_right (hkeep (PaRole.front · = some i) ?_)
      exact fun heq => nomatch heq
  · intro b c hbc
    rw [paNext_of_mem hmem]
    rcases behind_of_snoc hbc with hbc | ⟨hlast, rfl⟩
    · exact (h.linked b c hbc).imp_right (hkeep (· = .linking i c b) fun heq => nomatch heq)
    · have htail : s.tail i = b := by rw [hlane.tail, hlast]; rfl
      have hne : b ≠ 0 := (hlane.alive b (List.mem_of_getLast? hlast)).2
      refine Or.inr ⟨t, ?_⟩
      rw [hself, htail, if_pos hne]
      rfl

theorem PaQueueInv.exchange (h : PaQueueInv s L) (hpc : s.pc t = .exchange p i) :
    PaQueueInv ({ s.setTail i p with
      exchanged := Function.update s.exchanged i (s.exchanged i ++ [s.elem p]) }.goto t
      (if s.tail i ≠ 0 then .link p (s.tail i) i else .setHead p i))
      (Function.update L i (L i ++ [p])) := by
  have hrole : paRole (s.pc t) = .fresh p := by rw [hpc]; rfl
  refine ⟨h.lists.exchange hpc _, paFlow_update ?_ ?_, ?_, h.scanned_congr rfl rfl (fun _ _ => rfl) ?_⟩
  · exact (h.flow i).exchange (h.lists.shape.lane i) (fun u b hu => (h.lists.active hu).1) hrole rfl
      (Function.update_self _ _ _) rfl rfl rfl
  · intro j hj
    refine (h.flow j).congr rfl (Function.update_of_ne hj _ _) rfl (fun _ _ => rfl) (fun _ _ => rfl) rfl
      (Or.inr ⟨?_, ?_⟩)
    · split <;> exact fun heq => hj (Option.some.inj heq).symm
    · rw [hrole]
      exact fun heq => nomatch heq
  · refine h.returned_congr rfl rfl rfl ?_ fun _ _ => rfl
    rw [hrole]
    split <;> rfl
  · split <;> trivial

/-- The link that was missing is stored. -/
theorem PaFlow.link (h : PaFlow s i l) {old : Addr} (hnodup : l.Nodup) (hbehind : [old, p] <:+: l)
    (hrole : paRole (s.pc t) = .linking i p old) (hpc : s'.pc = Function.update s.pc t q)
    (hq : paRole q = .none) (hexchanged : s'.exchanged = s.exchanged) (hclaims : s'.claims = s.claims)
    (helem : s'.elem = s.elem) (hself : paNext s' old = p)
    (hother : ∀ a, a ≠ old → paNext s' a = paNext s a) (hhead : s'.head = s.head) : PaFlow s' i l := by
  have hkeep : ∀ P : PaRole → Prop, ¬P (.linking i p old) → (∃ u, P (paRole (s.pc u))) →
      ∃ u, P (paRole (s'.pc u)) :=
    fun _ hP => exists_paRole hpc fun hlinking => absurd (hrole ▸ hlinking) hP
  refine ⟨?_, ?_, ?_, ?_⟩
  · intro hnone
    rw [hexchanged, claimedOn_of_claims hclaims, helem]
    refine h.free fun hsome => hnone (hkeep _ ?_ hsome)
    rintro ⟨a, ha⟩
    cases ha
  · intro hsome
    rw [hexchanged, claimedOn_of_claims hclaims, helem]
    refine h.held (exists_paRole_of hpc ?_ hsome)
    rw [hq]
    rintro ⟨a, ha⟩
    cases ha
  · intro b hb
    rw [hhead]
    exact (h.first b hb).imp_right (hkeep (PaRole.front · = some i) fun heq => nomatch heq)
  · intro b c hbc
    by_cases hb : b = old
    · rw [hb] at hbc ⊢
      exact Or.inl (hself.trans (behind_unique hnodup hbehind hbc))
    · refine (h.linked b c hbc).imp (hother b hb).trans (hkeep (· = .linking i c b) ?_)
      intro heq
      cases heq
      exact hb rfl

theorem PaQueueInv.link (h : PaQueueInv s L) {old : Addr} (hpc : s.pc t = .link p old i) :
    PaQueueInv ((s.store old { s.mem old with next := p }).goto t (.idle (some .done))) L := by
  have hrole : paRole (s.pc t) = .linking i p old := by rw [hpc]; rfl
  have hstanding := h.lists.standing t
  rw [hrole] at hstanding
  have hself : (s.store old { s.mem old with next := p }).mem old = { s.mem old with next := p } :=
    Function.update_self _ _ _
  have hother : ∀ a, a ≠ old → (s.store old { s.mem old with next := p }).mem a = s.mem a :=
    fun a ha => Function.update_of_ne ha _ _
  have helem : ∀ a, (s.store old { s.mem old with next := p }).elem a = s.elem a := by
    intro a
    rw [EvPaQueue.elem, EvPaQueue.elem]
    by_cases ha : a = old
    · rw [ha, hself]
    · rw [hother a ha]
  refine ⟨h.lists.link hpc _, ?_, ?_, h.scanned_congr rfl rfl (fun _ _ => rfl) trivial⟩
  · intro j
    by_cases hj : j = i
    · rw [hj]
      exact (h.flow i).link (h.lists.shape.lane i).nodup hstanding.1 hrole rfl rfl rfl rfl (funext helem)
        (congrArg PNode.next hself) (fun a ha => congrArg PNode.next (hother a ha)) rfl
    · refine (h.flow j).congr rfl rfl rfl (fun a _ => helem a) ?_ rfl (Or.inr ⟨?_, ?_⟩)
      · intro a ha
        refine congrArg PNode.next (hother a ?_)
        rintro rfl
        exact hj (h.lists.shape.apart j i a ha (behind_mem hstanding.1).1)
      · exact fun heq => nomatch heq
      · rw [hrole]
        exact fun heq => hj (Option.some.inj heq).symm
  · exact h.returned_congr rfl rfl rfl (by rw [hrole]; rfl) fun a _ => helem a

/-- The head of the lane `i` changes, and no thread starts or stops to be
active there. -/
theorem PaFlow.put_head (h : PaFlow s i l) (hpc : s'.pc = Function.update s.pc t q)
    (hmem : s'.mem = s.mem) (hexchanged : s'.exchanged = s.exchanged) (hclaims : s'.claims = s.claims)
    (hidle : ¬PaRole.Active i (paRole (s.pc t))) (hidle' : ¬PaRole.Active i (paRole q))
    (hlinking : ∀ b c, paRole (s.pc t) ≠ .linking i b c)
    (hfirst : ∀ a, l.head? = some a →
      s'.head i = ⟨a, false⟩ ∨ ∃ u, PaRole.front (paRole (s'.pc u)) = some i) : PaFlow s' i l := by
  refine ⟨?_, ?_, hfirst, ?_⟩
  · intro hnone
    rw [hexchanged, claimedOn_of_claims hclaims, elem_of_mem hmem]
    exact h.free fun hsome => hnone (exists_paRole hpc (fun hold => absurd hold hidle) hsome)
  · intro hsome
    rw [hexchanged, claimedOn_of_claims hclaims, elem_of_mem hmem]
    exact h.held (exists_paRole_of hpc (fun hnew => absurd hnew hidle') hsome)
  · intro b c hbc
    rw [paNext_of_mem hmem]
    refine (h.linked b c hbc).imp_right (exists_paRole (P := (· = .linking i c b)) hpc ?_)
    exact fun heq => absurd heq (hlinking c b)

theorem PaQueueInv.setHead (h : PaQueueInv s L) (hpc : s.pc t = .setHead p i) :
    PaQueueInv ((s.putHead i ⟨p, false⟩).goto t (.idle (some .done))) L := by
  have hrole : paRole (s.pc t) = .heading i p := by rw [hpc]; rfl
  have hstanding := h.lists.standing t
  rw [hrole] at hstanding
  refine ⟨h.lists.setHead hpc _, ?_, ?_, h.scanned_congr rfl rfl (fun _ _ => rfl) trivial⟩
  · intro j
    by_cases hj : j = i
    · rw [hj]
      refine (h.flow i).put_head rfl rfl rfl rfl ?_ ?_ ?_ ?_
      · rw [hrole]
        rintro ⟨b, hb⟩
        cases hb
      · rintro ⟨b, hb⟩
        cases hb
      · rw [hrole]
        exact fun _ _ heq => nomatch heq
      · intro b hb
        obtain rfl := Option.some.inj (hstanding.1.symm.trans hb)
        exact Or.inl (Function.update_self _ _ _)
    · refine (h.flow j).congr rfl rfl rfl (fun _ _ => rfl) (fun _ _ => rfl) (Function.update_of_ne hj _ _)
        (Or.inr ⟨?_, ?_⟩)
      · exact fun heq => nomatch heq
      · rw [hrole]
        exact fun heq => hj (Option.some.inj heq).symm
  · exact h.returned_congr rfl rfl rfl (by rw [hrole]; rfl) fun _ _ => rfl

/-! ### `dequeue_evpaq` -/

theorem claimedOn_snoc {c : Nat × Nat × Addr × Nat} (hclaims : s'.claims = s.claims ++ [c]) (i : Nat) :
    claimedOn s' i = claimedOn s i ++ if c.2.1 = i then [c.2.2] else [] := by
  rw [claimedOn, claimedOn, hclaims, List.filterMap_append]
  by_cases h : c.2.1 = i <;> simp [h]

/-- The first element is claimed: nobody else is active on the lane. -/
theorem PaFlow.mark (h : PaFlow s i (a :: l)) (hnone : ¬∃ u, PaRole.Active i (paRole (s.pc u)))
    (hrole : paRole (s.pc t) = .none) (hpc : s'.pc = Function.update s.pc t q)
    (hq : paRole q = .active i a) (hclaims : s'.claims = s.claims ++ [(t, i, s.elem a)])
    (hexchanged : s'.exchanged = s.exchanged) (hmem : s'.mem = s.mem) : PaFlow s' i (a :: l) := by
  have hself : paRole (s'.pc t) = .active i a := by
    rw [hpc, Function.update_self]
    exact hq
  refine ⟨?_, ?_, ?_, ?_⟩
  · intro hnone'
    exact absurd ⟨t, a, hself⟩ hnone'
  · intro _
    rw [hexchanged, h.free hnone, claimedOn_snoc hclaims, if_pos rfl, elem_of_mem hmem, List.append_assoc]
    rfl
  · exact fun _ _ => Or.inr ⟨t, congrArg PaRole.front hself⟩
  · intro b c hbc
    rw [paNext_of_mem hmem]
    refine (h.linked b c hbc).imp_right (exists_paRole (P := (· = .linking i c b)) hpc ?_)
    rw [hrole]
    exact fun heq => nomatch heq

theorem PaQueueInv.mark (h : PaQueueInv s L) {d : Nat} (hpc : s.pc t = .markHead d a)
    (hhead : s.head (d % s.N) = ⟨a, false⟩) :
    PaQueueInv ({ s.putHead (d % s.N) ⟨a, true⟩ with
      claims := s.claims ++ [(t, d % s.N, s.elem a)] }.goto t (.loadNext (d % s.N) a)) L := by
  have hrole : paRole (s.pc t) = .none := by rw [hpc]; rfl
  obtain ⟨hfirst, htoken, hlists⟩ := h.lists.mark hpc hhead (s.claims ++ [(t, d % s.N, s.elem a)])
  generalize d % s.N = i at hhead hfirst hlists
  obtain ⟨l, hl⟩ : ∃ l, L i = a :: l := List.head?_eq_some_iff.mp hfirst
  have hnone : ¬∃ u, PaRole.Active i (paRole (s.pc u)) := by
    rintro ⟨u, b, hu⟩
    obtain rfl := Option.some.inj (hfirst.symm.trans (h.lists.active hu).1)
    exact htoken u (by rw [hu]; rfl)
  refine ⟨hlists, ?_, ?_, h.scanned_congr rfl rfl (fun _ _ => rfl) trivial⟩
  · intro j
    by_cases hj : j = i
    · have hflow := h.flow i
      rw [hl] at hflow
      rw [hj, hl]
      exact hflow.mark hnone hrole rfl rfl rfl rfl rfl
    · refine (h.flow j).congr rfl rfl ?_ (fun _ _ => rfl) (fun _ _ => rfl) (Function.update_of_ne hj _ _)
        (Or.inr ⟨?_, ?_⟩)
      · rw [claimedOn_snoc rfl, if_neg (Ne.symm hj), List.append_nil]
      · exact fun heq => hj (Option.some.inj heq).symm
      · rw [hrole]
        exact fun heq => nomatch heq
  · refine h.returned_step rfl [(i, s.elem a)] [] rfl (List.append_nil _).symm (fun _ _ => rfl) ?_
    rw [holding_of_none (by rw [hrole]; rfl), List.nil_append, List.nil_append]
    exact Eq.symm (holding_of_pc rfl rfl)

/-- The first node of the lane is taken off by the thread that has claimed
it. -/
theorem PaFlow.take (h : PaFlow s i (a :: l)) (hrole : paRole (s.pc t) = .active i a)
    (hpc : s'.pc = Function.update s.pc t q) (hexchanged : s'.exchanged = s.exchanged)
    (hclaims : s'.claims = s.claims) (hmem : s'.mem = s.mem)
    (halone : ¬∃ u, PaRole.Active i (paRole (s'.pc u)))
    (hfirst : ∀ b, l.head? = some b → s'.head i = ⟨b, false⟩) : PaFlow s' i l := by
  refine ⟨?_, fun hsome => absurd hsome halone, fun b hb => Or.inl (hfirst b hb), ?_⟩
  · intro _
    rw [hexchanged, claimedOn_of_claims hclaims, elem_of_mem hmem]
    exact h.held ⟨t, a, hrole⟩
  · intro b c hbc
    rw [paNext_of_mem hmem]
    refine (h.linked b c (hbc.trans (List.infix_cons (List.infix_refl _)))).imp_right
      (exists_paRole (P := (· = .linking i c b)) hpc ?_)
    rw [hrole]
    exact fun heq => nomatch heq

/-- When the active thread of a lane goes on, nobody is active there. -/
theorem PaInv.not_active (h : PaInv s L) (hrole : paRole (s.pc t) = .active i a)
    (hpc : s'.pc = Function.update s.pc t q) (hq : ¬PaRole.Active i (paRole q)) :
    ¬∃ u, PaRole.Active i (paRole (s'.pc u)) := by
  rintro ⟨u, b, hu⟩
  by_cases hut : u = t
  · rw [hpc, hut, Function.update_self] at hu
    exact hq ⟨b, hu⟩
  · rw [hpc, Function.update_of_ne hut] at hu
    obtain rfl := Option.some.inj ((h.active hu).1.symm.trans (h.active hrole).1)
    exact hut (h.token u t b (by rw [hu]; rfl) (by rw [hrole]; rfl))

theorem PaQueueInv.clear (h : PaQueueInv s L) (hpc : s.pc t = .clearTail i a) (htail : s.tail i = a) :
    PaQueueInv ((s.setTail i 0).goto t (.swing i a 0)) (Function.update L i []) := by
  have hrole : paRole (s.pc t) = .active i a := by rw [hpc]; rfl
  obtain ⟨hl, hlists⟩ := h.lists.clear hpc htail
  have hflow := h.flow i
  rw [hl] at hflow
  refine ⟨hlists, paFlow_update ?_ ?_, ?_, h.scanned_congr rfl rfl (fun _ _ => rfl) trivial⟩
  · refine hflow.take hrole rfl rfl rfl rfl (h.lists.not_active hrole rfl ?_) fun b hb => nomatch hb
    rintro ⟨b, hb⟩
    cases hb
  · intro j hj
    refine (h.flow j).congr rfl rfl rfl (fun _ _ => rfl) (fun _ _ => rfl) rfl (Or.inr ⟨?_, ?_⟩)
    · exact fun heq => nomatch heq
    · rw [hrole]
      exact fun heq => hj (Option.some.inj heq).symm
  · exact h.returned_congr rfl rfl rfl (by rw [hrole]; rfl) fun _ _ => rfl

theorem PaQueueInv.advance (h : PaQueueInv s L) {next : Addr} (hpc : s.pc t = .swing i a next)
    (hnext : next ≠ 0) :
    ∃ l, s.head i = ⟨a, true⟩ ∧
      PaQueueInv ((s.putHead i ⟨next, false⟩).goto t (.readData a)) (Function.update L i l) := by
  have hrole : paRole (s.pc t) = .active i a := by rw [hpc]; exact if_neg hnext
  obtain ⟨l, hl, hfirst, hhead, hlists⟩ := h.lists.advance hpc hnext
  have hflow := h.flow i
  rw [hl] at hflow
  refine ⟨l, hhead, hlists, paFlow_update ?_ ?_, ?_, h.scanned_congr rfl rfl (fun _ _ => rfl) trivial⟩
  · refine hflow.take hrole rfl rfl rfl rfl (h.lists.not_active hrole rfl ?_) ?_
    · rintro ⟨b, hb⟩
      cases hb
    · intro b hb
      obtain rfl := Option.some.inj (hfirst.symm.trans hb)
      exact Function.update_self _ _ _
  · intro j hj
    refine (h.flow j).congr rfl rfl rfl (fun _ _ => rfl) (fun _ _ => rfl) (Function.update_of_ne hj _ _)
      (Or.inr ⟨?_, ?_⟩)
    · exact fun heq => nomatch heq
    · rw [hrole]
      exact fun heq => hj (Option.some.inj heq).symm
  · exact h.returned_congr rfl rfl rfl (by rw [hrole]; rfl) fun _ _ => rfl

theorem PaQueueInv.free (h : PaQueueInv s L) {data : Nat} (hpc : s.pc t = .free a data) :
    PaQueueInv ({ s with
      live := Function.update s.live a false
      returned := s.returned ++ [(t, a, data)] }.goto t (.idle (some (.data data)))) L := by
  have hrole : paRole (s.pc t) = .retiring a := by rw [hpc]; rfl
  have hdata : s.elem a = (a, data) := by
    have hreads := h.lists.reads t
    rw [hpc] at hreads
    exact congrArg (Prod.mk a) hreads
  refine ⟨h.lists.free hpc _ _, ?_, ?_, h.scanned_congr rfl rfl (fun _ _ => rfl) trivial⟩
  · intro j
    refine (h.flow j).congr rfl rfl rfl (fun _ _ => rfl) (fun _ _ => rfl) rfl (Or.inr ⟨?_, ?_⟩)
    · exact fun heq => nomatch heq
    · rw [hrole]
      exact fun heq => nomatch heq
  · refine h.returned_step rfl [] [(a, data)] (List.append_nil _).symm rfl (fun _ _ => rfl) ?_
    rw [holding_of_held (a := a) (by rw [hrole]; rfl), hdata]
    refine congrArg ([(a, data)] ++ ·) (holding_of_none ?_).symm
    exact congrArg (fun q => (paRole q).held) (Function.update_self (f := s.pc) t _)

/-! ### The lanes a dequeue looks at -/

/-- `N` consecutive numbers reach every lane. -/
theorem exists_add_mod {N : Nat} (d₀ : Nat) (hi : i < N) : ∃ j < N, (d₀ + j) % N = i := by
  have hN : 0 < N := Nat.zero_lt_of_lt hi
  refine ⟨(i + (N - d₀ % N)) % N, Nat.mod_lt _ hN, ?_⟩
  have hlt := Nat.mod_lt d₀ hN
  have hsum : d₀ + (i + (N - d₀ % N)) = i + N * (d₀ / N + 1) := by
    have hd := Nat.div_add_mod d₀ N
    rw [Nat.mul_add, Nat.mul_one]
    omega
  calc (d₀ + (i + (N - d₀ % N)) % N) % N
      = (d₀ + (i + (N - d₀ % N))) % N := Nat.add_mod_mod _ _ _
    _ = (i + N * (d₀ / N + 1)) % N := by rw [hsum]
    _ = i := by rw [Nat.add_mul_mod_self_left, Nat.mod_eq_of_lt hi]

/-- The tail of one more lane is `NULL`. -/
theorem PaScanned.snoc {N d k : Nat} {seen : List Nat} (h : PaScanned N seen (.loadTail d k)) :
    PaScanned N (seen ++ [d % N])
      (if k + 1 < N then .loadTail (d + 1) (k + 1) else .idle (some .null)) := by
  obtain ⟨hk, d₀, rfl, hseen⟩ := h
  have hmore : ∀ j < k + 1, (d₀ + j) % N ∈ seen ++ [(d₀ + k) % N] := by
    intro j hj
    rcases Nat.lt_succ_iff_lt_or_eq.mp hj with hj | rfl
    · exact List.mem_append_left _ (hseen j hj)
    · exact List.mem_append_right _ (List.mem_singleton_self _)
  split
  · rename_i hlt
    exact ⟨hlt, d₀, Nat.add_assoc _ _ _, hmore⟩
  · intro i hi
    obtain ⟨j, hj, rfl⟩ := exists_add_mod d₀ hi
    exact hmore j (by omega)

/-! ### Every access -/

/-- When no call is in progress, the head and the links of a lane are there. -/
theorem PaQueueInv.stored (h : PaQueueInv s L) (hidle : ∀ t, ∃ last, s.pc t = .idle last) (i : Nat)
    (hmore : claimedOn s i ≠ s.exchanged i) :
    (s.head i).mark = false ∧ ∃ l, Linked (fun a => (s.mem a).next) (s.head i).addr l ∧
      s.exchanged i = claimedOn s i ++ l.map s.elem := by
  have hrole : ∀ t, paRole (s.pc t) = .none := by
    intro t
    obtain ⟨last, hpc⟩ := hidle t
    rw [hpc]
    rfl
  have hlane := h.lists.shape.lane i
  have hflow := h.flow i
  have hexchanged : s.exchanged i = claimedOn s i ++ (L i).map s.elem := by
    refine hflow.free ?_
    rintro ⟨t, a, ht⟩
    rw [hrole] at ht
    cases ht
  have hlinked : Linked (paNext s) ((L i).head?.getD 0) (L i) := by
    refine hlane.links.linked (fun a ha => (hlane.alive a ha).2) ?_
    intro a b hab
    refine (hflow.linked a b hab).resolve_right ?_
    rintro ⟨t, ht⟩
    rw [hrole] at ht
    cases ht
  cases hl : L i with
  | nil =>
    rw [hl, List.map_nil, List.append_nil] at hexchanged
    exact absurd hexchanged.symm hmore
  | cons a l =>
    have hhead : s.head i = ⟨a, false⟩ := by
      refine (hflow.first a (by rw [hl]; rfl)).resolve_right ?_
      rintro ⟨t, ht⟩
      rw [hrole] at ht
      cases ht
    rw [hl] at hlinked hexchanged
    rw [hhead]
    exact ⟨rfl, _, hlinked, hexchanged⟩

end Efio.Proofs.Evds
