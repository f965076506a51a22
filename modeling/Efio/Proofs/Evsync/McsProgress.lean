import Efio.Lib.Counted
import Efio.Lib.Progress
import Efio.Proofs.Evsync.McsLock

/-!
# `Efio.Proofs.Evsync.McsProgress`: every thread gets the MCS lock

`McsInv` says what a thread may rely on. `McsLive` says what the queue may
rely on: every entry belongs to a thread that is still there, a link that
is missing is about to be stored by the thread behind it, the thread at the
front finds its node unlocked, and an allocated node belongs to a thread.

So the thread at the front can always go on, and when nobody can move the
queue is empty and every node has been freed.
-/

set_option autoImplicit false

namespace Efio.Proofs.Evsync

open Efio.Lib
open Efio.Evsync
open Efio.Spec

variable {T : Type} [DecidableEq T] {s s' : McsLock T} {Q : List (T × NodePtr)} {t u : T}
variable {q : McsPc} {a ptr pred : NodePtr} {l : McsLabel T}

/-! ### The invariant -/

/-- The thread has `b` in the queue. -/
def InQueue (b : NodePtr) : McsRole → Prop
  | .linking ptr _ | .waiting ptr | .holding ptr => ptr = b
  | .none | .fresh _ | .retiring _ => False

theorem InQueue.node {r : McsRole} (h : InQueue a r) : r.node = some a := by
  cases r with
  | linking ptr pred => exact congrArg some h
  | waiting ptr => exact congrArg some h
  | holding ptr => exact congrArg some h
  | none => exact h.elim
  | fresh ptr => exact h.elim
  | retiring ptr => exact h.elim

/-- Nothing is in the way of the thread at the front. -/
structure McsLive (s : McsLock T) (Q : List (T × NodePtr)) : Prop where
  queued : ∀ u b, (u, b) ∈ Q → InQueue b (mcsRole (s.pc u))
  missing : ∀ a b u, [a, b] <:+: nodes Q → (u, b) ∈ Q → mcsNext s a = 0 → mcsRole (s.pc u) = .linking b a
  front : ∀ u b, Q.head? = some (u, b) → mcsRole (s.pc u) = .waiting b → (s.mem b).locked = 0
  behind : ∀ t ptr, s.pc t = .awaitNext ptr → s.tail ≠ ptr
  owned : ∀ a, s.live a = true → ∃ t, (mcsRole (s.pc t)).node = some a

omit [DecidableEq T] in
theorem mcsLive_init : McsLive (McsLock.init T) [] where
  queued := nofun
  missing _ _ _ _ h := by cases h
  front := nofun
  behind := nofun
  owned := nofun

/-- The thread `t` moves to `q`, and the queue stays. -/
theorem McsLive.stay (h : McsLive s Q) (hpc : s'.pc = Function.update s.pc t q) (htail : s'.tail = s.tail)
    (hqueued : ∀ b, InQueue b (mcsRole (s.pc t)) → InQueue b (mcsRole q))
    (hlinking : ∀ a b, mcsRole (s.pc t) = .linking b a → mcsNext s' a = 0 → mcsRole q = .linking b a)
    (hnext : ∀ a ∈ nodes Q, mcsNext s' a = 0 → mcsNext s a = 0)
    (hwaiting : ∀ b, mcsRole q = .waiting b → Q.head? = some (t, b) → mcsRole (s.pc t) = .waiting b)
    (hlocked : ∀ u b, Q.head? = some (u, b) → mcsRole (s.pc u) = .waiting b → (s.mem b).locked = 0 →
      (s'.mem b).locked = 0)
    (hbehind : ∀ ptr, q = .awaitNext ptr → s.tail ≠ ptr)
    (howned : ∀ a, s'.live a = true →
      (mcsRole q).node = some a ∨ ∃ u, u ≠ t ∧ (mcsRole (s.pc u)).node = some a) : McsLive s' Q := by
  have hself : s'.pc t = q := by simp [hpc]
  have hother {u : T} (hu : u ≠ t) : s'.pc u = s.pc u := by simp [hpc, hu]
  constructor
  case queued =>
    intro u b hmem
    have hbefore := h.queued u b hmem
    by_cases hu : u = t
    · subst hu
      rw [hself]
      exact hqueued b hbefore
    · rwa [hother hu]
  case missing =>
    intro a b u hpair hmem hnone
    have hbefore := h.missing a b u hpair hmem (hnext a (behind_mem hpair).1 hnone)
    by_cases hu : u = t
    · subst hu
      rw [hself]
      exact hlinking a b hbefore hnone
    · rwa [hother hu]
  case front =>
    intro u b hhead hrole
    have hbefore : mcsRole (s.pc u) = .waiting b := by
      by_cases hu : u = t
      · subst hu
        exact hwaiting b (by rwa [hself] at hrole) hhead
      · rwa [hother hu] at hrole
    exact hlocked u b hhead hbefore (h.front u b hhead hbefore)
  case behind =>
    intro u ptr hu
    rw [htail]
    by_cases hut : u = t
    · subst hut
      exact hbehind ptr (hself.symm.trans hu)
    · exact h.behind u ptr (by rwa [hother hut] at hu)
  case owned =>
    intro a ha
    rcases howned a ha with hmine | ⟨u, hu, hnode⟩
    · exact ⟨t, by rwa [hself]⟩
    · exact ⟨u, by rwa [hother hu]⟩

/-- The thread keeps its node, and no node is freed or allocated. -/
theorem McsLive.owned_keep (h : McsLive s Q) (hlive : s'.live = s.live)
    (hnode : (mcsRole q).node = (mcsRole (s.pc t)).node) (ha : s'.live a = true) :
    (mcsRole q).node = some a ∨ ∃ u, u ≠ t ∧ (mcsRole (s.pc u)).node = some a := by
  obtain ⟨u, hu⟩ := h.owned a (by rwa [← hlive])
  by_cases hut : u = t
  · subst hut
    exact Or.inl (hnode.trans hu)
  · exact Or.inr ⟨u, hut, hu⟩

/-- A step that leaves the memory and the part of the thread as they are,
or grants it the lock. -/
theorem McsLive.plain (h : McsLive s Q) (hpc : s'.pc = Function.update s.pc t q) (hmem : s'.mem = s.mem)
    (hlive : s'.live = s.live) (htail : s'.tail = s.tail)
    (hrole : mcsRole q = mcsRole (s.pc t) ∨
      ∃ b, mcsRole (s.pc t) = .waiting b ∧ mcsRole q = .holding b)
    (hbehind : ∀ ptr, q = .awaitNext ptr → s.tail ≠ ptr) : McsLive s' Q := by
  have hnext (a : NodePtr) : mcsNext s' a = mcsNext s a := by rw [mcsNext, mcsNext, hmem]
  refine h.stay hpc htail ?_ ?_ (fun a _ hnone => (hnext a).symm.trans hnone) ?_ ?_ hbehind
    fun a => h.owned_keep hlive ?_
  · intro b hb
    rcases hrole with hsame | ⟨c, hwaits, hholds⟩
    · rwa [hsame]
    · rw [hwaits] at hb
      rw [hholds]
      exact hb
  · intro a b hb _
    rcases hrole with hsame | ⟨c, hwaits, -⟩
    · rwa [hsame]
    · cases hb.symm.trans hwaits
  · intro b hb _
    rcases hrole with hsame | ⟨c, -, hholds⟩
    · rwa [← hsame]
    · cases hb.symm.trans hholds
  · intro u b _ _ hzero
    rwa [hmem]
  · rcases hrole with hsame | ⟨c, hwaits, hholds⟩
    · rw [hsame]
    · rw [hwaits, hholds]
      rfl

/-! ### The steps of `mcs_get_access` -/

theorem McsLive.malloc (h : McsLive s Q) (hinv : McsInv s Q) (hpc : s.pc t = .alloc) (hfree : s.live a = false) :
    McsLive ({ s.store a { locked := 0, next := 0 } with
      live := Function.update s.live a true }.goto t (.exchange a)) Q := by
  have hother {b : NodePtr} (hb : b ∈ nodes Q) :
      Function.update s.mem a { locked := 0, next := 0 } b = s.mem b := by
    refine Function.update_of_ne ?_ _ _
    rintro rfl
    exact Bool.false_ne_true (hfree.symm.trans (hinv.shape.alive _ hb).1)
  refine h.stay rfl rfl ?_ ?_ ?_ nofun ?_ nofun ?_
  · intro b hb
    rw [hpc] at hb
    exact hb.elim
  · intro a b hb _
    rw [hpc] at hb
    cases hb
  · intro b hb hnone
    exact (congrArg McsNode.next (hother hb)).symm.trans hnone
  · intro u b hhead _ hzero
    exact (congrArg McsNode.locked (hother (mem_nodes (List.mem_of_mem_head? hhead)))).trans hzero
  · intro b hb
    by_cases hba : b = a
    · exact Or.inl (by rw [hba]; rfl)
    · have hbefore : s.live b = true := (Function.update_of_ne hba _ _).symm.trans hb
      obtain ⟨u, hu⟩ := h.owned b hbefore
      refine Or.inr ⟨u, ?_, hu⟩
      rintro rfl
      rw [hpc] at hu
      cases hu

theorem McsLive.exchange (h : McsLive s Q) (hinv : McsInv s Q) (hpc : s.pc t = .exchange ptr)
    (hs : s'.pc = Function.update s.pc t q) (hmem : s'.mem = s.mem) (hlive : s'.live = s.live)
    (htail : s'.tail = ptr) (hq : q = if s.tail ≠ 0 then .setLocked ptr s.tail else .inside ptr) :
    McsLive s' (Q ++ [(t, ptr)]) := by
  have hrole : mcsRole (s.pc t) = .fresh ptr := by rw [hpc]; rfl
  have hself : s'.pc t = q := by simp [hs]
  have hother {u : T} (hu : u ≠ t) : s'.pc u = s.pc u := by simp [hs, hu]
  have hnodes : nodes (Q ++ [(t, ptr)]) = nodes Q ++ [ptr] := by simp [nodes]
  have hnot : ptr ∉ nodes Q := by
    have hstanding := hinv.standing t
    rw [hrole] at hstanding
    exact hstanding.1.2.2
  -- The thread has not been in the queue.
  have hold {u : T} {b : NodePtr} (hin : (u, b) ∈ Q) : u ≠ t := by
    rintro rfl
    have hqueued := h.queued u b hin
    rw [hrole] at hqueued
    exact hqueued
  constructor
  case queued =>
    intro u b hin
    rcases List.mem_append.mp hin with hin | hin
    · rw [hother (hold hin)]
      exact h.queued u b hin
    · cases List.mem_singleton.mp hin
      rw [hself, hq]
      split <;> exact rfl
  case missing =>
    intro a b u hpair hin hnone
    rw [hnodes] at hpair
    have hbefore : mcsNext s a = 0 := by rwa [mcsNext, ← hmem]
    rcases behind_of_snoc hpair with hpair | ⟨hlast, rfl⟩
    · rcases List.mem_append.mp hin with hin | hin
      · rw [hother (hold hin)]
        exact h.missing a b u hpair hin hbefore
      · cases List.mem_singleton.mp hin
        exact absurd (behind_mem hpair).2 hnot
    · rcases List.mem_append.mp hin with hin | hin
      · exact absurd (mem_nodes hin) hnot
      · cases List.mem_singleton.mp hin
        have hne : s.tail ≠ 0 := by
          intro hempty
          rw [hinv.shape.eq_nil hempty] at hlast
          cases hlast
        obtain rfl : s.tail = a := Option.some.inj ((hinv.shape.getLast hne).symm.trans hlast)
        rw [hself, hq, if_pos hne]
        rfl
  case front =>
    intro u b hhead hwaits
    cases hQ : Q with
    | nil =>
      rw [hQ] at hhead
      cases hhead
      rw [hself, hq] at hwaits
      split at hwaits <;> cases hwaits
    | cons e Q' =>
      rw [hQ] at hhead
      have hhead : Q.head? = some (u, b) := by rw [hQ]; exact hhead
      rw [hother (hold (List.mem_of_mem_head? hhead))] at hwaits
      rw [hmem]
      exact h.front u b hhead hwaits
  case behind =>
    intro u b hu
    have hut : u ≠ t := by
      rintro rfl
      rw [hself, hq] at hu
      split at hu <;> cases hu
    rw [hother hut] at hu
    rw [htail]
    rintro rfl
    exact hut (hinv.node u t ptr (by rw [hu]; rfl) (by rw [hrole]; rfl))
  case owned =>
    intro a ha
    obtain ⟨u, hu⟩ := h.owned a (by rwa [← hlive])
    refine ⟨u, ?_⟩
    by_cases hut : u = t
    · subst hut
      rw [hrole] at hu
      rw [hself, hq]
      split <;> exact hu
    · rwa [hother hut]

theorem McsLive.setLocked (h : McsLive s Q) (hinv : McsInv s Q) (hpc : s.pc t = .setLocked ptr pred) :
    McsLive ((s.store ptr { s.mem ptr with locked := 1 }).goto t (.link ptr pred)) Q := by
  have hrole : mcsRole (s.pc t) = .linking ptr pred := by rw [hpc]; rfl
  refine h.stay rfl rfl ?_ ?_ ?_ nofun ?_ nofun fun a => h.owned_keep rfl (by rw [hrole]; rfl)
  · intro b hb
    rwa [hrole] at hb
  · intro a b hb _
    exact hrole.symm.trans hb
  · intro a _ hnone
    rw [← hnone]
    by_cases ha : a = ptr <;> simp [ha, mcsNext, McsLock.goto, McsLock.store]
  · intro u b _ hwaits hzero
    have hne : b ≠ ptr := by
      rintro rfl
      have hut := hinv.node u t b (by rw [hwaits]; rfl) (by rw [hrole]; rfl)
      subst hut
      cases hrole.symm.trans hwaits
    exact (congrArg McsNode.locked (Function.update_of_ne hne _ _)).trans hzero

theorem McsLive.link (h : McsLive s Q) (hinv : McsInv s Q) (hpc : s.pc t = .link ptr pred) :
    McsLive ((s.store pred { s.mem pred with next := ptr }).goto t (.spin ptr)) Q := by
  have hrole : mcsRole (s.pc t) = .linking ptr pred := by rw [hpc]; rfl
  have hstanding := hinv.standing t
  rw [hrole] at hstanding
  obtain ⟨hmem, hbehind, -⟩ := hstanding
  have hne : ptr ≠ 0 := (hinv.shape.alive ptr (mem_nodes hmem)).2
  have hnext {b : NodePtr} (hnone : mcsNext ((s.store pred { s.mem pred with next := ptr }).goto t (.spin ptr)) b = 0) :
      b ≠ pred ∧ mcsNext s b = 0 := by
    by_cases hb : b = pred
    · simp [hb, mcsNext, McsLock.goto, McsLock.store, hne] at hnone
    · exact ⟨hb, by simpa [hb, mcsNext, McsLock.goto, McsLock.store] using hnone⟩
  refine h.stay rfl rfl ?_ ?_ ?_ ?_ ?_ (by simp) fun a => h.owned_keep rfl (by rw [hrole]; rfl)
  · intro b hb
    rwa [hrole] at hb
  · intro a b hb hnone
    rw [hrole] at hb
    cases hb
    exact absurd rfl (hnext hnone).1
  · exact fun a _ hnone => (hnext hnone).2
  · intro b hb hhead
    cases hb
    exact absurd hbehind (not_behind_first hinv.shape.nodup (by simp [nodes, hhead]))
  · intro u b _ _ hzero
    rw [← hzero]
    by_cases hb : b = pred <;> simp [hb, McsLock.goto, McsLock.store]

/-! ### The steps of `mcs_relinquish` -/

/-- The thread at the front leaves, and the node behind its own is
unlocked. -/
theorem McsLive.leave (h : McsLive s ((t, ptr) :: Q)) (hinv : McsInv s ((t, ptr) :: Q))
    (hrole : mcsRole (s.pc t) = .holding ptr) (hpc : s'.pc = Function.update s.pc t (.free ptr))
    (hlive : s'.live = s.live) (hnext : mcsNext s' = mcsNext s) (htail : s'.tail = s.tail ∨ s'.tail = 0)
    (hfront : ∀ u b, Q.head? = some (u, b) → (s'.mem b).locked = 0) : McsLive s' Q := by
  have hself : s'.pc t = .free ptr := by simp [hpc]
  have hother {u : T} (hu : u ≠ t) : s'.pc u = s.pc u := by simp [hpc, hu]
  have hold {u : T} {b : NodePtr} (hin : (u, b) ∈ Q) : u ≠ t := by
    rintro rfl
    have hqueued := h.queued u b (List.mem_cons_of_mem _ hin)
    rw [hrole] at hqueued
    obtain rfl : ptr = b := hqueued
    exact (List.nodup_cons.mp hinv.shape.nodup).1 (mem_nodes hin)
  constructor
  case queued =>
    intro u b hin
    rw [hother (hold hin)]
    exact h.queued u b (List.mem_cons_of_mem _ hin)
  case missing =>
    intro a b u hpair hin hnone
    rw [hother (hold hin)]
    exact h.missing a b u (hpair.trans (List.suffix_cons ptr (nodes Q)).isInfix)
      (List.mem_cons_of_mem _ hin) (by rwa [← hnext])
  case front => exact fun u b hhead _ => hfront u b hhead
  case behind =>
    intro u b hu
    have hut : u ≠ t := by
      rintro rfl
      cases hself.symm.trans hu
    rw [hother hut] at hu
    rcases htail with hsame | hzero
    · rw [hsame]
      exact h.behind u b hu
    · rw [hzero]
      exact ((hinv.node_live (t := u) (by rw [hu]; rfl)).2).symm
  case owned =>
    intro a ha
    obtain ⟨u, hu⟩ := h.owned a (by rwa [← hlive])
    refine ⟨u, ?_⟩
    by_cases hut : u = t
    · subst hut
      rw [hrole] at hu
      rw [hself]
      exact hu
    · rwa [hother hut]

theorem McsLive.free (h : McsLive s Q) (hpc : s.pc t = .free ptr) :
    McsLive ({ s with live := Function.update s.live ptr false }.goto t .idle) Q := by
  refine h.stay rfl rfl ?_ ?_ (fun _ _ hnone => hnone) nofun (fun _ _ _ _ hzero => hzero) nofun ?_
  · intro b hb
    rw [hpc] at hb
    exact hb.elim
  · intro a b hb _
    rw [hpc] at hb
    cases hb
  · intro a ha
    have hne : a ≠ ptr := by
      rintro rfl
      simp [McsLock.goto] at ha
    have hbefore : s.live a = true := (Function.update_of_ne hne _ _).symm.trans ha
    obtain ⟨u, hu⟩ := h.owned a hbefore
    refine Or.inr ⟨u, ?_, hu⟩
    rintro rfl
    rw [hpc] at hu
    exact hne (Option.some.inj hu).symm

/-! ### All steps -/

/-- The queue in the memory, and the threads that will empty it. -/
def McsMoving (s : McsLock T) : Prop := ∃ Q, McsInv s Q ∧ McsLive s Q

theorem McsMoving.goto (hinv : McsInv s Q) (h : McsLive s Q) (hrole : mcsRole q = mcsRole (s.pc t))
    (hreads : McsReads s q) (hbehind : ∀ ptr, q = .awaitNext ptr → s.tail ≠ ptr) :
    McsMoving (s.goto t q) := by
  refine ⟨Q, hinv.plain rfl rfl rfl rfl (by rw [hrole]) ?_ hreads,
    h.plain rfl rfl rfl rfl (Or.inl hrole) hbehind⟩
  rw [hrole]
  exact hinv.standing t

theorem McsMoving.getAccess (h : McsMoving s) (hstep : s.getAccessStep t (s.pc t) = some s') :
    McsMoving s' := by
  obtain ⟨Q, hinv, hlive⟩ := h
  cases hpc : s.pc t with
  | exchange ptr =>
    rw [hpc] at hstep
    cases hstep
    refine ⟨Q ++ [(t, ptr)], ?_⟩
    by_cases hempty : s.tail = 0
    · rw [if_neg (not_not.mpr hempty)]
      exact ⟨hinv.exchange hpc rfl rfl rfl rfl (by simp [hempty]),
        hlive.exchange hinv hpc rfl rfl rfl rfl (by simp [hempty])⟩
    · rw [if_pos hempty]
      exact ⟨hinv.exchange hpc rfl rfl rfl rfl (by simp [hempty]),
        hlive.exchange hinv hpc rfl rfl rfl rfl (by simp [hempty])⟩
  | setLocked ptr pred =>
    rw [hpc] at hstep
    cases hstep
    exact ⟨Q, hinv.setLocked hpc, hlive.setLocked hinv hpc⟩
  | link ptr pred =>
    rw [hpc] at hstep
    cases hstep
    exact ⟨Q, hinv.link hpc, hlive.link hinv hpc⟩
  | spin ptr =>
    rw [hpc] at hstep
    cases hstep
    split
    · exact .goto hinv hlive (by rw [hpc]) trivial nofun
    · rename_i hunlocked
      have hstanding := hinv.standing t
      rw [hpc] at hstanding
      have hfirst : Q.head? = some (t, ptr) := hstanding.2 (not_not.mp hunlocked)
      exact ⟨Q, hinv.plain rfl rfl rfl rfl (by rw [hpc]; rfl) hfirst trivial,
        hlive.plain rfl rfl rfl rfl (Or.inr ⟨ptr, by rw [hpc]; rfl, rfl⟩) nofun⟩
  | _ =>
    rw [hpc] at hstep
    cases hstep

theorem McsMoving.relinquish (h : McsMoving s) (hstep : s.relinquishStep t (s.pc t) = some s') :
    McsMoving s' := by
  obtain ⟨Q, hinv, hlive⟩ := h
  cases hpc : s.pc t with
  | testNext ptr =>
    rw [hpc] at hstep
    cases hstep
    split
    · exact .goto hinv hlive (by rw [hpc]; rfl) trivial nofun
    · -- The last node points nowhere, so this one is not the last.
      rename_i hsome
      refine .goto hinv hlive (by rw [hpc]; rfl) trivial fun b hb htail => ?_
      cases hb
      have halive := hinv.node_live (t := t) (a := ptr) (by rw [hpc]; rfl)
      have hlast := hinv.shape.getLast (by rw [htail]; exact halive.2)
      exact hsome (hinv.shape.links.next_last (by rw [hlast, htail]))
  | casTail ptr =>
    rw [hpc] at hstep
    cases hstep
    split
    · rename_i htail
      have hrole : mcsRole (s.pc t) = .holding ptr := by rw [hpc]; rfl
      obtain ⟨Q', rfl, -⟩ := hinv.front hrole
      obtain ⟨rfl, hinv'⟩ := hinv.casTail hpc htail
      exact ⟨[], hinv', hlive.leave hinv hrole rfl rfl rfl (Or.inr rfl) nofun⟩
    · rename_i htail
      exact .goto hinv hlive (by rw [hpc]; rfl) trivial fun b hb => by cases hb; exact htail
  | awaitNext ptr =>
    rw [hpc] at hstep
    cases hstep
    split
    · exact .goto hinv hlive (by rw [hpc]) trivial fun b hb => by
        cases hb
        exact hlive.behind t ptr hpc
    · rename_i hsome
      exact .goto hinv hlive (by rw [hpc]; rfl) hsome nofun
  | loadNext ptr =>
    rw [hpc] at hstep
    cases hstep
    have hread := hinv.reads t
    rw [hpc] at hread
    exact .goto hinv hlive (by rw [hpc]; rfl) ⟨hread, rfl⟩ nofun
  | unlock ptr next =>
    rw [hpc] at hstep
    cases hstep
    have hrole : mcsRole (s.pc t) = .holding ptr := by rw [hpc]; rfl
    obtain ⟨Q', rfl, -⟩ := hinv.front hrole
    have hread := hinv.reads t
    rw [hpc] at hread
    refine ⟨Q', hinv.unlock hpc, hlive.leave hinv hrole rfl rfl ?_ (Or.inl rfl) ?_⟩
    · funext a
      by_cases ha : a = next <;> simp [ha, mcsNext, McsLock.goto, McsLock.store]
    · intro u b hhead
      obtain ⟨rest, hrest⟩ : ∃ rest, nodes Q' = mcsNext s ptr :: rest :=
        hinv.shape.links.head_next hread.1
      have hfirst : (nodes Q').head? = some b := by simp [nodes, hhead]
      rw [hrest] at hfirst
      obtain rfl : next = b := hread.2.symm.trans (Option.some.inj hfirst)
      simp [McsLock.goto, McsLock.store]
  | free ptr =>
    rw [hpc] at hstep
    cases hstep
    exact ⟨Q, hinv.free hpc, hlive.free hpc⟩
  | _ =>
    rw [hpc] at hstep
    cases hstep

theorem McsMoving.step (h : McsMoving s) (hstep : McsLock.step l s = some s') : McsMoving s' := by
  cases l with
  | getAccess t =>
    simp only [McsLock.step] at hstep
    split at hstep
    case isFalse => cases hstep
    case isTrue hpc =>
      cases hstep
      obtain ⟨Q, hinv, hlive⟩ := h
      exact .goto hinv hlive (by rw [hpc]; rfl) trivial (by simp)
  | malloc t a =>
    simp only [McsLock.step] at hstep
    split at hstep
    case isFalse => cases hstep
    case isTrue hfresh =>
      cases hstep
      obtain ⟨Q, hinv, hlive⟩ := h
      obtain ⟨hpc, hne, hfree⟩ := hfresh
      exact ⟨Q, hinv.malloc hne hfree, hlive.malloc hinv hpc hfree⟩
  | relinquish t =>
    simp only [McsLock.step] at hstep
    split at hstep
    case h_1 ptr hpc =>
      cases hstep
      obtain ⟨Q, hinv, hlive⟩ := h
      exact .goto hinv hlive (by rw [hpc]; rfl) trivial (by simp)
    case h_2 => cases hstep
  | access t =>
    rcases Option.or_eq_some_iff.mp hstep with hstep | ⟨-, hstep⟩
    · exact h.getAccess hstep
    · exact h.relinquish hstep

/-! ### The run comes to an end -/

/-- What a thread has still to do until it has freed its node. -/
def mcsWork : McsPc → Nat
  | .idle => 0
  | .free _ => 1
  | .unlock _ _ => 2
  | .loadNext _ => 3
  | .awaitNext _ => 4
  | .casTail _ => 5
  | .testNext _ => 6
  | .inside _ => 7
  | .spin _ => 8
  | .link _ _ => 9
  | .setLocked _ _ => 10
  | .exchange _ => 11
  | .alloc => 12

/-- No thread calls `mcs_get_access`; those that have the lock call
`mcs_relinquish`. -/
def McsFinishing (_ : McsLock T) : McsLabel T → Prop
  | .getAccess _ => False
  | .malloc _ _ | .relinquish _ | .access _ => True

/-- The thread waits for a word that another thread has to change. -/
def McsWaits (s : McsLock T) (t : T) : Prop :=
  (∃ ptr, s.pc t = .spin ptr ∧ (s.mem ptr).locked ≠ 0) ∨
    ∃ ptr, s.pc t = .awaitNext ptr ∧ (s.mem ptr).next = 0

/-- An access brings its thread forward, or it is another look at a word
that keeps the thread waiting. -/
theorem access_moves (hstep : McsLock.step (.access t) s = some s') :
    (∃ q, s'.pc = Function.update s.pc t q ∧ mcsWork q < mcsWork (s.pc t)) ∨ s' = s ∧ McsWaits s t := by
  have hsame {q : McsPc} (hpc : s.pc t = q) : s.goto t q = s := by
    simp [McsLock.goto, ← hpc, Function.update_eq_self]
  cases hpc : s.pc t <;>
    simp only [McsLock.step, hpc, McsLock.getAccessStep, McsLock.relinquishStep, Option.or_some,
      Option.or_none] at hstep <;> cases hstep
  case exchange.refl ptr =>
    by_cases hempty : s.tail = 0
    · exact Or.inl ⟨.inside ptr, by simp [hempty, McsLock.grant, McsLock.goto], by simp [mcsWork]⟩
    · exact Or.inl ⟨.setLocked ptr s.tail, by simp [hempty, McsLock.goto], by simp [mcsWork]⟩
  case spin.refl ptr =>
    by_cases hlocked : (s.mem ptr).locked = 0
    · exact Or.inl ⟨.inside ptr, by simp [hlocked, McsLock.grant, McsLock.goto], by simp [mcsWork]⟩
    · rw [if_pos hlocked]
      exact Or.inr ⟨hsame hpc, Or.inl ⟨ptr, hpc, hlocked⟩⟩
  case testNext.refl ptr =>
    refine Or.inl ⟨_, rfl, ?_⟩
    split <;> simp [mcsWork]
  case casTail.refl ptr =>
    by_cases htail : s.tail = ptr
    · exact Or.inl ⟨.free ptr, by simp [htail, McsLock.goto], by simp [mcsWork]⟩
    · exact Or.inl ⟨.awaitNext ptr, by simp [htail, McsLock.goto], by simp [mcsWork]⟩
  case awaitNext.refl ptr =>
    by_cases hnone : (s.mem ptr).next = 0
    · rw [if_pos hnone]
      exact Or.inr ⟨hsame hpc, Or.inr ⟨ptr, hpc, hnone⟩⟩
    · exact Or.inl ⟨.loadNext ptr, by simp [hnone, McsLock.goto], by simp [mcsWork]⟩
  all_goals exact Or.inl ⟨_, rfl, by simp [mcsWork]⟩

/-- The work of all threads. -/
def mcsLockWork [Fintype T] (s : McsLock T) : Nat := ∑ t, mcsWork (s.pc t)

theorem finishing_mcsLockWork [Fintype T] (hok : McsFinishing s l) (hchanges : Changes McsLock.step s l)
    (hstep : McsLock.step l s = some s') : mcsLockWork s' < mcsLockWork s := by
  have hlt {t : T} {q : McsPc} (hpc : s'.pc = Function.update s.pc t q)
      (hless : mcsWork q < mcsWork (s.pc t)) : mcsLockWork s' < mcsLockWork s := by
    have hsum := sum_update mcsWork s.pc t q
    rw [mcsLockWork, mcsLockWork, hpc]
    omega
  cases l with
  | getAccess t => exact hok.elim
  | malloc t a =>
    simp only [McsLock.step] at hstep
    split at hstep
    case isTrue hfresh =>
      cases hstep
      exact hlt (t := t) rfl (by simp [hfresh.1, mcsWork])
    case isFalse => cases hstep
  | relinquish t =>
    simp only [McsLock.step] at hstep
    split at hstep
    case h_1 ptr hpc =>
      cases hstep
      exact hlt (t := t) rfl (by simp [hpc, mcsWork])
    case h_2 => cases hstep
  | access t =>
    rcases access_moves hstep with ⟨q, hpc, hless⟩ | ⟨rfl, -⟩
    · exact hlt hpc hless
    · exact absurd hstep hchanges

/-! ### The result -/

/-- Nobody has the lock or waits for it, and every node has been freed. -/
structure McsUnused (s : McsLock T) : Prop where
  idle : ∀ t, s.pc t = .idle
  tail : s.tail = 0
  freed : ∀ a, s.live a = false

omit [DecidableEq T] in
/-- `malloc` finds an address: only the nodes of the threads are taken. -/
theorem McsLive.exists_free [Fintype T] (h : McsLive s Q) : ∃ a, a ≠ 0 ∧ s.live a = false := by
  obtain ⟨a, ha⟩ := Infinite.exists_notMem_finset
    (insert 0 (Finset.univ.image fun t => ((mcsRole (s.pc t)).node).getD 0))
  rw [Finset.mem_insert, Finset.mem_image, not_or] at ha
  refine ⟨a, ha.1, ?_⟩
  by_contra hlive
  obtain ⟨t, ht⟩ := h.owned a (Bool.eq_true_of_not_eq_false hlive)
  exact ha.2 ⟨t, Finset.mem_univ t, by rw [ht]; rfl⟩

/-- Where only waiting threads can move, each thread is between two calls or
waits. -/
theorem McsLive.place [Fintype T] (h : McsLive s Q)
    (hrest : AtRest McsLock.step (fun s l => McsFinishing s l ∧ Changes McsLock.step s l) s) (t : T) :
    s.pc t = .idle ∨ McsWaits s t := by
  have hmoved {q : McsPc} (hpc : s.pc = Function.update s.pc t q) (hless : mcsWork q < mcsWork (s.pc t)) :
      False := by
    rw [hpc, Function.update_self] at hless
    exact Nat.lt_irrefl _ hless
  cases hstep : McsLock.step (.access t) s with
  | some s' =>
    rcases access_moves hstep with ⟨q, hpc, hless⟩ | ⟨-, hwaits⟩
    · rw [hrest.unchanged hstep trivial] at hpc
      exact (hmoved hpc hless).elim
    · exact Or.inr hwaits
  | none =>
    cases hpc : s.pc t with
    | idle => exact Or.inl rfl
    | alloc =>
      obtain ⟨a, hne, hfree⟩ := h.exists_free
      have hmalloc : McsLock.step (.malloc t a) s = _ := if_pos ⟨hpc, hne, hfree⟩
      have hplace := congrArg McsLock.pc (hrest.unchanged hmalloc trivial)
      exact (hmoved (q := .exchange a) hplace.symm (by simp [hpc, mcsWork])).elim
    | inside ptr =>
      have hrelinquish : McsLock.step (.relinquish t) s = some (s.goto t (.testNext ptr)) := by
        simp only [McsLock.step, hpc]
      have hplace := congrArg McsLock.pc (hrest.unchanged hrelinquish trivial)
      exact (hmoved (q := .testNext ptr) hplace.symm (by simp [hpc, mcsWork])).elim
    | _ =>
      simp only [McsLock.step, hpc, McsLock.getAccessStep, McsLock.relinquishStep, Option.or_some,
        Option.some_or] at hstep
      cases hstep

theorem mcsUnused_of_rest [Fintype T] (hinv : McsInv s Q) (h : McsLive s Q)
    (hrest : AtRest McsLock.step (fun s l => McsFinishing s l ∧ Changes McsLock.step s l) s) :
    McsUnused s := by
  have hplace := h.place hrest
  have hnoLinking (t : T) (ptr pred : NodePtr) : mcsRole (s.pc t) ≠ .linking ptr pred := by
    rcases hplace t with hpc | ⟨_, hpc, -⟩ | ⟨_, hpc, -⟩ <;> rw [hpc] <;> nofun
  -- The thread at the front would be able to go on.
  have hempty : Q = [] := by
    cases hQ : Q with
    | nil => rfl
    | cons e Q' =>
      exfalso
      subst hQ
      obtain ⟨u, b⟩ := e
      have hqueued := h.queued u b List.mem_cons_self
      rcases hplace u with hpc | ⟨ptr, hpc, hlocked⟩ | ⟨ptr, hpc, hnone⟩
      · rw [hpc] at hqueued
        exact hqueued
      · rw [hpc] at hqueued
        obtain rfl : ptr = b := hqueued
        exact hlocked (h.front u ptr rfl (by rw [hpc]; rfl))
      · rw [hpc] at hqueued
        obtain rfl : ptr = b := hqueued
        cases Q' with
        | nil => exact h.behind u ptr hpc hinv.shape.tail
        | cons e Q'' => exact hnoLinking e.1 e.2 ptr (h.missing ptr e.2 e.1 ⟨[], nodes Q'', rfl⟩
            (List.mem_cons_of_mem _ List.mem_cons_self) hnone)
  subst hempty
  have hidle (t : T) : s.pc t = .idle := by
    have hstanding := hinv.standing t
    rcases hplace t with hpc | ⟨ptr, hpc, -⟩ | ⟨ptr, hpc, -⟩
    · exact hpc
    · rw [hpc] at hstanding
      cases hstanding.1
    · rw [hpc] at hstanding
      cases hstanding
  refine ⟨hidle, hinv.shape.tail, fun a => ?_⟩
  by_contra hlive
  obtain ⟨t, ht⟩ := h.owned a (Bool.eq_true_of_not_eq_false hlive)
  rw [hidle t] at ht
  cases ht

/-- Whatever threads have called `mcs_get_access`, with no new calls: the
threads make a bounded number of steps, in any order, that are more than
another look at a word that keeps them waiting. When none is left to be made
every thread has had the lock and given it back, and every node has been
freed. -/
theorem mcsLock_servesAll [Fintype T]
    (h : Reach McsLock.step (fun _ _ => True) (McsLock.init T) s) :
    Settles McsLock.step (fun s l => McsFinishing s l ∧ Changes McsLock.step s l) (mcsLockWork s)
      McsUnused s := by
  have hmoving : McsMoving s :=
    h.invariant ⟨[], mcsInv_init, mcsLive_init⟩ fun _ _ _ hs _ hstep => McsMoving.step hs hstep
  refine .of_measure (I := McsMoving) hmoving ?_ ?_
  · rintro s₁ s₂ l hs ⟨hok, hchanges⟩ hstep
    exact ⟨hs.step hstep, finishing_mcsLockWork hok hchanges hstep⟩
  · rintro s₁ ⟨Q, hinv, hlive⟩ hrest
    exact mcsUnused_of_rest hinv hlive hrest

/-- Thread 0 has the lock, thread 1 is behind it and has not stored its
link, and thread 2 has not yet got its node. -/
theorem mcsLock_servesAll_sample :
    ∃ s : McsLock (Fin 3), s.pc 0 = .inside 1 ∧ s.pc 1 = .setLocked 2 1 ∧ s.pc 2 = .alloc ∧
      Settles McsLock.step (fun s l => McsFinishing s l ∧ Changes McsLock.step s l) (mcsLockWork s)
        McsUnused s :=
  ⟨_, rfl, rfl, rfl, mcsLock_servesAll (Reach.of_run .init
    [.getAccess 0, .malloc 0 1, .access 0, .getAccess 1, .malloc 1 2, .access 1, .getAccess 2] rfl)⟩

end Efio.Proofs.Evsync
