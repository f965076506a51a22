import Efio.Proofs.Evds.QueueOrder
import Efio.Spec.QueueVerdict

/-!
# `Efio.Proofs.Evds.QueueVerdict`: a queue that is called empty

`dequeue` looks at the tail alone. `try_dequeue` also takes a head that is
`NULL` for an empty queue, though an enqueue may have yet to store it, and
others behind this one may have returned.

`Headless`: while the list from the head does not begin at the head word,
some enqueue has yet to store it. When no other enqueue returns in the
meantime, all the elements that are left are those of enqueues that have
not returned (`queue_trustworthy`).
-/

set_option autoImplicit false

namespace Efio.Proofs.Evds

open Efio.Lib
open Efio.Evds
open Efio.Spec

variable {s s' : EvQueue} {x x' : WatchedQueue} {l : QueueLabel} {t u : Nat} {r : QueueResult}

/-! ### How calls return -/

/-- Where a thread is that is about to return `done` or `NULL`. -/
def ReturnCause (s : EvQueue) (t : Nat) : QueueResult → Prop
  | .done => (∃ p old, s.pc t = .dropInflight p old) ∨ ∃ p, s.pc t = .setHead p
  | .null => (∃ v, s.pc t = .loadTail v ∧ s.tail = 0) ∨ (∃ v, s.pc t = .loadHead v ∧ s.head.addr = 0) ∨
      ∃ v h next, s.pc t = .testTail v h next ∧ s.tail = 0
  | _ => True

theorem cause_of_enqueue (h : s.enqueueStep t (s.pc t) = some s') (hpc' : s'.pc t = .idle (some r)) :
    ReturnCause s t r := by
  cases hpc : s.pc t <;> rw [hpc] at h <;> simp only [EvQueue.enqueueStep, Option.some.injEq,
    reduceCtorEq] at h
  case dropInflight p old =>
    subst h
    rw [EvQueue.goto_pc_self] at hpc'
    cases hpc'
    exact .inl ⟨p, old, hpc⟩
  case setHead p =>
    subst h
    rw [EvQueue.goto_pc_self] at hpc'
    cases hpc'
    exact .inr ⟨p, hpc⟩
  case count p old =>
    subst h
    rw [EvQueue.goto_pc_self] at hpc'
    split at hpc' <;> cases hpc'
  case checkMagic p old =>
    subst h
    split at hpc'
    · rw [EvQueue.abort, hpc] at hpc'
      cases hpc'
    · rw [EvQueue.goto_pc_self] at hpc'
      cases hpc'
  all_goals
    subst h
    rw [EvQueue.goto_pc_self] at hpc'
    cases hpc'

theorem cause_of_claim (h : s.claimStep t (s.pc t) = some s') (hpc' : s'.pc t = .idle (some r)) :
    ReturnCause s t r := by
  cases hpc : s.pc t <;> rw [hpc] at h <;> simp only [EvQueue.claimStep, Option.some.injEq,
    reduceCtorEq] at h
  case loadTail v =>
    subst h
    rw [EvQueue.goto_pc_self] at hpc'
    split at hpc'
    · rename_i htail
      cases hpc'
      exact .inl ⟨v, hpc, htail⟩
    · cases hpc'
  case loadHead v =>
    subst h
    rw [EvQueue.goto_pc_self] at hpc'
    split at hpc'
    · rename_i hhead
      cases v with
      | dequeue => cases hpc'
      | tryDequeue =>
        cases hpc'
        exact .inr (.inl ⟨_, hpc, hhead⟩)
    · split at hpc'
      · cases v with
        | dequeue => cases hpc'
        | tryDequeue =>
          cases hpc'
          trivial
      · cases hpc'
  case markHead v a =>
    split at h
    · subst h
      rw [EvQueue.goto_pc_self] at hpc'
      cases hpc'
    · subst h
      rw [EvQueue.goto_pc_self] at hpc'
      cases v with
      | dequeue => cases hpc'
      | tryDequeue =>
        cases hpc'
        trivial

theorem cause_of_advance (h : s.advanceStep t (s.pc t) = some s') (hpc' : s'.pc t = .idle (some r)) :
    ReturnCause s t r := by
  cases hpc : s.pc t <;> rw [hpc] at h <;> simp only [EvQueue.advanceStep, Option.some.injEq,
    reduceCtorEq] at h
  case loadNext v a =>
    subst h
    rw [EvQueue.goto_pc_self] at hpc'
    cases hpc'
  case testTail v a next =>
    split at h
    · rename_i htail
      cases v with
      | dequeue =>
        subst h
        rw [EvQueue.abort, hpc] at hpc'
        cases hpc'
      | tryDequeue =>
        subst h
        rw [EvQueue.goto_pc_self] at hpc'
        cases hpc'
        exact .inr (.inr ⟨_, a, next, hpc, htail⟩)
    · subst h
      rw [EvQueue.goto_pc_self] at hpc'
      split at hpc' <;> cases hpc'
  case clearTail v a =>
    split at h <;> subst h <;> rw [EvQueue.goto_pc_self] at hpc' <;> cases hpc'
  case spin v a =>
    subst h
    rw [EvQueue.goto_pc_self] at hpc'
    split at hpc' <;> cases hpc'
  case swing v a next =>
    split at h
    · subst h
      rw [EvQueue.goto_pc_self] at hpc'
      cases v <;> cases hpc'
    · subst h
      rw [EvQueue.abort, hpc] at hpc'
      cases hpc'

theorem cause_of_retire (h : s.retireStep t (s.pc t) = some s') (hpc' : s'.pc t = .idle (some r)) :
    ReturnCause s t r := by
  cases hpc : s.pc t <;> rw [hpc] at h <;> simp only [EvQueue.retireStep, Option.some.injEq,
    reduceCtorEq] at h
  case free a data =>
    subst h
    rw [EvQueue.goto_pc_self] at hpc'
    cases hpc'
    trivial
  case countOut a =>
    subst h
    rw [EvQueue.goto_pc_self] at hpc'
    cases hpc'
  case readData v a =>
    subst h
    rw [EvQueue.goto_pc_self] at hpc'
    cases v <;> cases hpc'
  case testInflight a data | testMagic a data =>
    split at h
    · subst h
      rw [EvQueue.abort, hpc] at hpc'
      cases hpc'
    · subst h
      rw [EvQueue.goto_pc_self] at hpc'
      cases hpc'
  case storeMagic a data =>
    subst h
    rw [EvQueue.goto_pc_self] at hpc'
    cases hpc'

/-- A thread that has returned was at one of the places where it can. -/
theorem returnCause_of_access (h : EvQueue.step (.access t) s = some s') (hpc' : s'.pc t = .idle (some r)) :
    ReturnCause s t r := by
  rw [EvQueue.step] at h
  split at h
  · cases h
  · simp only [EvQueue.threadStep, Option.or_eq_some_iff] at h
    obtain h | ⟨-, h | ⟨-, h | ⟨-, h⟩⟩⟩ := h
    · exact cause_of_enqueue h hpc'
    · exact cause_of_claim h hpc'
    · exact cause_of_advance h hpc'
    · exact cause_of_retire h hpc'

/-- An access moves no other thread. -/
theorem pc_of_access (h : EvQueue.step (.access t) s = some s') (hu : u ≠ t) : s'.pc u = s.pc u := by
  have hgoto : ∀ (s₁ : EvQueue) (q : QueuePc), s₁.pc = s.pc → (s₁.goto t q).pc u = s.pc u := by
    intro s₁ q hpc
    rw [EvQueue.goto_pc_of_ne s₁ hu, hpc]
  rw [EvQueue.step] at h
  split at h
  · cases h
  · simp only [EvQueue.threadStep, Option.or_eq_some_iff] at h
    obtain h | ⟨-, h | ⟨-, h | ⟨-, h⟩⟩⟩ := h
    · cases hpc : s.pc t <;> rw [hpc] at h <;> simp only [EvQueue.enqueueStep, Option.some.injEq,
        reduceCtorEq] at h
      case checkMagic p old =>
        subst h
        split
        · rfl
        · exact hgoto s _ rfl
      all_goals
        subst h
        exact hgoto _ _ rfl
    · cases hpc : s.pc t <;> rw [hpc] at h <;> simp only [EvQueue.claimStep, Option.some.injEq,
        reduceCtorEq] at h
      case markHead v a =>
        subst h
        split <;> exact hgoto _ _ rfl
      all_goals
        subst h
        exact hgoto _ _ rfl
    · cases hpc : s.pc t <;> rw [hpc] at h <;> simp only [EvQueue.advanceStep, Option.some.injEq,
        reduceCtorEq] at h
      case testTail v a next =>
        subst h
        split
        · cases v with
          | dequeue => rfl
          | tryDequeue => exact hgoto _ _ rfl
        · exact hgoto _ _ rfl
      case clearTail v a =>
        subst h
        split <;> exact hgoto _ _ rfl
      case swing v a next =>
        subst h
        split
        · exact hgoto _ _ rfl
        · rfl
      all_goals
        subst h
        exact hgoto _ _ rfl
    · cases hpc : s.pc t <;> rw [hpc] at h <;> simp only [EvQueue.retireStep, Option.some.injEq,
        reduceCtorEq] at h
      case testInflight a data | testMagic a data =>
        subst h
        split
        · rfl
        · exact hgoto s _ rfl
      all_goals
        subst h
        exact hgoto _ _ rfl

/-- Only by an access does a thread come to be between two calls. -/
theorem idle_of_step (h : EvQueue.step l s = some s') (hidle : (s'.pc u).isIdle = true) :
    s'.pc u = s.pc u ∨ l = .access u := by
  cases l with
  | call t c =>
    rw [EvQueue.step] at h
    split at h
    · cases h
    · split at h
      · obtain rfl := (Option.some.inj h).symm
        by_cases hu : u = t
        · subst hu
          rw [EvQueue.goto_pc_self] at hidle
          cases c <;> cases hidle
        · exact .inl (EvQueue.goto_pc_of_ne s hu _)
      · cases h
  | malloc t a =>
    rw [EvQueue.step] at h
    split at h
    · cases h
    · rw [EvQueue.mallocStep] at h
      split at h
      · split at h
        · cases h
        · obtain rfl := (Option.some.inj h).symm
          by_cases hu : u = t
          · subst hu
            rw [EvQueue.goto_pc_self] at hidle
            cases hidle
          · exact .inl (EvQueue.goto_pc_of_ne _ hu _)
      · cases h
  | access t =>
    by_cases hu : u = t
    · exact .inr (by rw [hu])
    · exact .inl (pc_of_access h hu)

/-! ### What only grows -/

theorem claimed_of_step (h : EvQueue.step l s = some s') : ∀ e ∈ s.claimed, e ∈ s'.claimed := by
  intro e he
  cases queueStep_of_step h with
  | mark => exact List.mem_append_left _ he
  | _ => exact he

theorem exchanged_of_step (h : EvQueue.step l s = some s') : ∀ e ∈ s.exchanged, e ∈ s'.exchanged := by
  intro e he
  cases queueStep_of_step h with
  | exchange => exact List.mem_append_left _ he
  | _ => exact he

/-- With the tail `NULL` every element has been claimed. -/
theorem Queued.claimed_eq (h : Queued s) (htail : s.tail = 0) : s.claimed = s.exchanged := by
  obtain ⟨held, pending, hinv, hacc⟩ := h
  obtain ⟨-, rfl⟩ := List.append_eq_nil_iff.mp (hinv.shape.eq_nil_of_tail htail)
  rw [hacc.exchanged, List.map_nil, List.append_nil]

/-! ### Enqueues that have exchanged the tail -/

/-- What holds of the thread `u` behind a step of `t` held before it. -/
theorem of_goto {s₁ : EvQueue} {q : QueuePc} {P : QueuePc → Prop} (hpc : s₁.pc = s.pc) (hq : P q → P (s.pc t))
    (h : P ((s₁.goto t q).pc u)) : P (s.pc u) := by
  by_cases hu : u = t
  · subst hu
    rw [EvQueue.goto_pc_self] at h
    exact hq h
  · rw [EvQueue.goto_pc_of_ne _ hu, hpc] at h
    exact h

/-- The node of an enqueue behind its exchange. -/
def insertedNode : Role → Option Addr
  | .linking p _ _ | .heading p | .linked p _ => some p
  | _ => none

/-- A thread comes to be behind an exchange by an exchange. -/
theorem insertedNode_of_step {p : Addr} (h : EvQueue.step l s = some s')
    (hrole : insertedNode (role (s'.pc u)) = some p) :
    insertedNode (role (s.pc u)) = some p ∨
      (l = .access u ∧ s.pc u = .exchange p ∧ s'.exchanged = s.exchanged ++ [s.elem p]) := by
  cases queueStep_of_step h with
  | plain t q mem e d hsame => exact .inl (of_goto (P := fun q => insertedNode (role q) = some p) rfl (fun hq => by rwa [hsame] at hq) hrole)
  | malloc | drop | setHead | mark | clear | giveUp | free =>
    refine .inl (of_goto (P := fun q => insertedNode (role q) = some p) rfl ?_ hrole)
    intro hq
    cases hq
  | @exchange t p₁ hpc =>
    by_cases hu : u = t
    · subst hu
      rw [EvQueue.goto_pc_self] at hrole
      have hp : p₁ = p := by
        simp only [role] at hrole
        split at hrole <;> exact Option.some.inj hrole
      subst hp
      exact .inr ⟨rfl, hpc, rfl⟩
    · rw [EvQueue.goto_pc_of_ne _ hu] at hrole
      exact .inl hrole
  | raise hpc | link hpc =>
    refine .inl (of_goto (P := fun q => insertedNode (role q) = some p) rfl ?_ hrole)
    intro hq
    rw [hpc]
    exact hq
  | swing _ _ hretiring =>
    refine .inl (of_goto (P := fun q => insertedNode (role q) = some p) rfl ?_ hrole)
    intro hq
    rw [hretiring] at hq
    cases hq
  | abort => exact .inl hrole

/-- An enqueue has yet to store the head only when it has found the tail
`NULL`. -/
theorem waits_of_step (h : EvQueue.step l s = some s') (hwaits : WaitsForHead s' u) :
    WaitsForHead s u ∨ (l = .access u ∧ (∃ p, s.pc u = .exchange p) ∧ s.tail = 0) := by
  cases queueStep_of_step h with
  | plain t q mem e d hsame =>
    exact .inl (of_goto (P := fun q => ∃ p, role q = .heading p) rfl (fun hq => by rwa [hsame] at hq) hwaits)
  | malloc | raise | link | drop | setHead | mark | clear | giveUp | free =>
    refine .inl (of_goto (P := fun q => ∃ p, role q = .heading p) rfl ?_ hwaits)
    rintro ⟨p, hp⟩
    cases hp
  | @exchange t p₁ hpc =>
    by_cases hu : u = t
    · subst hu
      obtain ⟨p, hp⟩ := hwaits
      rw [EvQueue.goto_pc_self, role] at hp
      split at hp
      · rename_i htail
        exact .inr ⟨rfl, ⟨p₁, hpc⟩, htail⟩
      · cases hp
    · rw [WaitsForHead, EvQueue.goto_pc_of_ne _ hu] at hwaits
      exact .inl hwaits
  | swing _ _ hretiring =>
    refine .inl (of_goto (P := fun q => ∃ p, role q = .heading p) rfl ?_ hwaits)
    rintro ⟨p, hp⟩
    rw [hretiring] at hp
    cases hp
  | abort => exact .inl hwaits

/-! ### Heads that are yet to be stored -/

/-- When the head word is `NULL`, or about to be set to `NULL` by a consumer
that has cleared the tail, while there are elements: some enqueue has yet to
store it. -/
def Headless (s : EvQueue) : Prop :=
  s.tail ≠ 0 → (s.head.addr = 0 ∨ ∃ t a, role (s.pc t) = .cleared a ∧ s.head = ⟨a, true⟩) →
    ∃ u, WaitsForHead s u

/-- A step that leaves head and tail, and no thread that has yet to store
the head returns. -/
theorem Headless.goto {s₁ : EvQueue} {q : QueuePc} (h : Headless s) (hpc : s₁.pc = s.pc)
    (htail : s₁.tail = s.tail) (hhead : s₁.head = s.head)
    (hcleared : ∀ a, role q = .cleared a → role (s.pc t) = .cleared a)
    (hheading : ∀ p, role (s.pc t) = .heading p → role q = .heading p) : Headless (s₁.goto t q) := by
  intro hne hcause
  have hbefore : s.head.addr = 0 ∨ ∃ u a, role (s.pc u) = .cleared a ∧ s.head = ⟨a, true⟩ := by
    refine hcause.imp (fun hnull => hhead ▸ hnull) ?_
    rintro ⟨u, a, hrole, hmarked⟩
    exact ⟨u, a, of_goto (P := fun q => role q = .cleared a) hpc (hcleared a) hrole, hhead ▸ hmarked⟩
  obtain ⟨u, p, hrole⟩ := h (htail ▸ hne) hbefore
  refine ⟨u, p, ?_⟩
  by_cases hu : u = t
  · subst hu
    rw [EvQueue.goto_pc_self]
    exact hheading p hrole
  · rw [EvQueue.goto_pc_of_ne _ hu, hpc]
    exact hrole

theorem Headless.step (h : Headless s) (hq : Queued s) (hstep : EvQueue.step l s = some s') : Headless s' := by
  obtain ⟨held, pending, hinv, -⟩ := hq
  cases queueStep_of_step hstep with
  | plain t q mem e d hsame =>
    exact h.goto rfl rfl rfl (fun a ha => hsame ▸ ha) fun p hp => hsame.trans hp
  | malloc hpc | raise hpc | link hpc | drop hpc | giveUp hpc | free hpc =>
    refine h.goto rfl rfl rfl (fun a ha => by cases ha) fun p hp => ?_
    rw [hpc] at hp
    cases hp
  | @exchange t p hpc =>
    intro _ hcause
    by_cases htail : s.tail = 0
    · exact ⟨t, p, by rw [EvQueue.goto_pc_self, role, if_pos htail]⟩
    · have hcount : ∀ a, role (.count p s.tail) ≠ .cleared a := by
        intro a ha
        rw [role, if_neg htail] at ha
        cases ha
      have hbefore : s.head.addr = 0 ∨ ∃ u a, role (s.pc u) = .cleared a ∧ s.head = ⟨a, true⟩ := by
        refine hcause.imp id ?_
        rintro ⟨u, a, hrole, hmarked⟩
        exact ⟨u, a, of_goto (P := fun q => role q = .cleared a) rfl (fun hq => absurd hq (hcount a)) hrole, hmarked⟩
      obtain ⟨u, p', hrole⟩ := h htail hbefore
      have hu : u ≠ t := by
        rintro rfl
        rw [hpc] at hrole
        cases hrole
      exact ⟨u, p', by rw [EvQueue.goto_pc_of_ne _ hu]; exact hrole⟩
  | @setHead t p hpc =>
    intro _ hcause
    have hrole : role (s.pc t) = .heading p := by rw [hpc]; rfl
    have hnull : p ≠ 0 :=
      (hinv.shape.alive p (List.mem_append_right _ ((hinv.placed t).heading p hrole |>.2.1 |> List.mem_of_head?))).2
    obtain hzero | ⟨u, a, -, hmarked⟩ := hcause
    · exact absurd hzero hnull
    · exact absurd (congrArg HeadWord.mark hmarked) Bool.false_ne_true
  | @mark t v a hpc hhead =>
    intro _ hcause
    have hnull : a ≠ 0 := by
      have hreads := hinv.reads t
      rwa [hpc] at hreads
    obtain hzero | ⟨u, b, hrole, hmarked⟩ := hcause
    · exact absurd hzero hnull
    · obtain rfl : a = b := congrArg HeadWord.addr hmarked
      -- The node of that consumer is on no list, but the head was open at it.
      have hcleared : role (s.pc u) = .cleared a :=
        of_goto (P := fun q => role q = .cleared a) rfl (fun hq => by cases hq) hrole
      have howned := ((hinv.placed u).owned a (by rw [hcleared]; rfl)).2.2
      have hopen := (hinv.shape.head_open (by rw [hhead]) (by rw [hhead]; exact hnull)).2
      rw [hhead] at hopen
      exact absurd (List.mem_append_right _ (List.mem_of_head? hopen)) howned
  | clear hpc htail => exact fun hne => absurd rfl hne
  | @swing t v a n q hpc hhead hretiring =>
    intro hne hcause
    obtain hzero | ⟨u, b, -, hmarked⟩ := hcause
    · obtain rfl : n = 0 := hzero
      have hcleared : role (s.pc t) = .cleared a := by rw [hpc]; rfl
      obtain ⟨u, p, hrole⟩ := h hne (.inr ⟨t, a, hcleared, hhead⟩)
      have hu : u ≠ t := by
        rintro rfl
        rw [hcleared] at hrole
        cases hrole
      exact ⟨u, p, by rw [EvQueue.goto_pc_of_ne _ hu]; exact hrole⟩
    · exact absurd (congrArg HeadWord.mark hmarked) Bool.false_ne_true
  | abort => exact h

/-! ### The record -/

/-- What the record beside the queue says in every state. -/
structure Watch (x : WatchedQueue) : Prop where
  queued : Queued x.queue
  headless : Headless x.queue
  element : ∀ t p, insertedNode (role (x.queue.pc t)) = some p → x.element t ∈ x.queue.exchanged
  finished : ∀ e ∈ x.finished, e ∈ x.queue.exchanged
  first : ∀ u, WaitsForHead x.queue u → Calm x.queue x.finished
  instant : ∀ t, (x.queue.pc t).isIdle = false → Calm x.queue x.finished → x.calm t = true
  verdict : Trustworthy x

theorem step_eq_some (h : WatchedQueue.step l x = some x') :
    EvQueue.step l x.queue = some x'.queue ∧ x'.element = x.inserted l ∧
      x'.finished = x.finishedBy x'.queue l ∧ x'.calm = x.calmBy x'.queue l := by
  obtain ⟨s, hstep, rfl⟩ := Option.map_eq_some_iff.mp h
  exact ⟨hstep, rfl, rfl, rfl⟩

/-- Elements are only inserted by an exchange. -/
theorem inserted_of_ne (hne : ∀ p, x.queue.pc u ≠ .exchange p) : x.inserted l u = x.element u := by
  cases l with
  | access t =>
    cases hpc : x.queue.pc t with
    | exchange p =>
      have hu : u ≠ t := by
        rintro rfl
        exact hne p hpc
      simp only [WatchedQueue.inserted, hpc, Function.update_of_ne hu]
    | _ => simp only [WatchedQueue.inserted, hpc]
  | _ => rfl

/-- The elements of the enqueues that have returned. -/
theorem finishedBy_cases (hstep : EvQueue.step l x.queue = some s) :
    x.finishedBy s l = x.finished ∨ ∃ t, l = .access t ∧ s.pc t = .idle (some .done) ∧
      x.finishedBy s l = x.finished ++ [x.element t] ∧ ReturnCause x.queue t .done := by
  cases l with
  | access t =>
    by_cases hdone : s.pc t = .idle (some .done)
    · exact .inr ⟨t, rfl, hdone, if_pos hdone, returnCause_of_access hstep hdone⟩
    · exact .inl (if_neg hdone)
  | _ => exact .inl rfl

theorem ReturnCause.inserted (h : ReturnCause s t .done) : ∃ p, insertedNode (role (s.pc t)) = some p := by
  obtain ⟨p, old, hpc⟩ | ⟨p, hpc⟩ := h
  · exact ⟨p, by rw [hpc]; rfl⟩
  · exact ⟨p, by rw [hpc]; rfl⟩

/-- Only one enqueue has yet to store the head. -/
theorem Queued.waits_unique (h : Queued s) (ht : WaitsForHead s t) (hu : WaitsForHead s u) : t = u := by
  obtain ⟨held, pending, hinv, -⟩ := h
  obtain ⟨p, hp⟩ := ht
  obtain ⟨p', hp'⟩ := hu
  have hfirst := ((hinv.placed t).heading p hp).2.1
  rw [((hinv.placed u).heading p' hp').2.1] at hfirst
  obtain rfl := Option.some.inj hfirst
  exact hinv.token t u p' (by rw [hp]; rfl) (by rw [hp']; rfl)

theorem Watch.elements (h : Watch x) (hstep : EvQueue.step l x.queue = some s) {p : Addr}
    (hrole : insertedNode (role (s.pc u)) = some p) : x.inserted l u ∈ s.exchanged := by
  obtain hbefore | ⟨rfl, hpc, hexchanged⟩ := insertedNode_of_step hstep hrole
  · have hne : ∀ q, x.queue.pc u ≠ .exchange q := by
      intro q hq
      rw [hq] at hbefore
      cases hbefore
    rw [inserted_of_ne hne]
    exact exchanged_of_step hstep _ (h.element u p hbefore)
  · simp only [hexchanged, WatchedQueue.inserted, hpc, Function.update_self]
    exact List.mem_append_right _ (List.mem_singleton.mpr rfl)

theorem Watch.finishes (h : Watch x) (hstep : EvQueue.step l x.queue = some s) :
    ∀ e ∈ x.finishedBy s l, e ∈ s.exchanged := by
  intro e he
  obtain hsame | ⟨t, -, -, hmore, hcause⟩ := finishedBy_cases hstep
  · rw [hsame] at he
    exact exchanged_of_step hstep e (h.finished e he)
  · rw [hmore] at he
    obtain he | he := List.mem_append.mp he
    · exact exchanged_of_step hstep e (h.finished e he)
    · obtain ⟨p, hp⟩ := hcause.inserted
      rw [List.mem_singleton.mp he]
      exact exchanged_of_step hstep _ (h.element t p hp)

/-- Behind an enqueue that has yet to store the head none has returned. -/
theorem Watch.waits (h : Watch x) (hok : HeadFirst x l) (hstep : EvQueue.step l x.queue = some s)
    (hwaits : WaitsForHead s u) : Calm s (x.finishedBy s l) := by
  have hclaimed := claimed_of_step hstep
  obtain hsame | ⟨t, rfl, hdone, -, hcause⟩ := finishedBy_cases hstep
  · rw [hsame]
    intro e he
    obtain hbefore | ⟨-, -, htail⟩ := waits_of_step hstep hwaits
    · exact hclaimed e (h.first u hbefore e he)
    · exact hclaimed e (h.queued.claimed_eq htail ▸ h.finished e he)
  · -- The thread that returns is not the one that waits, and so nobody waits.
    have hu : u ≠ t := by
      rintro rfl
      obtain ⟨p, hp⟩ := hwaits
      rw [hdone] at hp
      cases hp
    have hbefore : WaitsForHead x.queue u := by
      obtain hbefore | ⟨heq, -⟩ := waits_of_step hstep hwaits
      · exact hbefore
      · exact absurd (QueueLabel.access.inj heq).symm hu
    obtain ⟨p, old, hpc⟩ | ⟨p, hpc⟩ := hcause
    · exact absurd hbefore (hok (by simp only [returnsLinked, hpc]) u)
    · exact absurd (h.queued.waits_unique hbefore ⟨p, by rw [hpc]; rfl⟩) hu

/-- At the place at which a call finds the queue empty, it is calm. -/
theorem Watch.calm_of_null (h : Watch x) (hcause : ReturnCause x.queue t .null) :
    (x.queue.pc t).isIdle = false ∧ Calm x.queue x.finished := by
  have hempty : x.queue.tail = 0 → Calm x.queue x.finished := by
    intro htail e he
    exact h.queued.claimed_eq htail ▸ h.finished e he
  obtain ⟨v, hpc, htail⟩ | ⟨v, hpc, hhead⟩ | ⟨v, a, n, hpc, htail⟩ := hcause
  · exact ⟨by rw [hpc]; rfl, hempty htail⟩
  · refine ⟨by rw [hpc]; rfl, ?_⟩
    by_cases htail : x.queue.tail = 0
    · exact hempty htail
    · obtain ⟨u, hwaits⟩ := h.headless htail (.inl hhead)
      exact h.first u hwaits
  · exact ⟨by rw [hpc]; rfl, hempty htail⟩

theorem Watch.step (h : Watch x) (hok : HeadFirst x l) (hstep : WatchedQueue.step l x = some x') : Watch x' := by
  obtain ⟨hqueue, helement, hfinished, hcalm⟩ := step_eq_some hstep
  refine ⟨h.queued.step hqueue, h.headless.step h.queued hqueue, ?_, ?_, ?_, ?_, ?_⟩
  · intro u p hrole
    rw [helement]
    exact h.elements hqueue hrole
  · rw [hfinished]
    exact h.finishes hqueue
  · intro u hwaits
    rw [hfinished]
    exact h.waits hok hqueue hwaits
  · intro u hbusy hinstant
    rw [hfinished] at hinstant
    have hnot : ¬(x'.queue.pc u).isIdle = true := by
      rw [hbusy]
      exact Bool.false_ne_true
    simp only [hcalm, WatchedQueue.calmBy, if_neg hnot, decide_eq_true hinstant, Bool.or_true]
  · intro u hnull
    have hidle : (x'.queue.pc u).isIdle = true := by rw [hnull]; rfl
    simp only [hcalm, WatchedQueue.calmBy, if_pos hidle]
    obtain hsame | rfl := idle_of_step hqueue hidle
    · exact h.verdict u (hsame.symm.trans hnull)
    · obtain ⟨hbusy, hinstant⟩ := h.calm_of_null (returnCause_of_access hqueue hnull)
      exact h.instant u hbusy hinstant

theorem watch_create : Watch WatchedQueue.create where
  queued := queued_create
  headless := fun hne => absurd rfl hne
  element := fun t p hrole => by cases hrole
  finished := fun e he => absurd he List.not_mem_nil
  first := fun u hwaits e he => absurd he List.not_mem_nil
  instant := fun t hbusy => by cases hbusy
  verdict := fun t hnull => by cases hnull

/-- **A queue that is called empty was empty** at some instant of the call,
also by `try_dequeue`, when no enqueue that has linked its node returns
before the one that has to store the head. -/
theorem queue_trustworthy (h : Reach WatchedQueue.step HeadFirst WatchedQueue.create x) : Trustworthy x :=
  (h.invariant watch_create fun _ _ _ => Watch.step).verdict

/-- An enqueue has yet to store the head when `try_dequeue` returns `NULL`;
it is the only one. -/
theorem queue_trustworthy_sample : ∃ x : WatchedQueue,
    x.queue.pc 1 = .idle (some .null) ∧ x.queue.tail = 8 ∧ Trustworthy x := by
  have hrun : Reach WatchedQueue.step (fun x l => returnsLinked x.queue l = false) WatchedQueue.create _ :=
    Reach.of_run .init (enqueueAt 0 8 70 0 ++ dequeueBy 1 .tryDequeue 2) rfl
  refine ⟨_, rfl, rfl, queue_trustworthy (hrun.mono (I := fun _ => True) (fun _ _ => trivial) ?_)⟩
  intro x l _ hok hreturns
  rw [hok] at hreturns
  cases hreturns

/-- The first enqueue has yet to store the head, the second one has returned,
and `try_dequeue` returns `NULL`. -/
theorem not_queue_trustworthy : ∃ x : WatchedQueue,
    Reach WatchedQueue.step (fun _ _ => True) WatchedQueue.create x ∧
      x.queue.pc 2 = .idle (some .null) ∧ ¬Trustworthy x := by
  refine ⟨_, Reach.of_run .init
    (enqueueAt 0 8 70 0 ++ enqueueAt 1 16 71 5 ++ dequeueBy 2 .tryDequeue 2) rfl, rfl, ?_⟩
  intro h
  cases h 2 rfl

end Efio.Proofs.Evds
