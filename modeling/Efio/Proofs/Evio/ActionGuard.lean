import Efio.Evio.ActionGuard
import Efio.Lib.Transition

/-!
# `Efio.Proofs.Evio.ActionGuard`: when the guard around `_action` excludes

`free_file_action` and `alloc_file_action` do not reset `expected` after a
failed compare-exchange. The failed attempt leaves `1` there, so the next
attempt succeeds while another thread holds the guard
(`guard_not_exclusive`). `NoStaleRetry` is the condition that this does not
happen: no such retry falls into a time at which the guard is held. Under
it at most one thread is inside, and the action is not touched while
`sync_file_writes` is (`guard_exclusive`).
-/

set_option autoImplicit false

namespace Efio.Proofs.Evio

open Efio.Lib
open Efio.Evio

/-- Inside `sync_file_writes`, between taking and giving back the guard. -/
def syncInside : GuardPc → Bool
  | .suspendWrites | .awaitAction | .syncWrites | .resumeWrites | .syncRelease => true
  | _ => false

/-- Between taking and giving back the guard. -/
def inside : GuardPc → Bool
  | .mutate _ | .release => true
  | p => syncInside p

/-- A free or alloc that has `1` left in `expected` from a failed attempt. -/
def stale : GuardPc → Bool
  | .acquire _ expected => expected == 1
  | _ => false

/-- A free or alloc whose last attempt failed does not try again while the
guard is held. -/
def NoStaleRetry {T : Type} (s : GuardState T) (l : GuardLabel T) : Prop :=
  s.preventActionMutation = 1 → ∀ t ∈ l.thread, stale (s.pc t) = false

instance {T : Type} : DecidableRel (NoStaleRetry (T := T)) := fun s l =>
  inferInstanceAs (Decidable (_ → ∀ t ∈ l.thread, stale (s.pc t) = false))

/-- The guard word counts the threads inside, and `expected` is what an
attempt can leave. -/
structure Guarded {T : Type} (s : GuardState T) : Prop where
  word : s.preventActionMutation = 0 ∨ s.preventActionMutation = 1
  free : s.preventActionMutation = 0 → ∀ t, inside (s.pc t) = false
  exclusive : ∀ t u, inside (s.pc t) = true → inside (s.pc u) = true → t = u
  expected : ∀ t m e, s.pc t = .acquire m e → e = 0 ∨ e = 1

variable {T : Type} [DecidableEq T] {s s' : GuardState T}

/-- How a step moves a thread from `p` to `q` and the guard word from `w`
to `w'`: it stays on its side of the guard, takes the guard, or gives it
back. -/
inductive Crossing (p q : GuardPc) (w w' : Int) : Prop where
  | stay (hside : inside q = inside p) (hword : w' = w)
  | take (hin : inside q = true) (hfree : w = 0) (htaken : w' = 1)
  | give (hin : inside p = true) (hout : inside q = false) (hgiven : w = 1 → w' = 0)

/-- Moving `t` alone keeps the invariant, if it crosses the guard as it
should. -/
theorem Guarded.move (h : Guarded s) (t : T) {q : GuardPc} {w' : Int}
    (hcross : Crossing (s.pc t) q s.preventActionMutation w')
    (hexp : ∀ m e, q = .acquire m e → e = 0 ∨ e = 1)
    (hs' : s'.pc = Function.update s.pc t q) (hw' : s'.preventActionMutation = w') :
    Guarded s' := by
  have hself : s'.pc t = q := by rw [hs', Function.update_self]
  have hother : ∀ u, u ≠ t → s'.pc u = s.pc u := fun u hu => by
    rw [hs', Function.update_of_ne hu]
  have hexpected : ∀ u m e, s'.pc u = .acquire m e → e = 0 ∨ e = 1 := by
    intro u m e hu
    by_cases hut : u = t
    · subst hut
      exact hexp m e (hself ▸ hu)
    · exact h.expected u m e (hother u hut ▸ hu)
  cases hcross with
  | stay hside hword =>
    have hiff : ∀ u, inside (s'.pc u) = inside (s.pc u) := by
      intro u
      by_cases hut : u = t
      · subst hut
        rw [hself, hside]
      · rw [hother u hut]
    refine ⟨by rw [hw', hword]; exact h.word, fun h0 u => ?_, fun u v hu hv => ?_, hexpected⟩
    · rw [hiff]
      exact h.free (by rw [← hword, ← hw']; exact h0) u
    · exact h.exclusive u v (hiff u ▸ hu) (hiff v ▸ hv)
  | take hin hfree htaken =>
    -- Nobody was inside: `t` is the only one now.
    have honly : ∀ u, inside (s'.pc u) = true → u = t := by
      intro u hu
      by_cases hut : u = t
      · exact hut
      · rw [hother u hut, h.free hfree u] at hu
        cases hu
    refine ⟨by rw [hw', htaken]; exact Or.inr rfl, fun h0 => ?_, fun u v hu hv => ?_, hexpected⟩
    · rw [hw', htaken] at h0
      exact absurd h0 (by decide)
    · rw [honly u hu, honly v hv]
  | give hin hout hgiven =>
    have hone : s.preventActionMutation = 1 :=
      h.word.resolve_left fun h0 => absurd (h.free h0 t) (by rw [hin]; decide)
    have hnone : ∀ u, inside (s'.pc u) = false := by
      intro u
      by_cases hut : u = t
      · subst hut
        rw [hself, hout]
      · rw [hother u hut]
        exact Bool.eq_false_iff.mpr fun hu => hut (h.exclusive u t hu hin)
    refine ⟨by rw [hw', hgiven hone]; exact Or.inl rfl, fun _ => hnone, fun u _ hu _ => ?_, hexpected⟩
    rw [hnone u] at hu
    cases hu

/-- A thread that stays on its side of the guard. -/
theorem Guarded.stay (h : Guarded s) (t : T) {q : GuardPc} (hside : inside q = inside (s.pc t))
    (hexp : ∀ m e, q = .acquire m e → e = 0 ∨ e = 1)
    (hs' : s'.pc = Function.update s.pc t q)
    (hw' : s'.preventActionMutation = s.preventActionMutation) : Guarded s' :=
  h.move t (.stay hside rfl) hexp hs' hw'

/-- The start of a call. -/
theorem Guarded.enter (h : Guarded s) {t : T} {q : GuardPc} (hout : inside q = false)
    (hexp : ∀ m e, q = .acquire m e → e = 0 ∨ e = 1) (hstep : s.enter t q = some s') :
    Guarded s' := by
  unfold GuardState.enter at hstep
  split at hstep
  · rename_i hidle
    obtain rfl := Option.some.inj hstep
    exact h.stay t (by rw [hidle, hout]; rfl) hexp rfl rfl
  · cases hstep

/-- The attempt of a free or alloc to take the guard. -/
theorem Guarded.acquire (h : Guarded s) {t : T} {yes : Bool} {m : Mutation} {e : Int}
    (hok : NoStaleRetry s (.advance t yes)) (hpc : s.pc t = .acquire m e)
    (hstep : s.advance t yes = some s') : Guarded s' := by
  simp only [GuardState.advance, hpc] at hstep
  obtain rfl := Option.some.inj hstep
  by_cases hw : s.preventActionMutation = e
  · -- The exchange succeeds; the condition leaves only the free guard.
    have hfree : s.preventActionMutation = 0 :=
      h.word.resolve_right fun h1 => by
        have hfresh := hok h1 t rfl
        rw [hpc, stale, ← hw, h1] at hfresh
        cases hfresh
    refine h.move t (q := .mutate m) (.take rfl hfree rfl) (by simp) ?_ ?_
    · rw [cas_of_eq hw]
      rfl
    · rw [cas_of_eq hw]
      rfl
  · refine h.stay t (q := .acquire m s.preventActionMutation) (by rw [hpc]; rfl) ?_ ?_ ?_
    · intro m' e' heq
      obtain ⟨-, rfl⟩ := GuardPc.acquire.inj heq
      exact h.word
    · rw [cas_of_ne hw]
      rfl
    · rw [cas_of_ne hw]
      rfl

/-- The attempt of `sync_file_writes` to take the guard. -/
theorem Guarded.syncAcquire (h : Guarded s) {t : T} {yes : Bool} (hpc : s.pc t = .syncAcquire)
    (hstep : s.advance t yes = some s') : Guarded s' := by
  simp only [GuardState.advance, hpc] at hstep
  obtain rfl := Option.some.inj hstep
  by_cases hw : s.preventActionMutation = 0
  · refine h.move t (q := .suspendWrites) (.take rfl hw rfl) (by simp) ?_ ?_
    · rw [cas_of_eq hw]
      rfl
    · rw [cas_of_eq hw]
      rfl
  · refine h.stay t (q := .syncAcquire) (by rw [hpc]) (by simp) ?_ ?_
    · rw [cas_of_ne hw]
      rfl
    · rw [cas_of_ne hw]
      rfl

/-- The change of the action under the guard. -/
theorem Guarded.mutate (h : Guarded s) {t : T} {yes : Bool} {m : Mutation}
    (hpc : s.pc t = .mutate m) (hstep : s.advance t yes = some s') : Guarded s' := by
  simp only [GuardState.advance, hpc] at hstep
  obtain ⟨s₁, hmut, rfl⟩ := Option.map_eq_some_iff.mp hstep
  have hsame : s₁.pc = s.pc ∧ s₁.preventActionMutation = s.preventActionMutation := by
    cases m with
    | free =>
      obtain ⟨a, -, rfl⟩ := Option.map_eq_some_iff.mp hmut
      exact ⟨rfl, rfl⟩
    | alloc oper =>
      obtain rfl := Option.some.inj hmut
      exact ⟨rfl, rfl⟩
  refine h.stay t (q := .release) (by rw [hpc]; rfl) (by simp) ?_ hsame.2
  show Function.update s₁.pc t _ = _
  rw [hsame.1]

/-- One step of a thread inside one of the functions. -/
theorem Guarded.advance (h : Guarded s) {t : T} {yes : Bool}
    (hok : NoStaleRetry s (.advance t yes)) (hstep : s.advance t yes = some s') : Guarded s' := by
  cases hpc : s.pc t with
  | acquire m e => exact h.acquire hok hpc hstep
  | syncAcquire => exact h.syncAcquire hpc hstep
  | mutate m => exact h.mutate hpc hstep
  | release =>
    simp only [GuardState.advance, hpc] at hstep
    obtain rfl := Option.some.inj hstep
    exact h.move t (.give (by rw [hpc]; rfl) rfl fun h1 => cas_word_of_eq h1) (by simp) rfl rfl
  | syncRelease =>
    simp only [GuardState.advance, hpc] at hstep
    obtain rfl := Option.some.inj hstep
    exact h.move t (.give (by rw [hpc]; rfl) rfl fun h1 => cas_word_of_eq h1) (by simp) rfl rfl
  | awaitAction =>
    simp only [GuardState.advance, hpc] at hstep
    have hgoto : s' = s ∨ s' = s.goto t .syncWrites := by
      split at hstep
      · split at hstep
        · exact Or.inl (Option.some.inj hstep).symm
        · exact Or.inr (Option.some.inj hstep).symm
      · exact Or.inr (Option.some.inj hstep).symm
    obtain rfl | rfl := hgoto
    · exact h
    · exact h.stay t (by rw [hpc]; rfl) (by simp) rfl rfl
  | idle => simp only [GuardState.advance, hpc, reduceCtorEq] at hstep
  | _ =>
    -- The other steps stay on their side of the guard.
    simp only [GuardState.advance, hpc] at hstep
    obtain rfl := Option.some.inj hstep
    refine h.stay t ?_ ?_ rfl rfl
    · rw [hpc]
      first | rfl | (split <;> rfl)
    · intro m e hq
      first | cases hq | (split at hq <;> cases hq)

/-- Every step that meets the condition keeps the guard exclusive. -/
theorem Guarded.step (h : Guarded s) {l : GuardLabel T} (hok : NoStaleRetry s l)
    (hstep : GuardState.step l s = some s') : Guarded s' := by
  cases l with
  | callAlloc t oper => exact h.enter rfl (by simp) hstep
  | callFree t => exact h.enter rfl (by simp) hstep
  | callSync t => exact h.enter rfl (by simp) hstep
  | advance t yes => exact h.advance hok hstep
  | writeEnter tag =>
    simp only [GuardState.step] at hstep
    split at hstep
    · obtain rfl := Option.some.inj hstep
      exact ⟨h.word, h.free, h.exclusive, h.expected⟩
    · cases hstep
  | writeLeave tag =>
    simp only [GuardState.step] at hstep
    split at hstep
    · obtain rfl := Option.some.inj hstep
      exact ⟨h.word, h.free, h.exclusive, h.expected⟩
    · cases hstep

/-- Only a thread at `mutate` changes the action. -/
theorem action_of_step {l : GuardLabel T} (hmut : ∀ t m, s.pc t ≠ .mutate m)
    (hstep : GuardState.step l s = some s') : s'.action = s.action := by
  have henter : ∀ t q, s.enter t q = some s' → s'.action = s.action := by
    intro t q h
    unfold GuardState.enter at h
    split at h
    · obtain rfl := Option.some.inj h
      rfl
    · cases h
  cases l with
  | callAlloc t oper => exact henter _ _ hstep
  | callFree t => exact henter _ _ hstep
  | callSync t => exact henter _ _ hstep
  | advance t yes =>
    change s.advance t yes = some s' at hstep
    cases hpc : s.pc t with
    | mutate m => exact absurd hpc (hmut t m)
    | idle => simp only [GuardState.advance, hpc, reduceCtorEq] at hstep
    | awaitAction =>
      simp only [GuardState.advance, hpc] at hstep
      split at hstep
      · split at hstep <;> obtain rfl := Option.some.inj hstep <;> rfl
      · obtain rfl := Option.some.inj hstep
        rfl
    | _ =>
      simp only [GuardState.advance, hpc] at hstep
      obtain rfl := Option.some.inj hstep
      rfl
  | writeEnter tag =>
    simp only [GuardState.step] at hstep
    split at hstep
    · obtain rfl := Option.some.inj hstep
      rfl
    · cases hstep
  | writeLeave tag =>
    simp only [GuardState.step] at hstep
    split at hstep
    · obtain rfl := Option.some.inj hstep
      rfl
    · cases hstep

/-- In every run without a stale retry at most one thread is inside the
guard, and no step changes the action while `sync_file_writes` is. -/
theorem guard_exclusive {action : Option (Nat × FileOper)} {nextId : Nat}
    (h : Reach GuardState.step NoStaleRetry (GuardState.initial (T := T) action nextId) s) :
    (∀ t u, inside (s.pc t) = true → inside (s.pc u) = true → t = u) ∧
      ∀ t, syncInside (s.pc t) = true →
        ∀ l s', GuardState.step l s = some s' → s'.action = s.action := by
  have hinv : Guarded s := by
    refine h.invariant ⟨Or.inl rfl, fun _ _ => rfl, fun t _ ht _ => ?_, fun t m e ht => ?_⟩
      fun s s' l hs hok hstep => hs.step hok hstep
    · cases ht
    · cases ht
  refine ⟨hinv.exclusive, fun t ht l s' hstep => action_of_step (fun u m hu => ?_) hstep⟩
  have htin : inside (s.pc t) = true := by
    cases hpc : s.pc t <;> rw [hpc] at ht <;> first | rfl | cases ht
  obtain rfl := hinv.exclusive t u htin (by rw [hu]; rfl)
  rw [hu] at ht
  cases ht

/-- One thread syncs while another one tries once to free the action. -/
theorem guard_exclusive_sample :
    ∃ s : GuardState Nat, s.preventActionMutation = 1 ∧
      (∀ t u, inside (s.pc t) = true → inside (s.pc u) = true → t = u) ∧
      ∀ t, syncInside (s.pc t) = true →
        ∀ l s', GuardState.step l s = some s' → s'.action = s.action :=
  ⟨_, rfl, guard_exclusive
    (show Reach GuardState.step NoStaleRetry (GuardState.initial (some (0, .operWrite)) 1) _ from
      Reach.of_run .init
        [.callSync 0, .advance 0 true, .advance 0 true, .advance 0 true, .callFree 1, .advance 1 true]
        rfl)⟩

/-- The second attempt of the free succeeds while `sync_file_writes` holds
the guard, and the action is gone. -/
theorem guard_not_exclusive :
    ∃ s : GuardState Nat,
      Reach GuardState.step (fun _ _ => True) (GuardState.initial (some (0, .operRead)) 1) s ∧
      syncInside (s.pc 0) = true ∧ inside (s.pc 1) = true ∧
      ∃ s', GuardState.step (.advance 1 true) s = some s' ∧ s'.action = none ∧
        s.action = some (0, .operRead) ∧ syncInside (s'.pc 0) = true :=
  ⟨_, Reach.of_run .init
    [.callSync 0, .advance 0 true, .advance 0 true, .advance 0 true, .callFree 1, .advance 1 true,
      .advance 1 true] rfl, rfl, rfl, _, rfl, rfl, rfl, rfl⟩

end Efio.Proofs.Evio
