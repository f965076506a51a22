import Mathlib.Init

/-!
# `Efio.Lib.Transition`: labelled steps, runs and invariants

A system is a function `step : ℓ → σ → Option σ`: under the label `l` the
state `s` moves to `s'` when `step l s = some s'`, and `l` is disabled
when it is `none`. A label names the thread that moves and what it
chooses.

`Reach step ok s₀ s` says that `s` is reached from `s₀` by steps that all
meet the condition `ok`, which looks at the state before the step and at
the label. With `ok` true everywhere these are the reachable states.

* `Reach.invariant`: what holds at the start and is kept by every step
  that meets the condition holds in every state reached;
* `Reach.mono`: a run under a stronger condition is a run under a weaker
  one;
* `Reach.of_run`: a run given by its labels;
* `Reach.determined`: when the condition leaves one label at most, of two
  states that are reached one is reached from the other.

A step that can fail is a chain of binds in `Except`; `bind_eq_ok` takes
it apart.
-/

set_option autoImplicit false

namespace Efio.Lib

theorem bind_eq_ok {ε α β : Type} {x : Except ε α} {f : α → Except ε β} {b : β} :
    (x >>= f) = .ok b ↔ ∃ a, x = .ok a ∧ f a = .ok b := by
  constructor
  · intro h
    cases x with
    | error e => cases h
    | ok a => exact ⟨a, rfl, h⟩
  · rintro ⟨a, rfl, h⟩
    exact h

theorem ok_bind {ε α β : Type} (a : α) (f : α → Except ε β) : (Except.ok a >>= f) = f a := rfl

variable {σ ℓ : Type} {step : ℓ → σ → Option σ} {ok ok' : σ → ℓ → Prop} {s₀ s : σ}

/-- The steps with the labels `ls`, in order, as long as they meet `ok`. -/
def run (step : ℓ → σ → Option σ) (ok : σ → ℓ → Prop) [DecidableRel ok] :
    List ℓ → σ → Option σ
  | [], s => some s
  | l :: ls, s => if ok s l then (step l s).bind (run step ok ls) else none

/-- The states reached from `s₀` by steps that meet `ok`. -/
inductive Reach (step : ℓ → σ → Option σ) (ok : σ → ℓ → Prop) (s₀ : σ) : σ → Prop where
  | init : Reach step ok s₀ s₀
  | step {s s' : σ} {l : ℓ} (h : Reach step ok s₀ s) (hok : ok s l) (hstep : step l s = some s') :
      Reach step ok s₀ s'

/-- An inductive invariant holds in every state reached. -/
theorem Reach.invariant {I : σ → Prop} (h₀ : I s₀)
    (hpres : ∀ s s' l, I s → ok s l → step l s = some s' → I s') (h : Reach step ok s₀ s) : I s := by
  induction h with
  | init => exact h₀
  | step _ hok hstep ih => exact hpres _ _ _ ih hok hstep

/-- The condition may be weakened, also with the help of an invariant. -/
theorem Reach.mono {I : σ → Prop} (hinv : ∀ s, Reach step ok s₀ s → I s)
    (himp : ∀ s l, I s → ok s l → ok' s l) (h : Reach step ok s₀ s) : Reach step ok' s₀ s := by
  induction h with
  | init => exact .init
  | step hreach hok hstep ih => exact .step ih (himp _ _ (hinv _ hreach) hok) hstep

theorem Reach.trans {s' : σ} (h : Reach step ok s₀ s) (h' : Reach step ok s s') : Reach step ok s₀ s' := by
  induction h' with
  | init => exact h
  | step _ hok hstep ih => exact .step ih hok hstep

theorem Reach.single {s' : σ} {l : ℓ} (hok : ok s l) (hstep : step l s = some s') : Reach step ok s s' :=
  .step .init hok hstep

/-- The first step of a run. -/
theorem Reach.head (h : Reach step ok s₀ s) :
    s = s₀ ∨ ∃ l s₁, ok s₀ l ∧ step l s₀ = some s₁ ∧ Reach step ok s₁ s := by
  induction h with
  | init => exact .inl rfl
  | step _ hok hstep ih =>
    rcases ih with rfl | ⟨l, s₁, hok₁, hstep₁, hrest⟩
    · exact .inr ⟨_, _, hok, hstep, .init⟩
    · exact .inr ⟨l, s₁, hok₁, hstep₁, .step hrest hok hstep⟩

/-- With one label at most in each state there is one run. -/
theorem Reach.determined {s' : σ} (huniq : ∀ s l l', ok s l → ok s l' → l = l')
    (h : Reach step ok s₀ s) (h' : Reach step ok s₀ s') :
    Reach step ok s s' ∨ Reach step ok s' s := by
  induction h with
  | init => exact .inl h'
  | step _ hok hstep ih =>
    rcases ih with hahead | hbehind
    · rcases hahead.head with rfl | ⟨l', s₁, hok', hstep', hrest⟩
      · exact .inr (.single hok hstep)
      · obtain rfl := huniq _ _ _ hok hok'
        obtain rfl := Option.some.inj (hstep.symm.trans hstep')
        exact .inl hrest
    · exact .inr (.step hbehind hok hstep)

/-- A run reaches its last state. -/
theorem Reach.of_run [DecidableRel ok] (h₀ : Reach step ok s₀ s) :
    ∀ (ls : List ℓ) {s' : σ}, run step ok ls s = some s' → Reach step ok s₀ s' := by
  intro ls
  induction ls generalizing s with
  | nil =>
    intro s' h
    exact Option.some.inj h ▸ h₀
  | cons l ls ih =>
    intro s' h
    unfold run at h
    split at h
    · rename_i hok
      obtain ⟨s₁, hstep, hrun⟩ := Option.bind_eq_some_iff.mp h
      exact ih (.step h₀ hok hstep) hrun
    · cases h

end Efio.Lib
