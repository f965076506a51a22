import Efio.Lib.Transition

/-!
# `Efio.Lib.Progress`: runs that come to an end

`Steps` is `Reach` with the number of steps. A state is at rest when no
step that meets the condition is possible. `Settles step ok bound goal s`
says that from `s` the system cannot go on for more than `bound` steps, in
whatever order they are made, and that it stops only where `goal` holds.

* `Settles.of_measure`: with a measure that every step lowers, only the
  states at rest have to be looked at;
* `AtRest.unchanged`: a thread that looks at a word again and again does not
  count as one that moves.
-/

set_option autoImplicit false

namespace Efio.Lib

variable {σ ℓ : Type} {step : ℓ → σ → Option σ} {ok : σ → ℓ → Prop} {goal : σ → Prop}
  {s s' : σ} {n bound : Nat}

/-- `n` steps that meet `ok` lead from `s` to `s'`. -/
inductive Steps (step : ℓ → σ → Option σ) (ok : σ → ℓ → Prop) (s : σ) : Nat → σ → Prop where
  | none : Steps step ok s 0 s
  | next {n : Nat} {s₁ s₂ : σ} {l : ℓ} (h : Steps step ok s n s₁) (hok : ok s₁ l)
      (hstep : step l s₁ = some s₂) : Steps step ok s (n + 1) s₂

/-- No step that meets `ok` is possible. -/
def AtRest (step : ℓ → σ → Option σ) (ok : σ → ℓ → Prop) (s : σ) : Prop :=
  ∀ l, ok s l → step l s = none

/-- From `s` there are at most `bound` steps, and they end where `goal`
holds. -/
structure Settles (step : ℓ → σ → Option σ) (ok : σ → ℓ → Prop) (bound : Nat) (goal : σ → Prop)
    (s : σ) : Prop where
  bounded : ∀ n s', Steps step ok s n s' → n ≤ bound
  rest : ∀ s', Reach step ok s s' → AtRest step ok s' → goal s'

/-- The step changes the state. A thread that looks at a word again and
finds nothing new makes a step that does not. -/
def Changes (step : ℓ → σ → Option σ) (s : σ) (l : ℓ) : Prop := step l s ≠ some s

/-- Where only threads that wait can move, they wait. -/
theorem AtRest.unchanged {l : ℓ} (h : AtRest step (fun s l => ok s l ∧ Changes step s l) s)
    (hstep : step l s = some s') (hok : ok s l) : s' = s := by
  refine Classical.byContradiction fun hne => ?_
  have hmoves : Changes step s l := fun hsame => hne (Option.some.inj (hstep.symm.trans hsame))
  cases hstep.symm.trans (h l ⟨hok, hmoves⟩)

/-- A measure that every step lowers bounds the number of steps. -/
theorem Steps.le_measure {I : σ → Prop} {μ : σ → Nat} (hI : I s)
    (hpres : ∀ s s' l, I s → ok s l → step l s = some s' → I s' ∧ μ s' < μ s)
    (h : Steps step ok s n s') : I s' ∧ n + μ s' ≤ μ s := by
  induction h with
  | none => exact ⟨hI, Nat.le_of_eq (Nat.zero_add _)⟩
  | next _ hok hstep ih =>
    obtain ⟨hI', hlt⟩ := hpres _ _ _ ih.1 hok hstep
    have hle := ih.2
    exact ⟨hI', by omega⟩

theorem Settles.of_measure {I : σ → Prop} {μ : σ → Nat} (hI : I s)
    (hpres : ∀ s s' l, I s → ok s l → step l s = some s' → I s' ∧ μ s' < μ s)
    (hrest : ∀ s, I s → AtRest step ok s → goal s) : Settles step ok (μ s) goal s where
  bounded n s' h := by
    have hle := (h.le_measure hI hpres).2
    omega
  rest s' h hstop :=
    hrest s' (h.invariant hI fun s s' l hs hok hstep => (hpres s s' l hs hok hstep).1) hstop

end Efio.Lib
