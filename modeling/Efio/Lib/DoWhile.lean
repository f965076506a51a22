/-!
# `Efio.Lib.DoWhile`: loops with the test at the end

A round of a loop either goes on with the next state or ends the loop with
a result (`Round`). `doWhile body fuel s` makes at most `fuel` rounds from
`s`, and gives nothing when the loop has not ended by then.

`doWhile_unique` says that the result does not depend on the fuel.
`doWhile_ends` is the rule for total correctness: each round that goes on
lowers a number that comes with the invariant. `doWhile_post` is the rule
for partial correctness. `doWhile_endless` is the rule for a loop that
never ends.
-/

set_option autoImplicit false

namespace Efio.Lib

variable {σ ρ : Type}

/-- What a round does. -/
inductive Round (σ ρ : Type) where
  | again (s : σ)
  | done (r : ρ)

/-- What holds of the state with which the loop goes on, or of the result. -/
def Round.Meets (P : σ → Prop) (Q : ρ → Prop) : Round σ ρ → Prop
  | .again s => P s
  | .done r => Q r

/-- The loop, for at most `fuel` rounds. -/
def doWhile (body : σ → Round σ ρ) : Nat → σ → Option ρ
  | 0, _ => none
  | fuel + 1, s =>
    match body s with
    | .again s' => doWhile body fuel s'
    | .done r => some r

variable {body : σ → Round σ ρ} {Q : ρ → Prop}

theorem doWhile_again {s s' : σ} (h : body s = .again s') (fuel : Nat) :
    doWhile body (fuel + 1) s = doWhile body fuel s' := by
  rw [doWhile, h]

theorem doWhile_done {s : σ} {r : ρ} (h : body s = .done r) (fuel : Nat) :
    doWhile body (fuel + 1) s = some r := by
  rw [doWhile, h]

/-- More fuel gives the same result. -/
theorem doWhile_add {fuel : Nat} {s : σ} {r : ρ} (h : doWhile body fuel s = some r) (k : Nat) :
    doWhile body (fuel + k) s = some r := by
  induction fuel generalizing s with
  | zero => cases h
  | succ fuel ih =>
    rw [Nat.succ_add]
    cases hbody : body s with
    | again s' =>
      rw [doWhile_again hbody] at h ⊢
      exact ih h
    | done r' => rwa [doWhile_done hbody] at h ⊢

/-- The result does not depend on the fuel. -/
theorem doWhile_unique {fuel fuel' : Nat} {s : σ} {r r' : ρ} (h : doWhile body fuel s = some r)
    (h' : doWhile body fuel' s = some r') : r = r' := by
  have hadd := doWhile_add h fuel'
  rw [Nat.add_comm, doWhile_add h' fuel] at hadd
  exact (Option.some.inj hadd).symm

/-- **Total correctness.** A round that goes on keeps the invariant for a
smaller number, and a round that ends the loop has the right result. -/
theorem doWhile_ends {I : Nat → σ → Prop}
    (step : ∀ n s, I n s → (body s).Meets (fun s' => ∃ m < n, I m s') Q) {n : Nat} {s : σ} (h : I n s) :
    ∃ fuel r, doWhile body fuel s = some r ∧ Q r := by
  induction n using Nat.strongRecOn generalizing s with
  | _ n ih =>
    have hstep := step n s h
    cases hbody : body s with
    | again s' =>
      rw [hbody] at hstep
      obtain ⟨m, hm, hs'⟩ := hstep
      obtain ⟨fuel, r, hrun, hr⟩ := ih m hm hs'
      exact ⟨fuel + 1, r, (doWhile_again hbody fuel).trans hrun, hr⟩
    | done r =>
      rw [hbody] at hstep
      exact ⟨1, r, doWhile_done hbody 0, hstep⟩

/-- **Partial correctness.** -/
theorem doWhile_post {I : σ → Prop} (step : ∀ s, I s → (body s).Meets I Q) {fuel : Nat} {s : σ} {r : ρ}
    (h : I s) (hrun : doWhile body fuel s = some r) : Q r := by
  induction fuel generalizing s with
  | zero => cases hrun
  | succ fuel ih =>
    have hstep := step s h
    cases hbody : body s with
    | again s' =>
      rw [hbody] at hstep
      exact ih hstep ((doWhile_again hbody fuel).symm.trans hrun)
    | done r' =>
      rw [hbody] at hstep
      cases (doWhile_done hbody fuel).symm.trans hrun
      exact hstep

/-- A loop that always goes on gives no result, whatever the fuel. -/
theorem doWhile_endless {I : σ → Prop} (step : ∀ s, I s → (body s).Meets I fun _ => False) {s : σ} (h : I s)
    (fuel : Nat) : doWhile body fuel s = none := by
  cases hrun : doWhile body fuel s with
  | none => rfl
  | some r => exact (doWhile_post step h hrun).elim

end Efio.Lib
