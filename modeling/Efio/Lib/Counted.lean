import Mathlib.Algebra.BigOperators.Fin
import Mathlib.Data.Finset.Card
import Mathlib.Logic.Function.Basic

/-!
# `Efio.Lib.Counted`: a word that counts threads

`Counted P pc n` says that `n` is the number of threads whose place has
`P`. There may be infinitely many threads, of which only these finitely
many are counted.

* `Counted.update`: a thread moves to another place;
* `Counted.pos`, `Counted.none`: what the word says about the threads;
* `sum_update`: the same for a sum over finitely many threads.
-/

set_option autoImplicit false

namespace Efio.Lib

variable {T α : Type} {P : α → Bool} {pc : T → α} {n : Int} {t : T}

/-- The threads at a place with `P` are `n` in number. -/
def Counted (P : α → Bool) (pc : T → α) (n : Int) : Prop :=
  ∃ R : Finset T, (∀ t, t ∈ R ↔ P (pc t) = true) ∧ n = R.card

/-- What a thread at the place `p` adds to the count. -/
def share (P : α → Bool) (p : α) : Int := if P p = true then 1 else 0

theorem Counted.update [DecidableEq T] (h : Counted P pc n) (t : T) (q : α) :
    Counted P (Function.update pc t q) (n + (share P q - share P (pc t))) := by
  obtain ⟨R, hmem, hcard⟩ := h
  have hself : t ∈ R ↔ P (pc t) = true := hmem t
  have hother : ∀ {u}, u ≠ t → (u ∈ R ↔ P (Function.update pc t q u) = true) := by
    intro u hu
    rw [Function.update_of_ne hu]
    exact hmem u
  by_cases hq : P q = true
  · -- The thread is counted afterwards.
    refine ⟨insert t R, ?_, ?_⟩
    · intro u
      by_cases hu : u = t
      · simp [hu, hq]
      · simp [hu, hmem]
    · by_cases ht : t ∈ R
      · simp [share, hq, hself.mp ht, Finset.insert_eq_of_mem ht, hcard]
      · simp [share, hq, mt hself.mpr ht, Finset.card_insert_of_notMem ht, hcard]
  · refine ⟨R.erase t, ?_, ?_⟩
    · intro u
      by_cases hu : u = t
      · simp [hu, hq]
      · simp [hu, hmem]
    · by_cases ht : t ∈ R
      · have hpos : 0 < R.card := Finset.card_pos.mpr ⟨t, ht⟩
        simp only [share, hq, hself.mp ht, hcard, Finset.card_erase_of_mem ht]
        simp
        omega
      · simp [share, hq, mt hself.mpr ht, Finset.erase_eq_of_notMem ht, hcard]

/-- A thread that is counted makes the word positive. -/
theorem Counted.pos (h : Counted P pc n) (ht : P (pc t) = true) : 0 < n := by
  obtain ⟨R, hmem, rfl⟩ := h
  have hpos : 0 < R.card := Finset.card_pos.mpr ⟨t, (hmem t).mpr ht⟩
  omega

theorem Counted.nonneg (h : Counted P pc n) : 0 ≤ n := by
  obtain ⟨R, -, rfl⟩ := h
  omega

/-- At zero no thread is counted. -/
theorem Counted.none (h : Counted P pc 0) (t : T) : P (pc t) = false := by
  by_contra ht
  exact absurd (h.pos (Bool.eq_true_of_not_eq_false ht)) (by omega)

/-- When no thread is counted, the word is zero. -/
theorem Counted.eq_zero (h : Counted P pc n) (hnone : ∀ t, P (pc t) = false) : n = 0 := by
  obtain ⟨R, hmem, rfl⟩ := h
  have hempty : R = ∅ := Finset.eq_empty_of_forall_notMem fun t ht => by
    have hcounted : P (pc t) = true := (hmem t).mp ht
    rw [hnone t] at hcounted
    cases hcounted
  simp [hempty]

/-- One of finitely many threads moves to another place. -/
theorem sum_update [Fintype T] [DecidableEq T] {M : Type} [AddCommMonoid M] (g : α → M) (f : T → α)
    (i : T) (q : α) : (∑ j, g (Function.update f i q j)) + g (f i) = (∑ j, g (f j)) + g q := by
  have hothers : ∑ j ∈ Finset.univ.erase i, g (Function.update f i q j)
      = ∑ j ∈ Finset.univ.erase i, g (f j) := by
    refine Finset.sum_congr rfl fun j hj => ?_
    rw [Function.update_of_ne (Finset.ne_of_mem_erase hj)]
  rw [← Finset.add_sum_erase _ (fun j => g (Function.update f i q j)) (Finset.mem_univ i),
    ← Finset.add_sum_erase _ (fun j => g (f j)) (Finset.mem_univ i), hothers, Function.update_self]
  ac_rfl

end Efio.Lib
