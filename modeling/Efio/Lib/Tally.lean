import Mathlib.Algebra.BigOperators.Group.Finset.Piecewise
import Mathlib.Algebra.GroupWithZero.Nat
import Mathlib.Data.Finset.Dedup

/-!
# `Efio.Lib.Tally`: a list of what occurs, and how often

`Tallies ws ts` says that `ts` has each entry of `ws` once, with the number
of its occurrences. A tally grows with the list that it belongs to: by a new
entry (`Tallies.fresh`), or by counting one that is there (`Tallies.again`).

A sum over a tally is a sum over the distinct entries (`Tallies.sum_map`).
For two tallies, a search that stops at the first match finds the only one
(`Tallies.find`), so the products of the matches are a sum over the common
entries (`Tallies.sum_matches`).
-/

set_option autoImplicit false

namespace Efio.Lib

variable {α : Type} {ws vs : List α} {ts us : List (α × Nat)} {w : α} {n j : Nat}

/-- The entries are the same when one of them is counted. -/
theorem map_fst_set (hj : ts[j]? = some (w, n)) (m : Nat) : (ts.set j (w, m)).map Prod.fst = ts.map Prod.fst := by
  obtain ⟨hlt, hget⟩ := List.getElem?_eq_some_iff.mp hj
  have hlt' : j < (ts.map Prod.fst).length := by rwa [List.length_map]
  have hw : (ts.map Prod.fst)[j] = w := by rw [List.getElem_map, hget]
  rw [List.map_set, ← hw, List.set_getElem_self]

/-- What is left out counts as zero. -/
theorem sum_filterMap {β M : Type} [AddCommMonoid M] (xs : List β) (g : β → Option M) :
    (xs.filterMap g).sum = (xs.map fun x => (g x).getD 0).sum := by
  induction xs with
  | nil => rfl
  | cons x xs ih =>
    rw [List.filterMap_cons, List.map_cons, List.sum_cons]
    cases g x with
    | none => rw [ih, Option.getD_none, zero_add]
    | some m => rw [List.sum_cons, ih, Option.getD_some]

variable [BEq α]

/-- `ts` lists what occurs in `ws`, with the numbers of occurrences. -/
structure Tallies (ws : List α) (ts : List (α × Nat)) : Prop where
  nodup : (ts.map Prod.fst).Nodup
  listed : ∀ w, w ∈ ts.map Prod.fst ↔ w ∈ ws
  counted : ∀ p ∈ ts, p.2 = ws.count p.1

theorem Tallies.nil : Tallies ([] : List α) [] := ⟨List.nodup_nil, fun _ => Iff.rfl, fun _ h => by cases h⟩

/-! ### How a tally grows -/

section Growing

variable [LawfulBEq α]

/-- The first occurrence of `w`. -/
theorem Tallies.fresh (h : Tallies ws ts) (hw : w ∉ ws) : Tallies (ws ++ [w]) (ts ++ [(w, 1)]) where
  nodup := by
    rw [List.map_append, List.nodup_append]
    refine ⟨h.nodup, List.nodup_singleton w, ?_⟩
    intro x hx y hy
    rw [List.mem_singleton.mp hy]
    rintro rfl
    exact hw ((h.listed x).mp hx)
  listed x := by
    rw [List.map_append, List.mem_append, List.mem_append, h.listed]
    rfl
  counted p hp := by
    rw [List.count_append]
    rcases List.mem_append.mp hp with hold | hnew
    · -- An entry that was there is not `w`.
      have hne : p.1 ≠ w := by
        rintro rfl
        exact hw ((h.listed p.1).mp (List.mem_map_of_mem hold))
      rw [h.counted p hold, List.count_singleton, if_neg (by simpa using hne.symm)]
      rfl
    · rw [List.mem_singleton.mp hnew, List.count_eq_zero_of_not_mem hw, List.count_singleton_self]

/-- Another occurrence of `w`. -/
theorem Tallies.again (h : Tallies ws ts) (hj : ts[j]? = some (w, n)) :
    Tallies (ws ++ [w]) (ts.set j (w, n + 1)) where
  nodup := by
    rw [map_fst_set hj]
    exact h.nodup
  listed x := by
    have hmem : w ∈ ws := (h.listed w).mp (List.mem_map_of_mem (List.mem_of_getElem? hj))
    rw [map_fst_set hj, h.listed, List.mem_append, List.mem_singleton]
    constructor
    · exact .inl
    · rintro (hx | rfl)
      · exact hx
      · exact hmem
  counted p hp := by
    obtain ⟨i, hi, hpi⟩ := List.mem_iff_getElem.mp hp
    rw [List.count_append]
    rw [List.length_set] at hi
    rw [List.getElem_set] at hpi
    split at hpi
    · rw [← hpi, List.count_singleton_self, ← h.counted (w, n) (List.mem_of_getElem? hj)]
    · next hne =>
      -- The entries are distinct, so this one is not `w`.
      have hpw : p.1 ≠ w := by
        intro hw
        have hget : (ts.map Prod.fst)[j]? = (ts.map Prod.fst)[i]? := by
          rw [List.getElem?_map, List.getElem?_map, hj, List.getElem?_eq_getElem hi, hpi, Option.map_some,
            Option.map_some, hw]
        have hlt : j < (ts.map Prod.fst).length := by
          rw [List.length_map]
          exact (List.getElem?_eq_some_iff.mp hj).1
        exact hne ((List.getElem?_inj hlt h.nodup).mp hget)
      rw [h.counted p (hpi ▸ List.getElem_mem hi), List.count_singleton, if_neg (by simpa using hpw.symm)]
      rfl

end Growing

/-! ### Sums over a tally -/

variable [DecidableEq α]

theorem Tallies.toFinset (h : Tallies ws ts) : (ts.map Prod.fst).toFinset = ws.toFinset := by
  ext w
  rw [List.mem_toFinset, List.mem_toFinset, h.listed]

/-- A tally is as long as there are distinct entries. -/
theorem Tallies.length (h : Tallies ws ts) : ts.length = ws.toFinset.card := by
  rw [← h.toFinset, List.toFinset_card_of_nodup h.nodup, List.length_map]

theorem Tallies.sum_map {M : Type} [AddCommMonoid M] (h : Tallies ws ts) (f : α → Nat → M) :
    (ts.map fun p => f p.1 p.2).sum = ∑ w ∈ ws.toFinset, f w (ws.count w) := by
  have hcounted : ts.map (fun p => f p.1 p.2) = (ts.map Prod.fst).map fun w => f w (ws.count w) := by
    rw [List.map_map]
    apply List.map_congr_left
    intro p hp
    show f p.1 p.2 = f p.1 (ws.count p.1)
    rw [h.counted p hp]
  rw [hcounted, ← List.sum_toFinset _ h.nodup, h.toFinset]

/-- The numbers add up to the length of the list. -/
theorem Tallies.total [LawfulBEq α] (h : Tallies ws ts) : (ts.map Prod.snd).sum = ws.length := by
  rw [← ws.sum_toFinset_count_eq_length, lawful_beq_subsingleton instBEqOfDecidableEq (inferInstanceAs (BEq α))]
  exact h.sum_map fun _ n => n

/-! ### Matches between two tallies -/

variable [LawfulBEq α]

/-- The first match is the only one. -/
theorem Tallies.find (h : Tallies ws ts) (w : α) :
    ts.find? (fun p => w = p.1) = if w ∈ ws then some (w, ws.count w) else none := by
  cases hfind : ts.find? (fun p => w = p.1) with
  | some p =>
    have hfound := List.find?_some hfind
    have hw : w = p.1 := of_decide_eq_true hfound
    have hp : p ∈ ts := List.mem_of_find?_eq_some hfind
    have hmem : w ∈ ws := (h.listed w).mp (hw ▸ List.mem_map_of_mem hp)
    rw [if_pos hmem, hw, ← h.counted p hp]
  | none =>
    have hmem : w ∉ ws := by
      intro hmem
      obtain ⟨p, hp, hw⟩ := List.mem_map.mp ((h.listed w).mpr hmem)
      exact List.find?_eq_none.mp hfind p hp (decide_eq_true hw.symm)
    rw [if_neg hmem]

/-- The matches of two tallies, added up. -/
theorem Tallies.sum_matches {M : Type} [AddCommMonoid M] (h : Tallies ws ts) (hu : Tallies vs us)
    (f : Nat → Nat → M) :
    (ts.filterMap fun p => (us.find? fun q => p.1 = q.1).map fun q => f p.2 q.2).sum =
      ∑ w ∈ ws.toFinset ∩ vs.toFinset, f (ws.count w) (vs.count w) := by
  have hmatch : ∀ p : α × Nat, ((us.find? fun q => p.1 = q.1).map fun q => f p.2 q.2).getD 0 =
      if p.1 ∈ vs.toFinset then f p.2 (vs.count p.1) else 0 := by
    intro p
    simp only [hu.find, List.mem_toFinset]
    split <;> rfl
  simp only [sum_filterMap, hmatch]
  rw [h.sum_map fun w n => if w ∈ vs.toFinset then f n (vs.count w) else 0]
  exact Finset.sum_ite_mem _ _ _

end Efio.Lib
