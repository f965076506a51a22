import Mathlib.Data.Finset.Card
import Mathlib.Data.Int.Interval

/-!
# `Efio.Lib.RoundRobin`: an index that goes around

An array of `N` elements is visited in turn: the element behind `i` is
`(i + 1) % N`, with the remainder of C, which has the sign of the
dividend. `inRange_tmod_iff` says when a remainder is an index at all, and
`exists_around` that `N` visits in a row are visits of all elements.
`nodup_iff_covers` is the pigeonhole: of `N` visits none is a repetition if
and only if none is missing.
-/

set_option autoImplicit false

namespace Efio.Lib

variable {N c i j : Int} {k : Nat} {l : List Int}

/-- `i` is an index of an array of `N` elements. -/
def InRange (N i : Int) : Prop := 0 ≤ i ∧ i < N

instance (N i : Int) : Decidable (InRange N i) := inferInstanceAs (Decidable (_ ∧ _))

theorem InRange.pos (hi : InRange N i) : 0 < N := Int.lt_of_le_of_lt hi.1 hi.2

/-- The remainder of a negative number is negative or zero. -/
theorem inRange_tmod_iff (hN : 0 < N) : InRange N (c.tmod N) ↔ 0 ≤ c ∨ N ∣ c := by
  have hnonneg := Int.emod_nonneg c (Int.ne_of_gt hN)
  have hlt := Int.emod_lt_of_pos c hN
  rw [InRange, Int.tmod_eq_emod]
  by_cases hc : 0 ≤ c ∨ N ∣ c
  · rw [if_pos hc]
    exact iff_of_true (by omega) hc
  · rw [if_neg hc]
    exact iff_of_false (by omega) hc

theorem tmod_eq_of_inRange (hc : InRange N (c.tmod N)) : c.tmod N = c % N := by
  rw [Int.tmod_eq_emod, if_pos ((inRange_tmod_iff hc.pos).mp hc), Int.natCast_zero, Int.sub_zero]

theorem inRange_emod (hN : 0 < N) (c : Int) : InRange N (c % N) :=
  ⟨Int.emod_nonneg c (Int.ne_of_gt hN), Int.emod_lt_of_pos c hN⟩

/-- The index behind `i`. -/
def nextIndex (N i : Int) : Int := (i + 1).tmod N

theorem nextIndex_inRange (hi : InRange N i) : InRange N (nextIndex N i) :=
  (inRange_tmod_iff hi.pos).mpr (.inl (Int.add_nonneg hi.1 Int.one_nonneg))

/-- The index `k` places behind `i`. -/
def around (N i : Int) (k : Nat) : Int := (i + k) % N

theorem around_zero (hi : InRange N i) : around N i 0 = i := by
  rw [around, Int.natCast_zero, Int.add_zero, Int.emod_eq_of_lt hi.1 hi.2]

theorem around_succ (hi : InRange N i) (k : Nat) : around N (nextIndex N i) k = around N i (k + 1) := by
  rw [around, around, nextIndex, tmod_eq_of_inRange (nextIndex_inRange hi), Int.emod_add_emod,
    Int.natCast_add, Int.natCast_one, Int.add_assoc, Int.add_comm 1]

/-- `N` visits in a row go to all elements. -/
theorem exists_around (hj : InRange N j) (i : Int) : ∃ k : Nat, (k : Int) < N ∧ around N i k = j := by
  obtain ⟨hnonneg, hlt⟩ := inRange_emod hj.pos (j - i)
  refine ⟨((j - i) % N).toNat, ?_, ?_⟩
  · rwa [Int.toNat_of_nonneg hnonneg]
  · have hsum : i + (j - i) = j := by omega
    rw [around, Int.toNat_of_nonneg hnonneg, Int.add_emod_emod, hsum, Int.emod_eq_of_lt hj.1 hj.2]

/-- Of `N` visits none is a repetition if and only if none is missing. -/
theorem nodup_iff_covers (hrange : ∀ i ∈ l, InRange N i) (hlength : (l.length : Int) = N) :
    l.Nodup ↔ ∀ i, InRange N i → i ∈ l := by
  have hsubset : l.toFinset ⊆ Finset.Ico 0 N := by
    intro i hi
    exact Finset.mem_Ico.mpr (hrange i (List.mem_toFinset.mp hi))
  have hcard : (Finset.Ico 0 N).card = l.length := by
    rw [Int.card_Ico]
    omega
  constructor
  · intro hnodup i hi
    have hall : l.toFinset = Finset.Ico 0 N :=
      Finset.eq_of_subset_of_card_le hsubset (by rw [hcard, List.toFinset_card_of_nodup hnodup])
    rw [← List.mem_toFinset, hall]
    exact Finset.mem_Ico.mpr hi
  · intro hall
    have hsuperset : Finset.Ico 0 N ⊆ l.toFinset := by
      intro i hi
      exact List.mem_toFinset.mpr (hall i (Finset.mem_Ico.mp hi))
    have hle : l.length ≤ l.toFinset.card := hcard ▸ Finset.card_le_card hsuperset
    have hcount : l.toFinset.card = l.length := Nat.le_antisymm (List.toFinset_card_le l) hle
    exact Multiset.coe_nodup.mp (Multiset.toFinset_card_eq_card_iff_nodup.mp hcount)

end Efio.Lib
