import Mathlib.Algebra.BigOperators.Group.Finset.Basic

/-!
# `Efio.Lib.Objects`: objects that are allocated, initialised and freed

`Objects α` is memory seen as a collection of objects. An object is
numbered when it is allocated and its number is not used again, so a
pointer to a freed object stays recognizable. What is allocated is `raw`
until it is written for the first time.

* `malloc` gives out the number `fresh`;
* `set` changes the content of an object, or frees it;
* `set_self`, `set_of_ne`, `malloc_of_ne`: what the others see of it;
* `total`: a sum over all objects, with `total_set` and `total_malloc`.
-/

set_option autoImplicit false

namespace Efio.Lib

/-- The memory at a number: not allocated (any more), allocated with
arbitrary content, or holding `x`. -/
inductive Cell (α : Type) where
  | unallocated
  | raw
  | live (x : α)
  deriving DecidableEq, Repr

/-- The objects and the number of the next one. -/
structure Objects (α : Type) where
  cells : Nat → Cell α
  fresh : Nat
  unused : ∀ p, fresh ≤ p → cells p = .unallocated

namespace Objects

variable {α : Type}

/-- No object is allocated. -/
def empty : Objects α := ⟨fun _ => .unallocated, 0, fun _ _ => rfl⟩

variable (h : Objects α)

/-- A new object with the content `c`. -/
def malloc (c : Cell α) : Objects α where
  cells := Function.update h.cells h.fresh c
  fresh := h.fresh + 1
  unused := fun p hp => by
    rw [Function.update_of_ne (Nat.ne_of_gt hp)]
    exact h.unused p (Nat.le_of_succ_le hp)

/-- The object `p` gets the content `c`. -/
def set (p : Nat) (c : Cell α) : Objects α where
  cells := if p < h.fresh then Function.update h.cells p c else h.cells
  fresh := h.fresh
  unused := fun p' hp' => by
    split
    · rename_i hp
      rw [Function.update_of_ne (Nat.ne_of_gt (Nat.lt_of_lt_of_le hp hp'))]
      exact h.unused p' hp'
    · exact h.unused p' hp'

variable {h} {p p' : Nat} {c c' : Cell α}

theorem lt_fresh (hc : h.cells p = c) (hne : c ≠ .unallocated) : p < h.fresh := by
  by_contra hle
  exact hne (hc.symm.trans (h.unused p (Nat.le_of_not_lt hle)))

@[simp] theorem set_fresh (p : Nat) (c : Cell α) : (h.set p c).fresh = h.fresh := rfl

@[simp] theorem malloc_fresh (c : Cell α) : (h.malloc c).fresh = h.fresh + 1 := rfl

@[simp] theorem malloc_self (c : Cell α) : (h.malloc c).cells h.fresh = c :=
  Function.update_self _ _ _

theorem malloc_of_ne (hne : p ≠ h.fresh) (c : Cell α) : (h.malloc c).cells p = h.cells p :=
  Function.update_of_ne hne _ _

theorem set_self (hc : h.cells p = c') (hne : c' ≠ .unallocated) (c : Cell α) :
    (h.set p c).cells p = c := by
  change (if p < h.fresh then Function.update h.cells p c else h.cells) p = c
  rw [if_pos (lt_fresh hc hne), Function.update_self]

/-- A freed object is not allocated. -/
theorem free_self : (h.set p .unallocated).cells p = .unallocated := by
  unfold set
  split
  · exact Function.update_self _ _ _
  · rename_i hp
    exact h.unused p (Nat.not_lt.mp hp)

theorem set_of_ne (hne : p' ≠ p) (c : Cell α) : (h.set p c).cells p' = h.cells p' := by
  unfold set
  split
  · exact Function.update_of_ne hne _ _
  · rfl

/-- An object that gets its own content. -/
theorem set_same (hc : h.cells p = c) : h.set p c = h := by
  unfold set
  congr 1
  split
  · rw [← hc, Function.update_eq_self]
  · rfl

/-! ### Sums -/

/-- The sum of `g` over the objects. -/
def total (h : Objects α) (g : Cell α → Nat) : Nat := ∑ p ∈ Finset.range h.fresh, g (h.cells p)

theorem total_set (g : Cell α → Nat) (hc : h.cells p = c) (hne : c ≠ .unallocated) (c' : Cell α) :
    (h.set p c').total g + g c = h.total g + g c' := by
  have hp : p ∈ Finset.range h.fresh := Finset.mem_range.mpr (lt_fresh hc hne)
  have hothers : ∑ q ∈ (Finset.range h.fresh).erase p, g ((h.set p c').cells q)
      = ∑ q ∈ (Finset.range h.fresh).erase p, g (h.cells q) := by
    refine Finset.sum_congr rfl fun q hq => ?_
    rw [set_of_ne (Finset.ne_of_mem_erase hq)]
  unfold total
  rw [set_fresh, ← Finset.add_sum_erase _ _ hp, ← Finset.add_sum_erase _ (fun q => g (h.cells q)) hp,
    hothers, set_self hc hne, hc]
  ac_rfl

theorem total_malloc (g : Cell α → Nat) (c : Cell α) : (h.malloc c).total g = h.total g + g c := by
  unfold total
  rw [malloc_fresh, Finset.sum_range_succ, malloc_self]
  congr 1
  refine Finset.sum_congr rfl fun q hq => ?_
  rw [malloc_of_ne (Nat.ne_of_lt (Finset.mem_range.mp hq))]

end Objects

end Efio.Lib
