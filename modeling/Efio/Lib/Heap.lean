import Efio.Lib.Bytes
import Mathlib.Logic.Function.Basic

/-!
# `Efio.Lib.Heap`: blocks of memory and pointers into them

A `Heap` is what `malloc` and `free` see: blocks, each with its content.
Blocks are numbered in the order of their allocation and the numbers are
not used again, so a pointer to a freed block stays recognizable. A `Ptr`
is a block and an offset.

`load` and `store` need the block to be allocated and the range to lie
inside it, and `free` needs the address the block was given out with;
otherwise the program ends in a `HeapFault`.

`Holds h p xs` says that `xs` lies in memory from `p` on: a load from there
delivers it (`Holds.load`), and parts of it lie where they should
(`Holds.left`, `Holds.right`).
-/

set_option autoImplicit false

namespace Efio.Lib

variable {α : Type}

/-- A pointer, `off` elements behind the start of a block. -/
structure Ptr where
  block : Nat
  off : Nat
  deriving DecidableEq, Repr

def Ptr.add (p : Ptr) (n : Nat) : Ptr := { p with off := p.off + n }

@[simp] theorem Ptr.add_block (p : Ptr) (n : Nat) : (p.add n).block = p.block := rfl

@[simp] theorem Ptr.add_off (p : Ptr) (n : Nat) : (p.add n).off = p.off + n := rfl

/-- What ends the program. -/
inductive HeapFault where
  | dangling
  | outOfBounds
  | notBase
  deriving DecidableEq, Repr

/-- The blocks that are allocated, and the number of the next one. -/
structure Heap (α : Type) where
  blocks : Nat → Option (List α)
  fresh : Nat
  unused : ∀ b, fresh ≤ b → blocks b = none

namespace Heap

/-- No block is allocated. -/
def empty : Heap α := ⟨fun _ => none, 0, fun _ _ => rfl⟩

variable (h : Heap α)

theorem lt_fresh {b : Nat} {c : List α} (hb : h.blocks b = some c) : b < h.fresh := by
  by_contra hle
  rw [h.unused b (Nat.le_of_not_lt hle)] at hb
  cases hb

/-- The pointer to a new block. -/
def newPtr : Ptr := ⟨h.fresh, 0⟩

/-- The heap with a new block. -/
def alloc (c : List α) : Heap α where
  blocks := Function.update h.blocks h.fresh (some c)
  fresh := h.fresh + 1
  unused := fun b hb => by
    rw [Function.update_of_ne (Nat.ne_of_gt hb)]
    exact h.unused b (Nat.le_of_succ_le hb)

/-- `n` elements from `p`. -/
def load (p : Ptr) (n : Nat) : Except HeapFault (List α) :=
  match h.blocks p.block with
  | none => .error .dangling
  | some c => if p.off + n ≤ c.length then .ok ((c.drop p.off).take n) else .error .outOfBounds

/-- The heap with another content of the block `b`. -/
def setBlock (b : Nat) (c : Option (List α)) (hb : b < h.fresh) : Heap α where
  blocks := Function.update h.blocks b c
  fresh := h.fresh
  unused := fun b' hb' => by
    rw [Function.update_of_ne (Nat.ne_of_gt (Nat.lt_of_lt_of_le hb hb'))]
    exact h.unused b' hb'

/-- `xs` stored from `p` on. -/
def store [Inhabited α] (p : Ptr) (xs : List α) : Except HeapFault (Heap α) :=
  match hc : h.blocks p.block with
  | none => .error .dangling
  | some c =>
    if p.off + xs.length ≤ c.length then
      .ok (h.setBlock p.block (some (writeAt c p.off xs)) (h.lt_fresh hc))
    else .error .outOfBounds

/-- The block of `p` is given back. -/
def free (p : Ptr) : Except HeapFault (Heap α) :=
  match hc : h.blocks p.block with
  | none => .error .dangling
  | some _ => if p.off = 0 then .ok (h.setBlock p.block none (h.lt_fresh hc)) else .error .notBase

variable {h} {h' : Heap α} {p : Ptr} {c xs : List α} {b n : Nat}

@[simp] theorem alloc_newPtr (c : List α) : (h.alloc c).blocks h.newPtr.block = some c :=
  Function.update_self _ _ _

/-- An allocated block is not the new one. -/
theorem alloc_of_some (hb : h.blocks b = some c) (c' : List α) : (h.alloc c').blocks b = some c := by
  have hne : b ≠ h.fresh := Nat.ne_of_lt (h.lt_fresh hb)
  exact (Function.update_of_ne hne _ _).trans hb

theorem ne_newPtr (hb : h.blocks b = some c) : b ≠ h.newPtr.block := Nat.ne_of_lt (h.lt_fresh hb)

theorem load_eq (hb : h.blocks p.block = some c) (hn : p.off + n ≤ c.length) :
    h.load p n = .ok ((c.drop p.off).take n) := by
  simp only [load, hb, if_pos hn]

theorem store_eq [Inhabited α] (hb : h.blocks p.block = some c) (hn : p.off + xs.length ≤ c.length) :
    ∃ h', h.store p xs = .ok h' ∧ h'.fresh = h.fresh ∧
      h'.blocks = Function.update h.blocks p.block (some (writeAt c p.off xs)) := by
  unfold store
  split
  · rename_i hnone
    cases hnone.symm.trans hb
  · rename_i c' hc
    cases hc.symm.trans hb
    rw [if_pos hn]
    exact ⟨_, rfl, rfl, rfl⟩

theorem free_eq (hb : h.blocks p.block = some c) (hoff : p.off = 0) :
    ∃ h', h.free p = .ok h' ∧ h'.fresh = h.fresh ∧
      h'.blocks = Function.update h.blocks p.block none := by
  unfold free
  split
  · rename_i hnone
    cases hnone.symm.trans hb
  · rename_i c' hc
    rw [if_pos hoff]
    exact ⟨_, rfl, rfl, rfl⟩

/-- Only the address of a block can be freed. -/
theorem free_ok (hfree : h.free p = .ok h') :
    p.off = 0 ∧ h.blocks p.block ≠ none ∧ h'.fresh = h.fresh ∧
      h'.blocks = Function.update h.blocks p.block none := by
  unfold free at hfree
  split at hfree
  · cases hfree
  · rename_i c' hc
    split at hfree <;> cases hfree
    rename_i hoff
    refine ⟨hoff, ?_, rfl, rfl⟩
    rw [hc]
    exact Option.some_ne_none _

/-! ### What lies in memory -/

/-- `xs` lies in the allocated block of `p`, from `p` on. -/
structure Holds (h : Heap α) (p : Ptr) (xs : List α) : Prop where
  block : ∃ c, h.blocks p.block = some c ∧ p.off + xs.length ≤ c.length ∧
    (c.drop p.off).take xs.length = xs

variable {ys : List α}

theorem Holds.load (hold : Holds h p xs) : h.load p xs.length = .ok xs := by
  obtain ⟨c, hc, hfits, htake⟩ := hold.block
  rw [load_eq hc hfits, htake]

theorem Holds.left (hold : Holds h p (xs ++ ys)) : Holds h p xs := by
  obtain ⟨c, hc, hfits, htake⟩ := hold.block
  rw [List.length_append] at hfits htake
  refine ⟨c, hc, by omega, ?_⟩
  have hbefore := congrArg (List.take xs.length) htake
  rwa [List.take_take, Nat.min_eq_left (Nat.le_add_right _ _), List.take_left'  rfl] at hbefore

theorem Holds.right (hold : Holds h p (xs ++ ys)) : Holds h (p.add xs.length) ys := by
  obtain ⟨c, hc, hfits, htake⟩ := hold.block
  rw [List.length_append] at hfits htake
  refine ⟨c, hc, by simp only [Ptr.add_off]; omega, ?_⟩
  have hsuffix := congrArg (List.drop xs.length) htake
  rwa [List.drop_take, List.drop_drop, Nat.add_sub_cancel_left, List.drop_left' rfl] at hsuffix

/-- The first elements. -/
theorem Holds.take (hold : Holds h p xs) (n : Nat) : Holds h p (xs.take n) := by
  rw [← List.take_append_drop n xs] at hold
  exact hold.left

end Heap

end Efio.Lib
