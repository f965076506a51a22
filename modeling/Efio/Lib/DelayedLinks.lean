import Efio.Lib.LinkedList
import Mathlib.Data.List.Infix
import Mathlib.Logic.Function.Basic

/-!
# `Efio.Lib.DelayedLinks`: a list that is linked from behind

A queue of nodes to which producers append in two steps: the new node
first becomes the last one, and the link from the node before it is stored
later. In between, the link is missing. `Delayed next l` says that the
nodes `l` are such a list: every node points to the one behind it or
nowhere (`0`), and the last one points nowhere.

That `b` stands directly behind `a` in `l` is written `[a, b] <:+: l`.

* `Delayed.snoc`: a node that points nowhere may become the last one;
* `Delayed.store`: a missing link may be stored;
* `Delayed.head_next`: a link that is there can be followed;
* `Delayed.linked`: once no link is missing, the list is linked;
* `behind_of_snoc`: what stands behind what in the longer list;
* `behind_unique`: in a list without duplicates a node has one successor.
-/

set_option autoImplicit false

namespace Efio.Lib

variable {α : Type}

/-- Every node points to the one behind it, or its link is still missing. -/
inductive Delayed [Zero α] (next : α → α) : List α → Prop where
  | nil : Delayed next []
  | last {a : α} (hnone : next a = 0) : Delayed next [a]
  | cons {a b : α} {l : List α} (hlink : next a = 0 ∨ next a = b) (htail : Delayed next (b :: l)) :
      Delayed next (a :: b :: l)

/-! ### Successors -/

theorem behind_cons {a b c : α} {l : List α} (h : [a, b] <:+: c :: l) :
    (∃ l', a = c ∧ l = b :: l') ∨ [a, b] <:+: l := by
  rcases List.infix_cons_iff.mp h with hbefore | hinfix
  · obtain ⟨rfl, hb⟩ := List.cons_prefix_cons.mp hbefore
    obtain ⟨l', rfl⟩ := hb
    exact Or.inl ⟨l', rfl, rfl⟩
  · exact Or.inr hinfix

/-- The pair survives when another node is taken off the front. -/
theorem behind_of_cons {a b c : α} {l : List α} (h : [a, b] <:+: c :: l) (hne : a ≠ c) :
    [a, b] <:+: l := by
  rcases behind_cons h with ⟨l', heq, -⟩ | hinfix
  · exact absurd heq hne
  · exact hinfix

theorem behind_mem {a b : α} {l : List α} (h : [a, b] <:+: l) : a ∈ l ∧ b ∈ l :=
  ⟨h.subset (List.mem_cons_self), h.subset (List.mem_cons_of_mem _ (List.mem_singleton_self b))⟩

/-- A new last node stands behind the old one. -/
theorem behind_snoc {a b : α} {l : List α} (h : l.getLast? = some a) : [a, b] <:+: l ++ [b] := by
  obtain ⟨l', rfl⟩ := List.getLast?_eq_some_iff.mp h
  exact ⟨l', [], by simp⟩

/-- What stands behind what once there is a new last node. -/
theorem behind_of_snoc {a b c : α} {l : List α} (h : [a, b] <:+: l ++ [c]) :
    [a, b] <:+: l ∨ (l.getLast? = some a ∧ b = c) := by
  obtain ⟨l', l'', heq⟩ := h
  rcases List.eq_nil_or_concat l'' with rfl | ⟨l₂, x, rfl⟩
  · have heq : (l' ++ [a]) ++ [b] = l ++ [c] := by simpa using heq
    obtain ⟨rfl, hlast⟩ := List.append_inj' heq rfl
    exact .inr ⟨List.getLast?_concat, List.singleton_inj.mp hlast⟩
  · have heq : (l' ++ [a, b] ++ l₂) ++ [x] = l ++ [c] := by simpa using heq
    obtain ⟨rfl, -⟩ := List.append_inj' heq rfl
    exact .inl ⟨l', l₂, rfl⟩

theorem behind_append {a b : α} {l l' : List α} (h : [a, b] <:+: l) : [a, b] <:+: l ++ l' :=
  h.trans (List.prefix_append l l').isInfix

/-- A node has one successor. -/
theorem behind_unique {a b b' : α} {l : List α} (hl : l.Nodup) (h : [a, b] <:+: l)
    (h' : [a, b'] <:+: l) : b = b' := by
  induction l with
  | nil => cases List.eq_nil_of_infix_nil h
  | cons c l ih =>
    obtain ⟨hnot, htail⟩ := List.nodup_cons.mp hl
    rcases behind_cons h with ⟨t, heq, ht⟩ | h <;> rcases behind_cons h' with ⟨t', heq', ht'⟩ | h'
    · exact (List.cons.inj (ht.symm.trans ht')).1
    · exact absurd (heq ▸ (behind_mem h').1) hnot
    · exact absurd (heq' ▸ (behind_mem h).1) hnot
    · exact ih htail h h'

/-- Nothing stands in front of the first node. -/
theorem not_behind_first {a b : α} {l : List α} (hl : l.Nodup) (hfirst : l.head? = some a) :
    ¬ [b, a] <:+: l := by
  intro hbehind
  obtain ⟨rest, rfl⟩ := List.head?_eq_some_iff.mp hfirst
  have hnot := (List.nodup_cons.mp hl).1
  rcases behind_cons hbehind with ⟨l', -, hl'⟩ | hbehind
  · exact hnot (hl' ▸ List.mem_cons_self)
  · exact hnot (behind_mem hbehind).2

/-! ### The list -/

variable [Zero α] {next next' : α → α} {l : List α}

theorem Delayed.tail {a : α} (h : Delayed next (a :: l)) : Delayed next l := by
  cases h with
  | last => exact .nil
  | cons _ htail => exact htail

/-- Only the links of the nodes in the list matter. -/
theorem Delayed.congr (h : Delayed next l) (heq : ∀ a ∈ l, next' a = next a) : Delayed next' l := by
  induction h with
  | nil => exact .nil
  | last hnone => exact .last ((heq _ (List.mem_singleton_self _)).trans hnone)
  | cons hlink htail ih =>
    rw [← heq _ List.mem_cons_self] at hlink
    exact .cons hlink (ih fun a ha => heq a (List.mem_cons_of_mem _ ha))

/-- A node that points nowhere becomes the last one. -/
theorem Delayed.snoc {b : α} (h : Delayed next l) (hnone : next b = 0) : Delayed next (l ++ [b]) := by
  induction h with
  | nil => exact .last hnone
  | last hlast => exact .cons (Or.inl hlast) (.last hnone)
  | cons hlink _ ih => exact .cons hlink ih

/-- The last node points nowhere. -/
theorem Delayed.next_last {a : α} (h : Delayed next l) (hlast : l.getLast? = some a) : next a = 0 := by
  induction h with
  | nil => cases hlast
  | last hnone =>
    cases hlast
    exact hnone
  | cons _ _ ih =>
    rw [List.getLast?_cons_cons] at hlast
    exact ih hlast

/-- A missing link is stored. -/
theorem Delayed.store [DecidableEq α] {a b : α} (h : Delayed next l) (hl : l.Nodup)
    (hbehind : [a, b] <:+: l) : Delayed (Function.update next a b) l := by
  induction h with
  | nil => exact .nil
  | last => exact absurd (List.IsInfix.length_le hbehind) (by simp)
  | @cons c d l hlink htail ih =>
    have hnot := (List.nodup_cons.mp hl).1
    rcases behind_cons hbehind with ⟨l', rfl, heq⟩ | hbehind
    · obtain ⟨rfl, -⟩ := List.cons.inj heq
      refine .cons (Or.inr (Function.update_self _ _ _)) (htail.congr fun x hx => ?_)
      refine Function.update_of_ne ?_ _ _
      rintro rfl
      exact hnot hx
    · have hne : c ≠ a := by
        rintro rfl
        exact hnot (behind_mem hbehind).1
      refine .cons ?_ (ih (List.nodup_cons.mp hl).2 hbehind)
      rw [Function.update_of_ne hne]
      exact hlink

/-- A link that is there leads to the node behind. -/
theorem Delayed.head_next {a : α} (h : Delayed next (a :: l)) (hsome : next a ≠ 0) :
    ∃ l', l = next a :: l' := by
  cases h with
  | last hnone => exact absurd hnone hsome
  | cons hlink _ =>
    rcases hlink with hnone | heq
    · exact absurd hnone hsome
    · exact ⟨_, by rw [heq]⟩

/-- When no link is missing, all nodes are reached from the first one. -/
theorem Delayed.linked (h : Delayed next l) (hne : ∀ a ∈ l, a ≠ 0)
    (hlinks : ∀ a b, [a, b] <:+: l → next a = b) : Linked next (l.head?.getD 0) l := by
  induction h with
  | nil => exact .nil
  | @last a hnone =>
    have hnil : Linked next (next a) [] := by
      rw [hnone]
      exact .nil
    exact .cons (hne a List.mem_cons_self) hnil
  | @cons a b l _ _ ih =>
    have htail : Linked next (next a) (b :: l) := by
      rw [hlinks a b ⟨[], l, rfl⟩]
      refine ih (fun c hc => hne c (List.mem_cons_of_mem _ hc)) fun c d hcd => hlinks c d ?_
      exact hcd.trans (List.infix_cons (List.infix_refl _))
    exact .cons (hne a List.mem_cons_self) htail

end Efio.Lib
