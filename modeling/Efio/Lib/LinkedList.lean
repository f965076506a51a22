import Mathlib.Data.List.Nodup

/-!
# `Efio.Lib.LinkedList`: the nodes reached from an address

`Linked next a l` says that following the links `next` from `a` visits the
nodes `l` and ends at the null address `0`. `TailList` is such a list with a
pointer to its last node, as a queue has it: a node is added behind the
tail (`TailList.push`) and taken off at the head (`TailList.pop`).
-/

set_option autoImplicit false

namespace Efio.Lib

variable {α : Type} [Zero α] {next next' : α → α} {a : α} {l : List α}

/-- The links lead from `a` through the nodes `l` to the null address. -/
inductive Linked (next : α → α) : α → List α → Prop where
  | nil : Linked next 0 []
  | cons {a : α} {l : List α} (hne : a ≠ 0) (htail : Linked next (next a) l) : Linked next a (a :: l)

/-- Only the links of the nodes on the list matter. -/
theorem Linked.congr (h : Linked next a l) (heq : ∀ b ∈ l, next' b = next b) : Linked next' a l := by
  induction h with
  | nil => exact .nil
  | cons hne htail ih =>
    refine .cons hne ?_
    rw [heq _ List.mem_cons_self]
    exact ih fun b hb => heq b (List.mem_cons_of_mem _ hb)

theorem Linked.eq_nil (h : Linked next 0 l) : l = [] := by
  cases h with
  | nil => rfl
  | cons hne => exact absurd rfl hne

/-- The first node of the list, and where its link leads. -/
theorem Linked.eq_cons (h : Linked next a l) (hne : a ≠ 0) :
    ∃ l', l = a :: l' ∧ Linked next (next a) l' := by
  cases h with
  | nil => exact absurd rfl hne
  | cons _ htail => exact ⟨_, rfl, htail⟩

theorem Linked.ne_zero (h : Linked next a l) : ∀ b ∈ l, b ≠ 0 := by
  induction h with
  | nil => exact fun b hb => absurd hb List.not_mem_nil
  | cons hne _ ih => exact List.forall_mem_cons.mpr ⟨hne, ih⟩

/-- A node is linked behind the last one. -/
theorem Linked.snoc {p last : α} (h : Linked next a l) (hlast : l.getLast? = some last)
    (hnodup : l.Nodup) (hp : p ≠ 0) (hend : next' p = 0) (hlink : next' last = p)
    (hsame : ∀ b ∈ l, b ≠ last → next' b = next b) : Linked next' a (l ++ [p]) := by
  induction h with
  | nil => cases hlast
  | @cons a l hne htail ih =>
    refine .cons hne ?_
    cases l with
    | nil =>
      obtain rfl : a = last := Option.some.inj hlast
      show Linked next' (next' a) [p]
      rw [hlink]
      exact .cons hp (hend.symm ▸ .nil)
    | cons b l =>
      rw [List.getLast?_cons_cons] at hlast
      obtain ⟨hnotin, hnodup⟩ := List.nodup_cons.mp hnodup
      have hother : a ≠ last := fun heq => hnotin (heq ▸ List.mem_of_getLast? hlast)
      rw [hsame a List.mem_cons_self hother]
      exact ih hlast hnodup fun c hc => hsame c (List.mem_cons_of_mem _ hc)

/-! ### Lists with a tail -/

/-- The nodes `l` from `head` on, with `tail` at the last one. -/
structure TailList (next : α → α) (head tail : α) (l : List α) : Prop where
  linked : Linked next head l
  tail : tail = l.getLast?.getD 0
  nodup : l.Nodup

namespace TailList

variable {head tail p : α}

theorem nil : TailList next 0 0 [] := ⟨.nil, rfl, List.nodup_nil⟩

theorem head_eq_zero_iff (h : TailList next head tail l) : head = 0 ↔ l = [] := by
  constructor
  · intro hzero
    exact (hzero ▸ h.linked).eq_nil
  · rintro rfl
    cases h.linked
    rfl

theorem getLast (h : TailList next head tail l) (hne : l ≠ []) : l.getLast? = some tail := by
  rw [h.tail, List.getLast?_eq_some_getLast hne]
  rfl

theorem tail_mem (h : TailList next head tail l) (hne : l ≠ []) : tail ∈ l :=
  List.mem_of_getLast? (h.getLast hne)

theorem tail_eq_zero_iff (h : TailList next head tail l) : tail = 0 ↔ l = [] := by
  constructor
  · intro hzero
    by_contra hne
    exact h.linked.ne_zero tail (h.tail_mem hne) hzero
  · rintro rfl
    exact h.tail

/-- Only the links of the nodes on the list matter. -/
theorem congr (h : TailList next head tail l) (heq : ∀ b ∈ l, next' b = next b) :
    TailList next' head tail l :=
  ⟨h.linked.congr heq, h.tail, h.nodup⟩

/-- The first node. -/
theorem single (hp : p ≠ 0) (hend : next' p = 0) : TailList next' p p [p] :=
  ⟨.cons hp (hend.symm ▸ .nil), rfl, List.nodup_singleton p⟩

/-- One more node behind the tail. -/
theorem push (h : TailList next head tail l) (hne : l ≠ []) (hp : p ≠ 0) (hfresh : p ∉ l)
    (hend : next' p = 0) (hlink : next' tail = p) (hsame : ∀ b ∈ l, b ≠ tail → next' b = next b) :
    TailList next' head p (l ++ [p]) where
  linked := h.linked.snoc (h.getLast hne) h.nodup hp hend hlink hsame
  tail := by rw [List.getLast?_concat]; rfl
  nodup := List.nodup_append.mpr ⟨h.nodup, List.nodup_singleton p, fun b hb c hc heq =>
    hfresh (List.mem_singleton.mp hc ▸ heq ▸ hb)⟩

/-- The first node is taken off. -/
theorem pop {a : α} (h : TailList next head tail (a :: l)) :
    head = a ∧ a ≠ 0 ∧ TailList next (next a) (if l = [] then 0 else tail) l := by
  have hnodup := (List.nodup_cons.mp h.nodup).2
  cases h.linked with
  | cons hne htail =>
    refine ⟨rfl, hne, htail, ?_, hnodup⟩
    split
    · rename_i hnil
      rw [hnil]
      rfl
    · rename_i hcons
      obtain ⟨b, l', rfl⟩ := List.exists_cons_of_ne_nil hcons
      rw [h.tail, List.getLast?_cons_cons]

end TailList

end Efio.Lib
