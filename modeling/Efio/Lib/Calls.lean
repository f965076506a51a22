import Efio.Lib.Transition

/-!
# `Efio.Lib.Calls`: sequences of calls

A program is used through calls `ω` that change its state and return a
result, or end it in a fault: `call : ω → σ → Except ε (σ × ρ)`. `runCalls`
makes the calls one after the other, and `Along call P ops s` says that the
condition `P` on the state before a call and the call is met all along.

`calls_refine` is the rule to compare the program with a total
specification. The calls keep an invariant, each does what the
specification does when `C` holds before it, and returns the result of
the specification only then: so a sequence of calls does what the
specification does if and only if `C` holds all along.
-/

set_option autoImplicit false

namespace Efio.Lib

variable {ω σ τ ρ ε : Type}

/-- The calls `ops` in order, with their results. -/
def runCalls (call : ω → σ → Except ε (σ × ρ)) : List ω → σ → Except ε (σ × List ρ)
  | [], s => .ok (s, [])
  | op :: ops, s => do
    let (s, r) ← call op s
    let (s, rs) ← runCalls call ops s
    return (s, r :: rs)

/-- The calls of a specification, which never fails. -/
def specCalls (spec : ω → τ → τ × ρ) : List ω → τ → τ × List ρ
  | [], x => (x, [])
  | op :: ops, x =>
    let (x, r) := spec op x
    let (x, rs) := specCalls spec ops x
    (x, r :: rs)

/-- The condition holds before each of the calls. -/
def Along (call : ω → σ → Except ε (σ × ρ)) (P : σ → ω → Prop) : List ω → σ → Prop
  | [], _ => True
  | op :: ops, s => P s op ∧ ∀ s' r, call op s = .ok (s', r) → Along call P ops s'

variable {call : ω → σ → Except ε (σ × ρ)} {P I : σ → Prop} {C D : σ → ω → Prop}

theorem runCalls_cons {op : ω} {ops : List ω} {s s' : σ} {rs : List ρ}
    (h : runCalls call (op :: ops) s = .ok (s', rs)) :
    ∃ s₁ r rs', call op s = .ok (s₁, r) ∧ runCalls call ops s₁ = .ok (s', rs') ∧ rs = r :: rs' := by
  obtain ⟨⟨s₁, r⟩, hop, hok⟩ := bind_eq_ok.mp h
  obtain ⟨⟨s₂, rs'⟩, hrest, hok⟩ := bind_eq_ok.mp hok
  cases hok
  exact ⟨s₁, r, rs', hop, hrest, rfl⟩

theorem runCalls_cons_error {op : ω} {ops : List ω} {s : σ} {e : ε}
    (h : runCalls call (op :: ops) s = .error e) :
    call op s = .error e ∨ ∃ s₁ r, call op s = .ok (s₁, r) ∧ runCalls call ops s₁ = .error e := by
  rw [runCalls] at h
  cases hcall : call op s with
  | error e' =>
    rw [hcall] at h
    cases h
    exact .inl rfl
  | ok x =>
    rw [hcall] at h
    have h : (runCalls call ops x.1 >>= fun y => Except.ok (y.1, x.2 :: y.2)) = .error e := h
    cases hrun : runCalls call ops x.1 with
    | error e' =>
      rw [hrun] at h
      cases h
      exact .inr ⟨x.1, x.2, rfl, hrun⟩
    | ok y =>
      rw [hrun] at h
      cases h

theorem runCalls_of_cons {op : ω} {ops : List ω} {s s₁ s' : σ} {r : ρ} {rs : List ρ}
    (hop : call op s = .ok (s₁, r)) (hrest : runCalls call ops s₁ = .ok (s', rs)) :
    runCalls call (op :: ops) s = .ok (s', r :: rs) := by
  rw [runCalls, hop]
  show (runCalls call ops s₁ >>= fun x => Except.ok (x.1, r :: x.2)) = _
  rw [hrest]
  rfl

theorem Along.initial {ops pre : List ω} {s : σ} (h : Along call C ops s) (hpre : pre <+: ops) :
    Along call C pre s := by
  induction pre generalizing ops s with
  | nil => trivial
  | cons op pre ih =>
    obtain ⟨rest, rfl⟩ := hpre
    obtain ⟨hop, hrest⟩ := h
    exact ⟨hop, fun s' r hcall => ih (hrest s' r hcall) (List.prefix_append _ _)⟩

theorem along_of_forall {ops : List ω} {s : σ} {Q : ω → Prop} (h : ∀ op ∈ ops, Q op) :
    Along call (fun _ op => Q op) ops s := by
  induction ops generalizing s with
  | nil => trivial
  | cons op ops ih =>
    refine ⟨h op List.mem_cons_self, ?_⟩
    intro s' r hcall
    exact ih fun op' hop' => h op' (List.mem_cons_of_mem _ hop')

/-- After calls that have all returned, the condition has held for each. -/
theorem forall_of_along {ops : List ω} {s s' : σ} {rs : List ρ} {Q : ω → Prop}
    (h : Along call (fun _ op => Q op) ops s) (hrun : runCalls call ops s = .ok (s', rs)) :
    ∀ op ∈ ops, Q op := by
  induction ops generalizing s rs with
  | nil => exact fun op hop => absurd hop List.not_mem_nil
  | cons op ops ih =>
    obtain ⟨hop, hrest⟩ := h
    obtain ⟨s₁, r, rs', hcall, hafter, -⟩ := runCalls_cons hrun
    exact List.forall_mem_cons.mpr ⟨hop, ih (hrest s₁ r hcall) hafter⟩

/-- What each call keeps holds after all of them. -/
theorem runCalls_invariant {ops : List ω} {s s' : σ} {rs : List ρ}
    (hpres : ∀ s op s' r, I s → call op s = .ok (s', r) → I s') (hI : I s)
    (h : runCalls call ops s = .ok (s', rs)) : I s' := by
  induction ops generalizing s rs with
  | nil =>
    cases h
    exact hI
  | cons op ops ih =>
    obtain ⟨s₁, r, rs', hop, hrest, -⟩ := runCalls_cons h
    exact ih (hpres s op s₁ r hI hop) hrest

/-- Calls none of which fails. -/
theorem runCalls_total (hcall : ∀ s op, I s → ∃ s' r, call op s = .ok (s', r) ∧ I s') (ops : List ω)
    {s : σ} (hI : I s) : ∃ s' rs, runCalls call ops s = .ok (s', rs) ∧ I s' := by
  induction ops generalizing s with
  | nil => exact ⟨s, [], rfl, hI⟩
  | cons op ops ih =>
    obtain ⟨s₁, r, hop, hI₁⟩ := hcall s op hI
    obtain ⟨s', rs, hrest, hI'⟩ := ih hI₁
    exact ⟨s', r :: rs, runCalls_of_cons hop hrest, hI'⟩

/-- A sequence of calls does what the specification does if and only if
the condition for one call holds all along. -/
theorem calls_refine {abs : σ → τ} {spec : ω → τ → τ × ρ}
    (hgood : ∀ s op, I s → D s op → C s op →
      ∃ s' r, call op s = .ok (s', r) ∧ I s' ∧ spec op (abs s) = (abs s', r))
    (hbad : ∀ s op s' r, I s → D s op → call op s = .ok (s', r) → r = (spec op (abs s)).2 → C s op)
    {ops : List ω} {s : σ} (hI : I s) (hD : Along call D ops s) :
    (∃ s' rs, runCalls call ops s = .ok (s', rs) ∧ specCalls spec ops (abs s) = (abs s', rs)) ↔
      Along call C ops s := by
  induction ops generalizing s with
  | nil => exact ⟨fun _ => trivial, fun _ => ⟨s, [], rfl, rfl⟩⟩
  | cons op ops ih =>
    obtain ⟨hop, hrest⟩ := hD
    constructor
    · rintro ⟨s', rs, hrun, hspec⟩
      obtain ⟨s₁, r, rs', hcall, hafter, rfl⟩ := runCalls_cons hrun
      have hr : r = (spec op (abs s)).2 := (List.cons.inj (Prod.mk.inj hspec).2).1.symm
      have hC := hbad s op s₁ r hI hop hcall hr
      obtain ⟨s₂, r', hcall', hI', hstep⟩ := hgood s op hI hop hC
      cases hcall.symm.trans hcall'
      refine ⟨hC, ?_⟩
      intro s₂ r' hcall'
      cases hcall.symm.trans hcall'
      refine (ih hI' (hrest _ _ hcall)).mp ⟨s', rs', hafter, ?_⟩
      simp only [specCalls, hstep] at hspec
      obtain ⟨hstate, hresults⟩ := Prod.mk.inj hspec
      exact Prod.ext hstate (List.cons.inj hresults).2
    · rintro ⟨hC, halong⟩
      obtain ⟨s₁, r, hcall, hI', hstep⟩ := hgood s op hI hop hC
      obtain ⟨s', rs, hrun, hspec⟩ := (ih hI' (hrest _ _ hcall)).mpr (halong _ _ hcall)
      refine ⟨s', r :: rs, runCalls_of_cons hcall hrun, ?_⟩
      simp only [specCalls, hstep, hspec]

/-- The same for a relation: the calls return what the specification does
if and only if the condition for one call holds all along. -/
theorem calls_simulate {R : σ → τ → Prop} {spec : ω → τ → τ × ρ}
    (hgood : ∀ s x op, R s x → C s op →
      ∃ s', call op s = .ok (s', (spec op x).2) ∧ R s' (spec op x).1)
    (hbad : ∀ s x op s', R s x → call op s = .ok (s', (spec op x).2) → C s op)
    {ops : List ω} {s : σ} {x : τ} (hR : R s x) :
    (∃ s', runCalls call ops s = .ok (s', (specCalls spec ops x).2)) ↔ Along call C ops s := by
  induction ops generalizing s x with
  | nil => exact ⟨fun _ => trivial, fun _ => ⟨s, rfl⟩⟩
  | cons op ops ih =>
    constructor
    · rintro ⟨s', hrun⟩
      obtain ⟨s₁, r, rs, hcall, hrest, hresults⟩ := runCalls_cons hrun
      obtain ⟨hr, hrs⟩ := List.cons.inj hresults
      subst hr
      have hC := hbad s x op s₁ hR hcall
      obtain ⟨s₂, hcall', hR'⟩ := hgood s x op hR hC
      cases hcall.symm.trans hcall'
      refine ⟨hC, ?_⟩
      intro s₂ r₂ hcall₂
      cases hcall.symm.trans hcall₂
      exact (ih hR').mp ⟨s', hrs ▸ hrest⟩
    · rintro ⟨hC, halong⟩
      obtain ⟨s₁, hcall, hR'⟩ := hgood s x op hR hC
      obtain ⟨s', hrun⟩ := (ih hR').mpr (halong _ _ hcall)
      exact ⟨s', runCalls_of_cons hcall hrun⟩

/-- What the calls that meet a condition keep holds after all of them. -/
theorem Along.invariant
    (hpres : ∀ s op s' r, I s → C s op → call op s = .ok (s', r) → I s')
    {ops : List ω} {s s' : σ} {rs : List ρ} (hI : I s) (halong : Along call C ops s)
    (h : runCalls call ops s = .ok (s', rs)) : I s' := by
  induction ops generalizing s rs with
  | nil =>
    cases h
    exact hI
  | cons op ops ih =>
    obtain ⟨hop, hrest⟩ := halong
    obtain ⟨s₁, r, rs', hcall, hrun, -⟩ := runCalls_cons h
    exact ih (hpres s op s₁ r hI hop hcall) (hrest s₁ r hcall) hrun

/-- And they fail only as each of them may. -/
theorem Along.fault {F : ε → Prop}
    (hpres : ∀ s op s' r, I s → C s op → call op s = .ok (s', r) → I s')
    (hfault : ∀ s op e, I s → C s op → call op s = .error e → F e)
    {ops : List ω} {s : σ} {e : ε} (hI : I s) (halong : Along call C ops s)
    (h : runCalls call ops s = .error e) : F e := by
  induction ops generalizing s with
  | nil => cases h
  | cons op ops ih =>
    obtain ⟨hop, hrest⟩ := halong
    obtain hcall | ⟨s₁, r, hcall, hrun⟩ := runCalls_cons_error h
    · exact hfault s op e hI hop hcall
    · exact ih (hpres s op s₁ r hI hop hcall) (hrest s₁ r hcall) hrun

/-- The condition has held when each call after which `Q` holds had met it. -/
theorem along_of_prefixes {Q : σ → Prop} {R : ω → Prop}
    (hpres : ∀ s op s' r, I s → C s op → call op s = .ok (s', r) → I s')
    (hmet : ∀ s op s' r, I s → R op → call op s = .ok (s', r) → Q s' → C s op)
    {ops : List ω} {s : σ} (hI : I s) (hops : ∀ op ∈ ops, R op)
    (hall : ∀ pre, pre <+: ops → ∃ s' rs, runCalls call pre s = .ok (s', rs) ∧ Q s') :
    Along call C ops s := by
  induction ops generalizing s with
  | nil => trivial
  | cons op ops ih =>
    obtain ⟨s₁, rs, hrun, hQ⟩ := hall [op] (List.cons_prefix_cons.mpr ⟨rfl, List.nil_prefix⟩)
    obtain ⟨s₂, r, rs', hcall, hnil, -⟩ := runCalls_cons hrun
    cases hnil
    have hC := hmet s op s₁ r hI (hops op List.mem_cons_self) hcall hQ
    refine ⟨hC, ?_⟩
    intro s' r' hcall'
    cases hcall.symm.trans hcall'
    refine ih (hpres s op s₁ r hI hC hcall) (fun op' h => hops op' (List.mem_cons_of_mem _ h)) ?_
    intro pre hpre
    obtain ⟨s', rs, hrun, hQ⟩ := hall (op :: pre) (List.cons_prefix_cons.mpr ⟨rfl, hpre⟩)
    obtain ⟨s₂, r₂, rs', hcall₂, hrest, -⟩ := runCalls_cons hrun
    cases hcall.symm.trans hcall₂
    exact ⟨s', rs', hrest, hQ⟩

/-- The calls beside those of a specification, with the results aside: `Q`
relates the two in all states if and only if the condition holds all
along. -/
theorem along_iff_related {ρ' : Type} {spec : ω → τ → τ × ρ'} {R Q : σ → τ → Prop}
    (hgood : ∀ s x op, R s x → C s op → ∃ s' r, call op s = .ok (s', r) ∧ R s' (spec op x).1)
    (hQ : ∀ s x, R s x → Q s x)
    (hmet : ∀ s x op s' r, R s x → call op s = .ok (s', r) → Q s' (spec op x).1 → C s op)
    {ops : List ω} {s : σ} {x : τ} (hR : R s x) :
    (∀ pre, pre <+: ops → ∃ s' rs, runCalls call pre s = .ok (s', rs) ∧ Q s' (specCalls spec pre x).1) ↔
      Along call C ops s := by
  induction ops generalizing s x with
  | nil =>
    refine ⟨fun _ => trivial, fun _ pre hpre => ?_⟩
    rw [List.prefix_nil.mp hpre]
    exact ⟨s, [], rfl, hQ s x hR⟩
  | cons op ops ih =>
    constructor
    · intro hall
      obtain ⟨s₁, rs, hrun, hone⟩ := hall [op] (List.cons_prefix_cons.mpr ⟨rfl, List.nil_prefix⟩)
      obtain ⟨s₂, r, rs', hcall, hnil, -⟩ := runCalls_cons hrun
      cases hnil
      have hC := hmet s x op s₁ r hR hcall hone
      obtain ⟨s₂, r₂, hcall₂, hR'⟩ := hgood s x op hR hC
      cases hcall.symm.trans hcall₂
      refine ⟨hC, ?_⟩
      intro s' r' hcall'
      cases hcall.symm.trans hcall'
      refine (ih hR').mp fun pre hpre => ?_
      obtain ⟨s', rs, hrun, hrelated⟩ := hall (op :: pre) (List.cons_prefix_cons.mpr ⟨rfl, hpre⟩)
      obtain ⟨s₂, r₂, rs', hcall₂, hrest, -⟩ := runCalls_cons hrun
      cases hcall.symm.trans hcall₂
      exact ⟨s', rs', hrest, hrelated⟩
    · rintro ⟨hC, hrest⟩ pre hpre
      cases pre with
      | nil => exact ⟨s, [], rfl, hQ s x hR⟩
      | cons op' pre =>
        obtain ⟨rfl, htail⟩ := List.cons_prefix_cons.mp hpre
        obtain ⟨s₁, r, hcall, hR'⟩ := hgood s x op' hR hC
        obtain ⟨s', rs, hrun, hrelated⟩ := (ih hR').mpr (hrest s₁ r hcall) pre htail
        exact ⟨s', r :: rs, runCalls_of_cons hcall hrun, hrelated⟩

end Efio.Lib
