/-!
# `Efio.Lib.Traced`: computations that leave a trace

A `Traced ω ε α` makes accesses of the type `ω` and ends with a value or an
error. The trace of a sequence is the trace of its first part, followed by
that of the second part when there is one; so what holds of every access of
a sequence can be proved part by part (`within_bind`), and its result is
that of the same sequence without the trace (`result_bind`).
-/

set_option autoImplicit false

namespace Efio.Lib

/-- A computation with the accesses it has made. -/
structure Traced (ω ε α : Type) where
  accesses : List ω
  result : Except ε α

namespace Traced

variable {ω ε α β : Type} {P : ω → Prop}

/-- The end with an error. -/
def stop (e : ε) : Traced ω ε α := ⟨[], .error e⟩

/-- One access, with what it gives. -/
def access (a : ω) (r : Except ε α) : Traced ω ε α := ⟨[a], r⟩

instance : Monad (Traced ω ε) where
  pure v := ⟨[], .ok v⟩
  bind x f :=
    match x.result with
    | .ok v => ⟨x.accesses ++ (f v).accesses, (f v).result⟩
    | .error e => ⟨x.accesses, .error e⟩

@[simp] theorem result_pure (v : α) : (pure v : Traced ω ε α).result = .ok v := rfl

@[simp] theorem result_stop (e : ε) : (stop e : Traced ω ε α).result = .error e := rfl

@[simp] theorem result_access (a : ω) (r : Except ε α) : (access a r).result = r := rfl

@[simp] theorem result_bind (x : Traced ω ε α) (f : α → Traced ω ε β) :
    (x >>= f).result = x.result >>= fun v => (f v).result := by
  show (bind x f).result = _
  simp only [bind]
  cases x.result <;> rfl

theorem pure_bind (v : α) (f : α → Traced ω ε β) : (pure v >>= f : Traced ω ε β) = f v := rfl

/-- Every access has the property. -/
def Within (P : ω → Prop) (x : Traced ω ε α) : Prop := ∀ a ∈ x.accesses, P a

@[simp] theorem within_pure (v : α) : Within P (pure v : Traced ω ε α) := by
  intro a ha
  cases ha

@[simp] theorem within_stop (e : ε) : Within P (stop e : Traced ω ε α) := by
  intro a ha
  cases ha

@[simp] theorem within_access {a : ω} {r : Except ε α} : Within P (access a r) ↔ P a :=
  List.forall_mem_singleton

/-- The accesses of a sequence. -/
theorem within_bind {x : Traced ω ε α} {f : α → Traced ω ε β} :
    Within P (x >>= f) ↔ Within P x ∧ ∀ v, x.result = .ok v → Within P (f v) := by
  show Within P (bind x f) ↔ _
  simp only [Within, bind]
  cases x.result with
  | error e => simp
  | ok v => simp [or_imp, forall_and]

/-- Whatever the first part gives, the second has the property. -/
theorem Within.bind {x : Traced ω ε α} {f : α → Traced ω ε β} (hx : Within P x)
    (hf : ∀ v, Within P (f v)) : Within P (x >>= f) :=
  within_bind.mpr ⟨hx, fun v _ => hf v⟩

end Traced

end Efio.Lib
