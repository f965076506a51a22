import Efio.Evsync.SpinLock

/-!
# `Efio.Proofs.Evsync.SpinLock`: when the spin lock excludes

After its release `ev_spin_unlock` reads the word once more, and when
another thread has set it in between, the loop goes round and releases the
lock of that thread (`spinLock_not_exclusive`). `ReleasesOnce` is the
condition that this does not happen; under it at most one thread holds the
lock, and the word is set meanwhile (`spinLock_exclusive`).
-/

set_option autoImplicit false

namespace Efio.Proofs.Evsync

open Efio.Lib
open Efio.Evsync

variable {T : Type} [DecidableEq T] {s s' : SpinLock T} {t : T} {l : SpinLabel T}

/-- The thread that makes an access. -/
def accessor : SpinLabel T → Option T
  | .access t => some t
  | .call _ _ => none

/-- The place at which `ev_spin_unlock` would release the lock a second
time. -/
def releasesAgain : SpinPc → Bool
  | .unlockCas oldVal released => oldVal && released
  | _ => false

/-- A call of `ev_spin_unlock` that has released the lock does not do it
again: its further compare-exchanges do not find the word set. -/
def ReleasesOnce (s : SpinLock T) (l : SpinLabel T) : Prop :=
  ∀ t ∈ accessor l, releasesAgain (s.pc t) = true → s.lock = false

instance : DecidableRel (ReleasesOnce (T := T)) := fun s l =>
  inferInstanceAs (Decidable (∀ t ∈ accessor l, releasesAgain (s.pc t) = true → s.lock = false))

/-- Inside `ev_spin_unlock`, before the release. -/
def releasing : SpinPc → Bool
  | .unlockLoad _ released | .unlockCas _ released => !released
  | _ => false

/-- What the threads know: a thread that is about to release expects `true`,
and a holder is not inside `ev_spin_unlock`. -/
def Expects : SpinPc → Bool → Prop
  | .unlockLoad oldVal released, held | .unlockCas oldVal released, held =>
    held = false ∧ (released = false → oldVal = true)
  | _, _ => True

/-- The lock is `t`'s: it holds the lock or is about to release it. -/
def Owns (s : SpinLock T) (t : T) : Prop := s.held t = true ∨ releasing (s.pc t) = true

/-- The word counts the owners. -/
structure SpinInv (s : SpinLock T) : Prop where
  word : ∀ t, Owns s t → s.lock = true
  alone : ∀ t u, Owns s t → Owns s u → t = u
  expects : ∀ t, Expects (s.pc t) (s.held t)

/-- A step of `t` alone after which `t` owns what it owned before, and the
word is as it was. -/
theorem SpinInv.stay (h : SpinInv s) {q : SpinPc} {b : Bool}
    (hpc : s'.pc = Function.update s.pc t q) (hheld : s'.held = Function.update s.held t b)
    (hlock : s'.lock = s.lock) (howns : b = true ∨ releasing q = true → Owns s t)
    (hexpects : Expects q b) : SpinInv s' := by
  have hold : ∀ u, Owns s' u → Owns s u := by
    intro u hu
    unfold Owns at hu
    rw [hpc, hheld] at hu
    by_cases hut : u = t
    · subst hut
      rw [Function.update_self, Function.update_self] at hu
      exact howns hu
    · rw [Function.update_of_ne hut, Function.update_of_ne hut] at hu
      exact hu
  refine ⟨?_, ?_, ?_⟩
  · intro u hu
    rw [hlock]
    exact h.word u (hold u hu)
  · intro u v hu hv
    exact h.alone u v (hold u hu) (hold v hv)
  · intro u
    rw [hpc, hheld]
    by_cases hut : u = t
    · subst hut
      rw [Function.update_self, Function.update_self]
      exact hexpects
    · rw [Function.update_of_ne hut, Function.update_of_ne hut]
      exact h.expects u

/-- A step of `t` that leaves `held` alone. -/
theorem SpinInv.goto (h : SpinInv s) {q : SpinPc} (hreleasing : releasing q = releasing (s.pc t))
    (hexpects : Expects (s.pc t) (s.held t) → Expects q (s.held t)) : SpinInv (s.goto t q) := by
  refine h.stay (b := s.held t) rfl (Function.update_eq_self t s.held).symm rfl ?_
    (hexpects (h.expects t))
  intro howns
  rw [hreleasing] at howns
  exact howns

/-- An attempt to acquire the lock. -/
theorem SpinInv.acquire (h : SpinInv s) {failed : SpinPc} (hbefore : releasing (s.pc t) = false)
    (hfailed : releasing failed = false) (hexpects : ∀ b, Expects failed b) :
    SpinInv (s.acquire t failed) := by
  unfold SpinLock.acquire
  split
  · rename_i hfree
    -- Nobody owns a free lock.
    have hnone : ∀ u, ¬ Owns s u := by
      intro u hu
      exact Bool.false_ne_true (hfree.symm.trans (h.word u hu))
    have honly : ∀ u, Owns ({ s with
        lock := true
        held := Function.update s.held t true }.goto t .idle) u → u = t := by
      intro u hu
      by_contra hut
      unfold Owns SpinLock.goto at hu
      simp only [Function.update_of_ne hut] at hu
      exact hnone u hu
    refine ⟨fun _ _ => rfl, ?_, ?_⟩
    · intro u v hu hv
      rw [honly u hu, honly v hv]
    · intro u
      unfold SpinLock.goto
      by_cases hut : u = t
      · subst hut
        simp only [Function.update_self]
        trivial
      · simp only [Function.update_of_ne hut]
        exact h.expects u
  · exact h.goto (hfailed.trans hbefore.symm) fun _ => hexpects _

/-- The compare-exchange of `ev_spin_unlock`. -/
theorem SpinInv.release (h : SpinInv s) {oldVal released : Bool}
    (hpc : s.pc t = .unlockCas oldVal released)
    (honce : (oldVal && released) = true → s.lock = false) :
    SpinInv (if s.lock = oldVal then
        { s with lock := false }.goto t (.unlockLoad oldVal (released || oldVal))
      else s.goto t (.unlockLoad s.lock released)) := by
  obtain ⟨hnot, hexpect⟩ : s.held t = false ∧ (released = false → oldVal = true) := by
    have hexpects := h.expects t
    rw [hpc] at hexpects
    exact hexpects
  cases released with
  | false =>
    -- The owner finds the word set, and nobody owns the lock afterwards.
    obtain rfl : oldVal = true := hexpect rfl
    have hmine : Owns s t := Or.inr (by rw [hpc]; rfl)
    rw [if_pos (h.word t hmine)]
    have hnone : ∀ u, ¬ Owns ({ s with lock := false }.goto t (.unlockLoad true (false || true))) u := by
      intro u hu
      unfold Owns SpinLock.goto at hu
      by_cases hut : u = t
      · subst hut
        simp only [Function.update_self, hnot] at hu
        simp [releasing] at hu
      · simp only [Function.update_of_ne hut] at hu
        exact hut (h.alone u t hu hmine)
    refine ⟨fun u hu => absurd hu (hnone u), fun u v hu => absurd hu (hnone u), ?_⟩
    intro u
    unfold SpinLock.goto
    by_cases hut : u = t
    · subst hut
      simp only [Function.update_self]
      exact ⟨hnot, fun heq => by cases heq⟩
    · simp only [Function.update_of_ne hut]
      exact h.expects u
  | true =>
    -- Behind the release the word stays what it is.
    have hreleasing : releasing (s.pc t) = false := by rw [hpc]; rfl
    split
    · rename_i hfound
      have hfree : s.lock = false := by
        cases oldVal
        · exact hfound
        · exact honce rfl
      refine h.stay (b := s.held t) rfl (Function.update_eq_self t s.held).symm hfree.symm ?_
        ⟨hnot, fun heq => by cases heq⟩
      exact fun howns => howns.elim Or.inl fun heq => by cases heq
    · exact h.goto hreleasing.symm fun _ => ⟨hnot, fun heq => by cases heq⟩

theorem SpinInv.step (h : SpinInv s) (hok : ReleasesOnce s l) (hstep : SpinLock.step l s = some s') :
    SpinInv s' := by
  cases l with
  | call t c =>
    cases c with
    | tryLock =>
      simp only [SpinLock.step, SpinLock.callStep] at hstep
      split at hstep <;> cases hstep
      rename_i hidle
      exact h.goto (by rw [hidle]; rfl) fun _ => trivial
    | lock =>
      simp only [SpinLock.step, SpinLock.callStep] at hstep
      split at hstep <;> cases hstep
      rename_i hidle
      exact h.goto (by rw [hidle]; rfl) fun _ => trivial
    | unlock =>
      simp only [SpinLock.step, SpinLock.callStep] at hstep
      split at hstep <;> cases hstep
      rename_i hmine
      exact h.stay (b := false) rfl rfl rfl (fun _ => Or.inl hmine.2) ⟨rfl, fun _ => rfl⟩
  | access t =>
    simp only [SpinLock.step] at hstep
    cases hpc : s.pc t with
    | idle =>
      rw [hpc] at hstep
      cases hstep
    | tryLoad =>
      rw [hpc] at hstep
      cases hstep
      refine h.goto ?_ fun _ => ?_ <;> split <;> first | trivial | simp only [hpc, releasing]
    | tryCas =>
      rw [hpc] at hstep
      cases hstep
      exact h.acquire (by rw [hpc]; rfl) rfl fun _ => trivial
    | lockLoad =>
      rw [hpc] at hstep
      cases hstep
      refine h.goto ?_ fun _ => ?_ <;> split <;> first | trivial | simp only [hpc, releasing]
    | lockCas =>
      rw [hpc] at hstep
      cases hstep
      exact h.acquire (by rw [hpc]; rfl) rfl fun _ => trivial
    | unlockLoad oldVal released =>
      rw [hpc] at hstep
      cases hstep
      split
      · refine h.goto (by rw [hpc]; rfl) ?_
        rw [hpc]
        exact id
      · rename_i hfree
        refine h.stay (b := s.held t) rfl (Function.update_eq_self t s.held).symm rfl ?_ trivial
        exact fun howns => howns.elim Or.inl fun heq => by cases heq
    | unlockCas oldVal released =>
      rw [hpc] at hstep
      cases hstep
      refine h.release hpc fun hagain => hok t rfl ?_
      rw [hpc]
      exact hagain

omit [DecidableEq T] in
theorem spinInv_create : SpinInv (SpinLock.create T) := by
  have hnone : ∀ t : T, ¬ Owns (SpinLock.create T) t := by
    rintro t (hheld | hreleasing)
    · cases hheld
    · cases hreleasing
  exact ⟨fun t ht => absurd ht (hnone t), fun t u ht => absurd ht (hnone t), fun _ => trivial⟩

/-- In every run of any number of threads in which no call of
`ev_spin_unlock` releases the lock twice: at most one thread holds the lock,
and the word is `true` while one does. -/
theorem spinLock_exclusive (h : Reach SpinLock.step ReleasesOnce (SpinLock.create T) s) :
    (∀ t u, s.held t = true → s.held u = true → t = u) ∧ ∀ t, s.held t = true → s.lock = true := by
  have hinv : SpinInv s := h.invariant spinInv_create fun _ _ _ hs hok hstep => hs.step hok hstep
  exact ⟨fun t u ht hu => hinv.alone t u (Or.inl ht) (Or.inl hu),
    fun t ht => hinv.word t (Or.inl ht)⟩

/-- The thread `t` acquires the lock with `ev_spin_lock`. -/
def lockBy (t : Nat) : List (SpinLabel Nat) := [.call t .lock, .access t, .access t]

/-- The lock is taken, released and taken by another thread. -/
theorem spinLock_exclusive_sample :
    ∃ s : SpinLock Nat, s.held 1 = true ∧
      (∀ t u, s.held t = true → s.held u = true → t = u) ∧ ∀ t, s.held t = true → s.lock = true :=
  ⟨_, rfl, spinLock_exclusive (Reach.of_run .init
    (lockBy 0 ++ [.call 0 .unlock, .access 0, .access 0, .access 0] ++ lockBy 1) rfl)⟩

/-- Thread 0 releases the lock and thread 1 takes it before thread 0 reads
the word again. The loop goes round, and thread 2 takes the lock too. -/
theorem spinLock_not_exclusive :
    ∃ s : SpinLock Nat, Reach SpinLock.step (fun _ _ => True) (SpinLock.create Nat) s ∧
      s.held 1 = true ∧ s.held 2 = true :=
  ⟨_, Reach.of_run .init
    (lockBy 0 ++ [.call 0 .unlock, .access 0, .access 0] ++ lockBy 1 ++ [.access 0, .access 0] ++
      lockBy 2) rfl, rfl, rfl⟩

end Efio.Proofs.Evsync
