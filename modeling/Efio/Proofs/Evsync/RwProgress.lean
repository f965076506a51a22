import Efio.Lib.Progress
import Efio.Proofs.Evsync.RwLock
import Mathlib.Algebra.Order.BigOperators.Group.Finset

/-!
# `Efio.Proofs.Evsync.RwProgress`: every call of `ev_rwlock` returns

A reader that meets a writer takes its count back and tries again, so it
may do this more than once. But it does so at most once for every writer
that gets past its `atomic_compare_exchange_strong`, and a call of
`ev_rwlock_wrlock` gets past it once. The work of a writer in front of it
therefore pays for one more attempt of every other thread.

A word that is not zero names a thread that can go on: `rd_lock` counts
readers that are inside or on their way out, and `wr_lock` is set only
while a writer has it (`RwHeld`). So the threads do not wait for each other
in a circle.
-/

set_option autoImplicit false

namespace Efio.Proofs.Evsync

open Efio.Lib
open Efio.Evsync

variable {T : Type} [DecidableEq T] {s s' : RwLock T} {t : T} {q : RwPc}

/-! ### What is left to do -/

/-- What a thread has still to do until its call and the unlock that belongs
to it have returned. `closed` says that `wr_lock` is not zero, and `k` is
the number of threads. -/
def rwWork (k : Nat) (closed : Bool) : RwPc → Nat
  | .idle | .aborted => 0
  | .rdunlockSub | .wrunlockStore => 1
  | .rdunlockLoad | .wrunlockLoad => 2
  | .reading | .writing => 3
  | .rdCheck => if closed then 8 else 4
  | .rdAdd => if closed then 9 else 5
  | .rdLoad => 6
  | .rdBack => 7
  | .wrStore => 4
  | .wrLoad => 5
  | .wrCas => 4 * k + 6

/-- The work of all threads. -/
def rwLockWork [Fintype T] (s : RwLock T) : Nat :=
  ∑ t, rwWork (Fintype.card T) (s.wrLock != 0) (s.pc t)

/-- When a writer comes in, every thread may have to try once more. -/
theorem rwWork_closed (k : Nat) (p : RwPc) : rwWork k true p ≤ rwWork k false p + 4 := by
  cases p <;> simp [rwWork]

theorem rwWork_open (k : Nat) (p : RwPc) : rwWork k false p ≤ rwWork k true p := by
  cases p <;> simp [rwWork]

/-- `wr_lock` has not changed, and the thread `t` has less to do. -/
theorem rwLockWork_lt [Fintype T] (hpc : s'.pc = Function.update s.pc t q) (hword : s'.wrLock = s.wrLock)
    (hlt : rwWork (Fintype.card T) (s.wrLock != 0) q < rwWork (Fintype.card T) (s.wrLock != 0) (s.pc t)) :
    rwLockWork s' < rwLockWork s := by
  have hsum := sum_update (rwWork (Fintype.card T) (s.wrLock != 0)) s.pc t q
  rw [rwLockWork, rwLockWork, hpc, hword]
  omega

/-! ### The steps -/

/-- The calls that are in progress go on, and a thread that holds the lock
gives it back. -/
def RwFinishing (_ : RwLock T) : RwLabel T → Prop
  | .access _ => True
  | .call _ c => c = .rdunlock ∨ c = .wrunlock

/-- A writer has set `wr_lock`, or it is zero. -/
def RwHeld (s : RwLock T) : Prop := s.wrLock ≠ 0 → ∃ t, wordOf (s.pc t) ≠ none

omit [DecidableEq T] in
theorem rwLockWork_eq [Fintype T] (s : RwLock T) (closed : Bool) (hword : (s.wrLock != 0) = closed) :
    rwLockWork s = ∑ t, rwWork (Fintype.card T) closed (s.pc t) := by
  rw [rwLockWork, hword]

theorem goto_self (t : T) : s.goto t (s.pc t) = s := by
  simp [RwLock.goto, Function.update_eq_self]

/-- An access that changes something brings its thread forward, or it is the
one with which a writer comes in. -/
theorem accessStep_rwLockWork [Fintype T] (h : RwInv s)
    (hchanges : Changes RwLock.step s (.access t)) (hstep : s.accessStep t (s.pc t) = some s') :
    rwLockWork s' < rwLockWork s := by
  have hturn (hsame : s' = s) : False := hchanges (by rw [← hsame] at hstep ⊢; exact hstep)
  cases hpc : s.pc t with
  | idle | reading | writing | aborted =>
    rw [hpc] at hstep
    cases hstep
  | rdLoad =>
    rw [hpc] at hstep
    cases hstep
    by_cases hword : s.wrLock = 0
    · exact rwLockWork_lt rfl rfl (by simp [hpc, hword, rwWork])
    · exact (hturn (by rw [if_neg hword, ← hpc]; exact goto_self t)).elim
  | rdAdd | rdBack | rdunlockSub =>
    rw [hpc] at hstep
    cases hstep
    refine rwLockWork_lt rfl rfl ?_
    rw [hpc]
    cases s.wrLock != 0 <;> simp [rwWork]
  | rdCheck =>
    rw [hpc] at hstep
    cases hstep
    refine rwLockWork_lt rfl rfl ?_
    by_cases hword : s.wrLock = 0 <;> simp [hpc, hword, rwWork]
  | rdunlockLoad =>
    rw [hpc] at hstep
    cases hstep
    refine rwLockWork_lt rfl rfl ?_
    by_cases hword : s.rdLock > 0 <;> simp [hpc, hword, rwWork]
  | wrCas =>
    rw [hpc] at hstep
    cases hstep
    by_cases hword : s.wrLock = 0
    · -- The writer pays for one more attempt of every thread.
      rw [if_pos hword]
      have hsum := sum_update (rwWork (Fintype.card T) true) s.pc t .wrLoad
      have hall : ∑ u, rwWork (Fintype.card T) true (s.pc u) ≤
          ∑ u, rwWork (Fintype.card T) false (s.pc u) + 4 * Fintype.card T := by
        calc ∑ u, rwWork (Fintype.card T) true (s.pc u)
            ≤ ∑ u, (rwWork (Fintype.card T) false (s.pc u) + 4) :=
              Finset.sum_le_sum fun u _ => rwWork_closed _ _
          _ = ∑ u, rwWork (Fintype.card T) false (s.pc u) + 4 * Fintype.card T := by
              rw [Finset.sum_add_distrib, Finset.sum_const, Finset.card_univ, smul_eq_mul, Nat.mul_comm]
      have hown : rwWork (Fintype.card T) true (s.pc t) = 4 * Fintype.card T + 6 := by rw [hpc, rwWork]
      rw [rwLockWork_eq _ true rfl, rwLockWork_eq s false (by simp [hword])]
      show ∑ u, rwWork (Fintype.card T) true (Function.update s.pc t .wrLoad u) < _
      have hnew : rwWork (Fintype.card T) true .wrLoad = 5 := rfl
      omega
    · exact (hturn (by rw [if_neg hword, ← hpc]; exact goto_self t)).elim
  | wrLoad =>
    rw [hpc] at hstep
    cases hstep
    by_cases hword : s.rdLock = 0
    · exact rwLockWork_lt rfl rfl (by simp [hpc, hword, rwWork])
    · exact (hturn (by rw [if_neg hword, ← hpc]; exact goto_self t)).elim
  | wrStore =>
    rw [hpc] at hstep
    cases hstep
    have hbefore : s.wrLock = -1 := h.word t _ (by rw [hpc]; rfl)
    have hsum := sum_update (rwWork (Fintype.card T) true) s.pc t .writing
    have hown : rwWork (Fintype.card T) true (s.pc t) = 4 := by rw [hpc, rwWork]
    have hnew : rwWork (Fintype.card T) true .writing = 3 := rfl
    rw [rwLockWork_eq _ true rfl, rwLockWork_eq s true (by simp [hbefore])]
    show ∑ u, rwWork (Fintype.card T) true (Function.update s.pc t .writing u) < _
    omega
  | wrunlockLoad =>
    rw [hpc] at hstep
    cases hstep
    refine rwLockWork_lt rfl rfl ?_
    by_cases hword : s.wrLock = 1 <;> simp [hpc, hword, rwWork]
  | wrunlockStore =>
    rw [hpc] at hstep
    cases hstep
    have hbefore : s.wrLock = 1 := h.word t _ (by rw [hpc]; rfl)
    have hsum := sum_update (rwWork (Fintype.card T) true) s.pc t .idle
    have hall : ∑ u, rwWork (Fintype.card T) false (Function.update s.pc t .idle u) ≤
        ∑ u, rwWork (Fintype.card T) true (Function.update s.pc t .idle u) :=
      Finset.sum_le_sum fun u _ => rwWork_open _ _
    have hown : rwWork (Fintype.card T) true (s.pc t) = 1 := by rw [hpc, rwWork]
    have hnew : rwWork (Fintype.card T) true .idle = 0 := rfl
    rw [rwLockWork_eq _ false rfl, rwLockWork_eq s true (by simp [hbefore])]
    show ∑ u, rwWork (Fintype.card T) false (Function.update s.pc t .idle u) < _
    omega

theorem finishing_rwLockWork [Fintype T] (h : RwInv s) {l : RwLabel T} (hok : RwFinishing s l)
    (hchanges : Changes RwLock.step s l) (hstep : RwLock.step l s = some s') :
    rwLockWork s' < rwLockWork s := by
  cases l with
  | access t => exact accessStep_rwLockWork h hchanges hstep
  | call t c =>
    simp only [RwLock.step, RwLock.callStep] at hstep
    split at hstep
    case isTrue hpc =>
      cases hstep
      refine rwLockWork_lt rfl rfl ?_
      rcases hok with rfl | rfl
      all_goals
        rw [show s.pc t = _ from hpc]
        simp [RwLock.entry, rwWork]
    case isFalse => cases hstep

/-- A writer that has set the word and moves on has it still, or it has set
it to zero. -/
theorem RwHeld.step (h : RwHeld s) {l : RwLabel T} (hinv : RwInv s) (hstep : RwLock.step l s = some s') :
    RwHeld s' := by
  have hstays {t : T} {q : RwPc} {n : Int} (hword : wordOf (s.pc t) ≠ none → wordOf q ≠ none) :
      RwHeld ({ s with rdLock := n }.goto t q) := by
    intro hclosed
    obtain ⟨u, hu⟩ := h hclosed
    refine ⟨u, ?_⟩
    by_cases hut : u = t
    · subst hut
      simpa [RwLock.goto] using hword hu
    · simpa [RwLock.goto, hut] using hu
  have hsets {t : T} {q : RwPc} {w : Int} (hword : wordOf q ≠ none) :
      RwHeld ({ s with wrLock := w }.goto t q) :=
    fun _ => ⟨t, by simpa [RwLock.goto] using hword⟩
  cases l with
  | call t c =>
    simp only [RwLock.step, RwLock.callStep] at hstep
    split at hstep
    case isTrue hpc =>
      cases hstep
      refine hstays (n := s.rdLock) fun hmine => ?_
      rw [hpc] at hmine
      cases c <;> simp [RwLock.entry, wordOf] at hmine ⊢
    case isFalse => cases hstep
  | access t =>
    change s.accessStep t (s.pc t) = some s' at hstep
    cases hpc : s.pc t with
    | idle | reading | writing | aborted =>
      rw [hpc] at hstep
      cases hstep
    | rdLoad | rdAdd | rdCheck | rdBack | rdunlockLoad | rdunlockSub =>
      rw [hpc] at hstep
      cases hstep
      exact hstays fun hmine => absurd (by rw [hpc]; rfl) hmine
    | wrCas =>
      rw [hpc] at hstep
      cases hstep
      split
      · exact hsets (by simp [wordOf])
      · exact hstays (n := s.rdLock) fun hmine => absurd (by rw [hpc]; rfl) hmine
    | wrLoad =>
      rw [hpc] at hstep
      cases hstep
      refine hstays (n := s.rdLock) fun _ => ?_
      split <;> simp [wordOf]
    | wrStore =>
      rw [hpc] at hstep
      cases hstep
      exact hsets (by simp [wordOf])
    | wrunlockLoad =>
      rw [hpc] at hstep
      cases hstep
      have hword : s.wrLock = 1 := hinv.word t _ (by rw [hpc]; rfl)
      rw [if_pos hword]
      exact hstays (n := s.rdLock) fun _ => by simp [wordOf]
    | wrunlockStore =>
      rw [hpc] at hstep
      cases hstep
      exact fun hclosed => absurd rfl hclosed

/-! ### The result -/

/-- Nobody holds the lock or waits for it. -/
structure RwUnused (s : RwLock T) : Prop where
  idle : ∀ t, s.pc t = .idle
  rdLock : s.rdLock = 0
  wrLock : s.wrLock = 0

/-- An access that leaves its thread where it is finds a word that keeps the
thread waiting. -/
theorem waits_of_same (hstep : s.accessStep t (s.pc t) = some s') (hsame : s'.pc t = s.pc t) :
    (s.pc t = .rdLoad ∨ s.pc t = .wrCas) ∧ s.wrLock ≠ 0 ∨ s.pc t = .wrLoad ∧ s.rdLock ≠ 0 := by
  cases hpc : s.pc t <;> rw [hpc] at hstep hsame <;> cases hstep
  case rdLoad.refl =>
    by_cases hword : s.wrLock = 0
    · simp [hword, RwLock.goto] at hsame
    · exact Or.inl ⟨Or.inl rfl, hword⟩
  case wrCas.refl =>
    by_cases hword : s.wrLock = 0
    · simp [hword, RwLock.goto] at hsame
    · exact Or.inl ⟨Or.inr rfl, hword⟩
  case wrLoad.refl =>
    by_cases hword : s.rdLock = 0
    · simp [hword, RwLock.goto] at hsame
    · exact Or.inr ⟨rfl, hword⟩
  case rdCheck.refl => by_cases hword : s.wrLock = 0 <;> simp [hword, RwLock.goto] at hsame
  case rdunlockLoad.refl => by_cases hword : s.rdLock > 0 <;> simp [hword, RwLock.goto] at hsame
  case wrunlockLoad.refl => by_cases hword : s.wrLock = 1 <;> simp [hword, RwLock.goto] at hsame
  all_goals simp [RwLock.goto] at hsame

/-- Where only waiting threads can move, each thread is between two calls or
waits. -/
theorem place_of_rest (h : RwInv s)
    (hrest : AtRest RwLock.step (fun s l => RwFinishing s l ∧ Changes RwLock.step s l) s) (t : T) :
    s.pc t = .idle ∨ (s.pc t = .rdLoad ∨ s.pc t = .wrCas) ∧ s.wrLock ≠ 0 ∨
      s.pc t = .wrLoad ∧ s.rdLock ≠ 0 := by
  cases hstep : s.accessStep t (s.pc t) with
  | some s' =>
    have haccess : RwLock.step (.access t) s = some s' := hstep
    have hsame : s' = s := hrest.unchanged haccess trivial
    have hwaits := waits_of_same hstep (by rw [hsame])
    exact Or.inr hwaits
  | none =>
    cases hpc : s.pc t with
    | idle => exact Or.inl rfl
    | aborted => exact absurd hpc (h.running t)
    | reading =>
      have hunlock : RwLock.step (.call t .rdunlock) s = some (s.goto t .rdunlockLoad) := if_pos hpc
      have hsame := hrest.unchanged hunlock (Or.inl rfl)
      have hplace : (s.goto t .rdunlockLoad).pc t = s.pc t := by rw [hsame]
      simp [RwLock.goto, hpc] at hplace
    | writing =>
      have hunlock : RwLock.step (.call t .wrunlock) s = some (s.goto t .wrunlockLoad) := if_pos hpc
      have hsame := hrest.unchanged hunlock (Or.inr rfl)
      have hplace : (s.goto t .wrunlockLoad).pc t = s.pc t := by rw [hsame]
      simp [RwLock.goto, hpc] at hplace
    | _ =>
      rw [hpc] at hstep
      cases hstep

theorem rwUnused_of_rest (h : RwInv s) (hheld : RwHeld s)
    (hrest : AtRest RwLock.step (fun s l => RwFinishing s l ∧ Changes RwLock.step s l) s) :
    RwUnused s := by
  have hplace := place_of_rest h hrest
  -- No reader is counted, so no writer waits for one, so nobody waits for a writer.
  have hrd : s.rdLock = 0 := by
    refine h.readers.eq_zero fun t => ?_
    rcases hplace t with hpc | ⟨hpc | hpc, -⟩ | ⟨hpc, -⟩
    all_goals
      rw [hpc]
      rfl
  have hwr : s.wrLock = 0 := by
    by_contra hclosed
    obtain ⟨t, ht⟩ := hheld hclosed
    rcases hplace t with hpc | ⟨hpc | hpc, -⟩ | ⟨-, hwaits⟩
    · exact ht (by rw [hpc]; rfl)
    · exact ht (by rw [hpc]; rfl)
    · exact ht (by rw [hpc]; rfl)
    · exact hwaits hrd
  refine ⟨fun t => ?_, hrd, hwr⟩
  rcases hplace t with hpc | ⟨-, hwaits⟩ | ⟨-, hwaits⟩
  · exact hpc
  · exact absurd hwr hwaits
  · exact absurd hrd hwaits

/-- Whatever calls are in progress, with no new ones: the threads make a
bounded number of accesses, in any order, that are more than another look at
a word that keeps them waiting. When none is left to be made every call has
returned, every lock that was taken has been given back, and both words are
zero. -/
theorem rwLock_callsReturn [Fintype T]
    (h : Reach RwLock.step (fun _ _ => True) (RwLock.init T) s) :
    Settles RwLock.step (fun s l => RwFinishing s l ∧ Changes RwLock.step s l) (rwLockWork s)
      RwUnused s := by
  have hinv : RwInv s ∧ RwHeld s := by
    refine h.invariant (I := fun s => RwInv s ∧ RwHeld s) ⟨rwInv_init, fun hclosed => absurd rfl hclosed⟩ ?_
    exact fun _ _ _ hs _ hstep => ⟨hs.1.step hstep, hs.2.step hs.1 hstep⟩
  refine .of_measure (I := fun s => RwInv s ∧ RwHeld s) hinv ?_ ?_
  · rintro s₁ s₂ l ⟨hinv, hheld⟩ ⟨hok, hchanges⟩ hstep
    exact ⟨⟨hinv.step hstep, hheld.step hinv hstep⟩, finishing_rwLockWork hinv hok hchanges hstep⟩
  · rintro s₁ ⟨hinv, hheld⟩ hrest
    exact rwUnused_of_rest hinv hheld hrest

/-- One thread reads, a writer waits for it, and a second reader has met the
writer and is about to back out. -/
theorem rwLock_callsReturn_sample :
    ∃ s : RwLock (Fin 3), s.pc 0 = .reading ∧ s.pc 1 = .wrLoad ∧ s.pc 2 = .rdBack ∧
      Settles RwLock.step (fun s l => RwFinishing s l ∧ Changes RwLock.step s l) (rwLockWork s)
        RwUnused s :=
  ⟨_, rfl, rfl, rfl, rwLock_callsReturn (Reach.of_run .init
    [.call 0 .rdlock, .access 0, .access 0, .access 0, .call 1 .wrlock, .call 2 .rdlock, .access 2,
      .access 1, .access 2, .access 2] rfl)⟩

end Efio.Proofs.Evsync
