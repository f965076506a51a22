import Efio.Evsync.RwLock
import Efio.Lib.Counted

/-!
# `Efio.Proofs.Evsync.RwLock`: the read-write lock excludes

A reader raises `rd_lock` and then looks at `wr_lock`; a writer sets
`wr_lock` and then looks at `rd_lock`. The invariant `RwInv` says that
`rd_lock` is the number of readers that are counted, the ones on their way
out again included; that `wr_lock` is what its only writer has made of it;
and that a writer which has seen no reader is inside without any.

A reader gets in only by reading a zero `wr_lock` (`inRead_of_access`), so
while a writer waits or writes the readers inside only become fewer.
-/

set_option autoImplicit false

namespace Efio.Proofs.Evsync

open Efio.Lib
open Efio.Evsync

variable {T : Type} [DecidableEq T] {s s' : RwLock T} {t : T} {l : RwLabel T}

/-! ### What the places mean -/

/-- The thread holds the lock for reading. -/
def inRead : RwPc → Bool
  | .reading | .rdunlockLoad | .rdunlockSub => true
  | _ => false

/-- The thread holds the lock for writing. -/
def inWrite : RwPc → Bool
  | .writing | .wrunlockLoad | .wrunlockStore => true
  | _ => false

/-- The thread has raised `rd_lock`: it holds the lock for reading, has yet
to look at `wr_lock`, or is about to back out. -/
def counted (p : RwPc) : Bool := p == .rdCheck || p == .rdBack || inRead p

/-- The writer has found no reader. -/
def pastReaders (p : RwPc) : Bool := p == .wrStore || inWrite p

/-- What the writer has made of `wr_lock`. -/
def wordOf : RwPc → Option Int
  | .wrLoad | .wrStore => some (-1)
  | .writing | .wrunlockLoad | .wrunlockStore => some 1
  | _ => none

theorem wordOf_ne_none {p : RwPc} (h : pastReaders p = true) : wordOf p ≠ none := by
  cases p <;> simp [pastReaders, inWrite, wordOf] at h ⊢

theorem wordOf_ne_zero {p : RwPc} {w : Int} (h : wordOf p = some w) : w ≠ 0 := by
  cases p <;> simp [wordOf] at h <;> omega

theorem counted_of_inRead {p : RwPc} (h : inRead p = true) : counted p = true := by
  simp [counted, h]

theorem pastReaders_of_inWrite {p : RwPc} (h : inWrite p = true) : pastReaders p = true := by
  simp [pastReaders, h]

/-! ### The invariant -/

/-- What holds in every state. -/
structure RwInv (s : RwLock T) : Prop where
  readers : Counted counted s.pc s.rdLock
  word : ∀ t w, wordOf (s.pc t) = some w → s.wrLock = w
  alone : ∀ t u, wordOf (s.pc t) ≠ none → wordOf (s.pc u) ≠ none → t = u
  excludes : ∀ t u, pastReaders (s.pc t) = true → inRead (s.pc u) = false
  running : ∀ t, s.pc t ≠ .aborted

omit [DecidableEq T] in
theorem rwInv_init : RwInv (RwLock.init T) where
  readers := ⟨∅, fun t => by simp [RwLock.init, counted, inRead], rfl⟩
  word t w h := by simp [RwLock.init, wordOf] at h
  alone t u h := by simp [RwLock.init, wordOf] at h
  excludes t u h := by simp [RwLock.init, pastReaders, inWrite] at h
  running t := by simp [RwLock.init]

omit [DecidableEq T] in
/-- `wr_lock` is zero only when no thread writes. -/
theorem RwInv.no_writer (h : RwInv s) (hzero : s.wrLock = 0) (u : T) : wordOf (s.pc u) = none := by
  cases hu : wordOf (s.pc u) with
  | none => rfl
  | some w => exact absurd ((h.word u w hu).symm.trans hzero) (wordOf_ne_zero hu)

omit [DecidableEq T] in
/-- A thread that writes or waits to write is the only one. -/
theorem RwInv.others (h : RwInv s) (hmine : wordOf (s.pc t) ≠ none) :
    ∀ u, u ≠ t → wordOf (s.pc u) = none := by
  intro u hu
  by_contra hw
  exact hu (h.alone u t hw hmine)

/-- A thread that is not the writer moves on as a reader. It gets in only
when `wr_lock` is zero. -/
theorem RwInv.reader (h : RwInv s) {q : RwPc} {n : Int} (hword : wordOf (s.pc t) = none)
    (hnext : wordOf q = none) (hcount : n = s.rdLock + (share counted q - share counted (s.pc t)))
    (henter : inRead q = true → inRead (s.pc t) = true ∨ s.wrLock = 0) (hrun : q ≠ .aborted) :
    RwInv ({ s with rdLock := n }.goto t q) := by
  -- The writers are the same as before.
  have hkeep : ∀ {u}, wordOf (Function.update s.pc t q u) = wordOf (s.pc u) := by
    intro u
    by_cases hu : u = t
    · simp [hu, hnext, hword]
    · simp [hu]
  have hpast : ∀ {u}, pastReaders (Function.update s.pc t q u) = true →
      pastReaders (s.pc u) = true := by
    intro u hpast
    by_cases hu : u = t
    · subst hu
      rw [Function.update_self] at hpast
      exact absurd hnext (wordOf_ne_none hpast)
    · simpa [hu] using hpast
  constructor
  case readers =>
    have hreaders := h.readers.update t q
    rwa [← hcount] at hreaders
  case word =>
    intro u w hu
    exact h.word u w (hkeep.symm.trans hu)
  case alone =>
    intro u v hu hv
    exact h.alone u v (hkeep ▸ hu) (hkeep ▸ hv)
  case excludes =>
    intro u v hu
    have hwriter := hpast hu
    by_cases hv : v = t
    · -- While a writer is past the readers, the thread does not get in.
      subst hv
      simp only [RwLock.goto, Function.update_self]
      cases hq : inRead q with
      | false => rfl
      | true =>
        rcases henter hq with hin | hzero
        · exact absurd hin (by simp [h.excludes u v hwriter])
        · exact absurd (h.no_writer hzero u) (wordOf_ne_none hwriter)
    · simpa [RwLock.goto, hv] using h.excludes u v hwriter
  case running =>
    intro u
    by_cases hu : u = t
    · simpa [RwLock.goto, hu] using hrun
    · simpa [RwLock.goto, hu] using h.running u

/-- The writer, or a thread that becomes the writer, moves on and sets
`wr_lock`. -/
theorem RwInv.writer (h : RwInv s) {q : RwPc} {w : Int} (hothers : ∀ u, u ≠ t → wordOf (s.pc u) = none)
    (hnot : counted (s.pc t) = false) (hnext : counted q = false)
    (hword : ∀ w', wordOf q = some w' → w = w')
    (hpast : pastReaders q = true → pastReaders (s.pc t) = true ∨ s.rdLock = 0) (hrun : q ≠ .aborted) :
    RwInv ({ s with wrLock := w }.goto t q) := by
  have hwriter : ∀ {u}, wordOf (Function.update s.pc t q u) ≠ none → u = t := by
    intro u hu
    by_contra hne
    exact hu (by simp [hne, hothers u hne])
  have hinside : ∀ {u}, inRead (Function.update s.pc t q u) = true → inRead (s.pc u) = true := by
    intro u hu
    by_cases hne : u = t
    · subst hne
      rw [Function.update_self] at hu
      exact absurd (counted_of_inRead hu) (by simp [hnext])
    · simpa [hne] using hu
  constructor
  case readers =>
    have hreaders := h.readers.update t q
    simpa [share, hnot, hnext, RwLock.goto] using hreaders
  case word =>
    intro u w' hu
    obtain rfl : u = t := by
      refine hwriter fun hnone => ?_
      cases hu.symm.trans hnone
    simp only [RwLock.goto, Function.update_self] at hu
    exact hword w' hu
  case alone =>
    intro u v hu hv
    exact (hwriter hu).trans (hwriter hv).symm
  case excludes =>
    intro u v hu
    obtain rfl : u = t := hwriter (wordOf_ne_none hu)
    simp only [RwLock.goto, Function.update_self] at hu
    by_contra hv
    have hin : inRead (s.pc v) = true := hinside (Bool.eq_true_of_not_eq_false hv)
    rcases hpast hu with hbefore | hzero
    · exact absurd hin (by simp [h.excludes u v hbefore])
    · -- A zero `rd_lock` counts no reader.
      have hnone := (hzero ▸ h.readers).none v
      exact absurd (counted_of_inRead hin) (by simp [hnone])
  case running =>
    intro u
    by_cases hu : u = t
    · simpa [RwLock.goto, hu] using hrun
    · simpa [RwLock.goto, hu] using h.running u

/-! ### The steps -/

theorem RwInv.call (h : RwInv s) {c : RwCall} (hstep : s.callStep t c = some s') : RwInv s' := by
  unfold RwLock.callStep at hstep
  split at hstep
  case isFalse => cases hstep
  case isTrue hpc =>
    cases hstep
    cases c with
    | rdlock =>
      have hplace : s.pc t = .idle := hpc
      refine h.reader (n := s.rdLock) ?_ ?_ ?_ ?_ ?_ <;>
        simp [hplace, RwLock.entry, wordOf, share, counted, inRead]
    | rdunlock =>
      have hplace : s.pc t = .reading := hpc
      refine h.reader (n := s.rdLock) ?_ ?_ ?_ ?_ ?_ <;>
        simp [hplace, RwLock.entry, wordOf, share, counted, inRead]
    | wrlock =>
      have hplace : s.pc t = .idle := hpc
      refine h.reader (n := s.rdLock) ?_ ?_ ?_ ?_ ?_ <;>
        simp [hplace, RwLock.entry, wordOf, share, counted, inRead]
    | wrunlock =>
      have hplace : s.pc t = .writing := hpc
      have hword : s.wrLock = 1 := h.word t 1 (by simp [hplace, wordOf])
      refine h.writer (w := s.wrLock) (h.others (by simp [hplace, wordOf])) ?_ ?_ ?_ ?_ ?_ <;>
        simp [hplace, hword, RwLock.entry, wordOf, counted, inRead, pastReaders, inWrite]

theorem RwInv.access (h : RwInv s) (hstep : s.accessStep t (s.pc t) = some s') : RwInv s' := by
  cases hpc : s.pc t with
  | idle | reading | writing | aborted =>
    rw [hpc] at hstep
    cases hstep
  | rdLoad =>
    rw [hpc] at hstep
    cases hstep
    refine h.reader (n := s.rdLock) ?_ ?_ ?_ ?_ ?_ <;> (try split) <;>
      simp_all [wordOf, share, counted, inRead]
  | rdAdd =>
    rw [hpc] at hstep
    cases hstep
    refine h.reader ?_ ?_ ?_ ?_ ?_ <;> simp [hpc, wordOf, share, counted, inRead]
  | rdCheck =>
    rw [hpc] at hstep
    cases hstep
    split
    · -- Only here a reader gets in.
      rename_i hzero
      refine h.reader (n := s.rdLock) ?_ ?_ ?_ (fun _ => Or.inr hzero) ?_ <;>
        simp [hpc, wordOf, share, counted, inRead]
    · refine h.reader (n := s.rdLock) ?_ ?_ ?_ ?_ ?_ <;> simp [hpc, wordOf, share, counted, inRead]
  | rdBack =>
    rw [hpc] at hstep
    cases hstep
    refine h.reader ?_ ?_ ?_ ?_ ?_ <;> simp [hpc, wordOf, share, counted, inRead]
  | rdunlockLoad =>
    rw [hpc] at hstep
    cases hstep
    have hpos : s.rdLock > 0 := h.readers.pos (t := t) (by simp [hpc, counted, inRead])
    rw [if_pos hpos]
    refine h.reader (n := s.rdLock) ?_ ?_ ?_ ?_ ?_ <;> simp [hpc, wordOf, share, counted, inRead]
  | rdunlockSub =>
    rw [hpc] at hstep
    cases hstep
    refine h.reader ?_ ?_ ?_ ?_ ?_ <;> simp [hpc, wordOf, share, counted, inRead]
  | wrCas =>
    rw [hpc] at hstep
    cases hstep
    split
    · rename_i hzero
      refine h.writer (fun u _ => h.no_writer hzero u) ?_ ?_ ?_ ?_ ?_ <;>
        simp [hpc, wordOf, counted, inRead, pastReaders, inWrite]
    · refine h.reader (n := s.rdLock) ?_ ?_ ?_ ?_ ?_ <;> simp [hpc, wordOf, share, counted, inRead]
  | wrLoad =>
    rw [hpc] at hstep
    cases hstep
    have hword : s.wrLock = -1 := h.word t _ (by simp [hpc, wordOf])
    have hothers := h.others (t := t) (by simp [hpc, wordOf])
    split
    · -- The writer has seen that no reader is counted.
      rename_i hzero
      refine h.writer (w := s.wrLock) hothers ?_ ?_ ?_ (fun _ => Or.inr hzero) ?_ <;>
        simp [hpc, hword, wordOf, counted, inRead]
    · refine h.writer (w := s.wrLock) hothers ?_ ?_ ?_ ?_ ?_ <;>
        simp [hpc, hword, wordOf, counted, inRead, pastReaders, inWrite]
  | wrStore =>
    rw [hpc] at hstep
    cases hstep
    refine h.writer (h.others (by simp [hpc, wordOf])) ?_ ?_ ?_ ?_ ?_ <;>
      simp [hpc, wordOf, counted, inRead, pastReaders, inWrite]
  | wrunlockLoad =>
    rw [hpc] at hstep
    cases hstep
    have hword : s.wrLock = 1 := h.word t _ (by simp [hpc, wordOf])
    rw [if_pos hword]
    refine h.writer (w := s.wrLock) (h.others (by simp [hpc, wordOf])) ?_ ?_ ?_ ?_ ?_ <;>
      simp [hpc, hword, wordOf, counted, inRead, pastReaders, inWrite]
  | wrunlockStore =>
    rw [hpc] at hstep
    cases hstep
    refine h.writer (h.others (by simp [hpc, wordOf])) ?_ ?_ ?_ ?_ ?_ <;>
      simp [hpc, wordOf, counted, inRead, pastReaders, inWrite]

theorem RwInv.step (h : RwInv s) (hstep : RwLock.step l s = some s') : RwInv s' := by
  cases l with
  | call t c => exact h.call hstep
  | access t => exact h.access hstep

/-- A thread gets in for reading only by a look at a zero `wr_lock`. -/
theorem inRead_of_step (hstep : RwLock.step l s = some s') (hclosed : s.wrLock ≠ 0)
    (hin : inRead (s'.pc t) = true) : inRead (s.pc t) = true := by
  cases l with
  | call u c =>
    simp only [RwLock.step, RwLock.callStep] at hstep
    split at hstep
    case isFalse => cases hstep
    case isTrue hpc =>
      cases hstep
      by_cases ht : t = u
      · subst ht
        cases c <;> simp_all [RwLock.goto, RwLock.entry, inRead]
      · simpa [RwLock.goto, ht] using hin
  | access u =>
    simp only [RwLock.step] at hstep
    by_cases ht : t = u
    · subst ht
      cases hpc : s.pc t <;> rw [hpc] at hstep <;> cases hstep <;>
        simp_all [RwLock.goto, inRead]
      -- Two looks remain whose outcome depends on another word; neither lets in.
      case wrLoad.refl => by_cases hzero : s.rdLock = 0 <;> simp [hzero] at hin
      case wrunlockLoad.refl => by_cases hone : s.wrLock = 1 <;> simp [hone] at hin
    · cases hpc : s.pc u <;> rw [hpc] at hstep <;> cases hstep <;>
        simp_all [RwLock.goto]

/-- In every run of any number of threads: a thread that holds the lock for
writing is the only one that holds it; `rd_lock` is the number of readers
counted; no assertion fails; and while `wr_lock` is not zero, the threads
that hold the lock for reading held it before. -/
theorem rwLock_excludes (h : Reach RwLock.step (fun _ _ => True) (RwLock.init T) s) :
    (∀ t, inWrite (s.pc t) = true → ∀ u, u ≠ t →
      inWrite (s.pc u) = false ∧ inRead (s.pc u) = false) ∧
    Counted counted s.pc s.rdLock ∧
    (∀ t, s.pc t ≠ .aborted) ∧
    ∀ s', Reach RwLock.step (fun s _ => s.wrLock ≠ 0) s s' →
      ∀ t, inRead (s'.pc t) = true → inRead (s.pc t) = true := by
  have hinv : RwInv s := h.invariant rwInv_init fun _ _ _ hs _ hstep => hs.step hstep
  refine ⟨?_, hinv.readers, hinv.running, ?_⟩
  · intro t ht u hu
    have hpast : pastReaders (s.pc t) = true := pastReaders_of_inWrite ht
    constructor
    · by_contra hw
      have hwriter : pastReaders (s.pc u) = true :=
        pastReaders_of_inWrite (Bool.eq_true_of_not_eq_false hw)
      exact hu (hinv.alone u t (wordOf_ne_none hwriter) (wordOf_ne_none hpast))
    · exact hinv.excludes t u hpast
  · intro s' hrun
    induction hrun with
    | init => exact fun t ht => ht
    | step _ hclosed hstep ih => exact fun t ht => ih t (inRead_of_step hstep hclosed ht)

/-- The thread `t` makes a call of `n` accesses. -/
def rwCall (t : Nat) (c : RwCall) (n : Nat) : List (RwLabel Nat) :=
  .call t c :: List.replicate n (.access t)

/-- A reader has raised `rd_lock` when a writer comes; it backs out, and the
writer gets in. -/
theorem rwLock_excludes_sample :
    ∃ s : RwLock Nat, s.pc 1 = .writing ∧
      (∀ t, inWrite (s.pc t) = true → ∀ u, u ≠ t →
        inWrite (s.pc u) = false ∧ inRead (s.pc u) = false) ∧
      Counted counted s.pc s.rdLock ∧
      (∀ t, s.pc t ≠ .aborted) ∧
      ∀ s', Reach RwLock.step (fun s _ => s.wrLock ≠ 0) s s' →
        ∀ t, inRead (s'.pc t) = true → inRead (s.pc t) = true :=
  ⟨_, rfl, rwLock_excludes (Reach.of_run .init
    (rwCall 0 .rdlock 2 ++ rwCall 1 .wrlock 2 ++ [.access 0, .access 0, .access 1, .access 1]) rfl)⟩

end Efio.Proofs.Evsync
