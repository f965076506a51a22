import Efio.Evio.FileWriterLoop
import Efio.Lib.Counted
import Efio.Lib.Progress

/-!
# `Efio.Proofs.Evio.FileWriterWakeups`: `file_writer` never sleeps on an event

A thread that posts an event enqueues it first and takes the mutex
afterwards, and `file_writer` looks at the queue once more with the mutex
in its hands before it waits. So when `file_writer` waits, or is about to,
and the queue is not empty, a thread that posts has its signal still before
it (`LoopInv.owed`).

From this the run theorem follows by a measure. Left alone, the threads
that post and `file_writer` stop after a bounded number of steps, also when
`file_writer` never wakes up on its own, and then every event has been
handled in the order in which it was enqueued. The only exception is a
shutdown event, which ends the loop with whatever is queued behind it.
-/

set_option autoImplicit false

namespace Efio.Proofs.Evio

open Efio.Lib
open Efio.Evio
open Efio.Evio.FileWriterLoop

variable {T : Type} {s s' : FileWriterLoop T} {t : T} {fwt : FileWriterEvent}

/-! ### Who has the mutex, who owes a signal -/

/-- `file_writer` has the mutex. -/
def loopLocked : LoopPc → Bool
  | .lockedDequeue | .unlockFound _ | .condWait | .unlock => true
  | _ => false

/-- The thread has the mutex. -/
def posterLocked : PosterPc → Bool
  | .signal | .unlock => true
  | _ => false

/-- The thread has enqueued its event and has not yet sent the signal. -/
def posterOwesSignal : PosterPc → Bool
  | .lock | .signal => true
  | _ => false

/-- `file_writer` waits, or will wait without another look at the queue. -/
def loopAsleep : LoopPc → Bool
  | .condWait | .waiting => true
  | _ => false

/-- The event that `file_writer` has taken and not yet handled. -/
def inHand : LoopPc → List FileWriterEvent
  | .unlockFound fwt | .handle fwt => [fwt]
  | _ => []

/-- The events that `file_writer` has handled: only the last one ends the
loop. -/
def HandledUntil (exited : Prop) (handled : List FileWriterEvent) : Prop :=
  ∃ evs last, handled = evs ++ last ∧ (∀ ev ∈ evs, ev.shutdown = false) ∧
    (¬ exited ∧ last = [] ∨ exited ∧ ∃ ev, last = [ev] ∧ ev.shutdown = true)

/-- What holds in every state. -/
structure LoopInv (s : FileWriterLoop T) : Prop where
  writerOwns : s.mutex = some .fileWriter ↔ loopLocked s.fileWriter = true
  posterOwns : ∀ t, s.mutex = some (.poster t) ↔ posterLocked (s.posters t) = true
  fifo : s.posted = s.handled ++ inHand s.fileWriter ++ s.queue
  owed : loopAsleep s.fileWriter = true → s.queue ≠ [] → ∃ t, posterOwesSignal (s.posters t) = true
  ends : HandledUntil (s.fileWriter = .exited) s.handled

theorem loopInv_start : LoopInv (FileWriterLoop.start T) where
  writerOwns := ⟨nofun, nofun⟩
  posterOwns _ := ⟨nofun, nofun⟩
  fifo := rfl
  owed := nofun
  ends := ⟨[], [], rfl, nofun, Or.inl ⟨nofun, rfl⟩⟩

theorem HandledUntil.of_going {p q : LoopPc} {handled : List FileWriterEvent}
    (h : HandledUntil (p = .exited) handled) (hp : p ≠ .exited) (hq : q ≠ .exited) :
    HandledUntil (q = .exited) handled := by
  obtain ⟨evs, last, happ, hevs, ⟨-, hlast⟩ | ⟨hexit, -⟩⟩ := h
  · exact ⟨evs, last, happ, hevs, Or.inl ⟨hq, hlast⟩⟩
  · exact absurd hexit hp

/-! ### What a step keeps -/

/-- While `file_writer` has the mutex no other thread has it. -/
theorem LoopInv.posters_unlocked (h : LoopInv s) (hpc : loopLocked s.fileWriter = true) (t : T) :
    posterLocked (s.posters t) = false := by
  refine Bool.eq_false_iff.mpr fun hlocked => ?_
  cases (h.writerOwns.mpr hpc).symm.trans ((h.posterOwns t).mpr hlocked)

/-- `file_writer` takes the mutex, or gives it back, and moves to `q`. -/
theorem LoopInv.writer_locks (h : LoopInv s) {q : LoopPc} (hgoing : s.fileWriter ≠ .exited)
    (hfree : s.mutex = none ∨ loopLocked s.fileWriter = true) (hhand : inHand q = inHand s.fileWriter)
    (hasleep : loopAsleep q = true → loopAsleep s.fileWriter = true) (hq : q ≠ .exited) :
    LoopInv { s with
      mutex := if loopLocked q = true then some .fileWriter else none
      fileWriter := q } where
  writerOwns := by
    show (if loopLocked q = true then _ else _) = _ ↔ loopLocked q = true
    cases loopLocked q <;> simp
  posterOwns t := by
    have hunlocked : posterLocked (s.posters t) = false := by
      rcases hfree with hnone | hlocked
      · refine Bool.eq_false_iff.mpr fun hlocked => ?_
        cases hnone.symm.trans ((h.posterOwns t).mpr hlocked)
      · exact h.posters_unlocked hlocked t
    show (if loopLocked q = true then _ else _) = _ ↔ posterLocked (s.posters t) = true
    rw [hunlocked]
    cases loopLocked q <;> simp
  fifo := by
    show s.posted = s.handled ++ inHand q ++ s.queue
    rw [hhand]
    exact h.fifo
  owed ha hne := h.owed (hasleep ha) hne
  ends := h.ends.of_going hgoing hq

theorem dequeueTo_cases (found : FileWriterEvent → LoopPc) (empty : LoopPc) :
    (s.queue = [] ∧ s.dequeueTo found empty = { s with fileWriter := empty }) ∨
      ∃ ev rest, s.queue = ev :: rest ∧
        s.dequeueTo found empty = { s with queue := rest, fileWriter := found ev } := by
  unfold FileWriterLoop.dequeueTo
  split
  · rename_i hqueue
    exact Or.inl ⟨hqueue, rfl⟩
  · rename_i ev rest hqueue
    exact Or.inr ⟨ev, rest, hqueue, rfl⟩

/-- `file_writer` looks at the queue. It goes to sleep only when it finds
nothing. -/
theorem LoopInv.dequeueTo (h : LoopInv s) {found : FileWriterEvent → LoopPc} {empty : LoopPc}
    (hgoing : s.fileWriter ≠ .exited) (hhand : inHand s.fileWriter = [])
    (hfound : ∀ ev, inHand (found ev) = [ev] ∧ loopLocked (found ev) = loopLocked s.fileWriter ∧
      loopAsleep (found ev) = false ∧ found ev ≠ .exited)
    (hempty : inHand empty = [] ∧ loopLocked empty = loopLocked s.fileWriter ∧ empty ≠ .exited) :
    LoopInv (s.dequeueTo found empty) := by
  have hfifo := h.fifo
  rw [hhand, List.append_nil] at hfifo
  obtain ⟨hqueue, hto⟩ | ⟨ev, rest, hqueue, hto⟩ := dequeueTo_cases (s := s) found empty
  · obtain ⟨hin, hlocked, hgo⟩ := hempty
    rw [hto]
    exact
      { writerOwns := by rw [hlocked]; exact h.writerOwns
        posterOwns := h.posterOwns
        fifo := by rw [hin, List.append_nil]; exact hfifo
        owed := fun _ hne => absurd hqueue hne
        ends := h.ends.of_going hgoing hgo }
  · obtain ⟨hin, hlocked, hawake, hgo⟩ := hfound ev
    rw [hto]
    exact
      { writerOwns := by rw [hlocked]; exact h.writerOwns
        posterOwns := h.posterOwns
        fifo := by
          rw [hin, List.append_assoc]
          rw [hqueue] at hfifo
          exact hfifo
        owed := fun hasleep => absurd (hawake.symm.trans hasleep) nofun
        ends := h.ends.of_going hgoing hgo }

theorem LoopInv.fileWriterStep (h : LoopInv s) (hstep : s.fileWriterStep s.fileWriter = some s') :
    LoopInv s' := by
  cases hpc : s.fileWriter with
  | dequeue =>
    rw [hpc] at hstep
    cases hstep
    exact h.dequeueTo (by rw [hpc]; nofun) (by rw [hpc]; rfl)
      (fun ev => by rw [hpc]; exact ⟨rfl, rfl, rfl, nofun⟩) (by rw [hpc]; exact ⟨rfl, rfl, nofun⟩)
  | dequeueAgain =>
    rw [hpc] at hstep
    cases hstep
    exact h.dequeueTo (by rw [hpc]; nofun) (by rw [hpc]; rfl)
      (fun ev => by rw [hpc]; exact ⟨rfl, rfl, rfl, nofun⟩) (by rw [hpc]; exact ⟨rfl, rfl, nofun⟩)
  | lockedDequeue =>
    rw [hpc] at hstep
    cases hstep
    exact h.dequeueTo (by rw [hpc]; nofun) (by rw [hpc]; rfl)
      (fun ev => by rw [hpc]; exact ⟨rfl, rfl, rfl, nofun⟩) (by rw [hpc]; exact ⟨rfl, rfl, nofun⟩)
  | lock =>
    rw [hpc] at hstep
    simp only [FileWriterLoop.fileWriterStep, Option.isNone_iff_eq_none] at hstep
    split at hstep
    · rename_i hnone
      cases hstep
      exact h.writer_locks (q := .lockedDequeue) (by rw [hpc]; nofun) (Or.inl hnone) (by rw [hpc]; rfl)
        nofun nofun
    · cases hstep
  | reacquire =>
    rw [hpc] at hstep
    simp only [FileWriterLoop.fileWriterStep, Option.isNone_iff_eq_none] at hstep
    split at hstep
    · rename_i hnone
      cases hstep
      exact h.writer_locks (q := .unlock) (by rw [hpc]; nofun) (Or.inl hnone) (by rw [hpc]; rfl)
        nofun nofun
    · cases hstep
  | unlockFound ev =>
    rw [hpc] at hstep
    cases hstep
    exact h.writer_locks (q := .handle ev) (by rw [hpc]; nofun) (Or.inr (by rw [hpc]; rfl))
      (by rw [hpc]; rfl) nofun nofun
  | condWait =>
    rw [hpc] at hstep
    cases hstep
    exact h.writer_locks (q := .waiting) (by rw [hpc]; nofun) (Or.inr (by rw [hpc]; rfl))
      (by rw [hpc]; rfl) (by rw [hpc]; exact id) nofun
  | unlock =>
    rw [hpc] at hstep
    cases hstep
    exact h.writer_locks (q := .dequeueAgain) (by rw [hpc]; nofun) (Or.inr (by rw [hpc]; rfl))
      (by rw [hpc]; rfl) nofun nofun
  | handle ev =>
    rw [hpc] at hstep
    cases hstep
    obtain ⟨evs, last, happ, hevs, ⟨-, rfl⟩ | ⟨hexit, -⟩⟩ := h.ends
    · have hfifo := h.fifo
      rw [hpc] at hfifo
      have howns := h.writerOwns
      rw [hpc] at howns
      rw [List.append_nil] at happ
      cases hshut : ev.shutdown with
      | true =>
        exact
          { writerOwns := howns
            posterOwns := h.posterOwns
            fifo := by simpa [inHand] using hfifo
            owed := nofun
            ends := ⟨evs, [ev], by rw [happ], hevs, Or.inr ⟨rfl, ev, rfl, hshut⟩⟩ }
      | false =>
        refine
          { writerOwns := howns
            posterOwns := h.posterOwns
            fifo := by simpa [inHand] using hfifo
            owed := nofun
            ends := ⟨evs ++ [ev], [], by rw [happ, List.append_nil], fun ev' hmem => ?_,
              Or.inl ⟨nofun, rfl⟩⟩ }
        rcases List.mem_append.mp hmem with hmem | hmem
        · exact hevs ev' hmem
        · rwa [List.mem_singleton.mp hmem]
    · cases hpc.symm.trans hexit
  | waiting =>
    rw [hpc] at hstep
    cases hstep
  | exited =>
    rw [hpc] at hstep
    cases hstep

/-- `file_writer` is woken. -/
theorem LoopInv.woken (h : LoopInv s) : LoopInv { s with fileWriter := s.woken } := by
  unfold FileWriterLoop.woken
  split
  · rename_i hpc
    have howns := h.writerOwns
    have hfifo := h.fifo
    rw [hpc] at howns hfifo
    exact
      { writerOwns := howns
        posterOwns := h.posterOwns
        fifo := hfifo
        owed := nofun
        ends := h.ends.of_going (by rw [hpc]; nofun) nofun }
  · exact h

theorem woken_awake (h : loopLocked s.fileWriter = false) : loopAsleep s.woken = false := by
  unfold FileWriterLoop.woken
  split
  · rfl
  · rename_i hpc
    cases hw : s.fileWriter with
    | condWait =>
      rw [hw] at h
      cases h
    | waiting => exact absurd hw hpc
    | _ => rfl

variable [DecidableEq T]

@[simp] theorem posterGoto_posters (q : PosterPc) :
    (s.posterGoto t q).posters = Function.update s.posters t q := rfl

theorem owes_update {f : T → PosterPc} {q : PosterPc}
    (h : ∃ u, posterOwesSignal (f u) = true) (hq : posterOwesSignal (f t) = true → posterOwesSignal q = true) :
    ∃ u, posterOwesSignal (Function.update f t q u) = true := by
  obtain ⟨u, hu⟩ := h
  by_cases hut : u = t
  · subst hut
    exact ⟨u, by rw [Function.update_self]; exact hq hu⟩
  · exact ⟨u, by rw [Function.update_of_ne hut]; exact hu⟩

/-- A thread that does not touch the mutex. -/
theorem LoopInv.poster_moves (h : LoopInv s) {q : PosterPc} (hlocked : posterLocked q = posterLocked (s.posters t))
    (howes : posterOwesSignal (s.posters t) = true → posterOwesSignal q = true) :
    LoopInv (s.posterGoto t q) where
  writerOwns := h.writerOwns
  posterOwns u := by
    rw [posterGoto_posters, Function.update_apply]
    split
    · rename_i hut
      rw [hlocked, hut]
      exact h.posterOwns t
    · exact h.posterOwns u
  fifo := h.fifo
  owed hasleep hne := owes_update (h.owed hasleep hne) howes
  ends := h.ends

/-- The mutex goes from nobody to the thread, or back. -/
theorem LoopInv.poster_locks (h : LoopInv s) {q : PosterPc}
    (hfree : s.mutex = none ∨ s.mutex = some (.poster t))
    (howed : loopAsleep s.fileWriter = true → s.queue ≠ [] →
      posterOwesSignal (s.posters t) = true → posterOwesSignal q = true) :
    LoopInv ({ s with mutex := if posterLocked q = true then some (.poster t) else none }.posterGoto t q) where
  writerOwns := by
    have hunlocked : loopLocked s.fileWriter = false := by
      refine Bool.eq_false_iff.mpr fun hlocked => ?_
      have howner := h.writerOwns.mpr hlocked
      rcases hfree with hnone | hsome
      · cases hnone.symm.trans howner
      · cases hsome.symm.trans howner
    show (if posterLocked q = true then _ else _) = _ ↔ loopLocked s.fileWriter = true
    rw [hunlocked]
    cases posterLocked q <;> simp
  posterOwns u := by
    show (if posterLocked q = true then _ else _) = _ ↔ posterLocked (Function.update s.posters t q u) = true
    by_cases hut : u = t
    · subst hut
      rw [Function.update_self]
      cases posterLocked q <;> simp
    · rw [Function.update_of_ne hut]
      have hunlocked : posterLocked (s.posters u) = false := by
        refine Bool.eq_false_iff.mpr fun hlocked => ?_
        have howner := (h.posterOwns u).mpr hlocked
        rcases hfree with hnone | hsome
        · cases hnone.symm.trans howner
        · exact hut (MutexOwner.poster.inj (Option.some.inj (howner.symm.trans hsome)))
      rw [hunlocked]
      cases posterLocked q
      · simp
      · simp [Ne.symm hut]
  fifo := h.fifo
  owed hasleep hne := owes_update (h.owed hasleep hne) (howed hasleep hne)
  ends := h.ends

theorem LoopInv.posterStep (h : LoopInv s) (hstep : s.posterStep t (s.posters t) = some s') :
    LoopInv s' := by
  cases hpc : s.posters t with
  | idle =>
    rw [hpc] at hstep
    cases hstep
  | enqueue fwt =>
    rw [hpc] at hstep
    cases hstep
    refine
      { writerOwns := h.writerOwns
        posterOwns := ?_
        fifo := ?_
        owed := fun _ _ => ⟨t, by rw [posterGoto_posters, Function.update_self]; rfl⟩
        ends := h.ends }
    · exact (h.poster_moves (t := t) (q := .lock) (by rw [hpc]; rfl) (fun _ => rfl)).posterOwns
    · show s.posted ++ [fwt] = s.handled ++ inHand s.fileWriter ++ (s.queue ++ [fwt])
      rw [h.fifo]
      simp
  | lock =>
    rw [hpc] at hstep
    simp only [FileWriterLoop.posterStep, Option.isNone_iff_eq_none] at hstep
    split at hstep
    · rename_i hnone
      cases hstep
      exact h.poster_locks (q := .signal) (Or.inl hnone) fun _ _ _ => rfl
    · cases hstep
  | signal =>
    rw [hpc] at hstep
    cases hstep
    have howner : s.mutex = some (.poster t) := (h.posterOwns t).mpr (by rw [hpc]; rfl)
    have hunlocked : loopLocked s.fileWriter = false := by
      refine Bool.eq_false_iff.mpr fun hlocked => ?_
      cases howner.symm.trans (h.writerOwns.mpr hlocked)
    have hlocks := h.woken.poster_locks (t := t) (q := .unlock) (Or.inr howner) fun hasleep => by
      rw [show loopAsleep s.woken = false from woken_awake hunlocked] at hasleep
      cases hasleep
    convert hlocks using 2
    exact congrArg (fun m => { s with mutex := m, fileWriter := s.woken }) howner
  | unlock =>
    rw [hpc] at hstep
    cases hstep
    have howner : s.mutex = some (.poster t) := (h.posterOwns t).mpr (by rw [hpc]; rfl)
    exact h.poster_locks (q := .idle) (Or.inr howner) fun _ _ howes => by
      rw [hpc] at howes
      cases howes

theorem LoopInv.step (h : LoopInv s) {l : LoopLabel T} (hstep : FileWriterLoop.step l s = some s') :
    LoopInv s' := by
  cases l with
  | post t fwt =>
    simp only [FileWriterLoop.step] at hstep
    split at hstep
    · rename_i hpc
      cases hstep
      exact h.poster_moves (by rw [hpc]; rfl) (by rw [hpc]; nofun)
    · cases hstep
  | poster t => exact h.posterStep hstep
  | fileWriter => exact h.fileWriterStep hstep
  | wake =>
    simp only [FileWriterLoop.step] at hstep
    split at hstep
    · rename_i hpc
      cases hstep
      have hwoken := h.woken
      rwa [show s.woken = .reacquire from if_pos hpc] at hwoken
    · cases hstep

theorem loopInv_of_reach {ok : FileWriterLoop T → LoopLabel T → Prop}
    (h : Reach FileWriterLoop.step ok (FileWriterLoop.start T) s) : LoopInv s :=
  h.invariant loopInv_start fun _ _ _ hinv _ hstep => hinv.step hstep

/-! ### The run comes to an end -/

/-- How far `file_writer` is from sleeping, when it finds nothing. -/
def loopWork : LoopPc → Nat
  | .waiting | .exited => 0
  | .condWait => 1
  | .lockedDequeue => 2
  | .lock => 3
  | .dequeue | .dequeueAgain => 4
  | .unlock | .handle _ => 5
  | .reacquire | .unlockFound _ => 6

/-- What a thread has still to do, with what its event and its signal will
cost `file_writer`. -/
def posterWork : PosterPc → Nat
  | .idle => 0
  | .unlock => 1
  | .signal => 8
  | .lock => 9
  | .enqueue _ => 15

/-- The work of all threads. -/
def wakeWork [Fintype T] (s : FileWriterLoop T) : Nat :=
  loopWork s.fileWriter + 5 * s.queue.length + ∑ t, posterWork (s.posters t)

/-- The threads that are posting finish, and `file_writer` goes on, but
never wakes up on its own. -/
def Unprompted (_ : FileWriterLoop T) : LoopLabel T → Prop
  | .poster _ | .fileWriter => True
  | .post _ _ | .wake => False

omit [DecidableEq T] in
theorem dequeueTo_work [Fintype T] {found : FileWriterEvent → LoopPc} {empty : LoopPc}
    (hfound : ∀ ev, loopWork (found ev) < loopWork s.fileWriter + 5)
    (hempty : loopWork empty < loopWork s.fileWriter) :
    wakeWork (s.dequeueTo found empty) < wakeWork s := by
  obtain ⟨-, hto⟩ | ⟨ev, rest, hqueue, hto⟩ := dequeueTo_cases (s := s) found empty
  · simp only [hto, wakeWork]
    omega
  · have hlt := hfound ev
    simp only [hto, hqueue, wakeWork, List.length_cons]
    omega

omit [DecidableEq T] in
theorem fileWriterStep_wakeWork [Fintype T] (hstep : s.fileWriterStep s.fileWriter = some s') :
    wakeWork s' < wakeWork s := by
  have hmove {q : LoopPc} (mutex : Option (MutexOwner T)) (handled : List FileWriterEvent)
      (hlt : loopWork q < loopWork s.fileWriter) :
      wakeWork { s with mutex := mutex, handled := handled, fileWriter := q } < wakeWork s := by
    simp only [wakeWork]
    omega
  cases hpc : s.fileWriter with
  | dequeue | dequeueAgain | lockedDequeue =>
    rw [hpc] at hstep
    cases hstep
    refine dequeueTo_work (fun ev => ?_) ?_ <;> simp [hpc, loopWork]
  | lock | reacquire =>
    rw [hpc] at hstep
    simp only [FileWriterLoop.fileWriterStep] at hstep
    split at hstep
    · cases hstep
      exact hmove _ _ (by rw [hpc]; decide)
    · cases hstep
  | unlockFound ev | condWait | unlock =>
    rw [hpc] at hstep
    cases hstep
    exact hmove _ _ (by rw [hpc]; simp [loopWork])
  | handle ev =>
    rw [hpc] at hstep
    cases hstep
    refine hmove _ _ ?_
    rw [hpc]
    split <;> simp [loopWork]
  | waiting | exited =>
    rw [hpc] at hstep
    cases hstep

theorem posterStep_wakeWork [Fintype T] (hstep : s.posterStep t (s.posters t) = some s') :
    wakeWork s' < wakeWork s := by
  have htotal (q : PosterPc) := sum_update posterWork s.posters t q
  cases hpc : s.posters t with
  | idle =>
    rw [hpc] at hstep
    cases hstep
  | enqueue fwt =>
    rw [hpc] at hstep
    cases hstep
    have hsum := htotal .lock
    rw [hpc] at hsum
    simp only [wakeWork, posterGoto_posters, posterWork] at hsum ⊢
    show loopWork s.fileWriter + 5 * (s.queue ++ [fwt]).length + _ < _
    rw [List.length_append, List.length_singleton]
    omega
  | lock =>
    rw [hpc] at hstep
    simp only [FileWriterLoop.posterStep] at hstep
    split at hstep
    · cases hstep
      have hsum := htotal .signal
      rw [hpc] at hsum
      simp only [wakeWork, posterGoto_posters, posterWork] at hsum ⊢
      show loopWork s.fileWriter + 5 * s.queue.length + _ < _
      omega
    · cases hstep
  | signal =>
    rw [hpc] at hstep
    cases hstep
    have hsum := htotal .unlock
    have hwoken : loopWork s.woken ≤ loopWork s.fileWriter + 6 := by
      unfold FileWriterLoop.woken
      split
      · exact Nat.le_add_left ..
      · exact Nat.le_add_right ..
    rw [hpc] at hsum
    simp only [wakeWork, posterGoto_posters, posterWork] at hsum ⊢
    show loopWork s.woken + 5 * s.queue.length + _ < _
    omega
  | unlock =>
    rw [hpc] at hstep
    cases hstep
    have hsum := htotal .idle
    rw [hpc] at hsum
    simp only [wakeWork, posterGoto_posters, posterWork] at hsum ⊢
    show loopWork s.fileWriter + 5 * s.queue.length + _ < _
    omega

/-- Nothing is left to do. `file_writer` sleeps and has handled every event
in order, or an event that ends the loop was the last one it handled. -/
structure LoopDone (s : FileWriterLoop T) : Prop where
  mutex : s.mutex = none
  posters : ∀ t, s.posters t = .idle
  handled : (s.fileWriter = .waiting ∧ s.handled = s.posted ∧ ∀ ev ∈ s.posted, ev.shutdown = false) ∨
    s.fileWriter = .exited ∧ s.posted = s.handled ++ s.queue ∧
      ∃ evs ev, s.handled = evs ++ [ev] ∧ ev.shutdown = true ∧ ∀ ev' ∈ evs, ev'.shutdown = false

/-- Where nobody can move, nobody has the mutex and nothing is queued that
`file_writer` would still handle. -/
theorem loopDone_of_rest (h : LoopInv s) (hrest : AtRest FileWriterLoop.step Unprompted s) :
    LoopDone s := by
  have hwriter : s.fileWriterStep s.fileWriter = none := hrest .fileWriter trivial
  have hposter (t : T) : s.posterStep t (s.posters t) = none := hrest (.poster t) trivial
  have hmutex : s.mutex = none := by
    cases howner : s.mutex with
    | none => rfl
    | some o =>
      exfalso
      cases o with
      | fileWriter =>
        have hlocked := h.writerOwns.mp howner
        cases hpc : s.fileWriter with
        | lockedDequeue | unlockFound ev | condWait | unlock =>
          rw [hpc] at hwriter
          cases hwriter
        | _ =>
          rw [hpc] at hlocked
          cases hlocked
      | poster t =>
        have hlocked := (h.posterOwns t).mp howner
        have hstep := hposter t
        cases hpc : s.posters t with
        | signal | unlock =>
          rw [hpc] at hstep
          cases hstep
        | _ =>
          rw [hpc] at hlocked
          cases hlocked
  have hidle (t : T) : s.posters t = .idle := by
    have hstep := hposter t
    cases hpc : s.posters t with
    | idle => rfl
    | lock =>
      rw [hpc] at hstep
      simp [FileWriterLoop.posterStep, hmutex] at hstep
    | enqueue fwt | signal | unlock =>
      rw [hpc] at hstep
      cases hstep
  refine ⟨hmutex, hidle, ?_⟩
  have hfifo := h.fifo
  obtain ⟨evs, last, happ, hevs, hends⟩ := h.ends
  cases hpc : s.fileWriter with
  | waiting =>
    rw [hpc] at hfifo
    have hqueue : s.queue = [] := by
      by_contra hne
      obtain ⟨t, howes⟩ := h.owed (by rw [hpc]; rfl) hne
      rw [hidle t] at howes
      cases howes
    rw [hqueue] at hfifo
    simp only [inHand, List.append_nil] at hfifo
    obtain ⟨-, rfl⟩ | ⟨hexit, -⟩ := hends
    · refine Or.inl ⟨rfl, hfifo.symm, ?_⟩
      rwa [hfifo, happ, List.append_nil]
    · cases hpc.symm.trans hexit
  | exited =>
    rw [hpc] at hfifo
    simp only [inHand, List.append_nil] at hfifo
    obtain ⟨hgoing, -⟩ | ⟨-, ev, rfl, hshut⟩ := hends
    · exact absurd hpc hgoing
    · exact Or.inr ⟨rfl, hfifo, evs, ev, happ, hshut, hevs⟩
  | lock | reacquire =>
    rw [hpc] at hwriter
    simp [FileWriterLoop.fileWriterStep, hmutex] at hwriter
  | _ =>
    rw [hpc] at hwriter
    cases hwriter

/-! ### No event is lost -/

/-- What was posted stays posted, and what was about to be enqueued still is
or has been. -/
structure NoneLost (s s' : FileWriterLoop T) : Prop where
  posted : s.posted <+: s'.posted
  pending : ∀ t fwt, s.posters t = .enqueue fwt → s'.posters t = .enqueue fwt ∨ fwt ∈ s'.posted

omit [DecidableEq T] in
theorem NoneLost.trans {s₂ : FileWriterLoop T} (h : NoneLost s s') (h' : NoneLost s' s₂) :
    NoneLost s s₂ where
  posted := h.posted.trans h'.posted
  pending t fwt hpc := by
    rcases h.pending t fwt hpc with hpending | hposted
    · exact h'.pending t fwt hpending
    · exact Or.inr (h'.posted.subset hposted)

omit [DecidableEq T] in
theorem fileWriterStep_noneLost (hstep : s.fileWriterStep s.fileWriter = some s') : NoneLost s s' := by
  have hsame : s'.posted = s.posted ∧ s'.posters = s.posters := by
    have hdequeue (found : FileWriterEvent → LoopPc) (empty : LoopPc) :
        (s.dequeueTo found empty).posted = s.posted ∧
          (s.dequeueTo found empty).posters = s.posters := by
      obtain ⟨-, hto⟩ | ⟨ev, rest, -, hto⟩ := dequeueTo_cases (s := s) found empty
      all_goals
        rw [hto]
        exact ⟨rfl, rfl⟩
    unfold FileWriterLoop.fileWriterStep at hstep
    split at hstep
    case h_2 | h_7 =>
      split at hstep
      · cases hstep
        exact ⟨rfl, rfl⟩
      · cases hstep
    case h_1 | h_3 | h_9 =>
      cases hstep
      exact hdequeue _ _
    all_goals
      cases hstep
    all_goals exact ⟨rfl, rfl⟩
  exact ⟨by rw [hsame.1], fun t fwt hpc => Or.inl (by rw [hsame.2]; exact hpc)⟩

theorem posterStep_noneLost (hstep : s.posterStep t (s.posters t) = some s') : NoneLost s s' := by
  have hothers {q : PosterPc} {u : T} {fwt : FileWriterEvent} {evs : List FileWriterEvent}
      (hpc : s.posters u = .enqueue fwt) (hmoved : s.posters t = .enqueue fwt → fwt ∈ evs) :
      Function.update s.posters t q u = .enqueue fwt ∨ fwt ∈ evs := by
    by_cases hut : u = t
    · subst hut
      exact Or.inr (hmoved hpc)
    · exact Or.inl (by rw [Function.update_of_ne hut]; exact hpc)
  cases hpc : s.posters t with
  | idle =>
    rw [hpc] at hstep
    cases hstep
  | enqueue fwt =>
    rw [hpc] at hstep
    cases hstep
    refine ⟨List.prefix_append .., fun u ev hu => hothers hu fun ht => ?_⟩
    cases hpc.symm.trans ht
    exact List.mem_append_right _ (List.mem_singleton_self _)
  | lock =>
    rw [hpc] at hstep
    simp only [FileWriterLoop.posterStep] at hstep
    split at hstep
    · cases hstep
      refine ⟨List.prefix_rfl, fun u ev hu => hothers hu fun ht => ?_⟩
      cases hpc.symm.trans ht
    · cases hstep
  | signal | unlock =>
    rw [hpc] at hstep
    cases hstep
    refine ⟨List.prefix_rfl, fun u ev hu => hothers hu fun ht => ?_⟩
    cases hpc.symm.trans ht

/-- Whatever the threads have posted so far, in whatever order they and
`file_writer` have made their steps, and though nobody posts anything more
and `file_writer` never wakes up on its own: the threads stop after a
bounded number of steps, and then every event has been handled once and in
order, up to one that ends the loop. -/
theorem fileWriter_handlesAll [Fintype T]
    (h : Reach FileWriterLoop.step (fun _ _ => True) (FileWriterLoop.start T) s) :
    Settles FileWriterLoop.step Unprompted (wakeWork s)
      (fun s' => LoopDone s' ∧ s.posted <+: s'.posted ∧
        ∀ t fwt, s.posters t = .enqueue fwt → fwt ∈ s'.posted) s := by
  refine .of_measure (I := fun s' => LoopInv s' ∧ NoneLost s s')
    ⟨loopInv_of_reach h, List.prefix_rfl, fun _ _ hpc => Or.inl hpc⟩ ?_ ?_
  · rintro s₁ s₂ l ⟨hinv, hkept⟩ hok hstep
    cases l with
    | post t fwt => exact hok.elim
    | wake => exact hok.elim
    | fileWriter =>
      exact ⟨⟨hinv.step hstep, hkept.trans (fileWriterStep_noneLost hstep)⟩,
        fileWriterStep_wakeWork hstep⟩
    | poster t =>
      exact ⟨⟨hinv.step hstep, hkept.trans (posterStep_noneLost hstep)⟩, posterStep_wakeWork hstep⟩
  · rintro s₁ ⟨hinv, hkept⟩ hrest
    have hdone := loopDone_of_rest hinv hrest
    refine ⟨hdone, hkept.posted, fun t fwt hpc => ?_⟩
    rcases hkept.pending t fwt hpc with hpending | hposted
    · cases hpending.symm.trans (hdone.posters t)
    · exact hposted

/-- `file_writer` sleeps, one thread has enqueued its event and waits for
the mutex, and another is about to enqueue a shutdown. -/
theorem fileWriter_handlesAll_sample :
    ∃ s : FileWriterLoop (Fin 2), s.fileWriter = .waiting ∧ s.queue.length = 1 ∧
      Settles FileWriterLoop.step Unprompted (wakeWork s)
        (fun s' => LoopDone s' ∧ s.posted <+: s'.posted ∧
          ∀ t fwt, s.posters t = .enqueue fwt → fwt ∈ s'.posted) s :=
  ⟨_, rfl, rfl, fileWriter_handlesAll (Reach.of_run .init
    [.fileWriter, .fileWriter, .fileWriter, .fileWriter, .post 0 ⟨.fwWriteReqEvt, 3⟩, .poster 0,
      .post 1 ⟨.fwShutdownEvt, 0⟩] rfl)⟩

end Efio.Proofs.Evio
