import Efio.Lib.Transition
import Mathlib.Logic.Function.Basic

/-!
# `Efio.Evsync.RwLock`: `ev_rwlock`, one atomic access a step

`RwLock T` is one lock and the threads `T` that use it. A step of a thread
is one access to `rd_lock` or `wr_lock`. The place of a thread also says
what it holds: `reading` and `writing` are the critical sections, and only
a thread there calls the unlock that belongs to it.

`rd_lock` counts threads, so it is an unbounded number here. A thread whose
assertion fails ends in `aborted`.
-/

set_option autoImplicit false

namespace Efio.Evsync

open Efio.Lib

/-- Where a thread is. -/
inductive RwPc where
  | idle
  -- `ev_rwlock_rdlock`
  | rdLoad
  | rdAdd
  | rdCheck
  | rdBack
  -- between `ev_rwlock_rdlock` and `ev_rwlock_rdunlock`
  | reading
  -- `ev_rwlock_rdunlock`
  | rdunlockLoad
  | rdunlockSub
  -- `ev_rwlock_wrlock`
  | wrCas
  | wrLoad
  | wrStore
  -- between `ev_rwlock_wrlock` and `ev_rwlock_wrunlock`
  | writing
  -- `ev_rwlock_wrunlock`
  | wrunlockLoad
  | wrunlockStore
  | aborted
  deriving DecidableEq, Repr

/-- The calls of a thread. -/
inductive RwCall where
  | rdlock
  | rdunlock
  | wrlock
  | wrunlock
  deriving DecidableEq, Repr

/-- A lock and the threads that use it. -/
structure RwLock (T : Type) where
  rdLock : Int
  wrLock : Int
  pc : T → RwPc

/-- A thread starts a call, or makes its next access. -/
inductive RwLabel (T : Type) where
  | call (t : T) (c : RwCall)
  | access (t : T)
  deriving DecidableEq, Repr

namespace RwLock

/-- `ev_rwlock_init`, with no thread inside. -/
def init (T : Type) : RwLock T :=
  { rdLock := 0
    wrLock := 0
    pc := fun _ => .idle }

variable {T : Type} [DecidableEq T] (s : RwLock T)

def goto (t : T) (q : RwPc) : RwLock T := { s with pc := Function.update s.pc t q }

/-- The place from which a call is made, and its first access. -/
def entry : RwCall → RwPc × RwPc
  | .rdlock => (.idle, .rdLoad)
  | .rdunlock => (.reading, .rdunlockLoad)
  | .wrlock => (.idle, .wrCas)
  | .wrunlock => (.writing, .wrunlockLoad)

def callStep (t : T) (c : RwCall) : Option (RwLock T) :=
  if s.pc t = (entry c).1 then some (s.goto t (entry c).2) else none

/-- The next access of the thread `t`. -/
def accessStep (t : T) : RwPc → Option (RwLock T)
  | .idle | .reading | .writing | .aborted => none
  | .rdLoad => some (s.goto t (if s.wrLock = 0 then .rdAdd else .rdLoad))
  | .rdAdd => some ({ s with rdLock := s.rdLock + 1 }.goto t .rdCheck)
  -- A writer has come in between: the count is taken back.
  | .rdCheck => some (s.goto t (if s.wrLock = 0 then .reading else .rdBack))
  | .rdBack => some ({ s with rdLock := s.rdLock + -1 }.goto t .rdLoad)
  | .rdunlockLoad => some (s.goto t (if s.rdLock > 0 then .rdunlockSub else .aborted))
  | .rdunlockSub => some ({ s with rdLock := s.rdLock + -1 }.goto t .idle)
  | .wrCas => some (if s.wrLock = 0 then { s with wrLock := -1 }.goto t .wrLoad else s.goto t .wrCas)
  | .wrLoad => some (s.goto t (if s.rdLock = 0 then .wrStore else .wrLoad))
  | .wrStore => some ({ s with wrLock := 1 }.goto t .writing)
  | .wrunlockLoad => some (s.goto t (if s.wrLock = 1 then .wrunlockStore else .aborted))
  | .wrunlockStore => some ({ s with wrLock := 0 }.goto t .idle)

/-- The steps of the lock. -/
def step (l : RwLabel T) (s : RwLock T) : Option (RwLock T) :=
  match l with
  | .call t c => s.callStep t c
  | .access t => s.accessStep t (s.pc t)

end RwLock

end Efio.Evsync
