import Efio.Lib.Transition
import Mathlib.Logic.Function.Basic

/-!
# `Efio.Evsync.SpinLock`: `ev_spin_lock`, one atomic access a step

`SpinLock T` is one lock and the threads `T` that use it. A step of a thread
is one access to `_lock`. `held t` says that `t` has acquired the lock and
not yet entered `ev_spin_unlock`; only such a thread calls it.

`ev_spin_unlock` loops until it has read `false`. `released` only records
whether the call has already set the word to `false`.
-/

set_option autoImplicit false

namespace Efio.Evsync

open Efio.Lib

/-- Where a thread is. `oldVal` is the variable `old_val`, where it is used
again. -/
inductive SpinPc where
  | idle
  -- `ev_spin_try_lock`
  | tryLoad
  | tryCas
  -- `ev_spin_lock`
  | lockLoad
  | lockCas
  -- `ev_spin_unlock`
  | unlockLoad (oldVal released : Bool)
  | unlockCas (oldVal released : Bool)
  deriving DecidableEq, Repr

/-- The calls of a thread. -/
inductive SpinCall where
  | tryLock
  | lock
  | unlock
  deriving DecidableEq, Repr

/-- A lock and the threads that use it. -/
structure SpinLock (T : Type) where
  lock : Bool
  held : T → Bool
  pc : T → SpinPc

/-- A thread starts a call, or makes its next access. -/
inductive SpinLabel (T : Type) where
  | call (t : T) (c : SpinCall)
  | access (t : T)
  deriving DecidableEq, Repr

namespace SpinLock

/-- `create_spin_lock`, with no thread inside. -/
def create (T : Type) : SpinLock T :=
  { lock := false
    held := fun _ => false
    pc := fun _ => .idle }

variable {T : Type} [DecidableEq T] (s : SpinLock T)

def goto (t : T) (q : SpinPc) : SpinLock T := { s with pc := Function.update s.pc t q }

/-- A thread between two calls starts one. -/
def callStep (t : T) : SpinCall → Option (SpinLock T)
  | .tryLock => if s.pc t = .idle then some (s.goto t .tryLoad) else none
  | .lock => if s.pc t = .idle then some (s.goto t .lockLoad) else none
  | .unlock =>
    if s.pc t = .idle ∧ s.held t = true then
      some ({ s with held := Function.update s.held t false }.goto t (.unlockLoad true false))
    else none

/-- The compare-exchange of `_lock` from `false` to `true`. -/
def acquire (t : T) (failed : SpinPc) : SpinLock T :=
  if s.lock = false then
    { s with lock := true, held := Function.update s.held t true }.goto t .idle
  else s.goto t failed

/-- The next access of the thread `t`. -/
def accessStep (t : T) : SpinPc → Option (SpinLock T)
  | .idle => none
  | .tryLoad => some (s.goto t (if s.lock = false then .tryCas else .idle))
  | .tryCas => some (s.acquire t .idle)
  | .lockLoad => some (s.goto t (if s.lock = false then .lockCas else .lockLoad))
  | .lockCas => some (s.acquire t .lockLoad)
  | .unlockLoad oldVal released =>
    some (s.goto t (if s.lock = true then .unlockCas oldVal released else .idle))
  | .unlockCas oldVal released =>
    some (
      if s.lock = oldVal then
        { s with lock := false }.goto t (.unlockLoad oldVal (released || oldVal))
      else s.goto t (.unlockLoad s.lock released))

/-- The steps of the lock. -/
def step (l : SpinLabel T) (s : SpinLock T) : Option (SpinLock T) :=
  match l with
  | .call t c => s.callStep t c
  | .access t => s.accessStep t (s.pc t)

end SpinLock

end Efio.Evsync
