import Efio.Evthrpool.ThreadPool

/-!
# `Efio.Spec.PoolTasks`: what a thread pool is for

`RunsOnce` says that the pool executes the tasks it is given, each once,
and that none is left when the workers have left. It is meant for runs that
are `DestroyedLast`: no `enqueue_task` is in progress when
`destroy_thread_pool` starts, none starts later, and no task has a null
function, with which the pool stops its workers.
-/

set_option autoImplicit false

namespace Efio.Spec

open Efio.Evthrpool

variable {n : Nat} {C : Type}

/-- The pool is destroyed after all calls of `enqueue_task`, and these are
given functions. -/
def DestroyedLast (s : ThreadPool n C) : PoolLabel n C → Prop
  | .enqueueTask _ func _ => func ≠ 0 ∧ s.destroyer = .idle
  | .destroy => ∀ c, s.callers c = .idle
  | _ => True

instance [Fintype C] : DecidableRel (DestroyedLast (n := n) (C := C)) := fun s l =>
  match l with
  | .enqueueTask _ func _ => inferInstanceAs (Decidable (func ≠ 0 ∧ s.destroyer = .idle))
  | .destroy => inferInstanceAs (Decidable (∀ c, s.callers c = .idle))
  | .caller _ | .signal _ _ | .worker _ | .wake _ | .destroyer => isTrue trivial

/-- The task that a worker has taken and not yet executed. -/
def hand : WorkerPc → List PoolTask
  | .unlockTask qe | .execute qe => [qe]
  | _ => []

end Efio.Spec
