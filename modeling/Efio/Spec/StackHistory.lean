import Efio.Evds.Stack
import Efio.Lib.LinkedList

/-!
# `Efio.Spec.StackHistory`: what a stack is for

`LinearStack` says that the recorded history is one of a sequential stack,
that the nodes reached from the head are what it leaves, and that every
thread's calls and results are those of its outcomes, in order. As an
outcome is recorded inside its call, this is linearizability.
-/

set_option autoImplicit false

namespace Efio.Spec

open Efio.Lib
open Efio.Evds

variable {β : Type}

/-- The entries of the thread `t`. -/
def byThread (t : Nat) (l : List (Nat × β)) : List β :=
  l.filterMap fun x => if x.1 = t then some x.2 else none

/-- The thread `u` adds entries. -/
theorem byThread_append (t u : Nat) (l : List (Nat × β)) (bs : List β) :
    byThread t (l ++ bs.map (u, ·)) = byThread t l ++ if u = t then bs else [] := by
  unfold byThread
  rw [List.filterMap_append, List.filterMap_map]
  by_cases h : u = t
  · simp [h]
  · simp [h]

/-- The call with this outcome. -/
def callOf : LifoOp (Addr × Nat) → StackCall
  | .push e => .push e.2
  | .pop _ | .empty => .pop

/-- The result of the call with this outcome. -/
def resultOf : LifoOp (Addr × Nat) → StackResult
  | .push _ => .done
  | .pop e => .data e.2
  | .empty => .null

/-- The call of a thread that has no outcome yet. -/
def pendingCall (mem : Addr → SNode) : StackPc → List StackCall
  | .idle | .readData _ => []
  | .pushLoad data | .alloc data _ => [.push data]
  | .pushCas p _ => [.push (mem p).data]
  | .popLoad | .markHead _ | .loadNext _ | .popCas _ _ => [.pop]

/-- The result of a thread that has its outcome and has not returned. -/
def pendingResult (mem : Addr → SNode) : StackPc → List StackResult
  | .readData h => [.data (mem h).data]
  | _ => []

/-- The recorded operations. -/
def ops (s : EvStack) : List (LifoOp (Addr × Nat)) := s.history.map Prod.snd

end Efio.Spec
