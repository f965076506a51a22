import Efio.Evds.Queue
import Efio.Lib.Lifo

/-!
# `Efio.Evds.Stack`: `ev_stack`, one atomic access a step

`EvStack` is one stack with the memory of its nodes and any number of
threads in `push` or `pop`. A step of a thread is one access to `head` or to
a node that other threads can reach. Nodes are never freed; `malloc` gives
an address that is not allocated.

`history` records the outcomes in the order of the successful updates of
the head, and of the loads that found it `NULL`; `invoked` and `returned`
record the calls and their results. An element is the address and the data
of its node.
-/

set_option autoImplicit false

namespace Efio.Evds

open Efio.Lib

/-- `struct __s` -/
structure SNode where
  data : Nat
  next : Addr
  deriving DecidableEq, Repr

/-- The calls of a thread. -/
inductive StackCall where
  | push (data : Nat)
  | pop
  deriving DecidableEq, Repr

/-- What a call returns. -/
inductive StackResult where
  | done
  | data (d : Nat)
  | null
  deriving DecidableEq, Repr

/-- Where a thread is: between two calls, in `push` with the head `oldH` it
has seen, or in `pop` with the node `h` it has seen or marked. -/
inductive StackPc where
  | idle
  | pushLoad (data : Nat)
  | alloc (data : Nat) (oldH : HeadWord)
  | pushCas (p : Addr) (oldH : HeadWord)
  | popLoad
  | markHead (h : Addr)
  | loadNext (h : Addr)
  | popCas (h newH : Addr)
  | readData (h : Addr)
  deriving DecidableEq, Repr

/-- A stack with the memory and the threads that use it. -/
structure EvStack where
  head : HeadWord
  mem : Addr → SNode
  live : Addr → Bool
  pc : Nat → StackPc
  history : List (Nat × LifoOp (Addr × Nat))
  invoked : List (Nat × StackCall)
  returned : List (Nat × StackResult)

namespace EvStack

/-- `create_ev_stack`, with no thread inside. -/
def create : EvStack :=
  { head := ⟨0, false⟩
    mem := fun _ => ⟨0, 0⟩
    live := fun _ => false
    pc := fun _ => .idle
    history := []
    invoked := []
    returned := [] }

variable (s : EvStack)

/-- The element in the node `a`. -/
def elem (a : Addr) : Addr × Nat := (a, (s.mem a).data)

def goto (t : Nat) (q : StackPc) : EvStack := { s with pc := Function.update s.pc t q }

/-- The head is updated, or found `NULL`. -/
def commit (t : Nat) (op : LifoOp (Addr × Nat)) : EvStack :=
  { s with history := s.history ++ [(t, op)] }

/-- A call returns. -/
def finish (t : Nat) (r : StackResult) : EvStack :=
  { s.goto t .idle with returned := s.returned ++ [(t, r)] }

/-- `push` gets its node from `malloc` and fills it in. -/
def mallocStep (t : Nat) (a : Addr) : Option EvStack :=
  match s.pc t with
  | .alloc data oldH =>
    if a = 0 ∨ s.live a = true then none
    else
      -- The header can be marked; the mark does not go into `next`.
      some ({ s with
        mem := Function.update s.mem a ⟨data, oldH.addr⟩
        live := Function.update s.live a true }.goto t (.pushCas a oldH))
  | _ => none

/-- `push` -/
def pushStep (t : Nat) : StackPc → Option EvStack
  | .pushLoad data => some (s.goto t (.alloc data s.head))
  | .pushCas p oldH =>
    some (
      if s.head = oldH then
        ({ s with head := ⟨p, false⟩ }.commit t (.push (s.elem p))).finish t .done
      else
        { s with mem := Function.update s.mem p { s.mem p with next := s.head.addr } }.goto t
          (.pushCas p s.head))
  | _ => none

/-- `pop` -/
def popStep (t : Nat) : StackPc → Option EvStack
  | .popLoad =>
    some (
      if s.head = ⟨0, false⟩ then (s.commit t .empty).finish t .null
      else s.goto t (if s.head.mark = true then .popLoad else .markHead s.head.addr))
  | .markHead h =>
    some (
      if s.head = ⟨h, false⟩ then { s with head := ⟨h, true⟩ }.goto t (.loadNext h)
      else s.goto t .popLoad)
  | .loadNext h => some (s.goto t (.popCas h (s.mem h).next))
  | .popCas h newH =>
    some (
      if s.head = ⟨h, true⟩ then
        ({ s with head := ⟨newH, false⟩ }.commit t (.pop (s.elem h))).goto t (.readData h)
      else s.goto t .popLoad)
  | .readData h => some (s.finish t (.data (s.mem h).data))
  | _ => none

end EvStack

/-- The start of a call. -/
def StackCall.start : StackCall → StackPc
  | .push data => .pushLoad data
  | .pop => .popLoad

/-- One step of the thread `t`: it starts a call, gets memory from `malloc`,
or makes its next access. -/
inductive StackLabel where
  | call (t : Nat) (c : StackCall)
  | malloc (t : Nat) (a : Addr)
  | access (t : Nat)
  deriving DecidableEq, Repr

/-- The steps of the stack. -/
def EvStack.step (l : StackLabel) (s : EvStack) : Option EvStack :=
  match l with
  | .call t c =>
    if s.pc t = .idle then
      some { s.goto t c.start with invoked := s.invoked ++ [(t, c)] }
    else none
  | .malloc t a => s.mallocStep t a
  | .access t => (s.pushStep t (s.pc t)).or (s.popStep t (s.pc t))

end Efio.Evds
