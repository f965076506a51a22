import Efio.Evio.WriteCall

/-!
# `Efio.Spec.AcceptedWrites`: what `ef_write` owes its caller

Data that `ef_write` has accepted is in the tasks pushed, in order, and the
last of it in the accumulator. No task is empty or longer than a page, and
the accumulator is never full between two calls.
-/

set_option autoImplicit false

namespace Efio.Spec

open Efio.Evio

/-- The first `_nbyte` bytes at `_buf`. -/
def pagePayload (t : PageTask) : List UInt8 := (t.buf.getD []).take t.nbyte

/-- The first `_bytes` bytes of the accumulator. -/
def accumBytes (d : AccumWrites) : List UInt8 := (d.data.getD []).take d.bytes

/-- The accumulator, while there is one. -/
def accumOf (s : Writer) : AccumWrites := (s.action.bind WriterAction.wAccum).getD .init

/-- All bytes that have come into the tasks and the accumulator. -/
def carriedBytes (s : Writer) : List UInt8 := s.wQueue.flatMap pagePayload ++ accumBytes (accumOf s)

/-- The data that a call passes. -/
def passedData : WriterOp → List UInt8
  | .lowEfWrite buf => buf
  | .lowEfSync => []

/-- What a call should return: `ef_write` the number of its bytes. -/
def expectedReturn : WriterOp → Option Int
  | .lowEfWrite buf => some buf.length
  | .lowEfSync => none

/-- The file holds `data`. -/
structure HoldsData (pageSize : Nat) (s : Writer) (data : List UInt8) : Prop where
  carried : carriedBytes s = data
  tasks : ∀ t ∈ s.wQueue, 1 ≤ t.nbyte ∧ t.nbyte ≤ pageSize ∧ (pagePayload t).length = t.nbyte
  bytes : (accumOf s).bytes < pageSize

end Efio.Spec
