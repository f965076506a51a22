import Efio.Lib.Calls
import Efio.Lib.Heap

/-!
# `Efio.Evds.ChunkedMemoryStream`: byte streams over lists of buffers

A `chunked_memory_stream` is a `memory_buffer_list`, and that, used by one
thread, is the list of its nodes from the head on. A node owns a buffer: it
has the address the buffer was given with (`buffer`), and the position up
to which the buffer has been consumed.

`Streams` are the streams of a program with its memory. `push` is called
with a buffer that the caller has just allocated and filled. `pushed`
records the blocks that were given away.

Sizes are `size_t` in the source; the sums and differences taken here stay
within the sizes of buffers in memory or of the request.
-/

set_option autoImplicit false

namespace Efio.Evds

open Efio.Lib

/-- What ends the program, or keeps it from returning. -/
inductive StreamFault where
  | heap (e : HeapFault)
  | nullPointer
  | assertion
  | abort
  | exit
  | loops
  deriving DecidableEq, Repr

/-- `memory_buffer_list::node` -/
structure BufferNode where
  buffer : Option Ptr
  size : Nat
  position : Option Ptr
  sizeAtPosition : Nat
  deriving DecidableEq, Repr

namespace BufferNode

/-- `set_buffer` -/
def setBuffer (buffer : Option Ptr) (size : Nat) : BufferNode :=
  { buffer := buffer
    size := size
    position := buffer
    sizeAtPosition := size }

variable (n : BufferNode)

/-- `get_buffer_len` -/
def getBufferLen : Nat := n.sizeAtPosition

/-- `get_buffer` -/
def getBuffer : Option Ptr := n.position

/-- `shift_buffer_position` -/
def shiftBufferPosition (bytes : Nat) : Except StreamFault BufferNode :=
  match n.buffer, n.position with
  | some b, some p =>
    if p.off + bytes ≤ b.off + n.size then
      if p.off + bytes < b.off + n.size then
        .ok { n with position := some (p.add bytes), sizeAtPosition := n.sizeAtPosition - bytes }
      else .ok { n with position := none, sizeAtPosition := 0 }
    else .error .assertion
  | _, _ => .error .nullPointer

/-- `~node` -/
def delete (h : Heap UInt8) : Except StreamFault (Heap UInt8) :=
  match n.buffer with
  | none => .ok h
  | some p => (h.free p).mapError .heap

/-- The copy of `bytes` bytes that start `start` bytes behind the position. -/
def memcpy (h : Heap UInt8) (start bytes : Nat) : Except StreamFault (List UInt8) :=
  match n.getBuffer with
  | none => .error .nullPointer
  | some p => (h.load (p.add start) bytes).mapError .heap

end BufferNode

/-- A stream: the nodes of its `_buffer_list`. -/
abbrev ChunkedMemoryStream := List BufferNode

namespace ChunkedMemoryStream

/-- `add_node` -/
def addNode (l : ChunkedMemoryStream) (buffer : Option Ptr) (size : Nat) : ChunkedMemoryStream :=
  l ++ [.setBuffer buffer size]

/-- `push` -/
def push (l : ChunkedMemoryStream) (buffer : Ptr) (bytes : Nat) : ChunkedMemoryStream × Nat :=
  (if bytes ≠ 0 then l.addNode (some buffer) bytes else l, bytes)

/-- The first loop of `copy`: the node to start from and the offset in it. -/
def copyFrom (startPos : Nat) : ChunkedMemoryStream → Nat → ChunkedMemoryStream × Nat
  | [], _ => ([], 0)
  | n :: l, traversed =>
    if startPos - traversed ≥ n.getBufferLen then copyFrom startPos l (traversed + n.getBufferLen)
    else (n :: l, startPos - traversed)

/-- The second loop of `copy`; `copied` are the bytes so far. -/
def copyLoop (h : Heap UInt8) (bytes : Nat) :
    ChunkedMemoryStream → Nat → List UInt8 → Except StreamFault (List UInt8)
  | [], _, copied => .ok copied
  | n :: l, start, copied =>
    if copied.length < bytes then do
      let toBeCopied :=
        if bytes - copied.length ≥ n.getBufferLen - start then n.getBufferLen - start
        else bytes - copied.length
      let data ← n.memcpy h start toBeCopied
      copyLoop h bytes l 0 (copied ++ data)
    else .ok copied

/-- `copy`, with the bytes it puts into the caller's buffer. -/
def copy (h : Heap UInt8) (l : ChunkedMemoryStream) (startPos bytes : Nat) :
    Except StreamFault (List UInt8) :=
  let (l, start) := copyFrom startPos l 0
  copyLoop h bytes l start []

/-- The loop of `read`. -/
def readLoop (bytes : Nat) : Heap UInt8 → ChunkedMemoryStream → List UInt8 →
    Except StreamFault (Heap UInt8 × ChunkedMemoryStream × List UInt8)
  | h, [], copied => .ok (h, [], copied)
  | h, n :: l, copied =>
    if copied.length < bytes then do
      let toBeCopied :=
        if bytes - copied.length ≥ n.getBufferLen then n.getBufferLen else bytes - copied.length
      let data ← n.memcpy h 0 toBeCopied
      if toBeCopied = n.getBufferLen then
        let h ← n.delete h
        readLoop bytes h l (copied ++ data)
      else if toBeCopied > n.getBufferLen then .error .exit
      else
        -- The request is satisfied: the loop ends with the next test.
        let n ← n.shiftBufferPosition toBeCopied
        return (h, n :: l, copied ++ data)
    else .ok (h, n :: l, copied)

/-- `read`, with the bytes it puts into the caller's buffer. -/
def read (h : Heap UInt8) (l : ChunkedMemoryStream) (bytes : Nat) :
    Except StreamFault (Heap UInt8 × ChunkedMemoryStream × List UInt8) :=
  readLoop bytes h l []

/-- The loop of `erase`. -/
def eraseLoop : Heap UInt8 → ChunkedMemoryStream → Nat → Nat →
    Except StreamFault (Heap UInt8 × ChunkedMemoryStream × Nat)
  | h, [], _, erased => .ok (h, [], erased)
  | h, n :: l, toBeErased, erased =>
    if toBeErased ≠ 0 then
      if toBeErased ≥ n.getBufferLen then do
        let h ← n.delete h
        eraseLoop h l (toBeErased - n.getBufferLen) (erased + n.getBufferLen)
      else do
        let n ← n.shiftBufferPosition toBeErased
        return (h, n :: l, erased + toBeErased)
    else .ok (h, n :: l, erased)

/-- `erase` -/
def erase (h : Heap UInt8) (l : ChunkedMemoryStream) (bytes : Nat) :
    Except StreamFault (Heap UInt8 × ChunkedMemoryStream × Nat) :=
  eraseLoop h l bytes 0

/-- `transfer` of all nodes of the first stream to the second. -/
def transfer : Heap UInt8 → ChunkedMemoryStream → ChunkedMemoryStream →
    Except StreamFault (Heap UInt8 × ChunkedMemoryStream)
  | h, [], dst => .ok (h, dst)
  | h, n :: src, dst => do
    let dst := dst.addNode n.getBuffer n.getBufferLen
    let h ← (BufferNode.setBuffer none 0).delete h
    transfer h src dst

end ChunkedMemoryStream

/-- The streams of a program and its memory. -/
structure Streams (ι : Type) where
  heap : Heap UInt8
  list : ι → ChunkedMemoryStream
  pushed : List Nat

/-- The calls. -/
inductive StreamCall (ι : Type) where
  | push (i : ι) (data : List UInt8)
  | read (i : ι) (bytes : Nat)
  | copy (i : ι) (startPos bytes : Nat)
  | erase (i : ι) (bytes : Nat)
  | transfer (dst src : ι)
  deriving DecidableEq, Repr

/-- What a call returns, with the bytes it delivers. -/
structure StreamResult where
  count : Nat
  bytes : List UInt8
  deriving DecidableEq, Repr

namespace Streams

variable {ι : Type} [DecidableEq ι]

/-- All streams are empty. -/
def create (ι : Type) : Streams ι :=
  { heap := .empty
    list := fun _ => []
    pushed := [] }

variable (s : Streams ι)

def setList (i : ι) (l : ChunkedMemoryStream) : Streams ι :=
  { s with list := Function.update s.list i l }

/-- One call. -/
def call : StreamCall ι → Streams ι → Except StreamFault (Streams ι × StreamResult)
  | .push i data, s =>
    let (l, count) := (s.list i).push s.heap.newPtr data.length
    .ok ({ s.setList i l with
      heap := s.heap.alloc data
      pushed := if data.length ≠ 0 then s.pushed ++ [s.heap.newPtr.block] else s.pushed }, ⟨count, []⟩)
  | .read i bytes, s => do
    let (h, l, copied) ← (s.list i).read s.heap bytes
    return ({ s.setList i l with heap := h }, ⟨copied.length, copied⟩)
  | .copy i startPos bytes, s => do
    let copied ← (s.list i).copy s.heap startPos bytes
    return (s, ⟨copied.length, copied⟩)
  | .erase i bytes, s => do
    let (h, l, erased) ← (s.list i).erase s.heap bytes
    return ({ s.setList i l with heap := h }, ⟨erased, []⟩)
  | .transfer dst src, s =>
    -- A stream transferred to itself is never empty.
    if dst = src then if s.list src = [] then .ok (s, ⟨0, []⟩) else .error .loops
    else do
      let (h, l) ← ChunkedMemoryStream.transfer s.heap (s.list src) (s.list dst)
      return ({ (s.setList dst l).setList src [] with heap := h }, ⟨0, []⟩)

end Streams

end Efio.Evds
