import Efio.Evds.ChunkedMemoryStream
import Mathlib.Algebra.Group.Int.Defs
import Mathlib.Algebra.Group.Nat.Defs

/-!
# `Efio.Evds.BufferedStream`: `std::streambuf` over a memory stream

`BufferedStream` is an `ev_buffered_stream` together with the memory and
the `chunked_memory_stream` that it uses. The pointers of the get area and
of the put area are the ones that `setg` and `setp` set.

`_max_len` and `_bufsize` are signed and `_cum_len` is not, so the source
converts between the two in its comparisons. Here `sizeT` and `streamsize`
are written where it does. Allocation always succeeds.

`get_prefix` and `get_suffix` are virtual: `Framing` is what a class
derived from this one makes of them. They may look at the payload and
count their calls (`writes`). `sgetc`, `sbumpc`, `uflow` and `sputc` are
the library's.
-/

set_option autoImplicit false

namespace Efio.Evds

open Efio.Lib

/-- `std::streamsize`, `ssize_t` -/
structure StreamSize where
  val : Int
  min : -2 ^ 63 ≤ val
  max : val < 2 ^ 63

/-- A buffer size that a stream is constructed with. -/
structure BufSize extends StreamSize where
  pos : 0 < val

/-- A limit that a stream is constructed with; -1 is for none. -/
structure Limit extends StreamSize where
  unlimitedOrPos : val = -1 ∨ 0 < val

/-- The conversion to `size_t`. -/
def sizeT (x : Int) : Nat := (x % 2 ^ 64).toNat

/-- The conversion from `size_t` to `std::streamsize`. -/
def streamsize (n : Nat) : Int := Int.bmod n (2 ^ 64)

/-- The conversion from `char`, which is signed, to `int`. -/
def charToInt (c : UInt8) : Int := Int.bmod c.toNat (2 ^ 8)

/-- `std::char_traits<char>::to_int_type` -/
def toIntType (c : UInt8) : Int := c.toNat

/-- `EOF` -/
def EOF : Int := -1

/-- `BUFFER_SIZE` -/
def BUFFER_SIZE : Nat := 4096

/-- What `get_prefix` and `get_suffix` put into the zeroed array they are
given, on the call with this number and payload. -/
structure Framing where
  getPrefix : Nat → List UInt8 → List UInt8
  getSuffix : Nat → List UInt8 → List UInt8

/-- `strlen` of the array with this content and zeros behind it. -/
def strlen (bytes : List UInt8) : Nat := (bytes.takeWhile (· ≠ 0)).length

/-- The calls of a reader. -/
inductive ReadCall where
  | sgetc
  | sbumpc
  deriving DecidableEq, Repr

/-- The calls of a writer. -/
inductive WriteCall where
  | sputc (c : UInt8)
  | overflow (c : Int)
  | sync
  deriving DecidableEq, Repr

/-- An `ev_buffered_stream`, the memory, and the `chunked_memory_stream`. -/
structure BufferedStream where
  heap : Heap UInt8
  memoryStream : ChunkedMemoryStream
  bufsize : StreamSize
  maxLen : Int
  modeIn : Bool
  modeOut : Bool
  pBuffer : Option Ptr
  wBuffer : Ptr
  prevLen : Nat
  cumLen : Nat
  prefixLen : Nat
  suffixLen : Nat
  consumeAllOfMaxLen : Bool
  readingBufFromSource : Bool
  gptr : Option Ptr
  egptr : Option Ptr
  pbase : Ptr
  pptr : Ptr
  epptr : Ptr
  writes : Nat

namespace BufferedStream

/-- `setp` to the room between the prefix and the suffix. -/
def setp (s : BufferedStream) : BufferedStream :=
  { s with
    pbase := s.wBuffer.add s.prefixLen
    pptr := s.wBuffer.add s.prefixLen
    epptr := s.wBuffer.add (BUFFER_SIZE - s.suffixLen) }

/-- A new `_w_buffer`, cleared. -/
def mallocWBuffer (s : BufferedStream) : BufferedStream :=
  { s with
    heap := s.heap.alloc (List.replicate BUFFER_SIZE 0)
    wBuffer := s.heap.newPtr }

/-- The constructor. -/
def create (heap : Heap UInt8) (memoryStream : ChunkedMemoryStream) (bufsize maxLen : StreamSize) :
    BufferedStream :=
  { heap := heap.alloc (List.replicate BUFFER_SIZE 0)
    memoryStream := memoryStream
    bufsize := bufsize
    maxLen := if maxLen.val = 0 then -1 else maxLen.val
    modeIn := true
    modeOut := true
    pBuffer := none
    wBuffer := heap.newPtr
    prevLen := 0
    cumLen := 0
    prefixLen := 0
    suffixLen := 0
    consumeAllOfMaxLen := false
    readingBufFromSource := false
    gptr := none
    egptr := none
    pbase := heap.newPtr
    pptr := heap.newPtr
    epptr := heap.newPtr.add BUFFER_SIZE
    writes := 0 }

/-- `set_prefix_len` -/
def setPrefixLen (s : BufferedStream) (bytes : Nat) : Except StreamFault BufferedStream :=
  if bytes > 6 then .error .abort else .ok { s with prefixLen := bytes }.setp

/-- `set_suffix_len` -/
def setSuffixLen (s : BufferedStream) (bytes : Nat) : Except StreamFault BufferedStream :=
  if bytes > 4 then .error .abort else .ok { s with suffixLen := bytes }.setp

/-- `set_mode` -/
def setMode (s : BufferedStream) (modeIn modeOut : Bool) : BufferedStream :=
  { s with modeIn := modeIn, modeOut := modeOut }

/-- `consume_all_of_max_len` -/
def setConsumeAllOfMaxLen (s : BufferedStream) : BufferedStream := { s with consumeAllOfMaxLen := true }

/-! ### Reading -/

/-- The limit has not been reached. -/
def belowLimit (s : BufferedStream) : Bool := s.maxLen = -1 || s.cumLen < sizeT s.maxLen

/-- `low_read_from_source`. The bytes it hands out, `_p_buffer` and the
length it returns, are erased by the next call. -/
def lowReadFromSource (size : Int) (s : BufferedStream) : Except StreamFault (BufferedStream × Nat) := do
  let (heap, memoryStream, _) ← s.memoryStream.erase s.heap s.prevLen
  let s := { s with heap := heap, memoryStream := memoryStream }
  if s.belowLimit then
    let size :=
      if s.maxLen ≠ -1 ∧ (s.cumLen + sizeT size) % 2 ^ 64 > sizeT s.maxLen then
        streamsize (sizeT (s.maxLen - s.cumLen))
      else size
    let (pBuffer, len) :=
      match s.memoryStream with
      | [] => (none, 0)
      | n :: _ =>
        (n.getBuffer, if n.getBufferLen > sizeT size then sizeT size else n.getBufferLen)
    return ({ s with pBuffer := pBuffer, cumLen := (s.cumLen + len) % 2 ^ 64, prevLen := len }, len)
  else return ({ s with prevLen := 0 }, 0)

/-- `read_from_source`, which a derived class may replace. -/
def readFromSource (size : Int) (s : BufferedStream) : Except StreamFault (BufferedStream × Nat) :=
  s.lowReadFromSource size

/-- `high_read_from_source` -/
def highReadFromSource (size : Int) (s : BufferedStream) :
    Except StreamFault (BufferedStream × Nat) := do
  let (s, len) ← { s with readingBufFromSource := true }.readFromSource size
  return ({ s with readingBufFromSource := false }, len)

/-- `low_readch` -/
def lowReadch (s : BufferedStream) : Except StreamFault (BufferedStream × Int) :=
  if ¬s.readingBufFromSource then .error .abort
  else do
    let (heap, memoryStream, _) ← s.memoryStream.erase s.heap s.prevLen
    let s := { s with heap := heap, memoryStream := memoryStream, prevLen := 0 }
    if s.belowLimit then
      let (heap, memoryStream, copied) ← s.memoryStream.read s.heap 1
      let s := { s with heap := heap, memoryStream := memoryStream }
      match copied with
      | [] => return (s, EOF)
      | c :: _ => return ({ s with cumLen := (s.cumLen + 1) % 2 ^ 64 }, charToInt c)
    else return (s, EOF)

/-- `gptr() < egptr()` -/
def hasGet (s : BufferedStream) : Bool :=
  match s.gptr, s.egptr with
  | some g, some e => g.off < e.off
  | _, _ => false

/-- `*gptr()` -/
def deref (s : BufferedStream) : Except StreamFault UInt8 :=
  match s.gptr with
  | none => .error .nullPointer
  | some p => do
    let bytes ← (s.heap.load p 1).mapError .heap
    match bytes with
    | c :: _ => .ok c
    | [] => .error .assertion

/-- `gbump(1)` -/
def gbump (s : BufferedStream) : BufferedStream := { s with gptr := s.gptr.map (·.add 1) }

/-- `underflow` -/
def underflow (s : BufferedStream) : Except StreamFault (BufferedStream × Int) :=
  if ¬s.modeIn then .ok (s, EOF)
  else if s.hasGet then do
    let c ← s.deref
    return (s, charToInt c)
  else do
    let (s, n) ← s.highReadFromSource s.bufsize.val
    if n > sizeT s.bufsize.val then .error .assertion
    else if n = 0 then return (s, EOF)
    else
      let s := { s with gptr := s.pBuffer, egptr := s.pBuffer.map (·.add n) }
      let c ← s.deref
      return (s, charToInt c)

/-- `sgetc` -/
def sgetc (s : BufferedStream) : Except StreamFault (BufferedStream × Int) :=
  if s.hasGet then do
    let c ← s.deref
    return (s, toIntType c)
  else s.underflow

/-- `uflow` -/
def uflow (s : BufferedStream) : Except StreamFault (BufferedStream × Int) := do
  let (s, ch) ← s.underflow
  if ch = EOF then return (s, EOF)
  else
    let c ← s.deref
    return (s.gbump, toIntType c)

/-- `sbumpc` -/
def sbumpc (s : BufferedStream) : Except StreamFault (BufferedStream × Int) :=
  if s.hasGet then do
    let c ← s.deref
    return (s.gbump, toIntType c)
  else s.uflow

/-! ### Writing -/

/-- `push_to_sync` -/
def pushToSync (buffer : Ptr) (size : Int) (s : BufferedStream) : BufferedStream × Nat :=
  let len := sizeT size
  if s.belowLimit then
    let len :=
      if s.maxLen ≠ -1 ∧ (s.cumLen + len) % 2 ^ 64 > sizeT s.maxLen then sizeT (s.maxLen - s.cumLen)
      else len
    ({ s with
      memoryStream := (s.memoryStream.push buffer len).1
      cumLen := (s.cumLen + len) % 2 ^ 64 }, len)
  else (s, len)

/-- The bytes that `get_prefix` or `get_suffix` gave, `len` of them, at `p`. -/
def memcpy (bytes : List UInt8) (len : Nat) (p : Ptr) (s : BufferedStream) :
    Except StreamFault BufferedStream :=
  if len = 0 then .ok s
  else if strlen bytes ≠ len then .error .abort
  else do
    let heap ← (s.heap.store p (bytes.take len)).mapError .heap
    return { s with heap := heap }

/-- `low_write_to_sync` of `bytes` bytes behind the prefix. -/
def lowWriteToSync (f : Framing) (buffer : Ptr) (bytes : Nat) (s : BufferedStream) :
    Except StreamFault (BufferedStream × Nat) := do
  let payload ← (s.heap.load (buffer.add s.prefixLen) bytes).mapError .heap
  let s ← s.memcpy (f.getPrefix s.writes payload) s.prefixLen buffer
  let s ← s.memcpy (f.getSuffix s.writes payload) s.suffixLen (buffer.add (bytes + s.prefixLen))
  return { s with writes := s.writes + 1 }.pushToSync buffer (bytes + s.prefixLen + s.suffixLen : Nat)

/-- `flush_buffer` -/
def flushBuffer (f : Framing) (s : BufferedStream) : Except StreamFault (BufferedStream × Int) :=
  if ¬s.modeOut then .ok (s, EOF)
  else
    let n := s.pptr.off - s.pbase.off
    if n ≠ 0 then do
      let (s, transfered) ← s.lowWriteToSync f s.wBuffer n
      if transfered ≥ n then return (s.mallocWBuffer.setp, (n : Int))
      else return (s, -1)
    else .ok (s, -1)

/-- `*pptr() = c; pbump(1)` -/
def putChar (c : UInt8) (s : BufferedStream) : Except StreamFault BufferedStream := do
  let heap ← (s.heap.store s.pptr [c]).mapError .heap
  return { s with heap := heap, pptr := s.pptr.add 1 }

/-- `overflow` -/
def overflow (f : Framing) (c : Int) (s : BufferedStream) : Except StreamFault (BufferedStream × Int) :=
  if ¬s.modeOut then .ok (s, EOF)
  else do
    let (s, n) ← s.flushBuffer f
    if n = -1 then return (s, EOF)
    else if c ≠ EOF then
      let s ← s.putChar (UInt8.ofInt c)
      return (s, c)
    else return (s, c)

/-- `sputc` -/
def sputc (f : Framing) (c : UInt8) (s : BufferedStream) : Except StreamFault (BufferedStream × Int) :=
  if s.pptr.off < s.epptr.off then do
    let s ← s.putChar c
    return (s, toIntType c)
  else s.overflow f (toIntType c)

/-- `sync` -/
def sync (f : Framing) (s : BufferedStream) : Except StreamFault (BufferedStream × Int) :=
  if s.pptr.off > s.pbase.off then do
    let (s, n) ← s.flushBuffer f
    if n = -1 then return (s, -1) else return (s, 0)
  else .ok (s, 0)

/-! ### Runs -/

/-- `low_read_from_source` until it returns 0: the segments it hands out. -/
def drain (size : Int) : Nat → BufferedStream → Except StreamFault (BufferedStream × List (List UInt8))
  | 0, _ => .error .loops
  | fuel + 1, s => do
    let (s, len) ← s.lowReadFromSource size
    if len = 0 then return (s, [])
    else
      match s.pBuffer with
      | none => .error .nullPointer
      | some p =>
        let segment ← (s.heap.load p len).mapError .heap
        let (s, segments) ← drain size fuel s
        return (s, segment :: segments)

/-- The memory and the memory stream after these chunks have been pushed. -/
def pushed (chunks : List (List UInt8)) : Heap UInt8 × ChunkedMemoryStream :=
  chunks.foldl (fun x data => (x.1.alloc data, (x.2.push x.1.newPtr data.length).1)) (.empty, [])

/-- Streams with these sizes and limits, created over the same memory
stream one after the other and drained. -/
def drainAll (fuel : Nat) : List (BufSize × Limit) → Heap UInt8 → ChunkedMemoryStream →
    Except StreamFault (Heap UInt8 × ChunkedMemoryStream × List (List (List UInt8)))
  | [], heap, memoryStream => .ok (heap, memoryStream, [])
  | (bufsize, limit) :: readers, heap, memoryStream => do
    let s := create heap memoryStream bufsize.toStreamSize limit.toStreamSize
    let (s, segments) ← s.drain bufsize.val fuel
    let (heap, memoryStream, rest) ← drainAll fuel readers s.heap s.memoryStream
    return (heap, memoryStream, segments :: rest)

/-- One call. -/
def readCall : ReadCall → BufferedStream → Except StreamFault (BufferedStream × Int)
  | .sgetc, s => s.sgetc
  | .sbumpc, s => s.sbumpc

/-- A stream that is set up for reading and to consume all of its limit:
over the memory stream that chunks have been pushed to. -/
def consumer (chunks : List (List UInt8)) (bufsize : BufSize) (limit : Limit) (modeOut : Bool) :
    BufferedStream :=
  ((create (pushed chunks).1 (pushed chunks).2 bufsize.toStreamSize limit.toStreamSize).setMode true
    modeOut).setConsumeAllOfMaxLen

/-- A stream that is set up for writing: over the memory stream that
chunks have been pushed to, with lengths for the prefix and the suffix. -/
def writer (chunks : List (List UInt8)) (bufsize : BufSize) (limit : Limit) (prefixLen suffixLen : Nat)
    (modeIn : Bool) : Except StreamFault BufferedStream := do
  let s := create (pushed chunks).1 (pushed chunks).2 bufsize.toStreamSize limit.toStreamSize
  let s ← s.setPrefixLen prefixLen
  let s ← s.setSuffixLen suffixLen
  return s.setMode modeIn true

/-- One call. -/
def writeCall (f : Framing) : WriteCall → BufferedStream → Except StreamFault (BufferedStream × Int)
  | .sputc c, s => s.sputc f c
  | .overflow c, s => s.overflow f c
  | .sync, s => s.sync f

/-- The destructor, with the memory and the memory stream it leaves. -/
def destroy (f : Framing) (fuel : Nat) (s : BufferedStream) :
    Except StreamFault (Heap UInt8 × ChunkedMemoryStream) := do
  let s ←
    if s.consumeAllOfMaxLen ∧ s.modeIn ∧ s.maxLen > 0 then do
      let (s, _) ← s.drain s.bufsize.val fuel
      pure s
    else pure s
  let (s, _) ← s.flushBuffer f
  let heap ← (s.heap.free s.wBuffer).mapError .heap
  return (heap, s.memoryStream)

end BufferedStream

end Efio.Evds
