import Efio.Evds.BufferedStream
import Efio.Spec.ReadLimit

/-!
# `Efio.Spec.FlatWriter`: writing in frames

A `FlatWriter` has the bytes that have been pushed, the payload that is
pending, and the room that is left within the limit. A flush makes a frame
of the pending payload and pushes as much of it as there is room for; when
that is less than the length of the payload, it fails and keeps the
payload. `frames` is what flushes without a limit push.
-/

set_option autoImplicit false

namespace Efio.Spec

open Efio.Evds

/-- No limit. -/
def Limit.unlimited : Limit := ⟨⟨-1, by decide, by decide⟩, .inl rfl⟩

/-- A prefix and a suffix that are filled exactly. -/
structure Frame extends Framing where
  prefixLen : Nat
  suffixLen : Nat
  prefixLen_le : prefixLen ≤ 6
  suffixLen_le : suffixLen ≤ 4
  getPrefix_exact : ∀ k payload, (getPrefix k payload).length = prefixLen ∧ 0 ∉ getPrefix k payload
  getSuffix_exact : ∀ k payload, (getSuffix k payload).length = suffixLen ∧ 0 ∉ getSuffix k payload

namespace Frame

variable (f : Frame)

/-- The frame of the payload that is flushed by the call with number `k`. -/
def bytes (k : Nat) (payload : List UInt8) : List UInt8 :=
  f.getPrefix k payload ++ payload ++ f.getSuffix k payload

/-- The frames of consecutive payloads. -/
def frames (payloads : List (List UInt8)) : List UInt8 := (payloads.mapIdx f.bytes).flatten

/-- How much fits between the prefix and the suffix. -/
def room : Nat := BUFFER_SIZE - f.suffixLen - f.prefixLen

end Frame

/-- A writer without memory. -/
structure FlatWriter where
  pushed : List UInt8
  pending : List UInt8
  writes : Nat
  left : Option Nat

namespace FlatWriter

variable (f : Frame)

/-- `flush_buffer` -/
def flush (x : FlatWriter) : FlatWriter × Int :=
  if x.pending = [] then (x, -1)
  else
    let bytes := f.bytes x.writes x.pending
    let y := { x with writes := x.writes + 1, left := x.left.map (· - bytes.length) }
    match x.left with
    | none => ({ y with pushed := x.pushed ++ bytes, pending := [] }, x.pending.length)
    | some 0 => ({ y with pending := [] }, x.pending.length)
    | some (n + 1) =>
      if min (n + 1) bytes.length ≥ x.pending.length then
        ({ y with pushed := x.pushed ++ bytes.take (n + 1), pending := [] }, x.pending.length)
      else ({ y with pushed := x.pushed ++ bytes.take (n + 1) }, -1)

/-- `overflow` -/
def overflow (c : Int) (x : FlatWriter) : FlatWriter × Int :=
  let (y, n) := x.flush f
  if n = -1 then (y, EOF)
  else if c ≠ EOF then ({ y with pending := y.pending ++ [UInt8.ofInt c] }, c)
  else (y, c)

/-- The calls. -/
def call : WriteCall → FlatWriter → FlatWriter × Int
  | .sputc c, x =>
    if x.pending.length < f.room then ({ x with pending := x.pending ++ [c] }, toIntType c)
    else x.overflow f (toIntType c)
  | .overflow c, x => x.overflow f c
  | .sync, x =>
    if x.pending = [] then (x, 0)
    else
      let (y, n) := x.flush f
      (y, if n = -1 then -1 else 0)

end FlatWriter

/-- The characters that the calls have accepted, by their results. -/
def accepted (calls : List WriteCall) (results : List Int) : List UInt8 :=
  (calls.zip results).flatMap fun
    | (.sputc c, r) => if r = EOF then [] else [c]
    | (.overflow c, r) => if r = EOF then [] else [UInt8.ofInt c]
    | (.sync, _) => []

/-! ### What an `ev_buffered_stream` writes -/

/-- The put area up to `pptr`. -/
def pending (s : BufferedStream) : List UInt8 :=
  (((s.heap.blocks s.pbase.block).getD []).drop s.pbase.off).take (s.pptr.off - s.pbase.off)

/-- The writer that the stream stands for. -/
def flat (s : BufferedStream) : FlatWriter where
  pushed := content s.heap s.memoryStream
  pending := pending s
  writes := s.writes
  left := if s.maxLen = -1 then none else some (s.maxLen - s.cumLen).toNat

/-- The call flushes the put area. -/
def Flushes (s : BufferedStream) : WriteCall → Prop
  | .sputc _ => s.epptr.off ≤ s.pptr.off
  | .overflow _ => True
  | .sync => True

/-- The prefix that a flush puts into a put buffer that the memory stream
has already been given is the one that the memory stream has. -/
def KeepsPrefix (f : Framing) (s : BufferedStream) : Prop :=
  pending s ≠ [] → ∀ n ∈ s.memoryStream, n.buffer = some s.wBuffer →
    (f.getPrefix s.writes (pending s)).take n.sizeAtPosition = (nodeBytes s.heap n).take s.prefixLen

/-- The call changes nothing that has been pushed. -/
def SamePrefix (f : Framing) (s : BufferedStream) (call : WriteCall) : Prop :=
  Flushes s call → KeepsPrefix f s

/-- The prefix and the suffix that a flush asks for are filled exactly; it
aborts otherwise. -/
def Exact (f : Framing) (s : BufferedStream) : Prop :=
  (s.prefixLen = 0 ∨ strlen (f.getPrefix s.writes (pending s)) = s.prefixLen) ∧
    (s.suffixLen = 0 ∨ strlen (f.getSuffix s.writes (pending s)) = s.suffixLen)

end Efio.Spec
