import Efio.CoreUtils.Compression

/-!
# `Efio.Spec.Compression`: what zlib promises, and what is asked of its callers

`Deflates` and `Inflates` are zlib's contract for one compressed stream:
`stream x` are the bytes that `x` is compressed to, and `owes s x left` says
that in the state `s`, with the input `x` unread, the bytes `left` have
still to be written. A call with room writes the next bytes, as many as fit.

`RoundTrips` is the round trip through `compress_inp_buf` and
`uncompress_inp_buf`, and `RoundTripsWhen` the condition under which it
succeeds.

`Bounded` is the little that is needed for the loops to end. `Answers` says
what a call returns that has nowhere to write to.
-/

set_option autoImplicit false

namespace Efio.Spec

open Efio.Lib Efio.CoreUtils

/-- The contract of `deflate(.., Z_FINISH)`:

- `start`: the stream of the input that the first call is given;
- `null`: without an output buffer nothing is written;
- `writes`: a call writes the next bytes of the stream, as many as fit;
- `returns`: it does not fail, and it returns `Z_STREAM_END` when room is
  left; then all input has been read. -/
structure Deflates (z : Engine) (stream : List UInt8 → List UInt8)
    (owes : z.State → List UInt8 → List UInt8 → Prop) : Prop where
  start : z.init.1 = .ok → ∀ x : List UInt8, x.length < 2 ^ 32 → owes z.init.2 x (stream x)
  null : ∀ s x room, (z.call s ⟨x, none, room⟩).2.output = [] ∧
    (z.call s ⟨x, none, room⟩).2.ret = .streamError
  writes : ∀ s x left, owes s x left → ∀ p room, 0 < room → room < 2 ^ 32 →
    (z.call s ⟨x, some p, room⟩).2.output = left.take room ∧
      owes (z.call s ⟨x, some p, room⟩).1 (x.drop (z.call s ⟨x, some p, room⟩).2.consumed) (left.drop room)
  returns : ∀ s x left, owes s x left → ∀ p room, 0 < room → room < 2 ^ 32 →
    (z.call s ⟨x, some p, room⟩).2.ret ≠ .streamError ∧
      (left.length < room → (z.call s ⟨x, some p, room⟩).2.ret = .streamEnd ∧
        x.drop (z.call s ⟨x, some p, room⟩).2.consumed = [])

/-- The contract of `inflate(.., Z_NO_FLUSH)`:

- `delimits`: a stream marks its end, so none is the beginning of another;
- `init`: there is memory for the state;
- `start`: the stream of `x` gives `x`;
- `writes`: a call writes the next bytes of `x`, as many as fit;
- `returns`: it returns `Z_OK` or `Z_STREAM_END`, and `Z_STREAM_END` when
  room is left;
- `short`, `starves`: an input that breaks off within a stream does not
  lead to `Z_STREAM_END`. -/
structure Inflates (z : Engine) (stream : List UInt8 → List UInt8)
    (owes : z.State → List UInt8 → List UInt8 → Prop) (starved : z.State → List UInt8 → Prop) : Prop where
  delimits : ∀ x y, stream x <+: stream y → x = y
  init : z.init.1 = .ok
  start : ∀ x, (stream x).length < 2 ^ 32 → owes z.init.2 (stream x) x
  writes : ∀ s y left, owes s y left → ∀ p room, 0 < room → room < 2 ^ 32 →
    (z.call s ⟨y, some p, room⟩).2.output = left.take room ∧
      owes (z.call s ⟨y, some p, room⟩).1 (y.drop (z.call s ⟨y, some p, room⟩).2.consumed) (left.drop room)
  returns : ∀ s y left, owes s y left → ∀ p room, 0 < room → room < 2 ^ 32 →
    (z.call s ⟨y, some p, room⟩).2.ret = .streamEnd ∨
      room ≤ left.length ∧ (z.call s ⟨y, some p, room⟩).2.ret = .ok
  short : ∀ x y, y.length < 2 ^ 32 → y <+: stream x → y ≠ stream x → starved z.init.2 y
  starves : ∀ s y, starved s y → ∀ p room,
    (z.call s ⟨y, p, room⟩).2.ret ≠ .streamEnd ∧
      starved (z.call s ⟨y, p, room⟩).1 (y.drop (z.call s ⟨y, p, room⟩).2.consumed)

/-- All bytes of the write go into the block that is current. -/
def Inside (w : Write) : Prop :=
  w.bytes = [] ∨ ∃ b p, w.current = some b ∧ w.dest = some p ∧ p.block = b.id ∧
    p.off + w.bytes.length ≤ b.bytes.length

/-- The block `*out_ptr` holds `data` in its first `*written_size_ptr` bytes. -/
def Gives (r : Result) (data : List UInt8) : Prop :=
  ∃ b, r.out = some b ∧ r.written ≤ b.bytes.length ∧ b.bytes.take r.written = data

/-- When `compress_inp_buf` returns `Z_OK`, it has given the whole stream of
the input and has written inside the block only, and `uncompress_inp_buf`
makes the input of it. -/
def RoundTrips (checked : Bool) (mem : Allocator) (z : Zlib) (stream : List UInt8 → List UInt8)
    (input : List UInt8) : Prop :=
  ∀ fuel result, compressInpBuf checked mem z.deflate input fuel = some (.returned .ok result) →
    ∃ r, result = some r ∧ Gives r (stream input) ∧ (∀ w ∈ r.writes, Inside w) ∧
      ∀ data, Gives r data → ∀ mem' : Allocator, (∀ k, mem'.place k ≠ .failed) →
        ∃ fuel' r', uncompressInpBuf checked mem' z.inflate data fuel' = some (.returned .ok (some r')) ∧
          Gives r' input

/-- Unless `compress_inp_buf` returns something else than `Z_OK` or nothing
at all: there is a first block, the sizes fit into 32 bits, and `realloc`
leaves the block where it is as long as bytes are missing, and does not
fail when none are. -/
def RoundTripsWhen (checked : Bool) (mem : Allocator) (z : Zlib) (stream : List UInt8 → List UInt8)
    (input : List UInt8) : Prop :=
  z.deflate.init.1 = .ok → uInt input.length ≠ 0 → ¬(checked = true ∧ mem.place 1 = .failed) →
    mem.place 1 ≠ .failed ∧ input.length < 2 ^ 32 ∧ (stream input).length < 2 ^ 32 ∧
      ∀ k, 0 < k → (k * input.length < (stream input).length → mem.place (k + 1) = .inPlace) ∧
        (k * input.length = (stream input).length → mem.place (k + 1) ≠ .failed)

/-- The number of the bytes that a sequence of calls writes. -/
def outputs (z : Engine) : z.State → List UInt8 → List (Option Ptr × Nat) → Nat
  | _, _, [] => 0
  | s, x, (p, room) :: calls =>
    (z.call s ⟨x, p, room⟩).2.output.length +
      outputs z (z.call s ⟨x, p, room⟩).1 (x.drop (z.call s ⟨x, p, room⟩).2.consumed) calls

/-- A call writes at most `avail_out` bytes, and there is a bound on what is
written for one input. `avail_out` changes by what is written, so a call
without progress leaves it unchanged. -/
structure Bounded (z : Engine) : Prop where
  fits : ∀ s x p room, (z.call s ⟨x, p, room⟩).2.output.length ≤ room
  finite : ∀ x, ∃ total, ∀ calls, outputs z z.init.2 x calls ≤ total

/-- What a call returns that has nowhere to write to. `idle` are the states
in which nothing has been read or written. -/
structure Answers (z : Engine) (idle : z.State → Prop) : Prop where
  null : ∀ s x room, (z.call s ⟨x, none, room⟩).2.ret = .streamError
  start : idle z.init.2
  noRoom : ∀ s, idle s → ∀ p, (z.call s ⟨[], some p, 0⟩).2.ret = .bufError ∧ idle (z.call s ⟨[], some p, 0⟩).1

/-- `compress_inp_buf` gets to its end. -/
def CompressEnds (checked : Bool) (mem : Allocator) (z : Engine) (input : List UInt8) : Prop :=
  ∃ fuel, (compressInpBuf checked mem z input fuel).isSome = true

/-- `uncompress_inp_buf` gets to its end. -/
def UncompressEnds (checked : Bool) (mem : Allocator) (z : Engine) (input : List UInt8) : Prop :=
  ∃ fuel, (uncompressInpBuf checked mem z input fuel).isSome = true

/-- The loop is not entered, its calls have room, or the first buffer is
missing and an assertion notices it. -/
def Leaves (checked : Bool) (first : Placement) (z : Engine) (n : Nat) : Prop :=
  uInt n ≠ 0 ∨ z.init.1 ≠ .ok ∨ checked = true ∧ first = .failed

end Efio.Spec
