import Efio.Lib.Heap
import Efio.Lib.DoWhile
import Mathlib.Algebra.Group.Nat.Defs

/-!
# `Efio.CoreUtils.Compression`: `compress_inp_buf` and `uncompress_inp_buf`

zlib is a parameter: an `Engine` is `deflateInit` with `deflate(.., Z_FINISH)`,
or `inflateInit` with `inflate(.., Z_NO_FLUSH)`, on an internal state. A
call sees `next_in`, `avail_in`, `next_out` and `avail_out` of the
`z_stream`, and says how much it reads, what it writes and what it returns.

`malloc` and `realloc` are a parameter too. What the call with the number
`k` does is `place k`, and `fresh k` is what stands in the memory that it
adds. A block has the number of the call that made it. `NULL` is `none`.

A write outside of the block it is meant for is recorded and otherwise
lost, and the run goes on. The `int` that counts the rounds is a natural
number: it overflows only after 2^31 rounds.

`checked` says whether the assertions are compiled in.
-/

set_option autoImplicit false

namespace Efio.CoreUtils

open Efio.Lib

/-! ### zlib -/

/-- What the functions of zlib return. -/
inductive Ret where
  | ok
  | streamEnd
  | needDict
  | errno
  | streamError
  | dataError
  | memError
  | bufError
  | versionError
  deriving DecidableEq, Repr

/-- What a call sees of the `z_stream`: the `avail_in` bytes at `next_in`,
`next_out` and `avail_out`. -/
structure ZStream where
  unread : List UInt8
  nextOut : Option Ptr
  availOut : Nat

/-- What a call does. -/
structure Progress where
  consumed : Nat
  output : List UInt8
  ret : Ret
  deriving DecidableEq, Repr

/-- One direction of zlib. -/
structure Engine where
  State : Type
  init : Ret × State
  call : State → ZStream → State × Progress

structure Zlib where
  deflate : Engine
  inflate : Engine

/-- A `uInt` of zlib. -/
def uInt (n : Nat) : Nat := n % 2 ^ 32

/-- A `size_t`. -/
def toSize (n : Nat) : Nat := n % 2 ^ 64

/-! ### Memory -/

/-- What `malloc` or `realloc` does. Without an old block, a call that does
not fail gives a new one. -/
inductive Placement where
  | failed
  | inPlace
  | moved
  deriving DecidableEq, Repr

structure Allocator where
  place : Nat → Placement
  fresh : Nat → Nat → UInt8

structure Block where
  id : Nat
  bytes : List UInt8
  deriving DecidableEq, Repr

def Block.start (b : Block) : Ptr := ⟨b.id, 0⟩

/-- `old` cut to `size` bytes, or filled up with what is in the memory. -/
def resized (fresh : Nat → UInt8) (old : List UInt8) (size : Nat) : List UInt8 :=
  old.take size ++ ((List.range size).drop old.length).map fresh

/-- `realloc(old, size)`, as the call with the number `k`. -/
def Allocator.realloc (mem : Allocator) (k : Nat) (old : Option Block) (size : Nat) : Option Block :=
  match mem.place k, old with
  | .failed, _ => none
  | _, none => some ⟨k, resized (mem.fresh k) [] size⟩
  | .inPlace, some b => some ⟨b.id, resized (mem.fresh k) b.bytes size⟩
  | .moved, some b => some ⟨k, resized (mem.fresh k) b.bytes size⟩

def Allocator.malloc (mem : Allocator) (k size : Nat) : Option Block := mem.realloc k none size

/-- A write: the block that it is meant for, where it goes, and its bytes. -/
structure Write where
  current : Option Block
  dest : Option Ptr
  bytes : List UInt8
  deriving DecidableEq, Repr

/-- The block after the write. -/
def Write.after (w : Write) : Option Block :=
  match w.current, w.dest with
  | some b, some p =>
    if p.block = b.id then some { b with bytes := (writeAt b.bytes p.off w.bytes).take b.bytes.length }
    else some b
  | current, _ => current

/-- `*out_ptr` and `*written_size_ptr`, with all the writes to the block. -/
structure Result where
  out : Option Block
  written : Nat
  writes : List Write
  deriving DecidableEq, Repr

/-- How a function ends: at an assertion, or with what it returns. There is
no result when `*out_ptr` has not been set. -/
inductive Outcome where
  | aborted
  | returned (ret : Ret) (result : Option Result)
  deriving DecidableEq, Repr

/-! ### The functions -/

/-- The variables of `compress_inp_buf`. `i` is the number of the rounds. -/
structure Compressor (z : Engine) where
  state : z.State
  unread : List UInt8
  nextOut : Option Ptr
  i : Nat
  out : Option Block
  written : Nat
  writes : List Write

variable (checked : Bool) (mem : Allocator) {z : Engine}

/-- `*out_ptr = realloc(*out_ptr, total_size)`, where `n` is `in_size`. Only
the first round sets `next_out`. -/
def Compressor.grow (n : Nat) (c : Compressor z) : Compressor z :=
  let out := mem.realloc (c.i + 1) c.out (toSize (n * (c.i + 1)))
  { c with i := c.i + 1, out, nextOut := if c.i + 1 = 1 then out.map Block.start else c.nextOut }

/-- What the call of `deflate` is given. -/
def Compressor.strm (n : Nat) (c : Compressor z) : ZStream := ⟨c.unread, c.nextOut, uInt n⟩

/-- The write of a call that has done `p`. -/
def Compressor.write (c : Compressor z) (p : Progress) : Write := ⟨c.out, c.nextOut, p.output⟩

/-- The variables after the call, and `*written_size_ptr += in_size - strm.avail_out`. -/
def Compressor.advance (n : Nat) (c : Compressor z) (state : z.State) (p : Progress) : Compressor z :=
  { c with
    state
    unread := c.unread.drop p.consumed
    nextOut := c.nextOut.map (·.add p.output.length)
    out := (c.write p).after
    written := toSize (c.written + (n - (uInt n - p.output.length)))
    writes := c.writes ++ [c.write p] }

def Compressor.result (c : Compressor z) : Result := ⟨c.out, c.written, c.writes⟩

/-- A round of the loop, with what follows behind it. -/
def compressRound (n : Nat) (c : Compressor z) : Round (Compressor z) Outcome :=
  let c := c.grow mem n
  let a := z.call c.state (c.strm n)
  let c := c.advance n a.1 a.2
  -- "state not clobbered"
  if checked && a.2.ret == .streamError then .done .aborted
  else if uInt n - a.2.output.length = 0 then .again c
  -- "all input will be used"
  else if checked && (!c.unread.isEmpty || a.2.ret != .streamEnd) then .done .aborted
  else .done (.returned .ok (some c.result))

/-- `compress_inp_buf`, for at most `fuel` rounds. -/
def compressInpBuf (z : Engine) (input : List UInt8) (fuel : Nat) : Option Outcome :=
  if z.init.1 = .ok then
    doWhile (compressRound checked mem input.length) fuel
      ⟨z.init.2, input.take (uInt input.length), none, 0, none, 0, []⟩
  else some (.returned z.init.1 none)

/-- The variables of `uncompress_inp_buf`. `i` is the number of the rounds. -/
structure Uncompressor (z : Engine) where
  state : z.State
  unread : List UInt8
  tempOut : Option Block
  i : Nat
  out : Option Block
  written : Nat
  writes : List Write

/-- What the call of `inflate` is given. -/
def Uncompressor.strm (n : Nat) (u : Uncompressor z) : ZStream :=
  ⟨u.unread, u.tempOut.map Block.start, uInt n⟩

/-- The variables after a call that has done `p`. -/
def Uncompressor.advance (u : Uncompressor z) (state : z.State) (p : Progress) : Uncompressor z :=
  { u with
    state
    unread := u.unread.drop p.consumed
    tempOut := Write.after ⟨u.tempOut, u.tempOut.map Block.start, p.output⟩ }

/-- The `memcpy` of `written` bytes behind those that have been written. -/
def Uncompressor.write (written : Nat) (u : Uncompressor z) : Write :=
  ⟨u.out, u.out.map fun b => ⟨b.id, u.written⟩, (u.tempOut.elim [] Block.bytes).take written⟩

/-- `*out_ptr = realloc(*out_ptr, total_size)`, where `n` is `in_size`. -/
def Uncompressor.grow (n : Nat) (u : Uncompressor z) : Uncompressor z :=
  { u with i := u.i + 1, out := mem.realloc (u.i + 1) u.out (toSize (n * (u.i + 1))) }

/-- The variables after the `memcpy`. -/
def Uncompressor.copy (written : Nat) (u : Uncompressor z) : Uncompressor z :=
  { u with
    out := (u.write written).after
    written := toSize (u.written + written)
    writes := u.writes ++ [u.write written] }

def Uncompressor.result (u : Uncompressor z) : Result := ⟨u.out, u.written, u.writes⟩

/-- A round of the loop, with what follows behind it. -/
def uncompressRound (n : Nat) (u : Uncompressor z) : Round (Uncompressor z) Outcome :=
  let a := z.call u.state (u.strm n)
  let u := u.advance a.1 a.2
  -- "state not clobbered"
  if checked && a.2.ret == .streamError then .done .aborted
  else
    match a.2.ret with
    -- "and fall through"
    | .needDict | .dataError => .done (.returned .dataError (some u.result))
    | .memError => .done (.returned .memError (some u.result))
    | ret =>
      let availOut := uInt n - a.2.output.length
      let u := (u.grow mem n).copy (n - availOut)
      if availOut = 0 then .again u
      else .done (.returned (if ret = .streamEnd then .ok else .dataError) (some u.result))

/-- `uncompress_inp_buf`, for at most `fuel` rounds. -/
def uncompressInpBuf (z : Engine) (input : List UInt8) (fuel : Nat) : Option Outcome :=
  if z.init.1 = .ok then
    doWhile (uncompressRound checked mem input.length) fuel
      ⟨z.init.2, input.take (uInt input.length), mem.malloc 0 input.length, 0, none, 0, []⟩
  else some (.returned z.init.1 none)

end Efio.CoreUtils
