import Efio.Evds.BufferedStream
import Efio.Spec.ByteQueue

/-!
# `Efio.Spec.ReadLimit`: what a limited reader is entitled to

A limit cuts the bytes of a memory stream in two: those that a reader with
the limit gets, and those that it leaves to the next one.
-/

set_option autoImplicit false

namespace Efio.Spec

open Efio.Evds

namespace Limit

/-- The bytes within the limit. -/
def take (limit : Limit) (bytes : List UInt8) : List UInt8 :=
  if limit.val = -1 then bytes else bytes.take limit.val.toNat

/-- The bytes behind the limit. -/
def drop (limit : Limit) (bytes : List UInt8) : List UInt8 :=
  if limit.val = -1 then [] else bytes.drop limit.val.toNat

end Limit

/-- What readers with these limits get one after the other, and what is
left. -/
def split : List Limit → List UInt8 → List (List UInt8) × List UInt8
  | [], bytes => ([], bytes)
  | limit :: limits, bytes =>
    let (parts, rest) := split limits (Limit.drop limit bytes)
    (Limit.take limit bytes :: parts, rest)

/-- What an `ev_buffered_stream` may still take from its memory stream:
what it has not handed out, up to its limit. -/
def within (s : BufferedStream) : List UInt8 :=
  let rest := (content s.heap s.memoryStream).drop s.prevLen
  if s.maxLen = -1 then rest else rest.take (s.maxLen - s.cumLen).toNat

/-! ### Reading byte by byte -/

/-- The value of the first byte, or `EOF`. -/
def firstValue : List UInt8 → Int
  | [] => EOF
  | c :: _ => toIntType c

/-- The calls on the bytes that are left. -/
def flatRead : ReadCall → List UInt8 → List UInt8 × Int
  | .sgetc, bytes => (bytes, firstValue bytes)
  | .sbumpc, bytes => (bytes.tail, firstValue bytes)

/-- The bytes between `gptr` and `egptr`. -/
def getArea (s : BufferedStream) : List UInt8 :=
  match s.gptr, s.egptr with
  | some g, some e => (((s.heap.blocks g.block).getD []).drop g.off).take (e.off - g.off)
  | _, _ => []

/-- The bytes that have not been read: those in the get area, and those
that may still be taken from the memory stream. -/
def unread (s : BufferedStream) : List UInt8 := getArea s ++ within s

/-- The call does not take a segment from the memory stream whose first
byte it converts to something else: to `EOF`, or with `sgetc` to a
negative value. -/
def Clean (s : BufferedStream) : ReadCall → Prop
  | .sgetc => s.hasGet = false → ∀ c ∈ (within s).head?, c < 128
  | .sbumpc => s.hasGet = false → ∀ c ∈ (within s).head?, c ≠ 255

end Efio.Spec
