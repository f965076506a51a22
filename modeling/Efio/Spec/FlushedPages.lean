import Efio.Evio.Open

/-!
# `Efio.Spec.FlushedPages`: what the disk holds without an `fsync`

A file is written from `writeStart` on. The bytes go to the disk a whole
page at a time, except those of an append file up to the end of the page in
which it starts: `flushedEnd` is how far the disk file has got when `n` is
the end of what was written.

`RestAgrees` says of a written stream that the old file holds the bytes
that are still in memory anyway.
-/

set_option autoImplicit false

namespace Efio.Spec

open Efio.Evio

/-- The content of the file after `open`. -/
def openedData (oflag : OFlag) (init : List UInt8) : List UInt8 :=
  if oflag.has O_TRUNC then [] else init

/-- Where the first byte goes. -/
def writeStart (oflag : OFlag) (init : List UInt8) : Nat :=
  if oflag.has O_APPEND then (openedData oflag init).length else 0

/-- An append file that starts inside a page is written directly up to the
end of that page. -/
def WritesDirectly (E : Env) (oflag : OFlag) (start n : Nat) : Prop :=
  oflag.has O_APPEND ∧ start % E.pageSize ≠ 0 ∧ n < (start / E.pageSize + 1) * E.pageSize

instance (E : Env) (oflag : OFlag) (start n : Nat) : Decidable (WritesDirectly E oflag start n) :=
  inferInstanceAs (Decidable (_ ∧ _))

/-- The end of what is on disk when `n` is the end of what was written. -/
def flushedEnd (E : Env) (oflag : OFlag) (start n : Nat) : Nat :=
  if WritesDirectly E oflag start n then n else n / E.pageSize * E.pageSize

/-- The disk file `data` holds the stream `total` up to `flushedEnd`, and
the old file behind. -/
structure FlushedPages (E : Env) (oflag : OFlag) (init total data : List UInt8) : Prop where
  written : ∀ i, writeStart oflag init + i
    < flushedEnd E oflag (writeStart oflag init) (writeStart oflag init + total.length) →
    data[writeStart oflag init + i]? = total[i]?
  old : ∀ p, flushedEnd E oflag (writeStart oflag init) (writeStart oflag init + total.length) ≤ p →
    data[p]? = (openedData oflag init)[p]?

/-- The file `data` contains the stream `total` where it was written. -/
def OnDisk (oflag : OFlag) (init total data : List UInt8) : Prop :=
  ∀ i < total.length, data[writeStart oflag init + i]? = total[i]?

/-- The old file holds the bytes of the stream that lie behind
`flushedEnd`. -/
def RestAgrees (E : Env) (oflag : OFlag) (init total : List UInt8) : Prop :=
  ∀ i < total.length,
    flushedEnd E oflag (writeStart oflag init) (writeStart oflag init + total.length)
      ≤ writeStart oflag init + i →
    (openedData oflag init)[writeStart oflag init + i]? = total[i]?

end Efio.Spec
