import Efio.Evio.Threads

/-!
# `Efio.Spec.PlainFile`: a byte array with one offset

`PlainFile` is what the calls of one thread are measured against: a list
of bytes with an offset, which a write overlays and a read copies from.
`Agrees init history p` says that the calls in `history`, made on a plain
file with content `init`, lead to `p`, and that every read with a positive
result returned the bytes of the plain file.
-/

set_option autoImplicit false

namespace Efio.Spec

open Efio.Lib
open Efio.Evio

/-- A file without buffers. -/
structure PlainFile where
  content : List UInt8
  offset : Nat

namespace PlainFile

/-- `write(buf)`. -/
def write (p : PlainFile) (buf : List UInt8) : PlainFile :=
  ⟨writeAt p.content p.offset buf, p.offset + buf.length⟩

/-- The `size` bytes at the offset. -/
def bytes (p : PlainFile) (size : Nat) : List UInt8 := (p.content.drop p.offset).take size

/-- The file after `size` bytes were read. -/
def advance (p : PlainFile) (size : Nat) : PlainFile := ⟨p.content, p.offset + size⟩

end PlainFile

/-- The plain file after the calls in a history. -/
inductive Agrees (init : List UInt8) : List Observed → PlainFile → Prop where
  | start : Agrees init [] ⟨init, 0⟩
  | accepted {history : List Observed} {p : PlainFile} (h : Agrees init history p)
      (buf : List UInt8) : Agrees init (history ++ [.accepted buf]) (p.write buf)
  | bytes {history : List Observed} {p : PlainFile} (h : Agrees init history p) (nbyte size : Nat)
      (hpos : 0 < size) (hle : size ≤ nbyte) (hend : p.offset + size ≤ p.content.length) :
      Agrees init (history ++ [.readReturned nbyte size none (p.bytes size)]) (p.advance size)
  | noBytes {history : List Observed} {p : PlainFile} (h : Agrees init history p) (nbyte : Nat)
      (ret : Int) (err : Option Errno) (hret : ret ≤ 0) :
      Agrees init (history ++ [.readReturned nbyte ret err []]) p

section Inversion

variable {init : List UInt8} {history : List Observed} {p : PlainFile}

/-- The plain file before an `ef_write`. -/
theorem Agrees.of_accepted {buf : List UInt8} (h : Agrees init (history ++ [.accepted buf]) p) :
    ∃ q, Agrees init history q ∧ p = q.write buf := by
  generalize hall : history ++ [.accepted buf] = all at h
  cases h with
  | start => simp at hall
  | accepted h buf' =>
    obtain ⟨rfl, hlast⟩ := List.append_inj' hall rfl
    cases hlast
    exact ⟨_, h, rfl⟩
  | bytes => cases (List.append_inj' hall rfl).2
  | noBytes => cases (List.append_inj' hall rfl).2

/-- A read with a positive result returned the bytes of the plain file. -/
theorem Agrees.of_bytes {nbyte size : Nat} {err : Option Errno} {bytes : List UInt8}
    (h : Agrees init (history ++ [.readReturned nbyte size err bytes]) p) (hpos : 0 < size) :
    ∃ q, Agrees init history q ∧ bytes = q.bytes size := by
  generalize hall : history ++ [Observed.readReturned nbyte size err bytes] = all at h
  cases h with
  | start => simp at hall
  | accepted => cases (List.append_inj' hall rfl).2
  | bytes h nbyte' size' hpos' hle hend =>
    obtain ⟨rfl, hlast⟩ := List.append_inj' hall rfl
    simp only [List.cons.injEq, Observed.readReturned.injEq, and_true, Int.natCast_inj] at hlast
    obtain ⟨-, rfl, -, rfl⟩ := hlast
    exact ⟨_, h, rfl⟩
  | noBytes h nbyte' ret err' hret =>
    obtain ⟨rfl, hlast⟩ := List.append_inj' hall rfl
    simp only [List.cons.injEq, Observed.readReturned.injEq, and_true] at hlast
    omega

end Inversion

end Efio.Spec
