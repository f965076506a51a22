import Efio.CoreUtils.Trigraph
import Efio.Lib.Tally
import Mathlib.Algebra.Ring.Int.Defs

/-!
# `Efio.Spec.Trigrams`: what the table of trigrams is for

The table of a string counts its windows of three bytes. `BuildsTable` asks
this of `extract_trigrams`, with the bounds of its array, and `DotAgrees`
says what `dot_product` is for the tables of two strings.

`FitsTable` and `ProductsFit` are the conditions under which both do it.
-/

set_option autoImplicit false

namespace Efio.Spec

open Efio.Lib Efio.CoreUtils

/-- The three bytes from the position `i`. -/
def window (s : CString) (i : Nat) : List UInt8 := (s.bytes.drop i).take 3

def windows (s : CString) : List (List UInt8) := (List.range (s.bytes.length - 2)).map (window s)

/-- The windows that both strings have. -/
def common (s t : CString) : Finset (List UInt8) := (windows s).toFinset ∩ (windows t).toFinset

/-- The entry for a window that occurs `p.2` times. -/
def entryOf (p : List UInt8 × Nat) : TrigramSType := ⟨p.1 ++ [0], p.2⟩

/-- All writes are inside of the array, and the table has each window once,
with the number of its occurrences. -/
structure BuildsTable (s : CString) : Prop where
  inBounds : ∀ i ∈ (extractTrigrams s).writes, i < maxTrigrams
  lists : ∃ ts, Tallies (windows s) ts ∧ (extractTrigrams s).entries = ts.map entryOf
  total : ((extractTrigrams s).entries.map TrigramSType.count).sum = ((s.bytes.length - 2 : Nat) : Int)

/-- `dot_product` of the tables of two strings. -/
def dotOf (s t : CString) : Int := Efio.CoreUtils.dotProduct (extractTrigrams s).entries (extractTrigrams t).entries

/-- `dot_product` is symmetric, and the sum of the products of the numbers of
occurrences. -/
def DotAgrees (s t : CString) : Prop :=
  dotOf t s = dotOf s t ∧
    dotOf s t = ∑ w ∈ common s t, ((windows s).count w : Int) * (windows t).count w

/-- The length of the string fits into an `int`, and its distinct windows fit
into the array. -/
def FitsTable (s : CString) : Prop :=
  s.bytes.length < 2 ^ 31 ∧ (windows s).toFinset.card ≤ maxTrigrams

/-- The products fit into an `int`. -/
def ProductsFit (s t : CString) : Prop :=
  ∀ w ∈ common s t, (windows s).count w * (windows t).count w < 2 ^ 31

end Efio.Spec
