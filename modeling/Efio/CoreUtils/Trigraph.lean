import Efio.Lib.Bytes
import Mathlib.Algebra.Group.Nat.Defs

/-!
# `Efio.CoreUtils.Trigraph`: the trigrams of a string

`extract_trigrams` and `dot_product` of `trigraph.c`. A string is the list
of its bytes before the NUL. An array of trigrams with its count is the list
of the entries that are in use.

The array of the caller ends at `maxTrigrams`, which `extract_trigrams` does
not know. The indices that it writes are recorded, and an entry behind the
end is read back as it was written.

An `int` wraps around. A `double` that holds integers is the integer that it
holds.
-/

set_option autoImplicit false

namespace Efio.CoreUtils

open Efio.Lib

/-! ### Strings and numbers -/

/-- A NUL-terminated string. -/
structure CString where
  bytes : List UInt8
  nulFree : 0 ∉ bytes

/-- The first `n` bytes of what is left of a string, with NULs behind its end. -/
def strncpy (src : List UInt8) (n : Nat) : List UInt8 :=
  resize ((src.takeWhile (· ≠ 0)).take n) n

/-- The order of two character arrays, up to their NULs. -/
def strcmp : List UInt8 → List UInt8 → Int
  | c :: s1, c' :: s2 => if c ≠ c' then c.toNat - c'.toNat else if c = 0 then 0 else strcmp s1 s2
  | _, _ => 0

/-- The value of a C `int`. -/
def cInt (n : Int) : Int := n.bmod (2 ^ 32)

/-- The nearest number with 53 binary digits, of two the even one. -/
def roundEven (n : Nat) : Nat :=
  let ulp := 2 ^ (n.log2 + 1 - 53)
  if 2 * (n % ulp) < ulp ∨ 2 * (n % ulp) = ulp ∧ n / ulp % 2 = 0 then n / ulp * ulp
  else (n / ulp + 1) * ulp

/-- What a `double` holds for an integer. -/
def toDouble (n : Int) : Int := n.sign * roundEven n.natAbs

/-! ### The table -/

def maxTrigrams : Nat := 1000

structure TrigramSType where
  trigram : List UInt8
  count : Int
  deriving DecidableEq, Repr

/-- The entries before `*count`, and the indices that have been written. -/
structure TrigramTable where
  entries : List TrigramSType
  writes : List Nat
  deriving DecidableEq, Repr

/-- `tg.trigram` in the round `i` of the loop. -/
def trigramAt (str : CString) (i : Nat) : List UInt8 := strncpy (str.bytes.drop i) 3 ++ [0]

/-- The search for `tg`: it stops at the first entry that is equal, and adds
an entry when there is none. -/
def TrigramTable.add (tg : List UInt8) (trigrams : TrigramTable) : TrigramTable :=
  let j := trigrams.entries.findIdx fun e => strcmp e.trigram tg = 0
  match trigrams.entries[j]? with
  -- `trigrams[j].count++`
  | some e => ⟨trigrams.entries.set j { e with count := cInt (e.count + 1) }, trigrams.writes ++ [j]⟩
  -- `j == *count`
  | none => ⟨trigrams.entries ++ [⟨tg, 1⟩], trigrams.writes ++ [trigrams.entries.length]⟩

/-- `extract_trigrams` -/
def extractTrigrams (str : CString) : TrigramTable :=
  -- A `size_t` becomes an `int`.
  let len := cInt str.bytes.length
  if len < 3 then ⟨[], []⟩
  else (List.range (len - 3 + 1).toNat).foldl (fun trigrams i => trigrams.add (trigramAt str i)) ⟨[], []⟩

/-- `dot_product` -/
def dotProduct (trigrams1 trigrams2 : List TrigramSType) : Int :=
  trigrams1.foldl (fun dot e1 =>
    -- The inner loop ends at the first match.
    match trigrams2.find? fun e2 => strcmp e1.trigram e2.trigram = 0 with
    | some e2 => toDouble (dot + cInt (e1.count * e2.count))
    | none => dot) 0

end Efio.CoreUtils
