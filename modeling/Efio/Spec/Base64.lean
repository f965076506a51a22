import Efio.CoreUtils.Base64

/-!
# `Efio.Spec.Base64`: base64 text

`Base64 text bytes` is the grammar: groups of four characters of the
alphabet, of which the last may end in `=` or `==`. `encode` writes such a
text, `withBreaks` puts a CR LF behind every 76 characters, and `unspaced`
takes the white space out.

`bytesOf` and `leftover` say what a sequence of sextets stands for,
complete or not. `Returns` is a call that succeeds.
-/

set_option autoImplicit false

namespace Efio.Spec

open Efio.CoreUtils

/-- The character of the alphabet for the sextet `v`. -/
def symbol (v : Nat) : UInt8 := encodingTable.getD v 0

/-- A text of base64 without white space, and the bytes it denotes. -/
inductive Base64 : List UInt8 → List UInt8 → Prop where
  | nil : Base64 [] []
  | group {a b c d : Nat} {text bytes : List UInt8} (ha : a < 64) (hb : b < 64) (hc : c < 64)
      (hd : d < 64) (htext : Base64 text bytes) :
      Base64 (symbol a :: symbol b :: symbol c :: symbol d :: text)
        (UInt8.ofNat (a * 4 + b / 16) :: UInt8.ofNat (b % 16 * 16 + c / 4) ::
          UInt8.ofNat (c % 4 * 64 + d) :: bytes)
  | one {a b : Nat} (ha : a < 64) (hb : b < 64) (hzero : b % 16 = 0) :
      Base64 [symbol a, symbol b, base64Pad, base64Pad] [UInt8.ofNat (a * 4 + b / 16)]
  | two {a b c : Nat} (ha : a < 64) (hb : b < 64) (hc : c < 64) (hzero : c % 4 = 0) :
      Base64 [symbol a, symbol b, symbol c, base64Pad]
        [UInt8.ofNat (a * 4 + b / 16), UInt8.ofNat (b % 16 * 16 + c / 4)]

/-- The text without its white space. -/
def unspaced (text : List UInt8) : List UInt8 := text.filter (!isSpace ·)

/-- The base64 text of the bytes, without line breaks. -/
def encode : List UInt8 → List UInt8
  | [] => []
  | [a] => [symbol (a.toNat / 4), symbol (a.toNat % 4 * 16), base64Pad, base64Pad]
  | [a, b] =>
    [symbol (a.toNat / 4), symbol (a.toNat % 4 * 16 + b.toNat / 16), symbol (b.toNat % 16 * 4),
      base64Pad]
  | a :: b :: c :: bytes =>
    symbol (a.toNat / 4) :: symbol (a.toNat % 4 * 16 + b.toNat / 16) ::
      symbol (b.toNat % 16 * 4 + c.toNat / 64) :: symbol (c.toNat % 64) :: encode bytes

/-- The text with a CR LF behind every 76 characters, when `col` characters
stand in the line already. -/
def withBreaks : Nat → List UInt8 → List UInt8
  | _, [] => []
  | col, c :: text => c :: if col + 1 = 76 then 13 :: 10 :: withBreaks 0 text else withBreaks (col + 1) text

/-- The complete bytes of a sequence of sextets. -/
def bytesOf : List Nat → List UInt8
  | a :: b :: c :: d :: vs =>
    UInt8.ofNat (a * 4 + b / 16) :: UInt8.ofNat (b % 16 * 16 + c / 4) ::
      UInt8.ofNat (c % 4 * 64 + d) :: bytesOf vs
  | [a, b, c] => [UInt8.ofNat (a * 4 + b / 16), UInt8.ofNat (b % 16 * 16 + c / 4)]
  | [a, b] => [UInt8.ofNat (a * 4 + b / 16)]
  | [_] | [] => []

/-- The bits that are left over, at the top of a byte. -/
def leftover : List Nat → Nat
  | _ :: _ :: _ :: _ :: vs => leftover vs
  | [_, _, c] => c % 4 * 64
  | [_, b] => b % 16 * 16
  | [a] => a * 4
  | [] => 0

/-- The sextets before the first `=`, and the text from there on; nothing
when another character comes before. -/
def sextets : List UInt8 → Option (List Nat × List UInt8)
  | [] => some ([], [])
  | ch :: text =>
    if isSpace ch then sextets text
    else if ch = base64Pad then some ([], ch :: text)
    else
      let v := decodingTable.getD ch.toNat 0
      if v = 0xFF then none else (sextets text).map fun x => (v :: x.1, x.2)

/-- The function returns these bytes, with their length. -/
def Returns (result : Except Stop Output) (bytes : List UInt8) : Prop :=
  ∃ o, result = .ok o ∧ o.data = bytes ∧ o.outputLength = bytes.length

end Efio.Spec
