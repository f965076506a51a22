import Efio.CoreUtils.Base64
import Efio.Lib.Traced

/-!
# `Efio.CoreUtils.Base64Access`: the decoder, access by access

`base64_decode` once more, with its index `i` into the input and with every
access to `data` and to `decoded_data`. It computes what `base64Decode`
computes (`base64DecodeAt_result`).

`heap` is what `malloc` gives: a buffer with any content, or nothing. The
memory behind the input is `past`. The loops get as many rounds as the input
has characters.
-/

set_option autoImplicit false

namespace Efio.CoreUtils

open Efio.Lib

/-- An access to `data[k]`, or to `decoded_data[j]`. -/
inductive Access where
  | data (k : Nat)
  | decodedData (j : Nat)
  deriving DecidableEq, Repr

/-- A part of the decoder. -/
abbrev Decoding := Traced Access Stop

/-- `decoded_data[j] = b` -/
def storeAt (buf : List UInt8) (j : Nat) (b : UInt8) : Decoding (List UInt8) :=
  .access (.decodedData j) (store buf j b)

/-- `decoded_data[j]` -/
def loadAt (buf : List UInt8) (j : Nat) : Decoding UInt8 := .access (.decodedData j) (load buf j)

/-- `decoded_data[j] |= b` -/
def orStoreAt (buf : List UInt8) (j : Nat) (b : UInt8) : Decoding (List UInt8) := do
  let old ← loadAt buf j
  storeAt buf j (old ||| b)

/-- The `switch` in the loop. -/
def Decoder.putAt (n sextet : Nat) (d : Decoder) : Decoding Decoder :=
  match d.state with
  | 0 => do
    if d.outIndex ≥ n then .stop .null
    else
      let buf ← storeAt d.decodedData d.outIndex (UInt8.ofNat (sextet <<< 2))
      return { d with decodedData := buf, state := 1 }
  | 1 => do
    if d.outIndex + 1 ≥ n then .stop .null
    else
      let buf ← orStoreAt d.decodedData d.outIndex (UInt8.ofNat (sextet >>> 4))
      let buf ← storeAt buf (d.outIndex + 1) (UInt8.ofNat ((sextet &&& 0x0f) <<< 4))
      return { d with decodedData := buf, outIndex := d.outIndex + 1, state := 2 }
  | 2 => do
    if d.outIndex + 1 ≥ n then .stop .null
    else
      let buf ← orStoreAt d.decodedData d.outIndex (UInt8.ofNat (sextet >>> 2))
      let buf ← storeAt buf (d.outIndex + 1) (UInt8.ofNat ((sextet &&& 0x03) <<< 6))
      return { d with decodedData := buf, outIndex := d.outIndex + 1, state := 3 }
  | 3 => do
    if d.outIndex ≥ n then .stop .null
    else
      let buf ← orStoreAt d.decodedData d.outIndex (UInt8.ofNat sextet)
      return { d with decodedData := buf, outIndex := d.outIndex + 1, state := 0 }
  | _ => .stop .null

variable (past : UInt8) (data : List UInt8)

/-- `data[k]` -/
def readData (k : Nat) : Decoding UInt8 := .access (.data k) (.ok (data.getD k past))

/-- The loop, with `i` at its end. -/
def decodeLoopAt (n : Nat) : Nat → Nat → Decoder → Decoding (Decoder × Nat)
  | 0, i, d => pure (d, i)
  | rounds + 1, i, d =>
    if i < data.length then do
      let ch ← readData past data i
      let d := { d with ch := ch }
      if isSpace ch then decodeLoopAt n rounds (i + 1) d
      else if ch = base64Pad then pure (d, i)
      else
        let sextet := decodingTable.getD ch.toNat 0
        if sextet = 0xFF then .stop .null
        else do
          let d ← d.putAt n sextet
          decodeLoopAt n rounds (i + 1) d
    else pure (d, i)

/-- "Skip any number of spaces." -/
def skipSpacesAt : Nat → UInt8 → Nat → Decoding (UInt8 × Nat)
  | 0, ch, i => pure (ch, i)
  | rounds + 1, ch, i =>
    if ch ≠ 0 ∧ i < data.length then
      if !isSpace ch then pure (ch, i)
      else do
        let c ← readData past data i
        skipSpacesAt rounds c (i + 1)
    else pure (ch, i)

/-- "Is there anything but whitespace after it?" -/
def onlySpacesAt : Nat → UInt8 → Nat → Decoding Unit
  | 0, _, _ => pure ()
  | rounds + 1, ch, i =>
    if ch ≠ 0 ∧ i < data.length then
      if !isSpace ch && ch ≠ 0 then .stop .null
      else do
        let c ← readData past data i
        onlySpacesAt rounds c (i + 1)
    else pure ()

/-- What is behind the padding, and the check of the left-over bits. -/
def checkTailAt (ch : UInt8) (i : Nat) (d : Decoder) : Decoding Unit := do
  onlySpacesAt past data data.length ch i
  let extra ← loadAt d.decodedData d.outIndex
  if extra ≠ 0 then .stop .null else pure ()

/-- "We got a pad char." -/
def checkPadAt (i : Nat) (d : Decoder) : Decoding Unit := do
  let ch ← readData past data i
  match d.state with
  | 0 | 1 => .stop .null
  | 2 => do
    let (ch, i) ← skipSpacesAt past data data.length ch (i + 1)
    if ch ≠ base64Pad then .stop .null
    else do
      let ch ← readData past data i
      checkTailAt past data ch (i + 1) d
  | 3 => checkTailAt past data ch (i + 1) d
  | _ => pure ()

/-- `base64_decode` -/
def base64DecodeAt (heap : Option (Nat → UInt8)) : Decoding Output :=
  match heap with
  | none => .stop .null
  | some fresh => do
    let n := estimatedLength data.length
    let (d, i) ← decodeLoopAt past data n data.length 0 ⟨(List.range n).map fresh, 0, 0, 0⟩
    if d.ch = base64Pad then checkPadAt past data i d
    else if d.state ≠ 0 then .stop .null
    return ⟨d.decodedData, d.outIndex⟩

end Efio.CoreUtils
