import Efio.Lib.Transition

/-!
# `Efio.CoreUtils.Base64`: the encoder and the decoder of `core_utils`

Buffers are lists. A write or a read outside of one is the error
`overflow`, and a function that returns `NULL` ends with the error `null`.
Allocation always succeeds. What `malloc` gives has any content: it is the
argument `fresh`. The decoder may look at the character behind its input,
which is the argument `past`.

The inputs are so short that the `int` indices do not overflow.
-/

set_option autoImplicit false

namespace Efio.CoreUtils

open Efio.Lib

/-- Why a function stops early. -/
inductive Stop where
  | null
  | overflow
  deriving DecidableEq, Repr

/-- What a function returns: the allocated buffer, and `*output_length`. -/
structure Output where
  buf : List UInt8
  outputLength : Nat
  deriving DecidableEq, Repr

/-- The bytes that are returned. -/
def Output.data (o : Output) : List UInt8 := o.buf.take o.outputLength

/-- A write to a buffer. -/
def store (buf : List UInt8) (i : Nat) (b : UInt8) : Except Stop (List UInt8) :=
  if i < buf.length then .ok (buf.set i b) else .error .overflow

/-- A read of a buffer. -/
def load (buf : List UInt8) (i : Nat) : Except Stop UInt8 :=
  match buf[i]? with
  | some b => .ok b
  | none => .error .overflow

def encodingTable : List UInt8 :=
  ['A', 'B', 'C', 'D', 'E', 'F', 'G', 'H',
   'I', 'J', 'K', 'L', 'M', 'N', 'O', 'P',
   'Q', 'R', 'S', 'T', 'U', 'V', 'W', 'X',
   'Y', 'Z', 'a', 'b', 'c', 'd', 'e', 'f',
   'g', 'h', 'i', 'j', 'k', 'l', 'm', 'n',
   'o', 'p', 'q', 'r', 's', 't', 'u', 'v',
   'w', 'x', 'y', 'z', '0', '1', '2', '3',
   '4', '5', '6', '7', '8', '9', '+', '/'].map fun c => UInt8.ofNat c.toNat

def decodingTable : List Nat :=
  [0xFF, 0xFF, 0xFF, 0xFF, 0xFF, 0xFF, 0xFF, 0xFF, 0xFF, 0xFF, 0xFF, 0xFF, 0xFF, 0xFF, 0xFF, 0xFF,
   0xFF, 0xFF, 0xFF, 0xFF, 0xFF, 0xFF, 0xFF, 0xFF, 0xFF, 0xFF, 0xFF, 0xFF, 0xFF, 0xFF, 0xFF, 0xFF,
   0xFF, 0xFF, 0xFF, 0xFF, 0xFF, 0xFF, 0xFF, 0xFF, 0xFF, 0xFF, 0xFF, 0x3e, 0xFF, 0xFF, 0xFF, 0x3f,
   0x34, 0x35, 0x36, 0x37, 0x38, 0x39, 0x3a, 0x3b, 0x3c, 0x3d, 0xFF, 0xFF, 0xFF, 0xFF, 0xFF, 0xFF,
   0xFF, 0x00, 0x01, 0x02, 0x03, 0x04, 0x05, 0x06, 0x07, 0x08, 0x09, 0x0a, 0x0b, 0x0c, 0x0d, 0x0e,
   0x0f, 0x10, 0x11, 0x12, 0x13, 0x14, 0x15, 0x16, 0x17, 0x18, 0x19, 0xFF, 0xFF, 0xFF, 0xFF, 0xFF,
   0xFF, 0x1a, 0x1b, 0x1c, 0x1d, 0x1e, 0x1f, 0x20, 0x21, 0x22, 0x23, 0x24, 0x25, 0x26, 0x27, 0x28,
   0x29, 0x2a, 0x2b, 0x2c, 0x2d, 0x2e, 0x2f, 0x30, 0x31, 0x32, 0x33, 0xFF, 0xFF, 0xFF, 0xFF, 0xFF,
   0xFF, 0xFF, 0xFF, 0xFF, 0xFF, 0xFF, 0xFF, 0xFF, 0xFF, 0xFF, 0xFF, 0xFF, 0xFF, 0xFF, 0xFF, 0xFF,
   0xFF, 0xFF, 0xFF, 0xFF, 0xFF, 0xFF, 0xFF, 0xFF, 0xFF, 0xFF, 0xFF, 0xFF, 0xFF, 0xFF, 0xFF, 0xFF,
   0xFF, 0xFF, 0xFF, 0xFF, 0xFF, 0xFF, 0xFF, 0xFF, 0xFF, 0xFF, 0xFF, 0xFF, 0xFF, 0xFF, 0xFF, 0xFF,
   0xFF, 0xFF, 0xFF, 0xFF, 0xFF, 0xFF, 0xFF, 0xFF, 0xFF, 0xFF, 0xFF, 0xFF, 0xFF, 0xFF, 0xFF, 0xFF,
   0xFF, 0xFF, 0xFF, 0xFF, 0xFF, 0xFF, 0xFF, 0xFF, 0xFF, 0xFF, 0xFF, 0xFF, 0xFF, 0xFF, 0xFF, 0xFF,
   0xFF, 0xFF, 0xFF, 0xFF, 0xFF, 0xFF, 0xFF, 0xFF, 0xFF, 0xFF, 0xFF, 0xFF, 0xFF, 0xFF, 0xFF, 0xFF,
   0xFF, 0xFF, 0xFF, 0xFF, 0xFF, 0xFF, 0xFF, 0xFF, 0xFF, 0xFF, 0xFF, 0xFF, 0xFF, 0xFF, 0xFF, 0xFF,
   0xFF, 0xFF, 0xFF, 0xFF, 0xFF, 0xFF, 0xFF, 0xFF, 0xFF, 0xFF, 0xFF, 0xFF, 0xFF, 0xFF, 0xFF, 0xFF]

def modTable : List Nat := [0, 2, 1]

/-! ### Encoding -/

/-- `encoding_table[x & 0x3F]` -/
def encodeSextet (x : Nat) : UInt8 := encodingTable.getD (x &&& 0x3F) 0

/-- The buffer of the encoder, with the variables `j` and `line_count`. -/
structure Encoder where
  encodedData : List UInt8
  j : Nat
  lineCount : Nat
  deriving DecidableEq, Repr

/-- `encoded_data[j++] = b` -/
def Encoder.put (e : Encoder) (b : UInt8) : Except Stop Encoder := do
  let buf ← store e.encodedData e.j b
  return { e with encodedData := buf, j := e.j + 1 }

/-- One round of the loop. -/
def Encoder.group (addLineBreaks : Bool) (octetA octetB octetC : UInt8) (e : Encoder) :
    Except Stop Encoder := do
  let triple := (octetA.toNat <<< 0x10) + (octetB.toNat <<< 0x08) + octetC.toNat
  let e ← e.put (encodeSextet (triple >>> (3 * 6)))
  let e ← e.put (encodeSextet (triple >>> (2 * 6)))
  let e ← e.put (encodeSextet (triple >>> (1 * 6)))
  let e ← e.put (encodeSextet (triple >>> (0 * 6)))
  if addLineBreaks then
    if e.lineCount + 1 = 19 then
      let e ← e.put 13
      let e ← e.put 10
      return { e with lineCount := 0 }
    else return { e with lineCount := e.lineCount + 1 }
  else return e

/-- The loop. The octets that are missing at the end are zero. -/
def encodeLoop (addLineBreaks : Bool) : List UInt8 → Encoder → Except Stop Encoder
  | [], e => .ok e
  | [a], e => e.group addLineBreaks a 0 0
  | [a, b], e => e.group addLineBreaks a b 0
  | a :: b :: c :: data, e => do
    let e ← e.group addLineBreaks a b c
    encodeLoop addLineBreaks data e

/-- The loop that writes `=` over the last characters of the buffer, from
the end. -/
def padLoop (outputLength : Nat) : Nat → List UInt8 → Except Stop (List UInt8)
  | 0, buf => .ok buf
  | k + 1, buf => do
    let buf ← padLoop outputLength k buf
    store buf (outputLength - 1 - k) 61

/-- `*output_length` of the encoder. -/
def encodedLength (inputLength : Nat) (addLineBreaks : Bool) : Nat :=
  let n := 4 * ((inputLength + 2) / 3)
  -- "CRLF after each 76 chars"
  if addLineBreaks then n + (n / 76) * 2 else n

def base64Encode (data : List UInt8) (addLineBreaks : Bool) : Except Stop Output := do
  let outputLength := encodedLength data.length addLineBreaks
  let e ← encodeLoop addLineBreaks data ⟨List.replicate (outputLength + 1) 0, 0, 0⟩
  let buf ← padLoop outputLength (modTable.getD (data.length % 3) 0) e.encodedData
  return ⟨buf, outputLength⟩

/-- The loop of `url_base64_encode`. -/
def toUrl (c : UInt8) : UInt8 := if c = 43 then 45 else if c = 47 then 95 else c

def urlBase64Encode (data : List UInt8) (addLineBreaks : Bool) : Except Stop Output := do
  let o ← base64Encode data addLineBreaks
  return { o with buf := o.data.map toUrl ++ o.buf.drop o.outputLength }

/-! ### Decoding -/

/-- `ISSPACE` -/
def isSpace (c : UInt8) : Bool := c == 10 || c == 13 || c == 32 || c == 9

/-- `BASE64_PAD` -/
def base64Pad : UInt8 := 61

/-- The buffer of the decoder, with its variables. -/
structure Decoder where
  decodedData : List UInt8
  outIndex : Nat
  state : Nat
  ch : UInt8
  deriving DecidableEq, Repr

/-- `decoded_data[i] |= b` -/
def orStore (buf : List UInt8) (i : Nat) (b : UInt8) : Except Stop (List UInt8) := do
  let old ← load buf i
  store buf i (old ||| b)

/-- The `switch` in the loop, where `n` is `estimated_output_length`. -/
def Decoder.put (n sextet : Nat) (d : Decoder) : Except Stop Decoder :=
  match d.state with
  | 0 => do
    if d.outIndex ≥ n then .error .null
    else
      let buf ← store d.decodedData d.outIndex (UInt8.ofNat (sextet <<< 2))
      return { d with decodedData := buf, state := 1 }
  | 1 => do
    if d.outIndex + 1 ≥ n then .error .null
    else
      let buf ← orStore d.decodedData d.outIndex (UInt8.ofNat (sextet >>> 4))
      let buf ← store buf (d.outIndex + 1) (UInt8.ofNat ((sextet &&& 0x0f) <<< 4))
      return { d with decodedData := buf, outIndex := d.outIndex + 1, state := 2 }
  | 2 => do
    if d.outIndex + 1 ≥ n then .error .null
    else
      let buf ← orStore d.decodedData d.outIndex (UInt8.ofNat (sextet >>> 2))
      let buf ← store buf (d.outIndex + 1) (UInt8.ofNat ((sextet &&& 0x03) <<< 6))
      return { d with decodedData := buf, outIndex := d.outIndex + 1, state := 3 }
  | 3 => do
    if d.outIndex ≥ n then .error .null
    else
      let buf ← orStore d.decodedData d.outIndex (UInt8.ofNat sextet)
      return { d with decodedData := buf, outIndex := d.outIndex + 1, state := 0 }
  | _ => .error .null

/-- The loop, with what is left of the input when it ends: nothing, or the
text from the first `=`. -/
def decodeLoop (n : Nat) : List UInt8 → Decoder → Except Stop (Decoder × List UInt8)
  | [], d => .ok (d, [])
  | ch :: data, d =>
    let d := { d with ch := ch }
    if isSpace ch then decodeLoop n data d
    else if ch = base64Pad then .ok (d, ch :: data)
    else
      let sextet := decodingTable.getD ch.toNat 0
      if sextet = 0xFF then .error .null
      else do
        let d ← d.put n sextet
        decodeLoop n data d

/-- `ch = data[i++]`, where `rest` is what is left of the input from `i` on. -/
def nextChar (past : UInt8) (rest : List UInt8) : UInt8 × List UInt8 := (rest.headD past, rest.tail)

/-- "Skip any number of spaces." -/
def skipSpaces (ch : UInt8) : List UInt8 → UInt8 × List UInt8
  | [] => (ch, [])
  | c :: rest =>
    if ch ≠ 0 then if isSpace ch then skipSpaces c rest else (ch, c :: rest)
    else (ch, c :: rest)

/-- "Is there anything but whitespace after it?" -/
def onlySpaces (ch : UInt8) : List UInt8 → Bool
  | [] => true
  | c :: rest =>
    if ch ≠ 0 then if !isSpace ch && ch ≠ 0 then false else onlySpaces c rest
    else true

/-- What is behind the padding, and the check of the left-over bits. -/
def checkTail (ch : UInt8) (rest : List UInt8) (d : Decoder) : Except Stop Unit := do
  if onlySpaces ch rest then
    let extra ← load d.decodedData d.outIndex
    if extra ≠ 0 then .error .null else .ok ()
  else .error .null

/-- "We got a pad char." -/
def checkPad (past : UInt8) (rest : List UInt8) (d : Decoder) : Except Stop Unit :=
  let (ch, rest) := nextChar past rest
  match d.state with
  | 0 | 1 => .error .null
  | 2 =>
    let (ch, rest) := skipSpaces ch rest
    if ch ≠ base64Pad then .error .null
    else
      let (ch, rest) := nextChar past rest
      checkTail ch rest d
  | 3 => checkTail ch rest d
  | _ => .ok ()

/-- `estimated_output_length` -/
def estimatedLength (inputLength : Nat) : Nat := (inputLength / 4) * 3

def base64Decode (fresh : Nat → UInt8) (past : UInt8) (data : List UInt8) : Except Stop Output := do
  let n := estimatedLength data.length
  let (d, rest) ← decodeLoop n data ⟨(List.range n).map fresh, 0, 0, 0⟩
  if d.ch = base64Pad then checkPad past rest d
  else if d.state ≠ 0 then .error .null
  return ⟨d.decodedData, d.outIndex⟩

/-- The loop of `url_base64_decode`. -/
def fromUrl (c : UInt8) : UInt8 := if c = 45 then 43 else if c = 95 then 47 else c

/-- `url_base64_decode`, which decodes a copy with a zero behind it. -/
def urlBase64Decode (fresh : Nat → UInt8) (data : List UInt8) : Except Stop Output :=
  base64Decode fresh 0 (data.map fromUrl)

end Efio.CoreUtils
