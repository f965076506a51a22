import Efio.Proofs.CoreUtils.Base64Encode
import Efio.Proofs.CoreUtils.Base64Decode
import Mathlib.Data.List.TakeWhile

/-!
# `Efio.Proofs.CoreUtils.Base64RoundTrip`: decoding what was encoded

The encoded text is base64 of its bytes (`base64_encode`), and white space
that is not behind a `=` does no harm (`returns_of_base64`). So the decoder
gives the bytes back.

`base64Decode_accepts` compares the decoder with the grammar for any text.
The texts on which they differ are `Misjudged`.
-/

set_option autoImplicit false

namespace Efio.Proofs.CoreUtils

open Efio.Lib
open Efio.CoreUtils
open Efio.Spec

variable {vs : List Nat} {data text rest r s bytes : List UInt8}

/-! ### White space behind the padding -/

/-- The sextets stand in front of the first `=`. -/
theorem sextets_eq_some_iff : sextets text = some (vs, base64Pad :: r) ↔
    ∃ s, text = s ++ base64Pad :: r ∧ (∀ v ∈ vs, v < 64) ∧ unspaced s = vs.map symbol := by
  constructor
  · intro h
    induction text generalizing vs with
    | nil => simp [sextets] at h
    | cons ch text ih =>
      rcases char_cases ch with hspace | rfl | ⟨hspace, hpad, hbad⟩ | ⟨v, hv, rfl⟩
      · rw [sextets_space hspace] at h
        obtain ⟨s, rfl, hlt, hsame⟩ := ih h
        exact ⟨ch :: s, rfl, hlt, by rw [unspaced_cons, if_pos hspace, hsame]⟩
      · rw [sextets_pad] at h
        obtain ⟨rfl, rfl⟩ : [] = vs ∧ text = r := by simpa using h
        exact ⟨[], rfl, by simp, rfl⟩
      · rw [sextets_bad hspace hpad hbad] at h
        cases h
      · rw [sextets_symbol hv] at h
        obtain ⟨⟨ws, rest'⟩, hrest, heq⟩ := Option.map_eq_some_iff.1 h
        obtain ⟨rfl, rfl⟩ : v :: ws = vs ∧ rest' = base64Pad :: r := by simpa using heq
        obtain ⟨s, rfl, hlt, hsame⟩ := ih hrest
        exact ⟨symbol v :: s, rfl, by simpa using ⟨hv, hlt⟩, by rw [unspaced_symbol hv, hsame]; rfl⟩
  · rintro ⟨s, rfl, hlt, hsame⟩
    induction s generalizing vs with
    | nil =>
      obtain rfl : vs = [] := by simpa [unspaced] using hsame.symm
      exact sextets_pad
    | cons ch s ih =>
      rw [unspaced_cons] at hsame
      split at hsame
      case isTrue hspace =>
        rw [List.cons_append, sextets_space hspace]
        exact ih hlt hsame
      case isFalse hspace =>
        cases vs with
        | nil => simp at hsame
        | cons v vs =>
          rw [List.map_cons, List.cons.injEq] at hsame
          obtain ⟨rfl, hsame⟩ := hsame
          rw [List.cons_append, sextets_symbol (hlt v List.mem_cons_self),
            ih (fun w hw => hlt w (List.mem_cons_of_mem v hw)) hsame]
          rfl

theorem mem_unspaced {ch : UInt8} (h : ch ∈ text) (hspace : isSpace ch = false) : ch ∈ unspaced text :=
  List.mem_filter.2 ⟨h, by simp [hspace]⟩

/-- With one `=` in it, the text is blank when that is its last character. -/
theorem blank_iff (h : unspaced r = [base64Pad]) : Blank r ↔ r.getLast? = some base64Pad := by
  obtain ⟨init, x, rfl⟩ : ∃ init x, r = init ++ [x] := by
    have hne : r ≠ [] := by
      rintro rfl
      cases h
    exact ⟨_, _, (List.dropLast_append_getLast hne).symm⟩
  have hzero : ∀ ch ∈ init, ch ≠ 0 := by
    rintro ch hch rfl
    have hmem := mem_unspaced (List.mem_append_left [x] hch) (by decide)
    rw [h, List.mem_singleton] at hmem
    exact absurd hmem (by decide)
  have hall : init.takeWhile (· ≠ 0) = init := by
    rw [List.takeWhile_eq_self_iff]
    exact fun ch hch => by simpa using hzero ch hch
  have hsplit : unspaced init ++ unspaced [x] = [base64Pad] := by
    rw [← h, unspaced, unspaced, unspaced, List.filter_append]
  simp only [Blank, List.dropLast_concat, hall, List.getLast?_concat, Option.some.injEq]
  rw [unspaced_cons] at hsplit
  split at hsplit
  case isTrue hspace =>
    rw [show unspaced [] = [] from rfl, List.append_nil] at hsplit
    rw [hsplit]
    constructor
    · intro hnil
      cases hnil
    · rintro rfl
      cases hspace
  case isFalse hspace =>
    rw [show unspaced [] = [] from rfl] at hsplit
    obtain ⟨hinit, hx⟩ := List.append_inj' (hsplit.trans (List.nil_append _).symm) rfl
    exact ⟨fun _ => (List.cons.inj hx).1, fun _ => hinit⟩

/-! ### The texts on which the decoder is wrong -/

/-- A text up to its first `=`, with the sextets `vs` before that `=` and
`r` behind it. -/
structure Padded (text : List UInt8) (vs : List Nat) (r : List UInt8) : Prop where
  split : ∃ s, text = s ++ base64Pad :: r ∧ unspaced s = vs.map symbol
  range : ∀ v ∈ vs, v < 64
  noBits : leftover vs = 0

/-- White space follows the padding. -/
def SpaceBehind (vs : List Nat) (r : List UInt8) : Prop :=
  vs.length % 4 = 3 ∧ r ≠ [] ∧ unspaced r = [] ∨
    vs.length % 4 = 2 ∧ unspaced r = [base64Pad] ∧ r.getLast? ≠ some base64Pad

/-- The second `=` is missing, and what stands in its place is not read. -/
def PadMissing (text : List UInt8) (vs : List Nat) (r : List UInt8) : Prop :=
  vs.length % 4 = 2 ∧ unspaced r ≠ [base64Pad] ∧ Blank r ∧ 4 * (vs.length / 4 + 1) ≤ text.length

/-- The decoder refuses the text though it is base64, or the other way
round. -/
def Misjudged (text : List UInt8) : Prop :=
  ∃ vs r, Padded text vs r ∧ (SpaceBehind vs r ∨ PadMissing text vs r)

theorem padded_iff : Padded text vs r ↔ sextets text = some (vs, base64Pad :: r) ∧ leftover vs = 0 := by
  rw [sextets_eq_some_iff]
  constructor
  · rintro ⟨⟨s, hsplit, hsame⟩, hlt, hleft⟩
    exact ⟨⟨s, hsplit, hlt, hsame⟩, hleft⟩
  · rintro ⟨⟨s, hsplit, hlt, hsame⟩, hleft⟩
    exact ⟨⟨s, hsplit, hsame⟩, hlt, hleft⟩

theorem returns_padded_iff (fresh : Nat → UInt8) (past : UInt8) (h : Padded text vs r) :
    Returns (base64Decode fresh past text) bytes ↔ bytes = bytesOf vs ∧ (vs.length % 4 = 3 ∧ r = [] ∨
      vs.length % 4 = 2 ∧ Blank r ∧ 4 * (vs.length / 4 + 1) ≤ text.length) := by
  obtain ⟨hsextets, hleft⟩ := padded_iff.1 h
  rw [returns_iff]
  simp only [hsextets, Option.some.injEq, Prod.mk.injEq]
  constructor
  · rintro ⟨_, _, ⟨rfl, rfl⟩, hbytes, -, ⟨hnil, -⟩ | ⟨r', heq, hpad⟩⟩
    · cases hnil
    · obtain rfl := (List.cons.inj heq).2
      exact ⟨hbytes, hpad⟩
  · rintro ⟨hbytes, hpad⟩
    exact ⟨vs, _, ⟨rfl, rfl⟩, hbytes, hleft, .inr ⟨r, rfl, hpad⟩⟩

theorem base64_padded_iff (h : Padded text vs r) :
    Base64 (unspaced text) bytes ↔ bytes = bytesOf vs ∧ (vs.length % 4 = 3 ∧ unspaced r = [] ∨
      vs.length % 4 = 2 ∧ unspaced r = [base64Pad]) := by
  obtain ⟨hsextets, hleft⟩ := padded_iff.1 h
  rw [base64_iff]
  simp only [hsextets, Option.some.injEq, Prod.mk.injEq]
  constructor
  · rintro ⟨_, _, ⟨rfl, rfl⟩, hbytes, -, ⟨hnil, -⟩ | ⟨r', heq, hpad⟩⟩
    · cases hnil
    · obtain rfl := (List.cons.inj heq).2
      exact ⟨hbytes, hpad⟩
  · rintro ⟨hbytes, hpad⟩
    exact ⟨vs, _, ⟨rfl, rfl⟩, hbytes, hleft, .inr ⟨r, rfl, hpad⟩⟩

/-- A text whose padding is complete has room for its last group. -/
theorem Padded.room (h : Padded text vs r) (hmod : vs.length % 4 = 2) (hr : unspaced r = [base64Pad]) :
    4 * (vs.length / 4 + 1) ≤ text.length := by
  have hlen := sextets_length (padded_iff.1 h).1
  have hne : r.length ≠ 0 := by
    intro hnil
    rw [List.eq_nil_of_length_eq_zero hnil] at hr
    cases hr
  rw [List.length_cons] at hlen
  omega

/-- The decoder is right about a text with padding unless it is misjudged. -/
theorem padded_accepts (fresh : Nat → UInt8) (past : UInt8) (h : Padded text vs r) :
    (∀ bytes, Returns (base64Decode fresh past text) bytes ↔ Base64 (unspaced text) bytes) ↔
      ¬ (SpaceBehind vs r ∨ PadMissing text vs r) := by
  simp only [returns_padded_iff fresh past h, base64_padded_iff h]
  have hbytes : ∀ P Q : Prop, (∀ bytes, (bytes = bytesOf vs ∧ P ↔ bytes = bytesOf vs ∧ Q)) ↔ (P ↔ Q) := by
    intro P Q
    constructor
    · intro hall
      simpa using hall (bytesOf vs)
    · intro hiff bytes
      rw [hiff]
  rw [hbytes]
  by_cases h₂ : vs.length % 4 = 2
  · by_cases hr : unspaced r = [base64Pad]
    · simp [h₂, hr, SpaceBehind, PadMissing, blank_iff hr, h.room h₂ hr]
    · simp [h₂, hr, SpaceBehind, PadMissing]
  · by_cases h₃ : vs.length % 4 = 3
    · by_cases hr : r = []
      · simp [h₃, hr, SpaceBehind, PadMissing, unspaced]
      · simp [h₃, hr, SpaceBehind, PadMissing]
    · simp [h₂, h₃, SpaceBehind, PadMissing]

/-- `base64_decode` accepts padded base64 and nothing else, unless it
misjudges what is behind the first `=`. -/
theorem base64Decode_accepts (fresh : Nat → UInt8) (past : UInt8) (text : List UInt8) :
    (∀ bytes, Returns (base64Decode fresh past text) bytes ↔ Base64 (unspaced text) bytes) ↔
      ¬ Misjudged text := by
  by_cases hpadded : ∃ vs r, Padded text vs r
  · obtain ⟨vs, r, h⟩ := hpadded
    rw [padded_accepts fresh past h]
    refine not_congr ⟨fun hwrong => ⟨vs, r, h, hwrong⟩, ?_⟩
    rintro ⟨vs', r', h', hwrong⟩
    obtain ⟨rfl, hr⟩ := Prod.mk.inj (Option.some.inj ((padded_iff.1 h).1.symm.trans (padded_iff.1 h').1))
    obtain rfl := (List.cons.inj hr).2
    exact hwrong
  · have hnot : ¬ Misjudged text := by
      rintro ⟨vs, r, h, -⟩
      exact hpadded ⟨vs, r, h⟩
    refine iff_of_true (fun bytes => ?_) hnot
    rw [returns_iff, base64_iff]
    refine exists_congr fun vs => exists_congr fun rest => and_congr_right fun hsextets =>
      and_congr_right fun _ => and_congr_right fun hleft => or_congr_right ?_
    constructor
    all_goals
      rintro ⟨r, rfl, -⟩
      exact absurd ⟨vs, r, padded_iff.2 ⟨hsextets, hleft⟩⟩ hpadded

/-- `QUI= `, with a space behind the padding, is refused; `QQ=X` is
accepted. -/
theorem base64Decode_misjudges :
    (∀ fresh past, ¬ Returns (base64Decode fresh past [81, 85, 73, 61, 32]) [65, 66]) ∧
      Base64 (unspaced [81, 85, 73, 61, 32]) [65, 66] ∧
      (∀ fresh past, Returns (base64Decode fresh past [81, 81, 61, 88]) [65]) ∧
      ¬ Base64 (unspaced [81, 81, 61, 88]) [65] := by
  have hspace : Padded [81, 85, 73, 61, 32] [16, 20, 8] [32] :=
    ⟨⟨[81, 85, 73], rfl, by decide +kernel⟩, by decide, rfl⟩
  have hmissing : Padded [81, 81, 61, 88] [16, 16] [88] :=
    ⟨⟨[81, 81], rfl, by decide +kernel⟩, by decide, rfl⟩
  refine ⟨fun fresh past => ?_, ?_, fun fresh past => ?_, ?_⟩
  · rw [returns_padded_iff fresh past hspace]
    simp
  · rw [base64_padded_iff hspace]
    decide +kernel
  · rw [returns_padded_iff fresh past hmissing]
    exact ⟨by decide +kernel, .inr ⟨rfl, rfl, by decide⟩⟩
  · rw [base64_padded_iff hmissing]
    decide +kernel

/-! ### Encoded text -/

/-- White space that is not behind the padding does no harm. -/
theorem returns_of_base64 (fresh : Nat → UInt8) (past : UInt8) (h : Base64 (unspaced text) bytes)
    (hlast : base64Pad ∈ text → text.getLast? = some base64Pad) :
    Returns (base64Decode fresh past text) bytes := by
  refine ((base64Decode_accepts fresh past text).2 ?_ bytes).2 h
  rintro ⟨vs, r, hpadded, hwrong⟩
  have hr : r ≠ [] → r.getLast? = some base64Pad := by
    obtain ⟨s, rfl, -⟩ := hpadded.split
    intro hne
    have hsame := hlast (by simp)
    rwa [List.getLast?_append, List.getLast?_cons_of_ne_nil hne, Option.or_of_isSome
      (by simp [hne])] at hsame
  rcases hwrong with (⟨-, hne, hspace⟩ | ⟨-, hpad, hend⟩) | ⟨hmod, hmissing, -⟩
  · have hmem := mem_unspaced (List.mem_of_getLast? (hr hne)) (by decide)
    rw [hspace] at hmem
    cases hmem
  · refine hend (hr ?_)
    rintro rfl
    cases hpad
  · obtain ⟨-, ⟨hmod', -⟩ | ⟨-, hpad⟩⟩ := (base64_padded_iff hpadded).1 h
    · omega
    · exact hmissing hpad

theorem unspaced_encode (data : List UInt8) : unspaced (encode data) = encode data := by
  have hlt : ∀ n, n % 64 < 64 := fun n => Nat.mod_lt n (by decide)
  induction data using encode.induct with
  | case1 => rfl
  | case2 a =>
    have ha := a.toNat_lt
    rw [encode, unspaced_symbol (by omega), unspaced_symbol (by omega)]
    rfl
  | case3 a b =>
    have ha := a.toNat_lt
    have hb := b.toNat_lt
    rw [encode, unspaced_symbol (by omega), unspaced_symbol (by omega), unspaced_symbol (by omega)]
    rfl
  | case4 a b c data ih =>
    have ha := a.toNat_lt
    have hb := b.toNat_lt
    have hc := c.toNat_lt
    rw [encode, unspaced_symbol (by omega), unspaced_symbol (by omega), unspaced_symbol (by omega),
      unspaced_symbol (by omega), ih]

/-- The sextets of three bytes put together again. -/
theorem first_byte (a : UInt8) (x : Nat) (hx : x < 16) :
    UInt8.ofNat (a.toNat / 4 * 4 + (a.toNat % 4 * 16 + x) / 16) = a := by
  rw [show a.toNat / 4 * 4 + (a.toNat % 4 * 16 + x) / 16 = a.toNat by omega, UInt8.ofNat_toNat]

theorem second_byte (m : Nat) (b : UInt8) (x : Nat) (hx : x < 4) :
    UInt8.ofNat ((m * 16 + b.toNat / 16) % 16 * 16 + (b.toNat % 16 * 4 + x) / 4) = b := by
  have hb := b.toNat_lt
  rw [show (m * 16 + b.toNat / 16) % 16 * 16 + (b.toNat % 16 * 4 + x) / 4 = b.toNat by omega,
    UInt8.ofNat_toNat]

theorem third_byte (m : Nat) (c : UInt8) :
    UInt8.ofNat ((m * 4 + c.toNat / 64) % 4 * 64 + c.toNat % 64) = c := by
  have hc := c.toNat_lt
  rw [show (m * 4 + c.toNat / 64) % 4 * 64 + c.toNat % 64 = c.toNat by omega, UInt8.ofNat_toNat]

/-- The encoded text is base64 of the bytes. -/
theorem base64_encode (data : List UInt8) : Base64 (encode data) data := by
  induction data using encode.induct with
  | case1 => exact .nil
  | case2 a =>
    have ha := a.toNat_lt
    have h := Base64.one (a := a.toNat / 4) (b := a.toNat % 4 * 16) (by omega) (by omega) (by omega)
    rwa [← Nat.add_zero (a.toNat % 4 * 16), first_byte a 0 (by decide)] at h
  | case3 a b =>
    have ha := a.toNat_lt
    have hb := b.toNat_lt
    have h := Base64.two (a := a.toNat / 4) (b := a.toNat % 4 * 16 + b.toNat / 16)
      (c := b.toNat % 16 * 4) (by omega) (by omega) (by omega) (by omega)
    rwa [first_byte a _ (by omega), ← Nat.add_zero (b.toNat % 16 * 4),
      second_byte _ b 0 (by decide)] at h
  | case4 a b c data ih =>
    have ha := a.toNat_lt
    have hb := b.toNat_lt
    have hc := c.toNat_lt
    have h := Base64.group (a := a.toNat / 4) (b := a.toNat % 4 * 16 + b.toNat / 16)
      (c := b.toNat % 16 * 4 + c.toNat / 64) (d := c.toNat % 64) (by omega) (by omega) (by omega)
      (by omega) ih
    rwa [first_byte a _ (by omega), second_byte _ b _ (by omega), third_byte] at h

/-- The padding ends the encoded text. -/
theorem encode_last (h : base64Pad ∈ encode data) :
    (encode data).getLast? = some base64Pad ∧ data.length % 3 ≠ 0 := by
  induction data using encode.induct with
  | case1 => cases h
  | case2 a => exact ⟨rfl, by simp⟩
  | case3 a b => exact ⟨rfl, by simp⟩
  | case4 a b c data ih =>
    have ha := a.toNat_lt
    have hb := b.toNat_lt
    have hc := c.toNat_lt
    have hne : ∀ v < 64, base64Pad ≠ symbol v := fun v hv => (symbol_plain v hv).2.symm
    simp only [encode, List.mem_cons, hne (a.toNat / 4) (by omega),
      hne (a.toNat % 4 * 16 + b.toNat / 16) (by omega), hne (b.toNat % 16 * 4 + c.toNat / 64) (by omega),
      hne (c.toNat % 64) (by omega), false_or] at h
    obtain ⟨hlast, hmod⟩ := ih h
    have hnil : encode data ≠ [] := List.ne_nil_of_mem h
    refine ⟨?_, by simp only [List.length_cons]; omega⟩
    rw [encode]
    simp only [List.getLast?_cons_cons]
    rw [List.getLast?_cons_of_ne_nil hnil, hlast]

/-! ### The round trips -/

theorem returns_ok {buf : List UInt8} (h : buf.take bytes.length = bytes) :
    Returns (.ok ⟨buf, bytes.length⟩) bytes := ⟨_, rfl, h, rfl⟩

theorem returns_encode (data : List UInt8) : Returns (base64Encode data false) (encode data) := by
  rw [base64Encode_plain]
  exact returns_ok (take_length_append _ _)

theorem returns_urlEncode (data : List UInt8) :
    Returns (urlBase64Encode data false) ((encode data).map toUrl) := by
  have hlen : (encode data).length = ((encode data).map toUrl).length := (List.length_map toUrl).symm
  rw [urlBase64Encode, base64Encode_plain, ok_bind]
  simp only [Output.data, take_length_append]
  rw [hlen]
  exact returns_ok (take_length_append _ _)

/-- The decoder takes the encoded text back to the bytes. -/
theorem returns_decode (fresh : Nat → UInt8) (past : UInt8) (data : List UInt8) :
    Returns (base64Decode fresh past (encode data)) data :=
  returns_of_base64 fresh past ((unspaced_encode data).symm ▸ base64_encode data)
    fun hpad => (encode_last hpad).1

theorem fromUrl_toUrl (data : List UInt8) : ((encode data).map toUrl).map fromUrl = encode data := by
  have hsymbol : ∀ v < 64, fromUrl (toUrl (symbol v)) = symbol v := by decide +kernel
  have hpad : fromUrl (toUrl base64Pad) = base64Pad := by decide
  induction data using encode.induct with
  | case1 => rfl
  | case2 a =>
    have ha := a.toNat_lt
    simp only [encode, List.map_cons, List.map_nil, hpad, hsymbol (a.toNat / 4) (by omega),
      hsymbol (a.toNat % 4 * 16) (by omega)]
  | case3 a b =>
    have ha := a.toNat_lt
    have hb := b.toNat_lt
    simp only [encode, List.map_cons, List.map_nil, hpad, hsymbol (a.toNat / 4) (by omega),
      hsymbol (a.toNat % 4 * 16 + b.toNat / 16) (by omega), hsymbol (b.toNat % 16 * 4) (by omega)]
  | case4 a b c data ih =>
    have ha := a.toNat_lt
    have hb := b.toNat_lt
    have hc := c.toNat_lt
    simp only [encode, List.map_cons, ih, hsymbol (a.toNat / 4) (by omega),
      hsymbol (a.toNat % 4 * 16 + b.toNat / 16) (by omega),
      hsymbol (b.toNat % 16 * 4 + c.toNat / 64) (by omega), hsymbol (c.toNat % 64) (by omega)]

/-- Decoding what was encoded without line breaks gives the bytes back, in
both alphabets. No write of the decoder is outside of its buffer: that
would be an error. -/
theorem base64_roundTrip (fresh : Nat → UInt8) (past : UInt8) (data : List UInt8) :
    (∃ text, Returns (base64Encode data false) text ∧ Returns (base64Decode fresh past text) data) ∧
      ∃ text, Returns (urlBase64Encode data false) text ∧
        Returns (urlBase64Decode fresh text) data := by
  refine ⟨⟨_, returns_encode data, returns_decode fresh past data⟩, _, returns_urlEncode data, ?_⟩
  rw [urlBase64Decode, fromUrl_toUrl]
  exact returns_decode fresh 0 data

/-- Line breaks are kept where they are. -/
theorem withBreaks_last {col : Nat} (hcol : col < 76) (h : (col + text.length) % 76 ≠ 0) (hne : text ≠ []) :
    (withBreaks col text).getLast? = text.getLast? := by
  obtain ⟨init, x, rfl⟩ : ∃ init x, text = init ++ [x] :=
    ⟨_, _, (List.dropLast_append_getLast hne).symm⟩
  rw [List.length_append, List.length_singleton] at h
  have hlast : withBreaks ((col + init.length) % 76) [x] = [x] :=
    withBreaks_short (by rw [List.length_singleton]; omega)
  rw [withBreaks_append hcol, hlast, List.getLast?_concat, List.getLast?_concat]

theorem mem_withBreaks {ch : UInt8} (hspace : isSpace ch = false) {col : Nat} (h : ch ∈ withBreaks col text) :
    ch ∈ text := by
  have hmem := mem_unspaced h hspace
  rw [unspaced_withBreaks] at hmem
  exact (List.mem_filter.1 hmem).1

theorem returns_broken (data : List UInt8) : Returns (base64Encode data true) (brokenText data) := by
  rw [base64Encode_broken]
  exact returns_ok (take_length_append _ _)

theorem returns_unique {result : Except Stop Output} {bytes' : List UInt8} (h : Returns result bytes)
    (h' : Returns result bytes') : bytes = bytes' := by
  obtain ⟨o, ho, rfl, -⟩ := h
  obtain ⟨o', ho', rfl, -⟩ := h'
  obtain rfl := Except.ok.inj (ho.symm.trans ho')
  rfl

/-- Line breaks in front of the padding do no harm. -/
theorem returns_decode_broken (fresh : Nat → UInt8) (past : UInt8) (data : List UInt8)
    (h : data.length % 57 ≠ 55 ∧ data.length % 57 ≠ 56) :
    Returns (base64Decode fresh past (withBreaks 0 (encode data))) data := by
  refine returns_of_base64 fresh past ?_ ?_
  · rw [unspaced_withBreaks, unspaced_encode]
    exact base64_encode data
  · intro hmem
    have hpad := mem_withBreaks (by decide) hmem
    obtain ⟨hlast, hmod⟩ := encode_last hpad
    rw [withBreaks_last (by decide) ?_ (List.ne_nil_of_mem hpad), hlast]
    rw [length_encode]
    omega

/-- With line breaks the round trip works unless the last group is padded
and ends a line. -/
theorem base64_roundTrip_broken (fresh : Nat → UInt8) (past : UInt8) (data : List UInt8) :
    (∃ plain broken, Returns (base64Encode data false) plain ∧ Returns (base64Encode data true) broken ∧
      broken = withBreaks 0 plain ∧ Returns (base64Decode fresh past broken) data) ↔
        data.length % 57 ≠ 55 ∧ data.length % 57 ≠ 56 := by
  constructor
  · rintro ⟨plain, broken, hplain, hbroken, heq, -⟩
    rw [returns_unique hplain (returns_encode data), returns_unique hbroken (returns_broken data)] at heq
    by_contra hnot
    exact brokenText_ne data (by omega) heq
  · intro h
    refine ⟨_, _, returns_encode data, returns_broken data, brokenText_eq data h, ?_⟩
    rw [brokenText_eq data h]
    exact returns_decode_broken fresh past data h

/-- The encoding of 55 zeros fills one line, and its padding is written over
the line break. The decoder refuses the text. -/
theorem base64_breaks_overwritten :
    ∃ plain broken, Returns (base64Encode (List.replicate 55 0) false) plain ∧
      Returns (base64Encode (List.replicate 55 0) true) broken ∧ broken ≠ withBreaks 0 plain ∧
        ∀ fresh past bytes, ¬ Returns (base64Decode fresh past broken) bytes := by
  refine ⟨_, _, returns_encode _, returns_broken _, brokenText_ne _ (by simp), fun fresh past bytes => ?_⟩
  have hsextets : sextets (brokenText (List.replicate 55 0)) =
      some (List.replicate 76 0, [base64Pad, base64Pad]) := by decide +kernel
  rw [returns_iff]
  simp only [hsextets, Option.some.injEq, Prod.mk.injEq]
  rintro ⟨_, _, ⟨rfl, rfl⟩, -, -, ⟨hnil, -⟩ | ⟨r, -, ⟨hmod, -⟩ | ⟨hmod, -⟩⟩⟩
  · cases hnil
  all_goals simp at hmod

end Efio.Proofs.CoreUtils
