import Efio.Spec.Base64
import Mathlib.Data.List.Basic

/-!
# `Efio.Proofs.CoreUtils.Base64Encode`: what the encoder writes

`base64_encode` writes the groups first, in which the missing octets count
as zeros (`raw`), and the line breaks with them. The padding is then written
over the end of the buffer. `base64Encode_plain` and `base64Encode_broken`
say what is in the buffer; no write is outside of it. Without line breaks
this is `encode`. With them it is `encode` with its line breaks unless the
padding falls on a line break, which it does when the last group is padded
and ends a line (`padded_breaks`).
-/

set_option autoImplicit false

namespace Efio.Proofs.CoreUtils

open Efio.Lib
open Efio.CoreUtils
open Efio.Spec

variable {w text data : List UInt8} {a b c : UInt8} {k col : Nat}

/-! ### Groups -/

/-- The four characters of a group. -/
def quad (a b c : UInt8) : List UInt8 :=
  [symbol (a.toNat / 4), symbol (a.toNat % 4 * 16 + b.toNat / 16),
    symbol (b.toNat % 16 * 4 + c.toNat / 64), symbol (c.toNat % 64)]

/-- All groups, without padding. -/
def raw : List UInt8 → List UInt8
  | [] => []
  | [a] => quad a 0 0
  | [a, b] => quad a b 0
  | a :: b :: c :: data => quad a b c ++ raw data

theorem encodeSextet_eq (x : Nat) : encodeSextet x = symbol (x % 64) := by
  rw [encodeSextet, symbol, show x &&& 0x3F = x % 64 from Nat.and_two_pow_sub_one_eq_mod x 6]

theorem encodeSextet_group (a b c : UInt8) :
    [encodeSextet (((a.toNat <<< 0x10) + (b.toNat <<< 0x08) + c.toNat) >>> (3 * 6)),
      encodeSextet (((a.toNat <<< 0x10) + (b.toNat <<< 0x08) + c.toNat) >>> (2 * 6)),
      encodeSextet (((a.toNat <<< 0x10) + (b.toNat <<< 0x08) + c.toNat) >>> (1 * 6)),
      encodeSextet (((a.toNat <<< 0x10) + (b.toNat <<< 0x08) + c.toNat) >>> (0 * 6))] = quad a b c := by
  have ha := a.toNat_lt
  have hb := b.toNat_lt
  have hc := c.toNat_lt
  simp only [encodeSextet_eq, Nat.shiftLeft_eq, Nat.shiftRight_eq_div_pow, quad, List.cons.injEq,
    and_true]
  refine ⟨?_, ?_, ?_, ?_⟩ <;>
    · congr 1
      omega

theorem length_raw (data : List UInt8) : (raw data).length = 4 * ((data.length + 2) / 3) := by
  induction data using raw.induct with
  | case1 => rfl
  | case2 a => simp [raw, quad]
  | case3 a b => simp [raw, quad]
  | case4 a b c data ih =>
    simp only [raw, quad, List.length_append, List.length_cons, ih, List.length_nil]
    omega

/-- The padding stands for the last characters of the groups. -/
theorem encode_eq (data : List UInt8) :
    encode data = (raw data).take ((raw data).length - modTable.getD (data.length % 3) 0) ++
      List.replicate (modTable.getD (data.length % 3) 0) base64Pad := by
  induction data using raw.induct with
  | case1 => rfl
  | case2 a => rfl
  | case3 a b => rfl
  | case4 a b c data ih =>
    have hmod : (a :: b :: c :: data).length % 3 = data.length % 3 := by
      simp only [List.length_cons]
      omega
    have hpad : modTable.getD (data.length % 3) 0 ≤ (raw data).length := by
      rw [length_raw]
      have hlt : data.length % 3 < 3 := Nat.mod_lt _ (by decide)
      have hle : ∀ r < 3, modTable.getD r 0 ≤ if r = 0 then 0 else 2 := by decide
      have hbound := hle _ hlt
      split at hbound <;> omega
    have htake : (quad a b c ++ raw data).length - modTable.getD (data.length % 3) 0
        = 4 + ((raw data).length - modTable.getD (data.length % 3) 0) := by
      simp only [List.length_append, quad, List.length_cons, List.length_nil]
      omega
    rw [hmod, encode, ih, raw, htake, Nat.add_comm 4]
    rfl

theorem length_encode (data : List UInt8) : (encode data).length = 4 * ((data.length + 2) / 3) := by
  induction data using raw.induct with
  | case1 => rfl
  | case2 a => simp [encode]
  | case3 a b => simp [encode]
  | case4 a b c data ih =>
    simp only [encode, List.length_cons, ih]
    omega

/-! ### Line breaks -/

theorem withBreaks_append (hcol : col < 76) (w text : List UInt8) :
    withBreaks col (w ++ text) = withBreaks col w ++ withBreaks ((col + w.length) % 76) text := by
  induction w generalizing col with
  | nil => simp [withBreaks, Nat.mod_eq_of_lt hcol]
  | cons x w ih =>
    simp only [List.cons_append, withBreaks, List.length_cons]
    split
    · have heq : (0 + w.length) % 76 = (col + (w.length + 1)) % 76 := by omega
      rw [ih (by omega), heq]
      rfl
    · have heq : col + 1 + w.length = col + (w.length + 1) := by omega
      rw [ih (by omega), heq]

/-- A line that does not end has no break. -/
theorem withBreaks_short (h : col + text.length < 76) : withBreaks col text = text := by
  induction text generalizing col with
  | nil => rfl
  | cons x text ih =>
    rw [List.length_cons] at h
    rw [withBreaks, if_neg (by omega), ih (by omega)]

theorem length_withBreaks (hcol : col < 76) (text : List UInt8) :
    (withBreaks col text).length = text.length + 2 * ((col + text.length) / 76) := by
  induction text generalizing col with
  | nil => simp [withBreaks, Nat.div_eq_of_lt hcol]
  | cons x text ih =>
    rw [withBreaks]
    split
    · simp only [List.length_cons, ih (show 0 < 76 by omega)]
      omega
    · simp only [List.length_cons, ih (show col + 1 < 76 by omega)]
      omega

theorem unspaced_cons (c : UInt8) (text : List UInt8) :
    unspaced (c :: text) = if isSpace c then unspaced text else c :: unspaced text := by
  cases hc : isSpace c <;> simp [unspaced, hc]

/-- Taking the line breaks out again. -/
theorem unspaced_withBreaks (col : Nat) (text : List UInt8) :
    unspaced (withBreaks col text) = unspaced text := by
  induction text generalizing col with
  | nil => rfl
  | cons x text ih =>
    rw [withBreaks, unspaced_cons, unspaced_cons]
    split <;> split <;> simp [unspaced_cons, ih, isSpace]

/-! ### The run -/

/-- The encoder has written `w`, and room for `k` characters is left. -/
def written (w : List UInt8) (k lineCount : Nat) : Encoder :=
  ⟨w ++ List.replicate k 0, w.length, lineCount⟩

theorem put_written (w : List UInt8) (k n : Nat) (b : UInt8) :
    (written w (k + 1) n).put b = .ok (written (w ++ [b]) k n) := by
  have hroom : w.length < (w ++ List.replicate (k + 1) (0 : UInt8)).length := by simp
  have hset : (w ++ List.replicate (k + 1) (0 : UInt8)).set w.length b
      = (w ++ [b]) ++ List.replicate k 0 := by
    simp [List.replicate_succ, List.set_append_right]
  rw [Encoder.put, store, written, if_pos hroom, ok_bind, hset]
  simp [written]
  rfl

/-- The text of a group, with its line break. -/
def lineOf (addLineBreaks : Bool) (n : Nat) (text : List UInt8) : List UInt8 :=
  if addLineBreaks then withBreaks (4 * n) text else text

/-- `line_count` behind a group. -/
def nextCount (addLineBreaks : Bool) (n : Nat) : Nat :=
  if addLineBreaks then (if n + 1 = 19 then 0 else n + 1) else n

theorem lineOf_quad (n : Nat) (a b c : UInt8) :
    lineOf true n (quad a b c) = quad a b c ++ if n + 1 = 19 then [13, 10] else [] := by
  have h₀ : ¬ 4 * n + 1 = 76 := by omega
  have h₁ : ¬ 4 * n + 1 + 1 = 76 := by omega
  have h₂ : ¬ 4 * n + 1 + 1 + 1 = 76 := by omega
  have h₃ : (4 * n + 1 + 1 + 1 + 1 = 76) = (n + 1 = 19) := by
    refine propext ?_
    omega
  simp only [lineOf, quad, withBreaks, if_neg h₀, if_neg h₁, if_neg h₂, h₃, if_true]
  split <;> rfl

/-- The characters of a group are written. -/
theorem quad_written (brk : Bool) (w : List UInt8) (k n : Nat) (a b c : UInt8) :
    (written w (k + 4) n).group brk a b c =
      if brk then
        if n + 1 = 19 then do
          let e ← (written (w ++ quad a b c) k n).put 13
          let e ← e.put 10
          return { e with lineCount := 0 }
        else .ok (written (w ++ quad a b c) k (n + 1))
      else .ok (written (w ++ quad a b c) k n) := by
  unfold Encoder.group
  rw [← encodeSextet_group]
  simp only [put_written, ok_bind, List.append_assoc]
  rfl

/-- One round of the loop writes a group. -/
theorem group_written (brk : Bool) (w : List UInt8) (k n : Nat) (a b c : UInt8) :
    (written w (k + (lineOf brk n (quad a b c)).length) n).group brk a b c =
      .ok (written (w ++ lineOf brk n (quad a b c)) k (nextCount brk n)) := by
  cases brk with
  | false => exact quad_written false w k n a b c
  | true =>
    rw [lineOf_quad]
    by_cases hend : n + 1 = 19
    · -- The group ends a line.
      have hlen : k + (quad a b c ++ if n + 1 = 19 then [13, 10] else []).length = k + 2 + 4 := by
        simp [quad, hend]
      rw [hlen, quad_written]
      simp only [hend, if_true, put_written, ok_bind, List.append_assoc, nextCount]
      rfl
    · have hlen : k + (quad a b c ++ if n + 1 = 19 then [13, 10] else []).length = k + 4 := by
        simp [quad, hend]
      rw [hlen, quad_written]
      simp only [hend, if_true, if_false, List.append_nil, nextCount]

/-- All groups with their line breaks. -/
theorem lineOf_append (brk : Bool) (n : Nat) (hn : n < 19) (a b c : UInt8) (text : List UInt8) :
    lineOf brk n (quad a b c ++ text) =
      lineOf brk n (quad a b c) ++ lineOf brk (nextCount brk n) text := by
  cases brk with
  | false => rfl
  | true =>
    have hcol : (4 * n + (quad a b c).length) % 76 = 4 * nextCount true n := by
      simp only [quad, List.length_cons, List.length_nil, nextCount, if_true]
      split <;> omega
    simp only [lineOf, if_true]
    rw [withBreaks_append (by omega), hcol]

theorem nextCount_lt (brk : Bool) {n : Nat} (hn : n < 19) : nextCount brk n < 19 := by
  unfold nextCount
  split <;> (try split) <;> omega

/-- The loop writes all groups. -/
theorem encodeLoop_written (brk : Bool) (data w : List UInt8) (k n : Nat) (hn : n < 19) :
    ∃ n', encodeLoop brk data (written w (k + (lineOf brk n (raw data)).length) n) =
      .ok (written (w ++ lineOf brk n (raw data)) k n') := by
  induction data using raw.induct generalizing w n with
  | case1 =>
    refine ⟨n, ?_⟩
    cases brk <;> simp [encodeLoop, raw, lineOf, withBreaks]
  | case2 a => exact ⟨_, group_written brk w k n a 0 0⟩
  | case3 a b => exact ⟨_, group_written brk w k n a b 0⟩
  | case4 a b c data ih =>
    obtain ⟨n', hrest⟩ := ih (w ++ lineOf brk n (quad a b c)) _ (nextCount_lt brk hn)
    refine ⟨n', ?_⟩
    have hroom : k + (lineOf brk n (quad a b c ++ raw data)).length =
        k + (lineOf brk (nextCount brk n) (raw data)).length + (lineOf brk n (quad a b c)).length := by
      rw [lineOf_append brk n hn, List.length_append]
      omega
    rw [encodeLoop, raw, hroom, group_written, ok_bind, hrest, lineOf_append brk n hn,
      List.append_assoc]

/-! ### Padding -/

theorem padLoop_eq (text tail : List UInt8) (k : Nat) (hk : k ≤ text.length) :
    padLoop text.length k (text ++ tail) =
      .ok (text.take (text.length - k) ++ List.replicate k 61 ++ tail) := by
  induction k with
  | zero => simp [padLoop]
  | succ k ih =>
    have hroom : text.length - 1 - k <
        (text.take (text.length - k) ++ List.replicate k 61 ++ tail).length := by
      simp only [List.length_append, List.length_take, List.length_replicate]
      omega
    have htake : text.take (text.length - k)
        = text.take (text.length - (k + 1)) ++ [text[text.length - (k + 1)]] := by
      have heq : text.length - k = text.length - (k + 1) + 1 := by omega
      rw [heq, List.take_succ_eq_append_getElem (by omega)]
    have hset : ∀ (x z : List UInt8) (y b : UInt8), (x ++ [y] ++ z).set x.length b = x ++ b :: z := by
      intro x z y b
      simp
    rw [padLoop, ih (by omega), ok_bind, store, if_pos hroom]
    have hpos : text.length - 1 - k = (text.take (text.length - (k + 1))).length := by
      rw [List.length_take]
      omega
    rw [hpos, htake, List.append_assoc _ _ tail, hset, List.replicate_succ]
    simp

theorem length_lineOf (brk : Bool) (data : List UInt8) :
    (lineOf brk 0 (raw data)).length = encodedLength data.length brk := by
  cases brk with
  | false => exact length_raw data
  | true =>
    simp only [lineOf, if_true, encodedLength, length_withBreaks (show 4 * 0 < 76 by omega), length_raw]
    omega

/-- The number of padding characters. -/
def padding (data : List UInt8) : Nat := modTable.getD (data.length % 3) 0

theorem padding_le (data : List UInt8) (brk : Bool) : padding data ≤ encodedLength data.length brk := by
  have hlt : data.length % 3 < 3 := Nat.mod_lt _ (by decide)
  have hle : ∀ r < 3, modTable.getD r 0 ≤ if r = 0 then 0 else 2 := by decide
  have hbound := hle _ hlt
  unfold padding encodedLength
  simp only
  split <;> split at hbound <;> omega

/-- What the encoder returns. No write is outside of its buffer. -/
theorem base64Encode_eq (data : List UInt8) (brk : Bool) :
    base64Encode data brk = .ok
      ⟨(lineOf brk 0 (raw data)).take (encodedLength data.length brk - padding data) ++
        List.replicate (padding data) base64Pad ++ [0], encodedLength data.length brk⟩ := by
  obtain ⟨n', hloop⟩ := encodeLoop_written brk data [] 1 0 (by decide)
  have hstart : (⟨List.replicate (encodedLength data.length brk + 1) 0, 0, 0⟩ : Encoder) =
      written [] (1 + (lineOf brk 0 (raw data)).length) 0 := by
    rw [length_lineOf, Nat.add_comm 1]
    rfl
  have hpad := padLoop_eq (lineOf brk 0 (raw data)) [0] (padding data)
    (by rw [length_lineOf]; exact padding_le data brk)
  rw [length_lineOf] at hpad
  rw [base64Encode, hstart, hloop, ok_bind]
  unfold padding at hpad ⊢
  simp only [written, List.nil_append, List.replicate_one]
  rw [hpad, ok_bind]
  rfl

/-! ### The returned text -/

theorem base64Encode_plain (data : List UInt8) :
    base64Encode data false = .ok ⟨encode data ++ [0], (encode data).length⟩ := by
  have hlen : encodedLength data.length false = (raw data).length := (length_raw data).symm
  have hout : (encode data).length = (raw data).length := by rw [length_encode, length_raw]
  rw [base64Encode_eq, hlen, hout, encode_eq]
  rfl

theorem take_length_append (l tail : List UInt8) : (l ++ tail).take l.length = l := by simp

/-- The text with line breaks that the encoder returns. -/
def brokenText (data : List UInt8) : List UInt8 :=
  (withBreaks 0 (raw data)).take (encodedLength data.length true - padding data) ++
    List.replicate (padding data) base64Pad

theorem length_brokenText (data : List UInt8) :
    (brokenText data).length = encodedLength data.length true := by
  have hlen : (withBreaks 0 (raw data)).length = encodedLength data.length true := length_lineOf true data
  have hle := padding_le data true
  rw [brokenText, List.length_append, List.length_take, List.length_replicate, hlen]
  omega

theorem base64Encode_broken (data : List UInt8) :
    base64Encode data true = .ok ⟨brokenText data ++ [0], (brokenText data).length⟩ := by
  rw [base64Encode_eq, length_brokenText]
  rfl

/-- The groups up to the padding, and the characters that it replaces. -/
theorem raw_split (data : List UInt8) : ∃ front back, raw data = front ++ back ∧
    back.length = padding data ∧ encode data = front ++ List.replicate (padding data) base64Pad := by
  have hle : padding data ≤ (raw data).length := by
    rw [length_raw]
    exact padding_le data false
  refine ⟨_, _, (List.take_append_drop ((raw data).length - padding data) _).symm, ?_, encode_eq data⟩
  rw [List.length_drop]
  omega

/-- When the last group is padded and does not end a line, the padding fits
into the last line. -/
theorem padding_fits (data : List UInt8) (h : data.length % 57 ≠ 55 ∧ data.length % 57 ≠ 56)
    (hpad : padding data ≠ 0) {n : Nat} (hn : n + padding data = (raw data).length) :
    n % 76 + padding data < 76 := by
  rw [length_raw] at hn
  unfold padding at hpad hn ⊢
  obtain hzero | hone | htwo : data.length % 3 = 0 ∨ data.length % 3 = 1 ∨ data.length % 3 = 2 := by
    omega
  · exact absurd (by rw [hzero]; rfl) hpad
  · rw [hone, show modTable.getD 1 0 = 2 from rfl] at hn ⊢
    omega
  · rw [htwo, show modTable.getD 2 0 = 1 from rfl] at hn ⊢
    omega

/-- The padding stands for the end of the last group, and no line break is
behind that. -/
theorem brokenText_eq (data : List UInt8) (h : data.length % 57 ≠ 55 ∧ data.length % 57 ≠ 56) :
    brokenText data = withBreaks 0 (encode data) := by
  have hlen : (withBreaks 0 (raw data)).length = encodedLength data.length true := length_lineOf true data
  obtain ⟨front, back, hraw, hback, hencode⟩ := raw_split data
  have hshort : ∀ text : List UInt8, text.length = padding data →
      withBreaks 0 (front ++ text) = withBreaks 0 front ++ text := by
    intro text htext
    rw [withBreaks_append (by decide), Nat.zero_add]
    by_cases hpad : padding data = 0
    · rw [List.eq_nil_of_length_eq_zero (htext.trans hpad), withBreaks]
    · have hfits := padding_fits data h hpad (n := front.length)
        (by rw [hraw, List.length_append, hback])
      have hline : withBreaks (front.length % 76) text = text := withBreaks_short (by omega)
      rw [hline]
  have hfront : encodedLength data.length true - padding data = (withBreaks 0 front).length := by
    rw [← hlen, hraw, hshort back hback, List.length_append, hback]
    omega
  rw [hencode, hshort _ List.length_replicate, brokenText, hraw, hshort back hback, hfront,
    take_length_append]

/-- A text whose last line is full ends with a line break. -/
theorem getLast_withBreaks (hne : text ≠ []) (hfull : text.length % 76 = 0) :
    (withBreaks 0 text).getLast? = some 10 := by
  obtain ⟨init, x, htext⟩ := (List.eq_nil_or_concat text).resolve_left hne
  rw [List.concat_eq_append] at htext
  subst htext
  have hcol : (0 + init.length) % 76 = 75 := by
    rw [List.length_append, List.length_singleton] at hfull
    omega
  rw [withBreaks_append (by decide), hcol]
  simp [withBreaks]

/-- When the last group is padded and ends a line, the padding is written
over the line break. -/
theorem brokenText_ne (data : List UInt8) (h : data.length % 57 = 55 ∨ data.length % 57 = 56) :
    brokenText data ≠ withBreaks 0 (encode data) := by
  have hlen := length_encode data
  have hne : encode data ≠ [] := by
    intro hnil
    rw [hnil, List.length_nil] at hlen
    omega
  have hlast := getLast_withBreaks hne (by rw [hlen]; omega)
  obtain ⟨k, hpad⟩ : ∃ k, padding data = k + 1 := by
    obtain hone | htwo : data.length % 3 = 1 ∨ data.length % 3 = 2 := by omega
    · exact ⟨1, by rw [padding, hone]; rfl⟩
    · exact ⟨0, by rw [padding, htwo]; rfl⟩
  intro heq
  rw [← heq, brokenText, hpad, List.replicate_succ', ← List.append_assoc, List.getLast?_concat] at hlast
  exact absurd hlast (by decide)

end Efio.Proofs.CoreUtils
