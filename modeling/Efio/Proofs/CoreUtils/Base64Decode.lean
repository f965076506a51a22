import Efio.Spec.Base64
import Mathlib.Algebra.Group.Nat.Defs
import Mathlib.Data.List.Basic

/-!
# `Efio.Proofs.CoreUtils.Base64Decode`: what the decoder accepts

`Decoded n vs d` says that the decoder `d` has read the sextets `vs`: the
buffer begins with their bytes, and behind these stand the left-over bits.
From it follows `returns_iff`, which says what `base64_decode` accepts.

`base64_iff` says the same of the grammar. The two differ only behind the
first `=`: there the decoder reads the `=` once more, so a second `=` may
be missing, and white space may not follow.
-/

set_option autoImplicit false

namespace Efio.Proofs.CoreUtils

open Efio.Lib
open Efio.CoreUtils
open Efio.Spec

variable {n m v : Nat} {vs ws : List Nat} {d d' : Decoder} {text rest r bytes : List UInt8}

/-! ### The alphabet -/

theorem decodingTable_symbol : ∀ v < 64, decodingTable.getD (symbol v).toNat 0 = v := by decide +kernel

theorem symbol_plain : ∀ v < 64, isSpace (symbol v) = false ∧ symbol v ≠ base64Pad := by decide +kernel

theorem symbol_decodingTable : ∀ i < 256, decodingTable.getD i 0 ≠ 0xFF →
    decodingTable.getD i 0 < 64 ∧ symbol (decodingTable.getD i 0) = UInt8.ofNat i := by decide +kernel

theorem symbol_injective {v w : Nat} (hv : v < 64) (hw : w < 64) (h : symbol v = symbol w) : v = w := by
  rw [← decodingTable_symbol v hv, h, decodingTable_symbol w hw]

/-- The character is in the alphabet. -/
theorem symbol_of_ne {c : UInt8} (h : decodingTable.getD c.toNat 0 ≠ 0xFF) :
    decodingTable.getD c.toNat 0 < 64 ∧ symbol (decodingTable.getD c.toNat 0) = c := by
  obtain ⟨hlt, hsymbol⟩ := symbol_decodingTable c.toNat c.toNat_lt h
  exact ⟨hlt, hsymbol.trans (UInt8.ofNat_toNat)⟩

/-- A character outside the alphabet is no symbol. -/
theorem symbol_ne_of_eq {c : UInt8} (h : decodingTable.getD c.toNat 0 = 0xFF) {v : Nat} (hv : v < 64) :
    symbol v ≠ c := by
  rintro rfl
  rw [decodingTable_symbol v hv] at h
  omega

/-! ### Sextets -/

theorem length_bytesOf (vs : List Nat) :
    (bytesOf vs).length = vs.length / 4 * 3 + (vs.length % 4 - 1) := by
  induction vs using bytesOf.induct with
  | case1 a b c d vs ih =>
    simp only [bytesOf, List.length_cons, ih]
    omega
  | _ => simp [bytesOf]

theorem length_group {a b c d : Nat} : (a :: b :: c :: d :: vs).length % 4 = vs.length % 4 := by
  simp only [List.length_cons]
  omega

/-- The first sextet of a group. -/
theorem bytesOf_snoc_zero (h : vs.length % 4 = 0) (v : Nat) :
    bytesOf (vs ++ [v]) = bytesOf vs ∧ leftover (vs ++ [v]) = v * 4 := by
  induction vs using bytesOf.induct with
  | case1 a b c d vs ih =>
    obtain ⟨hbytes, hleft⟩ := ih (length_group ▸ h)
    simp only [List.cons_append, bytesOf, leftover, hbytes, hleft, and_self]
  | case5 => exact ⟨rfl, rfl⟩
  | _ => simp at h

/-- Bits that do not overlap. -/
theorem ofNat_or_ofNat (k hi lo : Nat) (hlo : lo < 2 ^ k) :
    UInt8.ofNat (2 ^ k * hi) ||| UInt8.ofNat lo = UInt8.ofNat (2 ^ k * hi + lo) := by
  rw [Nat.two_pow_add_eq_or_of_lt hlo, UInt8.ofNat_or]

/-- The second sextet. It completes a byte, as the next two do. -/
theorem bytesOf_snoc_one (h : vs.length % 4 = 1) (hv : v < 64) :
    bytesOf (vs ++ [v]) = bytesOf vs ++ [UInt8.ofNat (leftover vs) ||| UInt8.ofNat (v / 16)] ∧
      leftover (vs ++ [v]) = v % 16 * 16 := by
  induction vs using bytesOf.induct with
  | case1 a b c d vs ih =>
    obtain ⟨hbytes, hleft⟩ := ih (length_group ▸ h)
    simp only [List.cons_append, bytesOf, leftover, hbytes, hleft, and_self]
  | case4 a =>
    have hor := ofNat_or_ofNat 2 a (v / 16) (by omega)
    simp only [List.cons_append, List.nil_append, bytesOf, leftover, and_true]
    rw [Nat.mul_comm a 4]
    simpa using hor.symm
  | _ => simp at h

theorem bytesOf_snoc_two (h : vs.length % 4 = 2) (hv : v < 64) :
    bytesOf (vs ++ [v]) = bytesOf vs ++ [UInt8.ofNat (leftover vs) ||| UInt8.ofNat (v / 4)] ∧
      leftover (vs ++ [v]) = v % 4 * 64 := by
  induction vs using bytesOf.induct with
  | case1 a b c d vs ih =>
    obtain ⟨hbytes, hleft⟩ := ih (length_group ▸ h)
    simp only [List.cons_append, bytesOf, leftover, hbytes, hleft, and_self]
  | case3 a b =>
    have hor := ofNat_or_ofNat 4 (b % 16) (v / 4) (by omega)
    simp only [List.cons_append, List.nil_append, bytesOf, leftover, and_true]
    rw [Nat.mul_comm (b % 16) 16]
    simpa using hor.symm
  | _ => simp at h

theorem bytesOf_snoc_three (h : vs.length % 4 = 3) (hv : v < 64) :
    bytesOf (vs ++ [v]) = bytesOf vs ++ [UInt8.ofNat (leftover vs) ||| UInt8.ofNat v] := by
  induction vs using bytesOf.induct with
  | case1 a b c d vs ih =>
    have hbytes := ih (length_group ▸ h)
    simp only [List.cons_append, bytesOf, leftover, hbytes]
  | case2 a b c =>
    have hor := ofNat_or_ofNat 6 (c % 4) v (by omega)
    simp only [List.cons_append, List.nil_append, bytesOf, leftover]
    rw [Nat.mul_comm (c % 4) 64]
    simpa using hor.symm
  | _ => simp at h

/-! ### The loop -/

theorem store_eq {buf : List UInt8} {i : Nat} (hi : i < buf.length) (b : UInt8) :
    store buf i b = .ok (buf.set i b) := if_pos hi

theorem orStore_eq {buf : List UInt8} {i : Nat} {old : UInt8} (hold : buf[i]? = some old) (b : UInt8) :
    orStore buf i b = .ok (buf.set i (old ||| b)) := by
  obtain ⟨hi, -⟩ := List.getElem?_eq_some_iff.1 hold
  simp only [orStore, load, hold, ok_bind, store_eq hi]

/-- The decoder has read the sextets `vs`. -/
structure Decoded (n : Nat) (vs : List Nat) (d : Decoder) : Prop where
  length : d.decodedData.length = n
  index : d.outIndex = (bytesOf vs).length
  state : d.state = vs.length % 4
  bytes : d.decodedData.take d.outIndex = bytesOf vs
  extra : vs.length % 4 ≠ 0 → d.decodedData[d.outIndex]? = some (UInt8.ofNat (leftover vs))

theorem take_set_succ {buf : List UInt8} {i : Nat} (hi : i < buf.length) (x : UInt8) :
    (buf.set i x).take (i + 1) = buf.take i ++ [x] := by
  rw [List.take_succ_eq_append_getElem (by simpa using hi), List.getElem_set_self,
    List.take_set_of_le (Nat.le_refl i)]

/-- A byte is complete, and further bits are left over. -/
theorem Decoded.shift (h : Decoded n vs d) (hpart : vs.length % 4 ≠ 0) (hroom : d.outIndex + 1 < n)
    {b e : UInt8}
    (hbytes : bytesOf (vs ++ [v]) = bytesOf vs ++ [UInt8.ofNat (leftover vs) ||| b])
    (hleft : UInt8.ofNat (leftover (vs ++ [v])) = e) :
    ∃ buf buf', orStore d.decodedData d.outIndex b = .ok buf ∧
      store buf (d.outIndex + 1) e = .ok buf' ∧
        Decoded n (vs ++ [v])
          { d with decodedData := buf', outIndex := d.outIndex + 1, state := (vs ++ [v]).length % 4 } := by
  have hi : d.outIndex + 1 < d.decodedData.length := h.length ▸ hroom
  have hi' : d.outIndex < d.decodedData.length := by omega
  refine ⟨_, _, orStore_eq (h.extra hpart) b, store_eq (by simpa using hi) e,
    ⟨?_, ?_, rfl, ?_, ?_⟩⟩
  · simpa using h.length
  · simp [hbytes, h.index]
  · simp only
    rw [List.take_set_of_le (Nat.le_refl _), take_set_succ hi', h.bytes, hbytes]
  · intro _
    simp [hi, hleft]

/-- The last byte of a group is complete. -/
theorem Decoded.last (h : Decoded n vs d) (hpart : vs.length % 4 = 3) {b : UInt8}
    (hbytes : bytesOf (vs ++ [v]) = bytesOf vs ++ [UInt8.ofNat (leftover vs) ||| b]) :
    ∃ buf, orStore d.decodedData d.outIndex b = .ok buf ∧
      Decoded n (vs ++ [v]) { d with decodedData := buf, outIndex := d.outIndex + 1, state := 0 } := by
  have hextra := h.extra (by omega)
  obtain ⟨hi, -⟩ := List.getElem?_eq_some_iff.1 hextra
  have hmod : (vs ++ [v]).length % 4 = 0 := by
    rw [List.length_append, List.length_singleton]
    omega
  refine ⟨_, orStore_eq hextra b, ⟨?_, ?_, hmod.symm, ?_, fun hne => absurd hmod hne⟩⟩
  · simpa using h.length
  · simp [hbytes, h.index]
  · simp only
    rw [take_set_succ hi, h.bytes, hbytes]

/-- A sextet is read as long as there is room for its group. -/
theorem Decoded.put (h : Decoded (m * 3) vs d) (hv : v < 64) :
    (vs.length / 4 < m → ∃ d', d.put (m * 3) v = .ok d' ∧ Decoded (m * 3) (vs ++ [v]) d' ∧
      d'.ch = d.ch) ∧
    (m ≤ vs.length / 4 → d.put (m * 3) v = .error .null) := by
  have hlen := h.length
  have hstate := h.state
  have hindex := h.index
  rw [length_bytesOf] at hindex
  have hnext : (vs ++ [v]).length = vs.length + 1 := by simp
  obtain h₀ | h₁ | h₂ | h₃ : vs.length % 4 = 0 ∨ vs.length % 4 = 1 ∨ vs.length % 4 = 2 ∨
      vs.length % 4 = 3 := by omega
  · rw [h₀] at hstate
    obtain ⟨hbytes, hleft⟩ := bytesOf_snoc_zero h₀ v
    constructor
    · intro hroom
      have hi : d.outIndex < d.decodedData.length := by omega
      refine ⟨{ d with decodedData := d.decodedData.set d.outIndex (UInt8.ofNat (v <<< 2)), state := 1 },
        ?_, ⟨by simpa using hlen, ?_, ?_, ?_, ?_⟩, rfl⟩
      · simp only [Decoder.put, hstate, if_neg (show ¬ d.outIndex ≥ m * 3 by omega), store_eq hi, ok_bind]
        rfl
      · rw [hbytes]
        exact h.index
      · rw [hnext]
        simp only
        omega
      · rw [hbytes]
        simpa [List.take_set_of_le] using h.bytes
      · intro _
        rw [hleft, ← Nat.shiftLeft_eq v 2]
        simp [hi]
    · intro hfull
      simp only [Decoder.put, hstate, if_pos (show d.outIndex ≥ m * 3 by omega)]
  · rw [h₁] at hstate
    obtain ⟨hbytes, hleft⟩ := bytesOf_snoc_one h₁ hv
    rw [← Nat.shiftRight_eq_div_pow v 4] at hbytes
    rw [← Nat.and_two_pow_sub_one_eq_mod v 4, ← Nat.shiftLeft_eq _ 4] at hleft
    constructor
    · intro hroom
      obtain ⟨buf, buf', hfirst, hsecond, hnow⟩ := h.shift (by omega) (by omega) hbytes
        (congrArg UInt8.ofNat hleft)
      refine ⟨_, ?_, hnow, rfl⟩
      simp only [Decoder.put, hstate, if_neg (show ¬ d.outIndex + 1 ≥ m * 3 by omega), hfirst, ok_bind]
      rw [hsecond, hnext, show (vs.length + 1) % 4 = 2 by omega]
      rfl
    · intro hfull
      simp only [Decoder.put, hstate, if_pos (show d.outIndex + 1 ≥ m * 3 by omega)]
  · rw [h₂] at hstate
    obtain ⟨hbytes, hleft⟩ := bytesOf_snoc_two h₂ hv
    rw [← Nat.shiftRight_eq_div_pow v 2] at hbytes
    rw [← Nat.and_two_pow_sub_one_eq_mod v 2, ← Nat.shiftLeft_eq _ 6] at hleft
    constructor
    · intro hroom
      obtain ⟨buf, buf', hfirst, hsecond, hnow⟩ := h.shift (by omega) (by omega) hbytes
        (congrArg UInt8.ofNat hleft)
      refine ⟨_, ?_, hnow, rfl⟩
      simp only [Decoder.put, hstate, if_neg (show ¬ d.outIndex + 1 ≥ m * 3 by omega), hfirst, ok_bind]
      rw [hsecond, hnext, show (vs.length + 1) % 4 = 3 by omega]
      rfl
    · intro hfull
      simp only [Decoder.put, hstate, if_pos (show d.outIndex + 1 ≥ m * 3 by omega)]
  · rw [h₃] at hstate
    constructor
    · intro hroom
      obtain ⟨buf, hfirst, hnow⟩ := h.last h₃ (bytesOf_snoc_three h₃ hv)
      refine ⟨_, ?_, hnow, rfl⟩
      simp only [Decoder.put, hstate, if_neg (show ¬ d.outIndex ≥ m * 3 by omega), hfirst, ok_bind]
      rfl
    · intro hfull
      simp only [Decoder.put, hstate, if_pos (show d.outIndex ≥ m * 3 by omega)]

theorem decoded_start (fresh : Nat → UInt8) :
    Decoded n [] ⟨(List.range n).map fresh, 0, 0, 0⟩ :=
  ⟨by simp, rfl, rfl, rfl, fun h => absurd rfl h⟩

/-- What a character can be. -/
theorem char_cases (ch : UInt8) : isSpace ch = true ∨ ch = base64Pad ∨
    (isSpace ch = false ∧ ch ≠ base64Pad ∧ decodingTable.getD ch.toNat 0 = 0xFF) ∨
      ∃ v < 64, ch = symbol v := by
  by_cases hspace : isSpace ch = true
  · exact .inl hspace
  by_cases hpad : ch = base64Pad
  · exact .inr (.inl hpad)
  by_cases hbad : decodingTable.getD ch.toNat 0 = 0xFF
  · exact .inr (.inr (.inl ⟨by simpa using hspace, hpad, hbad⟩))
  · obtain ⟨hlt, hsymbol⟩ := symbol_of_ne hbad
    exact .inr (.inr (.inr ⟨_, hlt, hsymbol.symm⟩))

theorem unspaced_symbol (hv : v < 64) : unspaced (symbol v :: text) = symbol v :: unspaced text := by
  simp [unspaced, (symbol_plain v hv).1]

theorem sextets_space {ch : UInt8} (h : isSpace ch = true) : sextets (ch :: text) = sextets text := by
  rw [sextets, if_pos h]

theorem sextets_pad : sextets (base64Pad :: text) = some ([], base64Pad :: text) := by
  rw [sextets, if_neg (by decide), if_pos rfl]

theorem sextets_bad {ch : UInt8} (hspace : isSpace ch = false) (hpad : ch ≠ base64Pad)
    (hbad : decodingTable.getD ch.toNat 0 = 0xFF) : sextets (ch :: text) = none := by
  rw [sextets, hspace, if_neg (by simp), if_neg hpad]
  simp only [hbad, if_true]

theorem sextets_symbol (hv : v < 64) :
    sextets (symbol v :: text) = (sextets text).map fun x => (v :: x.1, x.2) := by
  obtain ⟨hspace, hpad⟩ := symbol_plain v hv
  rw [sextets, hspace, if_neg (by simp), if_neg hpad]
  simp only [decodingTable_symbol v hv, if_neg (show ¬ v = 0xFF by omega)]

/-- Before the first `=` stand symbols and white space. -/
theorem sextets_some (h : sextets text = some (vs, rest)) :
    (∀ v ∈ vs, v < 64) ∧ (rest = [] ∨ ∃ r, rest = base64Pad :: r) ∧
      unspaced text = vs.map symbol ++ unspaced rest := by
  induction text generalizing vs with
  | nil =>
    obtain ⟨rfl, rfl⟩ : [] = vs ∧ [] = rest := by simpa [sextets] using h
    simp
  | cons ch text ih =>
    rcases char_cases ch with hspace | rfl | ⟨hspace, hpad, hbad⟩ | ⟨v, hv, rfl⟩
    · rw [sextets_space hspace] at h
      simpa [unspaced, hspace] using ih h
    · rw [sextets_pad] at h
      obtain ⟨rfl, rfl⟩ : [] = vs ∧ base64Pad :: text = rest := by simpa using h
      exact ⟨by simp, .inr ⟨text, rfl⟩, rfl⟩
    · rw [sextets_bad hspace hpad hbad] at h
      cases h
    · rw [sextets_symbol hv] at h
      obtain ⟨⟨ws, rest'⟩, hrest, heq⟩ := Option.map_eq_some_iff.1 h
      obtain ⟨rfl, rfl⟩ : v :: ws = vs ∧ rest' = rest := by simpa using heq
      obtain ⟨hlt, hpad, hsame⟩ := ih hrest
      refine ⟨?_, hpad, by rw [unspaced_symbol hv, hsame]; rfl⟩
      simpa using ⟨hv, hlt⟩

/-- A character that is outside the alphabet comes before the first `=`. -/
theorem sextets_none (h : sextets text = none) :
    ∃ (vs : List Nat) (ch : UInt8) (r : List UInt8), (∀ v ∈ vs, v < 64) ∧
      decodingTable.getD ch.toNat 0 = 0xFF ∧ ch ≠ base64Pad ∧
        unspaced text = vs.map symbol ++ ch :: r := by
  induction text with
  | nil => simp [sextets] at h
  | cons c text ih =>
    rcases char_cases c with hspace | rfl | ⟨hspace, hpad, hbad⟩ | ⟨v, hv, rfl⟩
    · rw [sextets_space hspace] at h
      simpa [unspaced, hspace] using ih h
    · rw [sextets_pad] at h
      cases h
    · exact ⟨[], c, unspaced text, by simp, hbad, hpad, by simp [unspaced, hspace]⟩
    · rw [sextets_symbol hv] at h
      obtain ⟨vs, ch, r, hlt, hbad, hpad, hsame⟩ := ih (Option.map_eq_none_iff.1 h)
      refine ⟨v :: vs, ch, r, by simpa using ⟨hv, hlt⟩, hbad, hpad, ?_⟩
      rw [unspaced_symbol hv, hsame]
      rfl

theorem Decoded.setCh (h : Decoded n vs d) (ch : UInt8) : Decoded n vs { d with ch := ch } :=
  ⟨h.length, h.index, h.state, h.bytes, h.extra⟩

theorem decodeLoop_symbol (hv : v < 64) : decodeLoop n (symbol v :: text) d = (do
    let d ← Decoder.put n v { d with ch := symbol v }
    decodeLoop n text d) := by
  obtain ⟨hspace, hpad⟩ := symbol_plain v hv
  rw [decodeLoop]
  simp only [hspace, Bool.false_eq_true, if_false, if_neg hpad, decodingTable_symbol v hv,
    if_neg (show ¬ v = 0xFF by omega)]

/-- The loop reads the sextets before the first `=`, when there is room for
them. -/
theorem decodeLoop_ok (h : Decoded (m * 3) vs d) (hsextets : sextets text = some (ws, rest))
    (hroom : vs.length + ws.length ≤ 4 * m) :
    ∃ d', decodeLoop (m * 3) text d = .ok (d', rest) ∧ Decoded (m * 3) (vs ++ ws) d' ∧
      (rest ≠ [] → d'.ch = base64Pad) ∧ (rest = [] → d.ch ≠ base64Pad → d'.ch ≠ base64Pad) := by
  induction text generalizing vs ws d with
  | nil =>
    obtain ⟨rfl, rfl⟩ : [] = ws ∧ [] = rest := by simpa [sextets] using hsextets
    exact ⟨d, rfl, by simpa using h, fun hne => absurd rfl hne, fun _ hch => hch⟩
  | cons ch text ih =>
    rcases char_cases ch with hspace | rfl | ⟨hspace, hpad, hbad⟩ | ⟨v, hv, rfl⟩
    · rw [sextets_space hspace] at hsextets
      obtain ⟨d', hrun, hdone, hpad, hplain⟩ := ih (h.setCh ch) hsextets hroom
      refine ⟨d', ?_, hdone, hpad, fun hrest _ => hplain hrest ?_⟩
      · simpa only [decodeLoop, hspace, if_true] using hrun
      · rintro rfl
        cases hspace
    · rw [sextets_pad] at hsextets
      obtain ⟨rfl, rfl⟩ : [] = ws ∧ base64Pad :: text = rest := by simpa using hsextets
      exact ⟨{ d with ch := base64Pad }, rfl, by simpa using h.setCh base64Pad, fun _ => rfl, by simp⟩
    · rw [sextets_bad hspace hpad hbad] at hsextets
      cases hsextets
    · rw [sextets_symbol hv] at hsextets
      obtain ⟨⟨ws', rest'⟩, hrest, heq⟩ := Option.map_eq_some_iff.1 hsextets
      obtain ⟨rfl, rfl⟩ : v :: ws' = ws ∧ rest' = rest := by simpa using heq
      rw [List.length_cons] at hroom
      obtain ⟨d₁, hput, hdone₁, hch⟩ := ((h.setCh (symbol v)).put hv).1 (by omega)
      obtain ⟨d', hrun, hdone, hpad, hplain⟩ := ih hdone₁ hrest (by
        rw [List.length_append, List.length_singleton]
        omega)
      refine ⟨d', by rw [decodeLoop_symbol hv, hput, ok_bind, hrun], by simpa using hdone, hpad, ?_⟩
      exact fun hrest _ => hplain hrest (hch ▸ (symbol_plain v hv).2)

/-- Else it fails. -/
theorem decodeLoop_error (h : Decoded (m * 3) vs d) (hvs : vs.length ≤ 4 * m)
    (hsextets : ∀ ws rest, sextets text = some (ws, rest) → 4 * m < vs.length + ws.length) :
    decodeLoop (m * 3) text d = .error .null := by
  induction text generalizing vs d with
  | nil =>
    have hroom := hsextets [] [] rfl
    rw [List.length_nil] at hroom
    omega
  | cons ch text ih =>
    rcases char_cases ch with hspace | rfl | ⟨hspace, hpad, hbad⟩ | ⟨v, hv, rfl⟩
    · rw [sextets_space hspace] at hsextets
      simpa only [decodeLoop, hspace, if_true] using ih (h.setCh ch) hvs hsextets
    · have hroom := hsextets [] _ sextets_pad
      rw [List.length_nil] at hroom
      omega
    · rw [decodeLoop, hspace]
      simp only [Bool.false_eq_true, if_false, if_neg hpad, hbad, if_true]
    · rw [decodeLoop_symbol hv]
      by_cases hroom : vs.length / 4 < m
      · obtain ⟨d₁, hput, hdone₁, -⟩ := ((h.setCh (symbol v)).put hv).1 hroom
        rw [hput, ok_bind]
        refine ih hdone₁ (by rw [List.length_append, List.length_singleton]; omega) ?_
        intro ws rest hws
        have hroom := hsextets (v :: ws) rest (by rw [sextets_symbol hv, hws]; rfl)
        rw [List.length_append, List.length_singleton]
        rw [List.length_cons] at hroom
        omega
      · rw [((h.setCh (symbol v)).put hv).2 (by omega)]
        rfl

/-! ### What is behind the first `=` -/

theorem onlySpaces_iff (ch : UInt8) (rest : List UInt8) :
    onlySpaces ch rest = true ↔ unspaced ((ch :: rest).dropLast.takeWhile (· ≠ 0)) = [] := by
  induction rest generalizing ch with
  | nil => simp [onlySpaces, unspaced]
  | cons c rest ih =>
    rw [List.dropLast_cons_of_ne_nil (List.cons_ne_nil c rest), onlySpaces]
    by_cases hzero : ch = 0
    · simp [hzero, unspaced]
    · cases hspace : isSpace ch <;> simp [hzero, hspace, unspaced, ih]

/-- Only white space stands there, up to a zero or the last character. -/
def Blank (r : List UInt8) : Prop := unspaced (r.dropLast.takeWhile (· ≠ 0)) = []

theorem onlySpaces_nextChar (past : UInt8) (r : List UInt8) :
    onlySpaces (nextChar past r).1 (nextChar past r).2 = true ↔ Blank r := by
  cases r with
  | nil => simp [nextChar, onlySpaces, Blank, unspaced]
  | cons ch r => exact onlySpaces_iff ch r

theorem onlySpaces_pad (r : List UInt8) : onlySpaces base64Pad r = true ↔ r = [] := by
  cases r <;> simp [onlySpaces, isSpace, base64Pad]

theorem skipSpaces_pad (r : List UInt8) : skipSpaces base64Pad r = (base64Pad, r) := by
  cases r <;> simp [skipSpaces, isSpace, base64Pad]

theorem leftover_lt (h : vs.length % 4 = 2 ∨ vs.length % 4 = 3) : leftover vs < 256 := by
  induction vs using bytesOf.induct with
  | case1 a b c d vs ih =>
    rw [length_group] at h
    exact ih h
  | case2 a b c =>
    simp only [leftover]
    omega
  | case3 a b =>
    simp only [leftover]
    omega
  | _ => simp at h

theorem checkTail_iff (h : Decoded n vs d) (hpart : vs.length % 4 = 2 ∨ vs.length % 4 = 3)
    (ch : UInt8) (r : List UInt8) :
    checkTail ch r d = .ok () ↔ onlySpaces ch r = true ∧ leftover vs = 0 := by
  have hextra := h.extra (by omega)
  have hlt := leftover_lt hpart
  have hzero : UInt8.ofNat (leftover vs) = 0 ↔ leftover vs = 0 := by
    rw [← UInt8.toNat_inj, UInt8.toNat_ofNat', UInt8.toNat_zero, Nat.mod_eq_of_lt hlt]
  cases honly : onlySpaces ch r
  · simp [checkTail, honly]
  · by_cases hleft : leftover vs = 0
    · simp [checkTail, honly, load, hextra, ok_bind, hleft]
    · simp [checkTail, honly, load, hextra, ok_bind, hzero, hleft]

/-- The padding is accepted. -/
theorem checkPad_iff (h : Decoded n vs d) (past : UInt8) (r : List UInt8) :
    checkPad past (base64Pad :: r) d = .ok () ↔
      leftover vs = 0 ∧ (vs.length % 4 = 3 ∧ r = [] ∨ vs.length % 4 = 2 ∧ Blank r) := by
  have hstate := h.state
  obtain h₀ | h₁ | h₂ | h₃ : vs.length % 4 = 0 ∨ vs.length % 4 = 1 ∨ vs.length % 4 = 2 ∨
      vs.length % 4 = 3 := by omega
  · rw [h₀] at hstate
    simp [checkPad, hstate, h₀]
  · rw [h₁] at hstate
    simp [checkPad, hstate, h₁]
  · rw [h₂] at hstate
    have htail := checkTail_iff h (.inl h₂) (nextChar past r).1 (nextChar past r).2
    rw [onlySpaces_nextChar] at htail
    simp only [checkPad, nextChar, List.headD_cons, List.tail_cons, hstate, skipSpaces_pad]
    simpa [h₂, nextChar, and_comm] using htail
  · rw [h₃] at hstate
    have htail := checkTail_iff h (.inr h₃) base64Pad r
    rw [onlySpaces_pad] at htail
    simp only [checkPad, nextChar, List.headD_cons, List.tail_cons, hstate]
    simpa [h₃, and_comm] using htail

/-! ### What the decoder accepts -/

theorem sextets_length (h : sextets text = some (vs, rest)) : vs.length + rest.length ≤ text.length := by
  induction text generalizing vs with
  | nil =>
    obtain ⟨rfl, rfl⟩ : [] = vs ∧ [] = rest := by simpa [sextets] using h
    simp
  | cons ch text ih =>
    rcases char_cases ch with hspace | rfl | ⟨hspace, hpad, hbad⟩ | ⟨v, hv, rfl⟩
    · rw [sextets_space hspace] at h
      exact Nat.le_succ_of_le (ih h)
    · rw [sextets_pad] at h
      obtain ⟨rfl, rfl⟩ : [] = vs ∧ base64Pad :: text = rest := by simpa using h
      simp
    · rw [sextets_bad hspace hpad hbad] at h
      cases h
    · rw [sextets_symbol hv] at h
      obtain ⟨⟨ws, rest'⟩, hrest, heq⟩ := Option.map_eq_some_iff.1 h
      obtain ⟨rfl, rfl⟩ : v :: ws = vs ∧ rest' = rest := by simpa using heq
      have hle := ih hrest
      simp only [List.length_cons]
      omega

theorem Decoded.data (h : Decoded n vs d) : (Output.mk d.decodedData d.outIndex).data = bytesOf vs := h.bytes

theorem Decoded.returns (h : Decoded n vs d) :
    Returns (.ok ⟨d.decodedData, d.outIndex⟩) bytes ↔ bytes = bytesOf vs := by
  constructor
  · rintro ⟨o, hok, rfl, -⟩
    obtain rfl := Except.ok.inj hok
    exact h.data
  · rintro rfl
    exact ⟨_, rfl, h.data, h.index⟩

theorem returns_error {e : Stop} : ¬ Returns (.error e) bytes := by simp [Returns]

/-- Before the first `=` is no room for the sextets. -/
theorem not_returns (fresh : Nat → UInt8) (past : UInt8)
    (h : ∀ vs rest, sextets text = some (vs, rest) → 4 * (text.length / 4) < vs.length) :
    ¬ Returns (base64Decode fresh past text) bytes := by
  have herror : decodeLoop (text.length / 4 * 3) text
      ⟨(List.range (text.length / 4 * 3)).map fresh, 0, 0, 0⟩ = .error .null :=
    decodeLoop_error (decoded_start fresh) (by simp) (by simpa using h)
  have hrun : base64Decode fresh past text = .error .null := by
    simp only [base64Decode, estimatedLength, herror]
    rfl
  rw [hrun]
  exact returns_error

/-- There is no `=`. -/
theorem returns_plain (fresh : Nat → UInt8) (past : UInt8) (h : sextets text = some (vs, []))
    (hroom : vs.length ≤ 4 * (text.length / 4)) :
    Returns (base64Decode fresh past text) bytes ↔ bytes = bytesOf vs ∧ vs.length % 4 = 0 := by
  obtain ⟨d', hrun, hdone, -, hplain⟩ := decodeLoop_ok (decoded_start fresh) h (by simpa using hroom)
  rw [List.nil_append] at hdone
  have hch := hplain rfl (by simp [base64Pad])
  by_cases hstate : vs.length % 4 = 0
  · have hreturn : base64Decode fresh past text = .ok ⟨d'.decodedData, d'.outIndex⟩ := by
      simp only [base64Decode, estimatedLength, hrun, ok_bind, if_neg hch, hdone.state, hstate]
      rfl
    rw [hreturn, hdone.returns]
    simp [hstate]
  · have hreturn : base64Decode fresh past text = .error .null := by
      simp only [base64Decode, estimatedLength, hrun, ok_bind, if_neg hch, hdone.state, ne_eq, hstate,
        not_false_eq_true, if_true]
      rfl
    rw [hreturn]
    simp [returns_error, hstate]

/-- There is an `=`. -/
theorem returns_padded (fresh : Nat → UInt8) (past : UInt8) (h : sextets text = some (vs, base64Pad :: r))
    (hroom : vs.length ≤ 4 * (text.length / 4)) :
    Returns (base64Decode fresh past text) bytes ↔ bytes = bytesOf vs ∧
      leftover vs = 0 ∧ (vs.length % 4 = 3 ∧ r = [] ∨ vs.length % 4 = 2 ∧ Blank r) := by
  obtain ⟨d', hrun, hdone, hpad, -⟩ := decodeLoop_ok (decoded_start fresh) h (by simpa using hroom)
  rw [List.nil_append] at hdone
  have hch := hpad (List.cons_ne_nil _ _)
  rw [← checkPad_iff hdone past r]
  cases hcheck : checkPad past (base64Pad :: r) d' with
  | ok =>
    have hreturn : base64Decode fresh past text = .ok ⟨d'.decodedData, d'.outIndex⟩ := by
      simp only [base64Decode, estimatedLength, hrun, ok_bind, if_pos hch, hcheck]
      rfl
    rw [hreturn, hdone.returns]
    simp
  | error e =>
    have hreturn : base64Decode fresh past text = .error e := by
      simp only [base64Decode, estimatedLength, hrun, ok_bind, if_pos hch, hcheck]
      rfl
    rw [hreturn]
    simp [returns_error]

theorem leftover_zero (h : vs.length % 4 = 0) : leftover vs = 0 := by
  induction vs using bytesOf.induct with
  | case1 a b c d vs ih => exact ih (length_group ▸ h)
  | case5 => rfl
  | _ => simp at h

/-- What the decoder accepts. -/
theorem returns_iff (fresh : Nat → UInt8) (past : UInt8) :
    Returns (base64Decode fresh past text) bytes ↔ ∃ vs rest, sextets text = some (vs, rest) ∧ bytes = bytesOf vs ∧
      leftover vs = 0 ∧ (rest = [] ∧ vs.length % 4 = 0 ∨ ∃ r, rest = base64Pad :: r ∧
        (vs.length % 4 = 3 ∧ r = [] ∨
          vs.length % 4 = 2 ∧ Blank r ∧ 4 * (vs.length / 4 + 1) ≤ text.length)) := by
  constructor
  · intro hreturns
    obtain ⟨vs, rest, hsextets, hroom⟩ : ∃ vs rest, sextets text = some (vs, rest) ∧
        vs.length ≤ 4 * (text.length / 4) := by
      by_contra hnot
      exact not_returns fresh past (fun vs rest hs => by_contra fun hle => hnot ⟨vs, rest, hs, by omega⟩)
        hreturns
    obtain ⟨-, rfl | ⟨r, rfl⟩, -⟩ := sextets_some hsextets
    · obtain ⟨hbytes, hmod⟩ := (returns_plain fresh past hsextets hroom).1 hreturns
      exact ⟨vs, [], hsextets, hbytes, leftover_zero hmod, .inl ⟨rfl, hmod⟩⟩
    · obtain ⟨hbytes, hleft, hpad⟩ := (returns_padded fresh past hsextets hroom).1 hreturns
      refine ⟨vs, _, hsextets, hbytes, hleft, .inr ⟨r, rfl, hpad.imp_right ?_⟩⟩
      rintro ⟨hmod, hblank⟩
      exact ⟨hmod, hblank, by omega⟩
  · rintro ⟨vs, rest, hsextets, hbytes, hleft, ⟨rfl, hmod⟩ | ⟨r, rfl, hpad⟩⟩
    · have hlen := sextets_length hsextets
      rw [List.length_nil] at hlen
      exact (returns_plain fresh past hsextets (by omega)).2 ⟨hbytes, hmod⟩
    · have hlen := sextets_length hsextets
      rw [List.length_cons] at hlen
      refine (returns_padded fresh past hsextets (by omega)).2 ⟨hbytes, hleft, hpad.imp_right ?_⟩
      rintro ⟨hmod, hblank, -⟩
      exact ⟨hmod, hblank⟩

/-! ### What the grammar says -/

theorem base64_group {a b c d : Nat} (ha : a < 64) (hb : b < 64) (hc : c < 64) (hd : d < 64) :
    Base64 (symbol a :: symbol b :: symbol c :: symbol d :: text) bytes ↔
      ∃ bs, Base64 text bs ∧ bytes = UInt8.ofNat (a * 4 + b / 16) ::
        UInt8.ofNat (b % 16 * 16 + c / 4) :: UInt8.ofNat (c % 4 * 64 + d) :: bs := by
  constructor
  · intro h
    generalize htext : symbol a :: symbol b :: symbol c :: symbol d :: text = t at h
    cases h with
    | nil => cases htext
    | @group a' b' c' d' _ bs ha' hb' hc' hd' hrest =>
      simp only [List.cons.injEq] at htext
      obtain ⟨hsa, hsb, hsc, hsd, rfl⟩ := htext
      obtain rfl := symbol_injective ha ha' hsa
      obtain rfl := symbol_injective hb hb' hsb
      obtain rfl := symbol_injective hc hc' hsc
      obtain rfl := symbol_injective hd hd' hsd
      exact ⟨bs, hrest, rfl⟩
    | one _ _ _ =>
      simp only [List.cons.injEq] at htext
      exact absurd htext.2.2.2.1 (symbol_plain d hd).2
    | two _ _ _ _ =>
      simp only [List.cons.injEq] at htext
      exact absurd htext.2.2.2.1 (symbol_plain d hd).2
  · rintro ⟨bs, hrest, rfl⟩
    exact .group ha hb hc hd hrest

/-- The text does not begin with a symbol. -/
def Stops (tail : List UInt8) : Prop := ∀ v < 64, tail.head? ≠ some (symbol v)

/-- A text of base64 that is symbols up to `tail`. -/
theorem base64_symbols {tail : List UInt8} (hvs : ∀ v ∈ vs, v < 64) (htail : Stops tail) :
    Base64 (vs.map symbol ++ tail) bytes ↔ bytes = bytesOf vs ∧ leftover vs = 0 ∧
      (tail = [] ∧ vs.length % 4 = 0 ∨ tail = [base64Pad] ∧ vs.length % 4 = 3 ∨
        tail = [base64Pad, base64Pad] ∧ vs.length % 4 = 2) := by
  induction vs using bytesOf.induct generalizing bytes with
  | case1 a b c d vs ih =>
    simp only [List.mem_cons, forall_eq_or_imp] at hvs
    obtain ⟨ha, hb, hc, hd, hvs⟩ := hvs
    simp only [List.map_cons, List.cons_append, base64_group ha hb hc hd, ih hvs, length_group]
    constructor
    · rintro ⟨bs, ⟨rfl, hrest⟩, rfl⟩
      exact ⟨rfl, hrest⟩
    · rintro ⟨rfl, hrest⟩
      exact ⟨_, ⟨rfl, hrest⟩, rfl⟩
  | case2 a b c =>
    simp only [List.mem_cons, forall_eq_or_imp] at hvs
    obtain ⟨ha, hb, hc, -⟩ := hvs
    constructor
    · intro h
      generalize htext : List.map symbol [a, b, c] ++ tail = t at h
      simp only [List.map_cons, List.map_nil, List.cons_append, List.nil_append] at htext
      cases h with
      | nil => cases htext
      | group _ _ _ hd' _ =>
        simp only [List.cons.injEq] at htext
        exact absurd (by rw [htext.2.2.2, List.head?_cons]) (htail _ hd')
      | one _ _ _ =>
        simp only [List.cons.injEq] at htext
        exact absurd htext.2.2.1 (symbol_plain c hc).2
      | two ha' hb' hc' hzero =>
        simp only [List.cons.injEq] at htext
        obtain ⟨hsa, hsb, hsc, rfl⟩ := htext
        obtain rfl := symbol_injective ha ha' hsa
        obtain rfl := symbol_injective hb hb' hsb
        obtain rfl := symbol_injective hc hc' hsc
        simp [bytesOf, leftover, hzero]
    · rintro ⟨rfl, hleft, ⟨rfl, hmod⟩ | ⟨rfl, -⟩ | ⟨rfl, hmod⟩⟩
      · simp at hmod
      · simp only [leftover] at hleft
        exact .two ha hb hc (by omega)
      · simp at hmod
  | case3 a b =>
    simp only [List.mem_cons, forall_eq_or_imp] at hvs
    obtain ⟨ha, hb, -⟩ := hvs
    constructor
    · intro h
      generalize htext : List.map symbol [a, b] ++ tail = t at h
      simp only [List.map_cons, List.map_nil, List.cons_append, List.nil_append] at htext
      cases h with
      | nil => cases htext
      | group _ _ hc' _ _ =>
        simp only [List.cons.injEq] at htext
        exact absurd (by rw [htext.2.2, List.head?_cons]) (htail _ hc')
      | one ha' hb' hzero =>
        simp only [List.cons.injEq] at htext
        obtain ⟨hsa, hsb, rfl⟩ := htext
        obtain rfl := symbol_injective ha ha' hsa
        obtain rfl := symbol_injective hb hb' hsb
        simp [bytesOf, leftover, hzero]
      | two _ _ hc' _ =>
        simp only [List.cons.injEq] at htext
        exact absurd (by rw [htext.2.2, List.head?_cons]) (htail _ hc')
    · rintro ⟨rfl, hleft, ⟨rfl, hmod⟩ | ⟨rfl, hmod⟩ | ⟨rfl, -⟩⟩
      · simp at hmod
      · simp at hmod
      · simp only [leftover] at hleft
        exact .one ha hb (by omega)
  | case4 a =>
    constructor
    · intro h
      generalize htext : List.map symbol [a] ++ tail = t at h
      simp only [List.map_cons, List.map_nil, List.cons_append, List.nil_append] at htext
      -- every text goes on with another symbol
      cases h with
      | nil => cases htext
      | group _ hb' _ _ _ | one _ hb' _ | two _ hb' _ _ =>
        simp only [List.cons.injEq] at htext
        exact absurd (by rw [htext.2, List.head?_cons]) (htail _ hb')
    · rintro ⟨-, -, ⟨-, hmod⟩ | ⟨-, hmod⟩ | ⟨-, hmod⟩⟩ <;> simp at hmod
  | case5 =>
    constructor
    · intro h
      generalize htext : List.map symbol [] ++ tail = t at h
      simp only [List.map_nil, List.nil_append] at htext
      cases h with
      | nil => simp [htext, bytesOf, leftover]
      | group ha' _ _ _ _ | one ha' _ _ | two ha' _ _ _ =>
        exact absurd (by rw [htext, List.head?_cons]) (htail _ ha')
    · rintro ⟨rfl, -, ⟨rfl, -⟩ | ⟨-, hmod⟩ | ⟨-, hmod⟩⟩
      · exact .nil
      · simp at hmod
      · simp at hmod

theorem stops_nil : Stops [] := by simp [Stops]

theorem stops_cons {ch : UInt8} (h : ∀ v < 64, symbol v ≠ ch) : Stops (ch :: text) := by
  intro v hv heq
  rw [List.head?_cons, Option.some.injEq] at heq
  exact h v hv heq.symm

theorem stops_pad : Stops (base64Pad :: text) := stops_cons fun v hv => (symbol_plain v hv).2

/-- What the grammar accepts once the white space is gone. -/
theorem base64_iff : Base64 (unspaced text) bytes ↔ ∃ vs rest, sextets text = some (vs, rest) ∧
    bytes = bytesOf vs ∧ leftover vs = 0 ∧ (rest = [] ∧ vs.length % 4 = 0 ∨ ∃ r, rest = base64Pad :: r ∧
      (vs.length % 4 = 3 ∧ unspaced r = [] ∨ vs.length % 4 = 2 ∧ unspaced r = [base64Pad])) := by
  cases hsextets : sextets text with
  | none =>
    obtain ⟨vs, ch, r, hlt, hbad, hpad, hsame⟩ := sextets_none hsextets
    rw [hsame, base64_symbols hlt (stops_cons fun v hv => symbol_ne_of_eq hbad hv)]
    simp [hpad]
  | some x =>
    obtain ⟨vs, rest⟩ := x
    obtain ⟨hlt, rfl | ⟨r, rfl⟩, hsame⟩ := sextets_some hsextets
    · rw [hsame, show unspaced [] = [] from rfl, base64_symbols hlt stops_nil]
      simp
    · rw [hsame, show unspaced (base64Pad :: r) = base64Pad :: unspaced r from rfl,
        base64_symbols hlt stops_pad]
      simp only [Option.some.injEq, Prod.mk.injEq, List.cons.injEq, true_and]
      constructor
      · rintro ⟨rfl, hleft, ⟨hnil, -⟩ | ⟨hr, hmod⟩ | ⟨hr, hmod⟩⟩
        · cases hnil
        · exact ⟨vs, _, ⟨rfl, rfl⟩, rfl, hleft, .inr ⟨r, rfl, .inl ⟨hmod, hr⟩⟩⟩
        · exact ⟨vs, _, ⟨rfl, rfl⟩, rfl, hleft, .inr ⟨r, rfl, .inr ⟨hmod, hr⟩⟩⟩
      · rintro ⟨vs', rest', ⟨rfl, rfl⟩, rfl, hleft, ⟨hnil, -⟩ | ⟨r', heq, ⟨hmod, hr⟩ | ⟨hmod, hr⟩⟩⟩
        · cases hnil
        · obtain rfl := (List.cons.inj heq).2
          exact ⟨rfl, hleft, .inr (.inl ⟨hr, hmod⟩)⟩
        · obtain rfl := (List.cons.inj heq).2
          exact ⟨rfl, hleft, .inr (.inr ⟨hr, hmod⟩)⟩

end Efio.Proofs.CoreUtils
