import Efio.Proofs.CoreUtils.Base64Decode
import Efio.Spec.DecodeBounds
import Mathlib.Data.List.GetD

/-!
# `Efio.Proofs.CoreUtils.Base64Access`: where `base64_decode` reads and writes

The decoder with its accesses computes what the decoder computes
(`base64DecodeAt_result`). The bounds of its loops keep every access in the
buffers, whatever the state is; behind the loops there are two accesses that
no test guards, and one of them, the read behind the second `=` that is not
there, can leave the input (`base64Decode_inBounds`).
-/

set_option autoImplicit false

namespace Efio.Proofs.CoreUtils

open Efio.CoreUtils
open Efio.Lib
open Efio.Lib.Traced
open Efio.Spec

variable {n : Nat} {d : Decoder} {past : UInt8} {data : List UInt8}

/-! ### What it computes -/

theorem orStoreAt_result (buf : List UInt8) (j : Nat) (b : UInt8) :
    (orStoreAt buf j b).result = orStore buf j b := by
  simp only [orStoreAt, orStore, loadAt, storeAt, result_bind, result_access]

@[simp] theorem storeAt_result (buf : List UInt8) (j : Nat) (b : UInt8) :
    (storeAt buf j b).result = store buf j b := rfl

/-- Both have the same cases. -/
theorem putAt_result (sextet : Nat) (d : Decoder) : (d.putAt n sextet).result = d.put n sextet := by
  obtain ⟨buf, out, state, ch⟩ := d
  match state with
  | 0 | 1 | 2 | 3 =>
    simp only [Decoder.putAt, Decoder.put, apply_ite Traced.result, result_bind, result_stop,
      storeAt_result, orStoreAt_result, result_pure]
    rfl
  | _ + 4 => rfl

theorem drop_of_lt {i : Nat} (past : UInt8) (hi : i < data.length) :
    data.drop i = data.getD i past :: data.drop (i + 1) := by
  rw [List.drop_eq_getElem_cons hi, List.getD_eq_getElem _ _ hi]

/-- The end of the loop, in terms of what is left of the input. -/
def endIndex (data : List UInt8) (x : Decoder × List UInt8) : Decoder × Nat :=
  (x.1, data.length - x.2.length)

theorem pure_result_end {i : Nat} (hi : i = data.length) (d : Decoder) :
    (pure (d, i) : Decoding (Decoder × Nat)).result = (decodeLoop n (data.drop i) d).map (endIndex data) := by
  subst hi
  rw [List.drop_length, decodeLoop]
  rfl

/-- The loop ends where the loop over the rest of the input does. -/
theorem decodeLoopAt_result {rounds i : Nat} (hrounds : data.length ≤ i + rounds) (hi : i ≤ data.length) :
    (decodeLoopAt past data n rounds i d).result = (decodeLoop n (data.drop i) d).map (endIndex data) := by
  induction rounds generalizing i d with
  | zero => exact pure_result_end (by omega) d
  | succ rounds ih =>
    rw [decodeLoopAt]
    by_cases hlt : i < data.length
    · have hnext : ∀ d : Decoder, (decodeLoopAt past data n rounds (i + 1) d).result =
          (decodeLoop n (data.drop (i + 1)) d).map (endIndex data) := fun d => ih (by omega) hlt
      have hdrop := drop_of_lt past hlt
      rw [if_pos hlt, hdrop, decodeLoop]
      simp only [readData, result_bind, result_access]
      show Traced.result (if _ then _ else _) = _
      split
      · exact hnext _
      · split
        · -- The loop stops at a pad, which is still to be read.
          show Except.ok _ = Except.ok (_, data.length - (_ :: data.drop (i + 1)).length)
          have hindex : data.length - (data.drop (i + 1)).length.succ = i := by
            rw [List.length_drop]
            omega
          rw [List.length_cons, hindex]
        · split
          · rfl
          · rw [result_bind, putAt_result]
            cases Decoder.put n _ _ with
            | error e => rfl
            | ok d => exact hnext d
    · rw [if_neg hlt]
      exact pure_result_end (by omega) d

/-- The first pad is no space. -/
theorem skipSpacesAt_pad (rounds i : Nat) :
    skipSpacesAt past data rounds base64Pad i = pure (base64Pad, i) := by
  cases rounds with
  | zero => rfl
  | succ rounds =>
    have hspace : (!isSpace base64Pad) = true := by decide
    rw [skipSpacesAt, if_pos hspace, ite_self]

theorem onlySpacesAt_result {rounds i : Nat} (hrounds : data.length ≤ i + rounds) (ch : UInt8) :
    (onlySpacesAt past data rounds ch i).result =
      if onlySpaces ch (data.drop i) then .ok () else .error .null := by
  induction rounds generalizing ch i with
  | zero =>
    rw [List.drop_eq_nil_of_le (by omega), onlySpaces]
    rfl
  | succ rounds ih =>
    rw [onlySpacesAt]
    by_cases hlt : i < data.length
    · rw [drop_of_lt past hlt, onlySpaces]
      by_cases hzero : ch = 0
      · subst hzero
        rfl
      · rw [if_pos ⟨hzero, hlt⟩, if_pos hzero]
        split
        · rfl
        · exact ih (by omega) _
    · rw [if_neg (by simp [hlt]), List.drop_eq_nil_of_le (by omega), onlySpaces]
      rfl

theorem checkTailAt_result (ch : UInt8) (i : Nat) (d : Decoder) :
    (checkTailAt past data ch i d).result = checkTail ch (data.drop i) d := by
  simp only [checkTailAt, checkTail, result_bind, onlySpacesAt_result (Nat.le_add_left _ _)]
  split
  · simp only [loadAt, result_access, apply_ite Traced.result, result_stop, result_pure]
    rfl
  · rfl

theorem drop_succ {i : Nat} {c : UInt8} {r : List UInt8} (h : data.drop i = c :: r) :
    data.drop (i + 1) = r := by
  rw [← List.drop_drop, h]
  rfl

theorem readData_result (i : Nat) :
    (readData past data i).result = .ok (nextChar past (data.drop i)).1 := by
  show Except.ok _ = Except.ok ((data.drop i).headD past)
  rw [List.headD_eq_head?_getD, List.head?_drop, List.getD_eq_getElem?_getD]

/-- The index `i` is that of a pad. -/
theorem checkPadAt_result {i : Nat} {r : List UInt8} (hi : data.drop i = base64Pad :: r) (d : Decoder) :
    (checkPadAt past data i d).result = checkPad past (base64Pad :: r) d := by
  have hnext := drop_succ hi
  rw [checkPadAt, result_bind, readData_result, hi]
  obtain ⟨buf, out, state, ch⟩ := d
  match state with
  | 0 | 1 => rfl
  | 2 =>
    -- The second look is at the same pad.
    show (skipSpacesAt past data data.length base64Pad (i + 1) >>= _).result = _
    rw [skipSpacesAt_pad, Traced.pure_bind]
    show (readData past data (i + 1) >>= _).result = _
    rw [result_bind, readData_result, hnext]
    show (checkTailAt past data (nextChar past r).1 (i + 1 + 1) _).result = _
    have htail : data.drop (i + 1 + 1) = (nextChar past r).2 := by
      rw [nextChar, ← hnext, List.tail_drop]
    rw [checkTailAt_result, htail]
    simp only [checkPad, nextChar, List.headD_cons, List.tail_cons, skipSpaces_pad]
    rfl
  | 3 =>
    show (checkTailAt past data base64Pad (i + 1) _).result = _
    rw [checkTailAt_result, hnext]
    rfl
  | _ + 4 => rfl

theorem sextets_suffix {text rest : List UInt8} {vs : List Nat} (h : sextets text = some (vs, rest)) :
    rest <:+ text := by
  induction text generalizing vs with
  | nil =>
    obtain ⟨-, rfl⟩ : [] = vs ∧ [] = rest := by simpa [sextets] using h
    exact List.suffix_refl _
  | cons ch text ih =>
    rcases char_cases ch with hspace | rfl | ⟨hspace, hpad, hbad⟩ | ⟨v, hv, rfl⟩
    · rw [sextets_space hspace] at h
      exact (ih h).trans (List.suffix_cons ch text)
    · rw [sextets_pad] at h
      obtain ⟨-, rfl⟩ : [] = vs ∧ base64Pad :: text = rest := by simpa using h
      exact List.suffix_refl _
    · rw [sextets_bad hspace hpad hbad] at h
      cases h
    · rw [sextets_symbol hv] at h
      obtain ⟨⟨ws, r⟩, hx, heq⟩ := Option.map_eq_some_iff.mp h
      obtain ⟨-, rfl⟩ := Prod.mk.inj heq
      exact (ih hx).trans (List.suffix_cons _ text)

/-- The loop stops with `NULL`, or behind the sextets `vs` at the end of the
input or at a pad. -/
theorem decodeLoop_cases (fresh : Nat → UInt8) (data : List UInt8) :
    let start : Decoder := ⟨(List.range (estimatedLength data.length)).map fresh, 0, 0, 0⟩
    (decodeLoop (estimatedLength data.length) data start = .error .null ∧
      ∀ vs rest, sextets data = some (vs, rest) → 4 * (data.length / 4) < vs.length) ∨
    ∃ d vs rest, decodeLoop (estimatedLength data.length) data start = .ok (d, rest) ∧
      sextets data = some (vs, rest) ∧ vs.length ≤ 4 * (data.length / 4) ∧
      Decoded (estimatedLength data.length) vs d ∧ (d.ch = base64Pad ↔ rest ≠ []) := by
  intro start
  by_cases hroom : ∃ vs rest, sextets data = some (vs, rest) ∧ vs.length ≤ 4 * (data.length / 4)
  · obtain ⟨vs, rest, hsextets, hroom⟩ := hroom
    obtain ⟨d, hrun, hdecoded, hpad, hplain⟩ := decodeLoop_ok (decoded_start fresh) hsextets (by simpa using hroom)
    refine .inr ⟨d, vs, rest, hrun, hsextets, hroom, hdecoded, ?_, hpad⟩
    rintro hch rfl
    exact hplain rfl (by simp [base64Pad]) hch
  · refine .inl ⟨decodeLoop_error (decoded_start fresh) (Nat.zero_le _) ?_, ?_⟩
    · intro vs rest hsextets
      have hlt := Nat.lt_of_not_le fun hle => hroom ⟨vs, rest, hsextets, hle⟩
      rwa [List.length_nil, Nat.zero_add]
    · intro vs rest hsextets
      exact Nat.lt_of_not_le fun hle => hroom ⟨vs, rest, hsextets, hle⟩

/-- What is left of the input begins at its index. -/
theorem drop_rest {vs : List Nat} {rest : List UInt8} (h : sextets data = some (vs, rest)) :
    data.drop (data.length - rest.length) = rest :=
  (List.suffix_iff_eq_drop.mp (sextets_suffix h)).symm

/-- At a pad the rest of the input begins with it. -/
theorem rest_of_ne_nil {vs : List Nat} {rest : List UInt8} (h : sextets data = some (vs, rest))
    (hne : rest ≠ []) : ∃ r, rest = base64Pad :: r :=
  (sextets_some h).2.1.resolve_left hne

/-- **The accesses change nothing in the result.** -/
theorem base64DecodeAt_result (past : UInt8) (data : List UInt8) (fresh : Nat → UInt8) :
    (base64DecodeAt past data (some fresh)).result = base64Decode fresh past data := by
  rw [base64DecodeAt, base64Decode, result_bind, decodeLoopAt_result (Nat.le_add_left _ _) (Nat.zero_le _),
    List.drop_zero]
  obtain ⟨herror, -⟩ | ⟨d, vs, rest, hrun, hsextets, -, -, hpad⟩ := decodeLoop_cases fresh data
  · rw [herror]
    rfl
  · rw [hrun]
    simp only [Except.map, endIndex, ok_bind]
    by_cases hch : d.ch = base64Pad
    · obtain ⟨r, rfl⟩ := rest_of_ne_nil hsextets (hpad.mp hch)
      rw [if_pos hch, if_pos hch, result_bind, checkPadAt_result (drop_rest hsextets)]
      rfl
    · rw [if_neg hch, if_neg hch]
      split <;> rfl

/-! ### Where it reads and writes -/

theorem loadAt_within {m j : Nat} (hj : j < m / 4 * 3) (buf : List UInt8) :
    Within (InBounds m) (loadAt buf j) := within_access.mpr hj

theorem storeAt_within {m j : Nat} (hj : j < m / 4 * 3) (buf : List UInt8) (b : UInt8) :
    Within (InBounds m) (storeAt buf j b) := within_access.mpr hj

theorem orStoreAt_within {m j : Nat} (hj : j < m / 4 * 3) (buf : List UInt8) (b : UInt8) :
    Within (InBounds m) (orStoreAt buf j b) :=
  (loadAt_within hj buf).bind fun _ => storeAt_within hj buf _

theorem readData_within {k : Nat} : Within (InBounds data.length) (readData past data k) ↔ k < data.length :=
  within_access

/-- The tests in the `switch` are enough for its accesses. -/
theorem putAt_within (m sextet : Nat) (d : Decoder) : Within (InBounds m) (d.putAt (m / 4 * 3) sextet) := by
  obtain ⟨buf, out, state, ch⟩ := d
  match state with
  | 0 =>
    simp only [Decoder.putAt]
    split
    · exact within_stop _
    · exact (storeAt_within (by omega) _ _).bind fun _ => within_pure _
  | 1 | 2 =>
    simp only [Decoder.putAt]
    split
    · exact within_stop _
    · exact (orStoreAt_within (by omega) _ _).bind fun _ =>
        (storeAt_within (by omega) _ _).bind fun _ => within_pure _
  | 3 =>
    simp only [Decoder.putAt]
    split
    · exact within_stop _
    · exact (orStoreAt_within (by omega) _ _).bind fun _ => within_pure _
  | _ + 4 => exact within_stop _

theorem decodeLoopAt_within (rounds i : Nat) (d : Decoder) :
    Within (InBounds data.length) (decodeLoopAt past data (estimatedLength data.length) rounds i d) := by
  induction rounds generalizing i d with
  | zero => exact within_pure _
  | succ rounds ih =>
    rw [decodeLoopAt]
    split
    · refine (readData_within.mpr ‹_›).bind fun ch => ?_
      split
      · exact ih _ _
      · split
        · exact within_pure _
        · show Within _ (if _ then _ else _)
          split
          · exact within_stop _
          · exact (putAt_within _ _ _).bind fun d => ih _ d
    · exact within_pure _

theorem onlySpacesAt_within (rounds i : Nat) (ch : UInt8) :
    Within (InBounds data.length) (onlySpacesAt past data rounds ch i) := by
  induction rounds generalizing i ch with
  | zero => exact within_pure _
  | succ rounds ih =>
    rw [onlySpacesAt]
    split
    · rename_i hmore
      split
      · exact within_stop _
      · exact (readData_within.mpr hmore.2).bind fun c => ih _ c
    · exact within_pure _

/-- In the last two states of a group the left-over bits are in the buffer. -/
theorem checkTailAt_within {ch : UInt8} {i : Nat} (hd : d.outIndex < estimatedLength data.length) :
    Within (InBounds data.length) (checkTailAt past data ch i d) := by
  refine (onlySpacesAt_within _ _ _).bind fun _ => (loadAt_within hd _).bind fun extra => ?_
  split
  · exact within_stop _
  · exact within_pure _

theorem lt_of_drop {i : Nat} {c : UInt8} {r : List UInt8} (h : data.drop i = c :: r) : i < data.length := by
  by_contra hge
  rw [List.drop_eq_nil_of_le (Nat.le_of_not_lt hge)] at h
  cases h

/-- At a pad with the index `i`, which is read once more: the only access
that can leave the input is the one behind it that takes a second pad for
granted. -/
theorem checkPadAt_within {vs : List Nat} {r : List UInt8} {i : Nat}
    (hdecoded : Decoded (estimatedLength data.length) vs d) (hi : data.drop i = base64Pad :: r) :
    Within (InBounds data.length) (checkPadAt past data i d) ↔ ¬(vs.length % 4 = 2 ∧ r = []) := by
  have hroom : vs.length % 4 ≠ 0 → d.outIndex < estimatedLength data.length := by
    intro hpart
    obtain ⟨hlt, -⟩ := List.getElem?_eq_some_iff.mp (hdecoded.extra hpart)
    rwa [hdecoded.length] at hlt
  have hstate := hdecoded.state
  rw [checkPadAt, within_bind, and_iff_right (readData_within.mpr (lt_of_drop hi)), readData_result, hi]
  simp only [nextChar, List.headD_cons, Except.ok.injEq, forall_eq', skipSpacesAt_pad]
  obtain h₀ | h₁ | h₂ | h₃ : vs.length % 4 = 0 ∨ vs.length % 4 = 1 ∨ vs.length % 4 = 2 ∨
      vs.length % 4 = 3 := by omega
  · simp only [hstate, h₀]
    exact iff_of_true (within_stop _) (by simp)
  · simp only [hstate, h₁]
    exact iff_of_true (within_stop _) (by simp)
  · simp only [hstate, h₂, true_and]
    rw [Traced.pure_bind]
    show Within _ (readData past data (i + 1) >>= _) ↔ _
    have htail := drop_succ hi
    constructor
    · rintro hwithin rfl
      have hlt : i + 1 < data.length := readData_within.mp (within_bind.mp hwithin).1
      rw [List.drop_eq_nil_iff] at htail
      omega
    · intro hne
      have hlt : i + 1 < data.length := by
        by_contra hge
        exact hne (htail.symm.trans (List.drop_eq_nil_of_le (Nat.le_of_not_lt hge)))
      exact (readData_within.mpr hlt).bind fun _ => checkTailAt_within (hroom (by omega))
  · simp only [hstate, h₃]
    exact iff_of_true (checkTailAt_within (hroom (by omega))) (by simp)

/-- Symbols and white space are read up to the first pad. -/
theorem sextets_append_pad {text r : List UInt8}
    (htext : ∀ c ∈ text, isSpace c = true ∨ ∃ v < 64, c = symbol v) :
    ∃ vs, sextets (text ++ base64Pad :: r) = some (vs, base64Pad :: r) ∧ vs.length = (unspaced text).length := by
  induction text with
  | nil => exact ⟨[], sextets_pad, rfl⟩
  | cons c text ih =>
    obtain ⟨vs, hvs, hlen⟩ := ih fun c hc => htext c (List.mem_cons_of_mem _ hc)
    obtain hspace | ⟨v, hv, rfl⟩ := htext c List.mem_cons_self
    · refine ⟨vs, (sextets_space hspace).trans hvs, ?_⟩
      rw [hlen, unspaced, unspaced, List.filter_cons_of_neg (by simp [hspace])]
    · refine ⟨v :: vs, ?_, ?_⟩
      · rw [List.cons_append, sextets_symbol hv, hvs]
        rfl
      · rw [unspaced_symbol hv, List.length_cons, List.length_cons, hlen]

/-- What stands before the first pad is symbols and white space. -/
theorem text_of_sextets {vs : List Nat} {r : List UInt8} (h : sextets data = some (vs, base64Pad :: r)) :
    ∃ text, data = text ++ base64Pad :: r ∧ (∀ c ∈ text, isSpace c = true ∨ ∃ v < 64, c = symbol v) ∧
      vs.length = (unspaced text).length := by
  obtain ⟨text, rfl⟩ := sextets_suffix h
  obtain ⟨hlt, -, hsame⟩ := sextets_some h
  have htext : unspaced text = vs.map symbol := by
    rw [unspaced, List.filter_append] at hsame
    exact List.append_cancel_right hsame
  refine ⟨text, rfl, ?_, by rw [htext, List.length_map]⟩
  intro c hc
  by_cases hspace : isSpace c = true
  · exact .inl hspace
  · have hmem : c ∈ unspaced text := List.mem_filter.mpr ⟨hc, by simp [hspace]⟩
    rw [htext] at hmem
    obtain ⟨v, hv, rfl⟩ := List.mem_map.mp hmem
    exact .inr ⟨v, hlt v hv, rfl⟩

/-- Without white space there is no room for an incomplete group. -/
theorem barePad_iff : BarePad data ↔ ∃ vs, sextets data = some (vs, [base64Pad]) ∧ vs.length % 4 = 2 ∧
    vs.length ≤ 4 * (data.length / 4) := by
  have hblank : ∀ text : List UInt8, (unspaced text).length < text.length ↔ ∃ c ∈ text, isSpace c = true := by
    intro text
    simp [unspaced, List.length_filter_lt_length_iff_exists]
  constructor
  · rintro ⟨text, rfl, htext, hspace, hmod⟩
    obtain ⟨vs, hvs, hlen⟩ := sextets_append_pad htext
    have hlt := (hblank text).mpr hspace
    refine ⟨vs, hvs, hlen ▸ hmod, ?_⟩
    rw [List.length_append, List.length_singleton]
    omega
  · rintro ⟨vs, hvs, hmod, hroom⟩
    obtain ⟨text, rfl, htext, hlen⟩ := text_of_sextets hvs
    refine ⟨text, rfl, htext, (hblank text).mp ?_, hlen ▸ hmod⟩
    have hle : (unspaced text).length ≤ text.length := List.length_filter_le _ _
    rw [List.length_append, List.length_singleton] at hroom
    omega

/-- **The accesses of `base64_decode` are in bounds** if and only if there is
no buffer at all or the input does not end in a bare pad. -/
theorem base64Decode_inBounds (heap : Option (Nat → UInt8)) (past : UInt8) (data : List UInt8) :
    (∀ a ∈ (base64DecodeAt past data heap).accesses, InBounds data.length a) ↔
      heap = none ∨ ¬BarePad data := by
  show Within (InBounds data.length) (base64DecodeAt past data heap) ↔ _
  cases heap with
  | none => exact iff_of_true (within_stop _) (.inl rfl)
  | some fresh =>
    have hsome : (some fresh = none ∨ ¬BarePad data) ↔ ¬BarePad data := by simp
    have hend : ∀ d : Decoder, Within (InBounds data.length)
        (pure ⟨d.decodedData, d.outIndex⟩ : Decoding Output) := fun _ => within_pure _
    rw [hsome, base64DecodeAt, within_bind, and_iff_right (decodeLoopAt_within _ _ _),
      decodeLoopAt_result (Nat.le_add_left _ _) (Nat.zero_le _), List.drop_zero, barePad_iff]
    obtain ⟨herror, hnone⟩ | ⟨d, vs, rest, hrun, hsextets, hroom, hdecoded, hpad⟩ := decodeLoop_cases fresh data
    · rw [herror]
      refine iff_of_true (by intro _ h; cases h) ?_
      rintro ⟨vs, hvs, -, hroom⟩
      exact absurd hroom (Nat.not_le_of_lt (hnone vs _ hvs))
    · rw [hrun, hsextets]
      simp only [Except.map, endIndex, Except.ok.injEq, forall_eq', Option.some.injEq, Prod.mk.injEq]
      by_cases hch : d.ch = base64Pad
      · obtain ⟨r, rfl⟩ := rest_of_ne_nil hsextets (hpad.mp hch)
        rw [if_pos hch, within_bind, and_iff_left fun _ _ => hend d,
          checkPadAt_within hdecoded (drop_rest hsextets)]
        refine not_congr ⟨?_, ?_⟩
        · rintro ⟨hmod, rfl⟩
          exact ⟨vs, ⟨rfl, rfl⟩, hmod, hroom⟩
        · rintro ⟨_, ⟨rfl, hr⟩, hmod, -⟩
          exact ⟨hmod, (List.cons.inj hr).2⟩
      · have hnil : rest = [] := by_contra fun hne => hch (hpad.mpr hne)
        subst hnil
        refine iff_of_true ?_ (by simp)
        rw [if_neg hch]
        split
        · exact (within_stop _).bind fun _ => hend d
        · exact hend d

/-- Blank, `QQ=`: the group has no second pad, and `data[4]` is read. -/
theorem not_base64Decode_inBounds :
    ¬∀ (heap : Option (Nat → UInt8)) (past : UInt8) (data : List UInt8), data.length < 2 ^ 31 →
      ∀ a ∈ (base64DecodeAt past data heap).accesses, InBounds data.length a := by
  intro hall
  have hin := hall (some fun _ => 0) 0 [32, 81, 81, 61] (by decide) (.data 4) (by decide +kernel)
  exact absurd hin (by decide)

end Efio.Proofs.CoreUtils
