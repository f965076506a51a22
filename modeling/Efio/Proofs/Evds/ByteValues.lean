import Efio.Lib.Calls
import Efio.Proofs.Evds.BufferedReading

/-!
# `Efio.Proofs.Evds.ByteValues`: what the caller makes of a byte

The library converts a `char` to `int` as an unsigned value, so that no
byte is `EOF`. `underflow` and `low_readch` convert it as it is, and
`char` is signed: 255 becomes `EOF`, the other bytes from 128 on become
negative. `sgetc` returns what `underflow` does, `sbumpc` only compares it
with `EOF`, and both only for the first byte of a segment. `reads_agree`
says when this is noticed.
-/

set_option autoImplicit false

namespace Efio.Proofs.Evds

open Efio.Lib
open Efio.Evds
open Efio.Spec

variable {s s' : BufferedStream}

/-! ### The conversions -/

/-- `char` is signed. -/
theorem charToInt_eq (c : UInt8) : charToInt c = if c < 128 then toIntType c else toIntType c - 256 := by
  have hlt : c.toNat < 256 := c.toNat_lt
  have hmod : (c.toNat : Int) % 256 = c.toNat := Int.emod_eq_of_lt (by omega) (by omega)
  have hbmod : charToInt c = if (c.toNat : Int) < 128 then (c.toNat : Int) else c.toNat - 256 := by
    show Int.bmod c.toNat 256 = _
    rw [Int.bmod_def]
    simp only [Int.cast_ofNat_Int, hmod]
    rfl
  have hiff : c < 128 ↔ (c.toNat : Int) < 128 := by
    rw [UInt8.lt_iff_toNat_lt]
    exact Int.ofNat_lt.symm
  rw [hbmod]
  simp only [hiff, toIntType]

theorem toIntType_nonneg (c : UInt8) : 0 ≤ toIntType c := Int.natCast_nonneg _

theorem charToInt_eq_iff (c : UInt8) : charToInt c = toIntType c ↔ c < 128 := by
  rw [charToInt_eq]
  split
  · exact iff_of_true rfl ‹_›
  · exact iff_of_false (by omega) ‹_›

theorem charToInt_eq_eof (c : UInt8) : charToInt c = EOF ↔ c = 255 := by
  have hlt := c.toNat_lt
  rw [charToInt_eq, ← UInt8.toNat_inj]
  simp only [toIntType, EOF, UInt8.lt_iff_toNat_lt, UInt8.reduceToNat]
  split <;> omega

theorem toIntType_ne_eof (c : UInt8) : toIntType c ≠ EOF := by
  have hnonneg := toIntType_nonneg c
  rw [EOF]
  omega

/-! ### The get area -/

/-- A reader between two calls. -/
structure GetInv (s : BufferedStream) : Prop extends Reading s where
  modeIn : s.modeIn = true
  bufsize : 0 < s.bufsize.val
  area : s.hasGet = true → ∃ g, s.gptr = some g ∧ s.egptr = some (g.add (getArea s).length) ∧
    Heap.Holds s.heap g (getArea s)

theorem getArea_of_not_hasGet (hempty : s.hasGet = false) : getArea s = [] := by
  unfold BufferedStream.hasGet at hempty
  unfold getArea
  split
  · rename_i g e hg he
    simp only [hg, he, decide_eq_false_iff_not] at hempty
    rw [Nat.sub_eq_zero_of_le (by omega), List.take_zero]
  · rfl

theorem GetInv.getArea_ne_nil (hs : GetInv s) (hget : s.hasGet = true) : getArea s ≠ [] := by
  obtain ⟨g, hg, he, -⟩ := hs.area hget
  intro hnil
  simp [BufferedStream.hasGet, hg, he, hnil] at hget

theorem getArea_eq {g : Ptr} {bytes : List UInt8} (hg : s.gptr = some g)
    (he : s.egptr = some (g.add bytes.length)) (hholds : Heap.Holds s.heap g bytes) :
    getArea s = bytes := by
  obtain ⟨c, hc, -, htake⟩ := hholds.block
  simp only [getArea, hg, he, hc, Option.getD_some, Ptr.add_off, Nat.add_sub_cancel_left, htake]

theorem GetInv.hasGet_of_cons (harea : ∃ c rest, getArea s = c :: rest) : s.hasGet = true := by
  by_contra hempty
  obtain ⟨c, rest, harea⟩ := harea
  rw [getArea_of_not_hasGet (Bool.eq_false_iff.mpr hempty)] at harea
  cases harea

/-- The first byte of the get area. -/
theorem GetInv.deref (hs : GetInv s) {c : UInt8} {rest : List UInt8} (harea : getArea s = c :: rest) :
    s.deref = .ok c := by
  obtain ⟨g, hg, -, hholds⟩ := hs.area (hasGet_of_cons ⟨c, rest, harea⟩)
  rw [harea] at hholds
  have hload := (hholds.take 1).load
  rw [List.take_succ_cons, List.take_zero, List.length_singleton] at hload
  simp only [BufferedStream.deref, hg]
  rw [hload]
  rfl

/-- `gbump` takes it away. -/
theorem GetInv.gbump (hs : GetInv s) {c : UInt8} {rest : List UInt8} (harea : getArea s = c :: rest) :
    GetInv s.gbump ∧ getArea s.gbump = rest := by
  obtain ⟨g, hg, he, hholds⟩ := hs.area (hasGet_of_cons ⟨c, rest, harea⟩)
  rw [harea] at he hholds
  have hrest : Heap.Holds s.heap (g.add [c].length) rest := Heap.Holds.right hholds
  have hg' : s.gbump.gptr = some (g.add 1) := congrArg (Option.map (Ptr.add · 1)) hg
  have he' : s.gbump.egptr = some ((g.add 1).add rest.length) := by
    refine he.trans (congrArg some ?_)
    simp only [Ptr.add, List.length_cons, Ptr.mk.injEq, true_and]
    omega
  have harea' : getArea s.gbump = rest := getArea_eq hg' he' hrest
  refine ⟨⟨⟨hs.list, hs.limit, hs.prev⟩, hs.modeIn, hs.bufsize, fun _ => ⟨g.add 1, hg', ?_, ?_⟩⟩, harea'⟩
  · rw [harea']
    exact he'
  · rw [harea']
    exact hrest

/-! ### The calls -/

/-- `underflow` with an empty get area, after the read. -/
theorem underflow_eq (hmode : s.modeIn = true) (hempty : s.hasGet = false) {s₁ : BufferedStream} {n : Nat}
    (hhigh : s.highReadFromSource s.bufsize.val = .ok (s₁, n)) (hfits : n ≤ sizeT s₁.bufsize.val) :
    s.underflow =
      if n = 0 then .ok (s₁, EOF)
      else
        let s₂ := { s₁ with gptr := s₁.pBuffer, egptr := s₁.pBuffer.map fun p : Ptr => p.add n }
        s₂.deref.map fun c => (s₂, charToInt c) := by
  have hget : ¬s.hasGet = true := by
    rw [hempty]
    exact Bool.false_ne_true
  unfold BufferedStream.underflow
  rw [if_neg (not_not.mpr hmode), if_neg hget, hhigh, ok_bind]
  dsimp only
  rw [if_neg (Nat.not_lt_of_le hfits)]
  split
  · rfl
  · cases BufferedStream.deref _ with
    | error e => rfl
    | ok c => rfl

/-- `underflow` with an empty get area hands out the next segment, and
returns its first byte as a `char`. -/
theorem GetInv.underflow (hs : GetInv s) (hempty : s.hasGet = false) :
    ∃ s' ch, s.underflow = .ok (s', ch) ∧ GetInv s' ∧ unread s' = within s ∧
      (within s = [] → ch = EOF) ∧
      ∀ c rest, within s = c :: rest → ch = charToInt c ∧ ∃ more, getArea s' = c :: more := by
  have hs₀ : Reading { s with readingBufFromSource := true } := ⟨hs.list, hs.limit, hs.prev⟩
  obtain ⟨s₁, segment, hread, hs₁, hsame, hsegment, hsize, hwithin, hlast, -, -⟩ :=
    hs₀.lowReadFromSource hs.bufsize s.bufsize.max
  have hwithin : within s = segment ++ within s₁ := hwithin
  have hhigh : s.highReadFromSource s.bufsize.val =
      .ok ({ s₁ with readingBufFromSource := false }, segment.length) := by
    rw [BufferedStream.highReadFromSource, BufferedStream.readFromSource, hread]
    rfl
  have hfits : segment.length ≤ sizeT s₁.bufsize.val := by
    rw [hsame.bufsize, sizeT_eq (Int.le_of_lt hs.bufsize) s.bufsize.max]
    omega
  have hunderflow := underflow_eq hs.modeIn hempty hhigh hfits
  have hgptr : s₁.gptr = s.gptr := hsame.gptr
  have hegptr : s₁.egptr = s.egptr := hsame.egptr
  have hmodeIn : s₁.modeIn = true := hsame.modeIn.trans hs.modeIn
  have hbufsize : 0 < s₁.bufsize.val := by
    rw [hsame.bufsize]
    exact hs.bufsize
  cases segment with
  | nil =>
    have hnone : within s = [] := hlast rfl
    have hempty₁ : { s₁ with readingBufFromSource := false }.hasGet = false := by
      simp only [BufferedStream.hasGet, hgptr, hegptr]
      exact hempty
    refine ⟨{ s₁ with readingBufFromSource := false }, EOF, hunderflow.trans (if_pos rfl),
      ⟨⟨hs₁.list, hs₁.limit, hs₁.prev⟩, hmodeIn, hbufsize, ?_⟩, ?_, fun _ => rfl, ?_⟩
    · intro hget
      rw [hempty₁] at hget
      cases hget
    · rw [unread, getArea_of_not_hasGet hempty₁, hwithin]
      rfl
    · intro c rest hcons
      rw [hnone] at hcons
      cases hcons
  | cons c segment =>
    obtain ⟨p, hp, hholds⟩ := hsegment.held (List.cons_ne_nil c segment)
    obtain ⟨s₂, hs₂⟩ : ∃ s₂, s₂ = { s₁ with
      readingBufFromSource := false
      gptr := s₁.pBuffer
      egptr := s₁.pBuffer.map fun q : Ptr => q.add (c :: segment).length } := ⟨_, rfl⟩
    have hg : s₂.gptr = some p := by rw [hs₂]; exact hp
    have he : s₂.egptr = some (p.add (c :: segment).length) := by
      rw [hs₂]
      exact congrArg (Option.map fun q : Ptr => q.add (c :: segment).length) hp
    have hholds₂ : Heap.Holds s₂.heap p (c :: segment) := by rw [hs₂]; exact hholds
    have harea : getArea s₂ = c :: segment := getArea_eq hg he hholds₂
    have hinv : GetInv s₂ := by
      refine ⟨?_, ?_, ?_, fun _ => ⟨p, hg, harea ▸ he, harea ▸ hholds₂⟩⟩
      · rw [hs₂]
        exact ⟨hs₁.list, hs₁.limit, hs₁.prev⟩
      · rw [hs₂]
        exact hmodeIn
      · rw [hs₂]
        exact hbufsize
    refine ⟨s₂, charToInt c, ?_, hinv, ?_, ?_, ?_⟩
    · refine (hunderflow.trans (if_neg (Nat.succ_ne_zero _))).trans ?_
      show (BufferedStream.deref _).map _ = _
      rw [← hs₂, hinv.deref harea]
      rfl
    · rw [unread, harea, hwithin, hs₂]
      rfl
    · intro hnone
      rw [hwithin] at hnone
      cases hnone
    · intro c' rest hcons
      rw [hwithin] at hcons
      cases hcons
      exact ⟨rfl, segment, harea⟩

theorem uflow_eq {s₁ : BufferedStream} {ch : Int} {c : UInt8} (h : s.underflow = .ok (s₁, ch))
    (hderef : s₁.deref = .ok c) :
    s.uflow = if ch = EOF then .ok (s₁, EOF) else .ok (s₁.gbump, toIntType c) := by
  rw [BufferedStream.uflow, h, ok_bind]
  dsimp only
  rw [hderef]
  rfl

theorem unread_of_not_hasGet (hempty : s.hasGet = false) : unread s = within s := by
  rw [unread, getArea_of_not_hasGet hempty, List.nil_append]

/-- A byte in the get area is converted by the library. -/
theorem GetInv.readCall_area (hs : GetInv s) (call : ReadCall) (hget : s.hasGet = true) :
    ∃ s', s.readCall call = .ok (s', (flatRead call (unread s)).2) ∧ GetInv s' ∧
      unread s' = (flatRead call (unread s)).1 := by
  obtain ⟨c, rest, harea⟩ := List.exists_cons_of_ne_nil (hs.getArea_ne_nil hget)
  have hderef := hs.deref harea
  have hunread : unread s = c :: (rest ++ within s) := by
    rw [unread, harea, List.cons_append]
  cases call with
  | sgetc =>
    refine ⟨s, ?_, hs, rfl⟩
    simp only [BufferedStream.readCall, BufferedStream.sgetc, if_pos hget, hderef, hunread]
    rfl
  | sbumpc =>
    obtain ⟨hinv, hrest⟩ := hs.gbump harea
    refine ⟨s.gbump, ?_, hinv, ?_⟩
    · simp only [BufferedStream.readCall, BufferedStream.sbumpc, if_pos hget, hderef, hunread]
      rfl
    · rw [hunread, unread, hrest]
      rfl

/-- A call with an empty get area: its result is right exactly when it is
clean. -/
theorem GetInv.readCall_underflow (hs : GetInv s) (call : ReadCall) (hempty : s.hasGet = false) :
    ∃ s' ch, s.readCall call = .ok (s', ch) ∧
      (ch = (flatRead call (unread s)).2 ↔ Clean s call) ∧ GetInv s' ∧
      (Clean s call → unread s' = (flatRead call (unread s)).1) := by
  have hget : ¬s.hasGet = true := by
    rw [hempty]
    exact Bool.false_ne_true
  obtain ⟨s₁, ch, hunderflow, hinv, hunread, heof, hbyte⟩ := hs.underflow hempty
  rw [unread_of_not_hasGet hempty]
  cases hwithin : within s with
  | nil =>
    obtain rfl := heof hwithin
    have hclean : Clean s call := by
      cases call with
      | sgetc => simp [Clean, hwithin]
      | sbumpc => simp [Clean, hwithin]
    have hunread₁ : unread s₁ = [] := hunread.trans hwithin
    cases call with
    | sgetc =>
      refine ⟨s₁, EOF, ?_, iff_of_true rfl hclean, hinv, fun _ => hunread₁⟩
      simp only [BufferedStream.readCall, BufferedStream.sgetc, if_neg hget, hunderflow]
    | sbumpc =>
      refine ⟨s₁, EOF, ?_, iff_of_true rfl hclean, hinv, fun _ => hunread₁⟩
      simp only [BufferedStream.readCall, BufferedStream.sbumpc, if_neg hget, BufferedStream.uflow,
        hunderflow]
      rfl
  | cons c rest =>
    obtain ⟨hch, more, harea⟩ := hbyte c rest hwithin
    rw [hch] at hunderflow
    have hunread₁ : unread s₁ = c :: rest := hunread.trans hwithin
    cases call with
    | sgetc =>
      have hclean : Clean s .sgetc ↔ c < 128 := by simp [Clean, hempty, hwithin]
      refine ⟨s₁, charToInt c, ?_, ?_, hinv, fun _ => hunread₁⟩
      · simp only [BufferedStream.readCall, BufferedStream.sgetc, if_neg hget, hunderflow]
      · rw [hclean]
        exact charToInt_eq_iff c
    | sbumpc =>
      have hclean : Clean s .sbumpc ↔ c ≠ 255 := by simp [Clean, hempty, hwithin]
      have huflow : s.readCall .sbumpc =
          if charToInt c = EOF then .ok (s₁, EOF) else .ok (s₁.gbump, toIntType c) :=
        (if_neg hget).trans (uflow_eq hunderflow (hinv.deref harea))
      by_cases hff : c = 255
      · -- The byte is taken for the end.
        refine ⟨s₁, EOF, huflow.trans (if_pos ((charToInt_eq_eof c).mpr hff)), ?_, hinv, ?_⟩
        · exact iff_of_false (toIntType_ne_eof c).symm (fun h => hclean.mp h hff)
        · exact fun h => absurd hff (hclean.mp h)
      · obtain ⟨hinv', hrest⟩ := hinv.gbump harea
        refine ⟨s₁.gbump, toIntType c, huflow.trans (if_neg (mt (charToInt_eq_eof c).mp hff)), ?_, hinv', ?_⟩
        · exact iff_of_true rfl (hclean.mpr hff)
        · intro _
          rw [unread, harea, List.cons_append] at hunread₁
          rw [unread, hrest]
          exact (List.cons.inj hunread₁).2

theorem GetInv.readCall (hs : GetInv s) (call : ReadCall) :
    ∃ s' ch, s.readCall call = .ok (s', ch) ∧
      (ch = (flatRead call (unread s)).2 ↔ Clean s call) ∧ GetInv s' ∧
      (Clean s call → unread s' = (flatRead call (unread s)).1) := by
  cases hget : s.hasGet with
  | true =>
    obtain ⟨s', hcall, hinv, hunread⟩ := hs.readCall_area call hget
    have hclean : Clean s call := by
      cases call with
      | sgetc => simp [Clean, hget]
      | sbumpc => simp [Clean, hget]
    exact ⟨s', _, hcall, iff_of_true rfl hclean, hinv, fun _ => hunread⟩
  | false => exact hs.readCall_underflow call hget

theorem getInv_create {h : Heap UInt8} {l : ChunkedMemoryStream} (hl : PushedList h l)
    (bufsize : BufSize) (limit : Limit) :
    GetInv (.create h l bufsize.toStreamSize limit.toStreamSize) ∧
      unread (.create h l bufsize.toStreamSize limit.toStreamSize) =
        Spec.Limit.take limit (content h l) := by
  obtain ⟨hs, hwithin⟩ := reading_create hl bufsize.toStreamSize limit
  refine ⟨⟨hs, rfl, bufsize.pos, fun hget => by cases hget⟩, ?_⟩
  rw [unread_of_not_hasGet rfl, hwithin]

/-! ### `low_readch` -/

/-- `low_readch` when nothing is within the limit. -/
theorem Reading.lowReadch_nil (hs : Reading s) (hreading : s.readingBufFromSource = true)
    (hnone : within s = []) :
    ∃ s', s.lowReadch = .ok (s', EOF) ∧ Reading s' ∧ s'.readingBufFromSource = true ∧ within s' = [] := by
  obtain ⟨h₁, herase, hl₁, hcontent₁⟩ := hs.list.erase s.prevLen
  unfold BufferedStream.lowReadch
  rw [if_neg (not_not.mpr hreading), herase, ok_bind]
  by_cases hbelow : s.belowLimit = true
  · obtain ⟨h₂, hread, hl₂, hcontent₂⟩ := hl₁.read 1
    -- There is room, so the memory stream is empty.
    have hempty : (content s.heap s.memoryStream).drop s.prevLen = [] := by
      rw [within] at hnone
      split at hnone
      · exact hnone
      · obtain h | h := List.take_eq_nil_iff.mp hnone
        · rw [belowLimit_iff hs.limit] at hbelow
          omega
        · exact h
    rw [hcontent₁, hempty] at hread hcontent₂
    refine ⟨{ s with
      heap := h₂
      memoryStream := remaining (remaining s.memoryStream s.prevLen) 1
      prevLen := 0 }, (if_pos hbelow).trans ?_, ⟨hl₂, hs.limit, Nat.zero_le _⟩, hreading, ?_⟩
    · dsimp only
      rw [hread]
      rfl
    · simp only [within, hcontent₂, List.drop_nil, List.take_nil, ite_self]
  · refine ⟨_, if_neg hbelow, ⟨hl₁, hs.limit, Nat.zero_le _⟩, hreading, ?_⟩
    simp only [within, hcontent₁, List.drop_zero]
    exact hnone

/-- `low_readch` takes the next byte within the limit, as a `char`. -/
theorem Reading.lowReadch_cons (hs : Reading s) (hreading : s.readingBufFromSource = true) {c : UInt8}
    {rest : List UInt8} (hwithin : within s = c :: rest) :
    ∃ s', s.lowReadch = .ok (s', charToInt c) ∧ Reading s' ∧ s'.readingBufFromSource = true ∧
      within s' = rest := by
  obtain ⟨h₁, herase, hl₁, hcontent₁⟩ := hs.list.erase s.prevLen
  obtain ⟨h₂, hread, hl₂, hcontent₂⟩ := hl₁.read 1
  unfold BufferedStream.lowReadch
  rw [if_neg (not_not.mpr hreading), herase, ok_bind]
  have hroom : s.maxLen = -1 ∨ (s.cumLen : Int) < s.maxLen := by
    by_contra hfull
    rw [within, if_neg (fun h => hfull (.inl h)), Int.toNat_of_nonpos (by omega), List.take_zero] at hwithin
    cases hwithin
  have hbelow : s.belowLimit = true := (belowLimit_iff hs.limit).mpr hroom
  obtain ⟨more, hmore⟩ : ∃ more, (content s.heap s.memoryStream).drop s.prevLen = c :: more := by
    rw [within] at hwithin
    split at hwithin
    · exact ⟨rest, hwithin⟩
    · obtain ⟨tail, htail⟩ := hwithin ▸ List.take_prefix _ _
      exact ⟨rest ++ tail, htail.symm⟩
  rw [hcontent₁, hmore] at hread hcontent₂
  refine ⟨{ s with
    heap := h₂
    memoryStream := remaining (remaining s.memoryStream s.prevLen) 1
    prevLen := 0
    cumLen := (s.cumLen + 1) % 2 ^ 64 }, (if_pos hbelow).trans ?_, ⟨hl₂, ?_, Nat.zero_le _⟩, hreading, ?_⟩
  · dsimp only
    rw [hread]
    rfl
  · rw [or_iff_not_imp_left]
    intro hsome
    obtain ⟨hpos, hlt, hle⟩ := hs.limit.resolve_left hsome
    have hcum : (s.cumLen + 1) % 2 ^ 64 ≤ s.cumLen + 1 := Nat.mod_le _ _
    have hless := hroom.resolve_left hsome
    exact ⟨hpos, hlt, by simp only; omega⟩
  · simp only [within, hmore] at hwithin
    simp only [within, hcontent₂, List.drop_zero, List.drop_succ_cons]
    by_cases hnone : s.maxLen = -1
    · rw [if_pos hnone] at hwithin ⊢
      exact (List.cons.inj hwithin).2
    · rw [if_neg hnone] at hwithin ⊢
      have hless := hroom.resolve_left hnone
      have hlt := (hs.limit.resolve_left hnone).2.1
      have hmod : (s.cumLen + 1) % 2 ^ 64 = s.cumLen + 1 := Nat.mod_eq_of_lt (by omega)
      have hleft : (s.maxLen - s.cumLen).toNat = (s.maxLen - (s.cumLen + 1 : Nat)).toNat + 1 := by
        omega
      rw [hleft, List.take_succ_cons] at hwithin
      rw [hmod]
      exact (List.cons.inj hwithin).2

/-- Calls of `low_readch` deliver the bytes within the limit as `char`s,
and then `EOF`. -/
theorem Reading.lowReadch_run (hs : Reading s) (hreading : s.readingBufFromSource = true) (n : Nat) :
    ∃ s', runCalls (fun _ s => s.lowReadch) (List.replicate n ()) s =
      .ok (s', ((within s).take n).map charToInt ++ List.replicate (n - (within s).length) EOF) := by
  induction n generalizing s with
  | zero => exact ⟨s, by rw [Nat.zero_sub, List.take_zero]; rfl⟩
  | succ n ih =>
    cases hwithin : within s with
    | nil =>
      obtain ⟨s₁, hcall, hs₁, hreading₁, hwithin₁⟩ := hs.lowReadch_nil hreading hwithin
      obtain ⟨s', hrun⟩ := ih hs₁ hreading₁
      rw [hwithin₁, List.take_nil] at hrun
      refine ⟨s', (runCalls_of_cons hcall hrun).trans ?_⟩
      rw [List.take_nil]
      rfl
    | cons c rest =>
      obtain ⟨s₁, hcall, hs₁, hreading₁, hwithin₁⟩ := hs.lowReadch_cons hreading hwithin
      obtain ⟨s', hrun⟩ := ih hs₁ hreading₁
      rw [hwithin₁] at hrun
      refine ⟨s', (runCalls_of_cons hcall hrun).trans ?_⟩
      rw [List.take_succ_cons, List.map_cons, List.length_cons, Nat.add_sub_add_right, List.cons_append]

/-- The only byte that is taken for `EOF` is 255. -/
theorem eof_at_end_iff (bytes : List UInt8) (n : Nat) :
    (∀ k, ((bytes.take n).map charToInt ++ List.replicate (n - bytes.length) EOF)[k]? = some EOF →
      bytes.length ≤ k) ↔ (255 : UInt8) ∉ bytes.take n := by
  have hlength : (bytes.take n).length = min n bytes.length := List.length_take
  constructor
  · intro hend hmem
    obtain ⟨k, hk⟩ := List.mem_iff_getElem?.mp hmem
    obtain ⟨hlt, -⟩ := List.getElem?_eq_some_iff.mp hk
    have hle := hend k (by
      rw [List.getElem?_append_left (by rwa [List.length_map]), List.getElem?_map, hk, Option.map_some,
        (charToInt_eq_eof 255).mpr rfl])
    omega
  · intro hnot k hk
    by_contra hlt
    obtain ⟨hbound, -⟩ := List.getElem?_eq_some_iff.mp hk
    rw [List.length_append, List.length_map, List.length_replicate] at hbound
    have hin : k < (bytes.take n).length := by omega
    rw [List.getElem?_append_left (by rwa [List.length_map]), List.getElem?_map] at hk
    obtain ⟨c, hc, heof⟩ := Option.map_eq_some_iff.mp hk
    rw [(charToInt_eq_eof c).mp heof] at hc
    exact hnot (List.mem_of_getElem? hc)

/-! ### Both -/

/-- **Bytes survive the stream interface** if and only if no call takes a
segment whose first byte it misreads, and `low_readch` returns `EOF` only
at the end if and only if it meets no byte 255. -/
theorem reads_agree (chunks : List (List UInt8)) (bufsize : BufSize) (limit : Limit) :
    let start := BufferedStream.create (BufferedStream.pushed chunks).1 (BufferedStream.pushed chunks).2
      bufsize.toStreamSize limit.toStreamSize
    let bytes := Spec.Limit.take limit chunks.flatten
    (∀ calls : List ReadCall,
      (∃ s rs, runCalls BufferedStream.readCall calls start = .ok (s, rs) ∧
        specCalls flatRead calls bytes = (unread s, rs)) ↔
      Along BufferedStream.readCall Clean calls start) ∧
    ∀ n, ∃ s rs,
      runCalls (fun _ s => s.lowReadch) (List.replicate n ()) { start with readingBufFromSource := true } =
        .ok (s, rs) ∧
      ((∀ k, rs[k]? = some EOF → bytes.length ≤ k) ↔ (255 : UInt8) ∉ bytes.take n) := by
  intro start bytes
  obtain ⟨hl, hcontent⟩ := pushed_eq chunks
  refine ⟨?_, ?_⟩
  · intro calls
    obtain ⟨hs, hunread⟩ := getInv_create hl bufsize limit
    have hgood : ∀ s call, GetInv s → True → Clean s call → ∃ s' r, s.readCall call = .ok (s', r) ∧
        GetInv s' ∧ flatRead call (unread s) = (unread s', r) := by
      intro s call hs _ hclean
      obtain ⟨s', ch, hcall, hresult, hinv, hunread⟩ := hs.readCall call
      exact ⟨s', ch, hcall, hinv, Prod.ext (hunread hclean).symm (hresult.mpr hclean).symm⟩
    have hbad : ∀ s call s' r, GetInv s → True → s.readCall call = .ok (s', r) →
        r = (flatRead call (unread s)).2 → Clean s call := by
      intro s call s' r hs _ hcall hr
      obtain ⟨s₁, ch, hcall₁, hresult, -⟩ := hs.readCall call
      cases hcall.symm.trans hcall₁
      exact hresult.mp hr
    have hall : Along BufferedStream.readCall (fun _ _ => True) calls start :=
      along_of_forall fun _ _ => trivial
    have hrefine := calls_refine hgood hbad hs hall
    rw [hunread, hcontent] at hrefine
    exact hrefine
  · intro n
    obtain ⟨hs, hwithin⟩ := reading_create hl bufsize.toStreamSize limit
    have hs₀ : Reading { start with readingBufFromSource := true } := ⟨hs.list, hs.limit, hs.prev⟩
    obtain ⟨s', hrun⟩ := hs₀.lowReadch_run rfl n
    have hbytes : within { start with readingBufFromSource := true } = bytes := by
      rw [hcontent] at hwithin
      exact hwithin
    rw [hbytes] at hrun
    exact ⟨s', _, hrun, eof_at_end_iff bytes n⟩

/-- The first byte of the stream is 255, and `sbumpc` returns `EOF`. -/
theorem not_reads_agree : ¬∀ (chunks : List (List UInt8)) (bufsize : BufSize) (limit : Limit)
    (calls : List ReadCall), ∃ s rs,
      runCalls BufferedStream.readCall calls (.create (BufferedStream.pushed chunks).1
        (BufferedStream.pushed chunks).2 bufsize.toStreamSize limit.toStreamSize) = .ok (s, rs) ∧
      specCalls flatRead calls (Spec.Limit.take limit chunks.flatten) = (unread s, rs) := by
  intro h
  obtain ⟨s, rs, hrun, hflat⟩ := h [[255]] ⟨⟨1024, by decide, by decide⟩, by decide⟩
    ⟨⟨-1, by decide, by decide⟩, .inl rfl⟩ [.sbumpc]
  obtain ⟨-, hrs⟩ := Prod.mk.inj hflat
  have heof := congrArg (Except.map Prod.snd) hrun
  have heof : Except.ok [EOF] = Except.ok rs := heof
  rw [← hrs] at heof
  exact toIntType_ne_eof 255 (List.cons.inj (Except.ok.inj heof)).1.symm

end Efio.Proofs.Evds
