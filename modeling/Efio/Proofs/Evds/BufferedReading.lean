import Efio.Proofs.Evds.ChunkedStream
import Efio.Spec.ReadLimit

/-!
# `Efio.Proofs.Evds.BufferedReading`: one read from the memory stream

`low_read_from_source` first erases what it handed out the last time, and
then hands out a part of the first chunk. `Reading` is what holds of a
stream that is read, `Reading.lowReadFromSource` what one call does: it
moves the next bytes of `within` into the segment at `_p_buffer`, and no
bytes only when none are left within the limit.
-/

set_option autoImplicit false

namespace Efio.Proofs.Evds

open Efio.Lib
open Efio.Evds
open Efio.Spec

variable {h h' : Heap UInt8} {l : ChunkedMemoryStream} {n : BufferNode} {s s' : BufferedStream}

/-! ### Memory streams whose buffers have not been moved -/

/-- A memory stream all of whose nodes have the address their buffer was
pushed with. -/
structure PushedList (h : Heap UInt8) (l : ChunkedMemoryStream) : Prop extends ListOk h l where
  base : ∀ n ∈ l, IsBase n

theorem PushedList.push (hl : PushedList h l) (data : List UInt8) :
    PushedList (h.alloc data) (ChunkedMemoryStream.push l h.newPtr data.length).1 where
  toListOk := (hl.toListOk.push data).1
  base := by
    intro n hn
    by_cases hdata : data.length = 0
    · simp only [ChunkedMemoryStream.push, hdata, ne_eq, not_true_eq_false, if_false] at hn
      exact hl.base n hn
    · simp only [ChunkedMemoryStream.push, ne_eq, hdata, not_false_eq_true, if_true,
        ChunkedMemoryStream.addNode] at hn
      obtain hn | hn := List.mem_append.mp hn
      · exact hl.base n hn
      · rw [List.mem_singleton.mp hn]
        intro p hp
        cases hp
        rfl

/-- Chunks pushed to a memory stream. -/
theorem PushedList.foldl (hl : PushedList h l) (chunks : List (List UInt8)) :
    ∃ h' l', chunks.foldl (fun x data => (x.1.alloc data, (x.2.push x.1.newPtr data.length).1)) (h, l) =
      (h', l') ∧ PushedList h' l' ∧ content h' l' = content h l ++ chunks.flatten := by
  induction chunks generalizing h l with
  | nil => exact ⟨h, l, rfl, hl, (List.append_nil _).symm⟩
  | cons data chunks ih =>
    obtain ⟨h', l', hfold, hok, hcontent⟩ := ih (hl.push data)
    refine ⟨h', l', hfold, hok, hcontent.trans ?_⟩
    rw [(hl.toListOk.push data).2.1, List.flatten_cons, List.append_assoc]

theorem pushed_eq (chunks : List (List UInt8)) :
    PushedList (BufferedStream.pushed chunks).1 (BufferedStream.pushed chunks).2 ∧
      content (BufferedStream.pushed chunks).1 (BufferedStream.pushed chunks).2 = chunks.flatten := by
  have hempty : PushedList .empty [] := ⟨listOk_nil _, fun _ hn => absurd hn List.not_mem_nil⟩
  obtain ⟨h', l', hfold, hok, hcontent⟩ := hempty.foldl chunks
  rw [BufferedStream.pushed, hfold]
  exact ⟨hok, hcontent⟩

theorem PushedList.alloc (hl : PushedList h l) (c : List UInt8) : PushedList (h.alloc c) l :=
  ⟨(hl.toListOk.alloc c).1, hl.base⟩

/-- What an `erase` leaves. -/
theorem PushedList.consume (hl : PushedList h l) {m : Nat} (hall : deleteAll h (consumed l m) = .ok h') :
    PushedList h' (remaining l m) ∧ content h' (remaining l m) = (content h l).drop m := by
  obtain ⟨hok, hcontent⟩ := hl.toListOk.consume hall
  refine ⟨⟨hok, ?_⟩, hcontent⟩
  intro n hn p hp
  obtain ⟨n', hn', hbuffer⟩ := buffer_remaining l m n hn
  exact hl.base n' hn' p (hbuffer.symm.trans hp)

theorem PushedList.erase (hl : PushedList h l) (m : Nat) :
    ∃ h', ChunkedMemoryStream.erase h l m = .ok (h', remaining l m, min m (content h l).length) ∧
      PushedList h' (remaining l m) ∧ content h' (remaining l m) = (content h l).drop m := by
  obtain ⟨h', hall⟩ := (hl.consumed m).deleteAll_eq fun n hn => hl.base n (consumed_subset l m n hn)
  obtain ⟨hok, hcontent⟩ := hl.consume hall
  refine ⟨h', ?_, hok, hcontent⟩
  rw [ChunkedMemoryStream.erase, hl.eraseLoop_eq, hall, Nat.zero_add]
  rfl

theorem PushedList.read (hl : PushedList h l) (m : Nat) :
    ∃ h', ChunkedMemoryStream.read h l m = .ok (h', remaining l m, (content h l).take m) ∧
      PushedList h' (remaining l m) ∧ content h' (remaining l m) = (content h l).drop m := by
  obtain ⟨h', hall⟩ := (hl.consumed m).deleteAll_eq fun n hn => hl.base n (consumed_subset l m n hn)
  refine ⟨h', ?_, hl.consume hall⟩
  rw [ChunkedMemoryStream.read, hl.readLoop_eq [] (Nat.zero_le m), List.length_nil,
    Nat.sub_zero, hall]
  rfl

/-- The bytes of a node lie at its position. -/
theorem NodeOk.holds (hn : NodeOk h n) : ∃ p, n.position = some p ∧ Heap.Holds h p (nodeBytes h n) := by
  have hlength := hn.length
  cases hn with
  | @mk b off k m c hblock hfits hrest =>
    refine ⟨_, rfl, c, hblock, ?_, ?_⟩
    · rw [hlength]
      simp only
      omega
    · rw [hlength]
      simp only [nodeBytes, hblock, Option.getD_some]

/-! ### The conversions -/

theorem sizeT_eq {x : Int} (hmin : 0 ≤ x) (hmax : x < 2 ^ 63) : sizeT x = x.toNat := by
  have hmod : x % 2 ^ 64 = x := Int.emod_eq_of_lt hmin (by omega)
  exact congrArg Int.toNat hmod

theorem streamsize_eq {n : Nat} (hmax : n < 2 ^ 63) : streamsize n = n := by
  have hlt : (n : Int) < (((2 ^ 64 : Nat) : Int) + 1) / 2 := by omega
  exact Int.bmod_eq_of_le (by omega) hlt

/-! ### One read -/

/-- A stream that is read. -/
structure Reading (s : BufferedStream) : Prop where
  list : PushedList s.heap s.memoryStream
  limit : s.maxLen = -1 ∨ 0 < s.maxLen ∧ s.maxLen < 2 ^ 63 ∧ (s.cumLen : Int) ≤ s.maxLen
  prev : s.prevLen ≤ (content s.heap s.memoryStream).length

theorem reading_create {heap : Heap UInt8} {memoryStream : ChunkedMemoryStream}
    (hl : PushedList heap memoryStream) (bufsize : StreamSize) (limit : Limit) :
    Reading (.create heap memoryStream bufsize limit.toStreamSize) ∧
      within (.create heap memoryStream bufsize limit.toStreamSize) =
        Spec.Limit.take limit (content heap memoryStream) := by
  have hcontent := (hl.toListOk.alloc (List.replicate BUFFER_SIZE 0)).2
  have hne : limit.val ≠ 0 := by
    have := limit.unlimitedOrPos
    omega
  have hmax : (BufferedStream.create heap memoryStream bufsize limit.toStreamSize).maxLen = limit.val :=
    if_neg hne
  refine ⟨⟨hl.alloc _, ?_, Nat.zero_le _⟩, ?_⟩
  · have hlimit := limit.unlimitedOrPos
    have hlt := limit.max
    rw [hmax]
    show _ ∨ _ ∧ _ ∧ (0 : Int) ≤ _
    omega
  · simp only [within, hmax, Spec.Limit.take]
    simp only [BufferedStream.create, hcontent, List.drop_zero, Int.natCast_zero, Int.sub_zero]

theorem belowLimit_iff
    (hlimit : s.maxLen = -1 ∨ 0 < s.maxLen ∧ s.maxLen < 2 ^ 63 ∧ (s.cumLen : Int) ≤ s.maxLen) :
    s.belowLimit = true ↔ s.maxLen = -1 ∨ (s.cumLen : Int) < s.maxLen := by
  simp only [BufferedStream.belowLimit, Bool.or_eq_true, decide_eq_true_eq]
  obtain hnone | ⟨hpos, hlt, -⟩ := hlimit
  · simp [hnone]
  · rw [sizeT_eq (Int.le_of_lt hpos) hlt]
    omega

/-- The size of a read after the limit has been looked at. -/
theorem readSize_eq (hs : Reading s) {size : Int} (hpos : 0 < size) (hmax : size < 2 ^ 63) :
    sizeT (if s.maxLen ≠ -1 ∧ (s.cumLen + sizeT size) % 2 ^ 64 > sizeT s.maxLen then
        streamsize (sizeT (s.maxLen - s.cumLen)) else size) =
      if s.maxLen = -1 then size.toNat else min size.toNat (s.maxLen - s.cumLen).toNat := by
  have hsize : sizeT size = size.toNat := sizeT_eq (Int.le_of_lt hpos) hmax
  obtain hnone | ⟨hlimit, hlt, hcum⟩ := hs.limit
  · rw [if_neg (fun h => h.1 hnone), if_pos hnone, hsize]
  · have hsome : s.maxLen ≠ -1 := by omega
    have hleft : sizeT (s.maxLen - s.cumLen) = (s.maxLen - s.cumLen).toNat :=
      sizeT_eq (by omega) (by omega)
    have hstream : streamsize (s.maxLen - s.cumLen).toNat = s.maxLen - s.cumLen := by
      rw [streamsize_eq (by omega), Int.toNat_of_nonneg (by omega)]
    -- Both are less than 2 ^ 63: the sum does not wrap around.
    have hsum : (s.cumLen + size.toNat) % 2 ^ 64 = s.cumLen + size.toNat :=
      Nat.mod_eq_of_lt (by omega)
    rw [hsize, hleft, hstream, hsum, sizeT_eq (Int.le_of_lt hlimit) hlt, if_neg hsome]
    split
    · rw [hleft]
      omega
    · rw [hsize]
      omega

/-- What a read hands out: the segment at `_p_buffer`. -/
structure Segment (s : BufferedStream) (bytes : List UInt8) : Prop where
  held : bytes ≠ [] → ∃ p, s.pBuffer = some p ∧ Heap.Holds s.heap p bytes

/-- The fields that a read does not look at. -/
structure SameReader (s s' : BufferedStream) : Prop where
  bufsize : s'.bufsize = s.bufsize
  modeIn : s'.modeIn = s.modeIn
  gptr : s'.gptr = s.gptr
  egptr : s'.egptr = s.egptr

/-- One read moves the next bytes from `within` into the segment. -/
theorem Reading.lowReadFromSource (hs : Reading s) {size : Int} (hpos : 0 < size) (hmax : size < 2 ^ 63) :
    ∃ s' segment, s.lowReadFromSource size = .ok (s', segment.length) ∧ Reading s' ∧ SameReader s s' ∧
      Segment s' segment ∧ (segment.length : Int) ≤ size ∧ within s = segment ++ within s' ∧
      (segment = [] → within s = []) ∧ s'.prevLen = segment.length ∧
      content s'.heap s'.memoryStream = (content s.heap s.memoryStream).drop s.prevLen := by
  obtain ⟨h', herase, hl, hcontent⟩ := hs.list.erase s.prevLen
  unfold BufferedStream.lowReadFromSource
  rw [herase]
  by_cases hbelow : s.belowLimit = true
  · have hsize := readSize_eq hs hpos hmax
    have hlimit := (belowLimit_iff hs.limit).mp hbelow
    generalize hrest : remaining s.memoryStream s.prevLen = rest at hl hcontent
    cases rest with
    | nil =>
      have hempty : (content s.heap s.memoryStream).drop s.prevLen = [] := hcontent.symm
      have hnone : within s = [] := by
        simp only [within, hempty, List.take_nil, ite_self]
      refine ⟨_, [], if_pos hbelow, ⟨hl, ?_, Nat.zero_le _⟩, ⟨rfl, rfl, rfl, rfl⟩,
        ⟨fun h => absurd rfl h⟩, Int.le_of_lt hpos, ?_, fun _ => hnone, rfl, hcontent⟩
      · have hcum : (s.cumLen + 0) % 2 ^ 64 ≤ s.cumLen := Nat.mod_le _ _
        exact hs.limit.imp id fun ⟨hpos, hlt, hle⟩ =>
          ⟨hpos, hlt, Int.le_trans (Int.ofNat_le.mpr hcum) hle⟩
      · rw [hnone]
        simp [within]
    | cons n rest =>
      have hn := hl.head
      obtain ⟨p, hposition, hholds⟩ := hn.holds
      generalize hk : (if s.maxLen = -1 then size.toNat else min size.toNat (s.maxLen - s.cumLen).toNat) =
        k at hsize
      have hkpos : 0 < k := by
        rw [← hk]
        split <;> omega
      have hksize : k ≤ size.toNat := by
        rw [← hk]
        split <;> omega
      generalize hsegment : (nodeBytes h' n).take k = segment
      have hlength : segment.length = min k n.sizeAtPosition := by
        rw [← hsegment, List.length_take, hn.length]
      have hlen : (if n.getBufferLen > k then k else n.getBufferLen) = segment.length := by
        rw [hlength, BufferNode.getBufferLen]
        split <;> omega
      have hnpos := hn.pos
      have hbefore : segment <+: content h' (n :: rest) := by
        rw [content_cons, ← hsegment]
        exact (List.take_prefix k _).trans (List.prefix_append _ _)
      -- With a limit, the segment does not pass it and the count does not wrap.
      have hcount : s.maxLen ≠ -1 → segment.length ≤ (s.maxLen - s.cumLen).toNat ∧
          (s.cumLen + segment.length) % 2 ^ 64 = s.cumLen + segment.length := by
        intro hsome
        have hlt := (hs.limit.resolve_left hsome).2.1
        rw [if_neg hsome] at hk
        exact ⟨by omega, Nat.mod_eq_of_lt (by omega)⟩
      refine ⟨{ s with
          heap := h'
          memoryStream := n :: rest
          pBuffer := n.getBuffer
          cumLen := (s.cumLen + segment.length) % 2 ^ 64
          prevLen := segment.length }, segment, ?_, ⟨hl, ?_, ?_⟩, ⟨rfl, rfl, rfl, rfl⟩, ⟨?_⟩, ?_, ?_, ?_,
        rfl, hcontent⟩
      · refine (if_pos hbelow).trans ?_
        rw [← hlen, ← hsize]
        rfl
      · rw [or_iff_not_imp_left]
        intro hsome
        obtain ⟨hpos, hlt, hle⟩ := hs.limit.resolve_left hsome
        obtain ⟨hfits, hsum⟩ := hcount hsome
        simp only [hsum]
        omega
      · exact hbefore.length_le
      · intro _
        exact ⟨p, hposition, hsegment ▸ hholds.take k⟩
      · omega
      · simp only [within, ← hcontent]
        by_cases hnone : s.maxLen = -1
        · rw [if_pos hnone, if_pos hnone]
          exact (List.prefix_iff_eq_append.mp hbefore).symm
        · obtain ⟨hfits, hsum⟩ := hcount hnone
          have hleft : (s.maxLen - (s.cumLen + segment.length : Nat)).toNat =
              (s.maxLen - s.cumLen).toNat - segment.length := by
            omega
          rw [if_neg hnone, if_neg hnone, hsum, hleft, ← List.drop_take]
          exact (List.prefix_iff_eq_append.mp (List.prefix_take_iff.mpr ⟨hbefore, hfits⟩)).symm
      · intro hnil
        rw [hnil, List.length_nil] at hlength
        omega
  · have hnone : within s = [] := by
      rw [belowLimit_iff hs.limit] at hbelow
      rw [within, if_neg (fun h => hbelow (.inl h)), Int.toNat_of_nonpos (by omega), List.take_zero]
    refine ⟨_, [], if_neg hbelow, ⟨hl, hs.limit, Nat.zero_le _⟩, ⟨rfl, rfl, rfl, rfl⟩,
      ⟨fun h => absurd rfl h⟩, Int.le_of_lt hpos, ?_, fun _ => hnone, rfl, hcontent⟩
    -- Nothing was within the limit, and nothing is.
    simp only [within, hcontent, List.drop_zero, List.nil_append]

end Efio.Proofs.Evds
