import Efio.Proofs.Evds.BufferedReading
import Efio.Spec.FlatWriter

/-!
# `Efio.Proofs.Evds.BufferedWriting`: the put buffer and its flush

`WriteInv` is what the calls of a writer keep. Its last field is about a
put buffer that the memory stream has already been given: that happens in
a flush that truncates, and then the limit has been reached, so that no
later flush gives it away a second time.

`WriteInv.fill` is what a flush does to the put buffer before it pushes
it, `WriteInv.flush_full`, `WriteInv.flush_pushed` and
`WriteInv.flush_truncated` are the three ways in which it goes on.
-/

set_option autoImplicit false

namespace Efio.Proofs.Evds

open Efio.Lib
open Efio.Evds
open Efio.Spec

variable {h h' : Heap UInt8} {l : ChunkedMemoryStream} {n : BufferNode}
variable {s s' : BufferedStream} {f : Framing} {xs : List UInt8}

/-! ### A store into a buffer -/

theorem NodeOk.store (hn : NodeOk h n) {w : Nat} {c c' : List UInt8} (hc : h.blocks w = some c)
    (hlen : c'.length = c.length) (hblocks : h'.blocks = Function.update h.blocks w (some c')) :
    NodeOk h' n := by
  cases hn with
  | @mk b off k m d hblock hfits hrest =>
    by_cases hb : b = w
    · subst hb
      cases hblock.symm.trans hc
      exact .mk (hblocks ▸ Function.update_self _ _ _) (hlen ▸ hfits) hrest
    · refine .mk ?_ hfits hrest
      rw [hblocks, Function.update_of_ne hb]
      exact hblock

theorem ListOk.store (hl : ListOk h l) {w : Nat} {c c' : List UInt8} (hc : h.blocks w = some c)
    (hlen : c'.length = c.length) (hblocks : h'.blocks = Function.update h.blocks w (some c')) :
    ListOk h' l :=
  ⟨fun n hn => (hl.node n hn).store hc hlen hblocks, hl.nodup⟩

/-- The nodes with another block have the bytes they had. -/
theorem ListOk.nodeBytes_store (hl : ListOk h l) {w : Nat} {c' : List UInt8}
    (hblocks : h'.blocks = Function.update h.blocks w (some c')) (hn : n ∈ l)
    (hother : blockOf n ≠ some w) : nodeBytes h' n = nodeBytes h n := by
  refine ((hl.node n hn).congr ?_).2
  intro b hb
  have hne : b ≠ w := fun heq => hother (heq ▸ hb)
  rw [hblocks, Function.update_of_ne hne]

/-! ### The put buffer -/

/-- The put buffer, with the pending payload `xs`. -/
structure PutArea (s : BufferedStream) (xs : List UInt8) : Prop where
  base : s.wBuffer.off = 0
  block : ∃ a rest, s.heap.blocks s.wBuffer.block = some (a ++ (xs ++ rest)) ∧ a.length = s.prefixLen ∧
    a.length + (xs.length + rest.length) = BUFFER_SIZE ∧ s.suffixLen ≤ rest.length
  pbase : s.pbase = s.wBuffer.add s.prefixLen
  pptr : s.pptr = s.wBuffer.add (s.prefixLen + xs.length)
  epptr : s.epptr = s.wBuffer.add (BUFFER_SIZE - s.suffixLen)

theorem PutArea.pending_eq (ha : PutArea s xs) : pending s = xs := by
  obtain ⟨a, rest, hblock, hlength, -, -⟩ := ha.block
  have hcount : s.prefixLen + xs.length - s.prefixLen = xs.length := Nat.add_sub_cancel_left _ _
  simp only [pending, ha.pbase, ha.pptr, Ptr.add_block, Ptr.add_off, ha.base, Nat.zero_add, hblock,
    Option.getD_some, hcount]
  rw [List.drop_left' hlength, List.take_left' rfl]

/-- A writer between two calls. -/
structure WriteInv (s : BufferedStream) : Prop where
  list : ListOk s.heap s.memoryStream
  area : PutArea s (pending s)
  modeOut : s.modeOut = true
  keepsAll : s.consumeAllOfMaxLen = false
  prefixLen : s.prefixLen ≤ 6
  suffixLen : s.suffixLen ≤ 4
  limit : s.maxLen = -1 ∨ 0 < s.maxLen ∧ s.maxLen < 2 ^ 63 ∧ (s.cumLen : Int) ≤ s.maxLen
  given : ∀ n ∈ s.memoryStream, blockOf n = some s.wBuffer.block →
    n.buffer = some s.wBuffer ∧ n.position = some s.wBuffer ∧
      n.sizeAtPosition < (pending s).length ∧ s.belowLimit = false

/-- The first bytes of a put buffer that the memory stream has been given. -/
theorem WriteInv.nodeBytes_given (hs : WriteInv s) (hn : n ∈ s.memoryStream)
    (hblock : blockOf n = some s.wBuffer.block) {c : List UInt8}
    (hc : h.blocks s.wBuffer.block = some c) : nodeBytes h n = c.take n.sizeAtPosition := by
  obtain ⟨-, hposition, -⟩ := hs.given n hn hblock
  simp only [nodeBytes, hposition, hc, Option.getD_some, hs.area.base, List.drop_zero]

theorem WriteInv.room_iff (hs : WriteInv s) :
    s.pptr.off < s.epptr.off ↔ s.prefixLen + (pending s).length < BUFFER_SIZE - s.suffixLen := by
  rw [hs.area.pptr, hs.area.epptr, Ptr.add_off, Ptr.add_off, hs.area.base, Nat.zero_add, Nat.zero_add]

/-- A character is put behind the pending ones. -/
theorem WriteInv.putChar (hs : WriteInv s) (hroom : s.pptr.off < s.epptr.off) (c : UInt8) :
    ∃ h', s.putChar c = .ok { s with heap := h', pptr := s.pptr.add 1 } ∧
      WriteInv { s with heap := h', pptr := s.pptr.add 1 } ∧
      pending { s with heap := h', pptr := s.pptr.add 1 } = pending s ++ [c] ∧
      content h' s.memoryStream = content s.heap s.memoryStream := by
  obtain ⟨a, rest, hblock, hlength, htotal, hsuffix⟩ := hs.area.block
  rw [hs.room_iff] at hroom
  have hoff : s.pptr.off = (a ++ pending s).length := by
    rw [hs.area.pptr, Ptr.add_off, hs.area.base, Nat.zero_add, List.length_append, hlength]
  have hpptr : s.pptr.block = s.wBuffer.block := by rw [hs.area.pptr, Ptr.add_block]
  rw [← List.append_assoc] at hblock
  have hlt : 1 ≤ rest.length := by omega
  have hwrite : writeAt (a ++ pending s ++ rest) s.pptr.off [c] = a ++ pending s ++ ([c] ++ rest.drop 1) := by
    rw [hoff, writeAt_append]
    rfl
  have hall : (a ++ pending s ++ rest).length = (a ++ pending s).length + rest.length := List.length_append
  have hfits : s.pptr.off + [c].length ≤ (a ++ pending s ++ rest).length := by
    rw [hoff, hall, List.length_singleton]
    omega
  obtain ⟨h', hstore, -, hblocks⟩ := Heap.store_eq (p := s.pptr) (hpptr ▸ hblock) hfits
  rw [hpptr, hwrite] at hblocks
  have hlen : (a ++ pending s ++ ([c] ++ rest.drop 1)).length = (a ++ pending s ++ rest).length := by
    simp only [List.length_append, List.length_singleton, List.length_drop]
    omega
  -- A node that has the put buffer ends before the character.
  have hnode : ∀ n ∈ s.memoryStream, nodeBytes h' n = nodeBytes s.heap n := by
    intro n hn
    by_cases hgiven : blockOf n = some s.wBuffer.block
    · obtain ⟨-, -, hsize, -⟩ := hs.given n hn hgiven
      have hnew : h'.blocks s.wBuffer.block = some (a ++ pending s ++ ([c] ++ rest.drop 1)) := by
        rw [hblocks, Function.update_self]
      have hle : n.sizeAtPosition ≤ (a ++ pending s).length := by
        rw [List.length_append]
        omega
      rw [hs.nodeBytes_given hn hgiven hnew, hs.nodeBytes_given hn hgiven hblock,
        List.take_append_of_le_length hle, List.take_append_of_le_length hle]
    · exact hs.list.nodeBytes_store hblocks hn hgiven
  have harea : PutArea { s with heap := h', pptr := s.pptr.add 1 } (pending s ++ [c]) := by
    refine ⟨hs.area.base, ⟨a, rest.drop 1, ?_, hlength, ?_, ?_⟩, hs.area.pbase, ?_, hs.area.epptr⟩
    · show h'.blocks s.wBuffer.block = _
      rw [hblocks, Function.update_self, List.append_assoc, List.append_assoc]
    · simp only [List.length_append, List.length_singleton, List.length_drop]
      omega
    · show s.suffixLen ≤ _
      rw [List.length_drop]
      omega
    · show s.pptr.add 1 = _
      rw [hs.area.pptr, List.length_append, List.length_singleton]
      rfl
  have hpending := harea.pending_eq
  refine ⟨h', ?_, ⟨hs.list.store hblock hlen hblocks, hpending.symm ▸ harea, hs.modeOut, hs.keepsAll,
    hs.prefixLen, hs.suffixLen, hs.limit, ?_⟩, hpending, List.flatMap_congr hnode⟩
  · rw [BufferedStream.putChar, hstore]
    rfl
  · intro n hn hgiven
    obtain ⟨hbuffer, hposition, hsize, hfull⟩ := hs.given n hn hgiven
    refine ⟨hbuffer, hposition, ?_, hfull⟩
    rw [hpending, List.length_append]
    exact Nat.lt_add_right _ hsize

/-! ### The frame is put together -/

theorem length_of_strlen {bytes : List UInt8} {len : Nat} (hstrlen : strlen bytes = len) :
    (bytes.take len).length = len := by
  rw [List.length_take]
  have hle : strlen bytes ≤ bytes.length := (List.takeWhile_prefix _).length_le
  omega

/-- `len` bytes that were filled exactly are copied; none for 0. -/
theorem memcpy_eq {bytes : List UInt8} {len : Nat} {p : Ptr} {c : List UInt8}
    (hc : s.heap.blocks p.block = some c) (hfits : p.off + len ≤ c.length)
    (hexact : len = 0 ∨ strlen bytes = len) :
    ∃ h', s.memcpy bytes len p = .ok { s with heap := h' } ∧ h'.fresh = s.heap.fresh ∧
      h'.blocks = Function.update s.heap.blocks p.block (some (writeAt c p.off (bytes.take len))) := by
  by_cases hzero : len = 0
  · subst hzero
    refine ⟨s.heap, if_pos rfl, rfl, ?_⟩
    rw [List.take_zero, writeAt_nil_of_le (by omega), ← hc, Function.update_eq_self]
  · have hstrlen := hexact.resolve_left hzero
    have hlen := length_of_strlen hstrlen
    have hfits : p.off + (bytes.take len).length ≤ c.length := by rwa [hlen]
    obtain ⟨h', hstore, hfresh, hblocks⟩ := Heap.store_eq hc hfits
    refine ⟨h', ?_, hfresh, hblocks⟩
    rw [BufferedStream.memcpy, if_neg hzero, if_neg (not_not.mpr hstrlen), hstore]
    rfl

theorem length_take_exact {bytes : List UInt8} {len : Nat} (hexact : len = 0 ∨ strlen bytes = len) :
    (bytes.take len).length = len := by
  obtain h | h := hexact
  · rw [h]
    rfl
  · exact length_of_strlen h

/-- The frame that a flush makes. -/
def frameOf (f : Framing) (s : BufferedStream) : List UInt8 :=
  (f.getPrefix s.writes (pending s)).take s.prefixLen ++ pending s ++
    (f.getSuffix s.writes (pending s)).take s.suffixLen

/-- The put buffer holds the frame. -/
structure Filled (f : Framing) (s : BufferedStream) (h' : Heap UInt8) : Prop where
  fresh : h'.fresh = s.heap.fresh
  block : ∃ rest, h'.blocks = Function.update s.heap.blocks s.wBuffer.block (some (frameOf f s ++ rest)) ∧
    (frameOf f s).length + rest.length = BUFFER_SIZE

theorem length_frameOf (hexact : Exact f s) :
    (frameOf f s).length = (pending s).length + s.prefixLen + s.suffixLen := by
  rw [frameOf, List.length_append, List.length_append, length_take_exact hexact.1,
    length_take_exact hexact.2]
  omega

/-- The payload lies behind the room for the prefix. -/
theorem WriteInv.load_payload (hs : WriteInv s) :
    s.heap.load (s.wBuffer.add s.prefixLen) (pending s).length = .ok (pending s) := by
  obtain ⟨a, rest, hblock, hlength, -, -⟩ := hs.area.block
  have hbase := hs.area.base
  refine (Heap.load_eq (p := s.wBuffer.add s.prefixLen) hblock ?_).trans ?_
  · simp only [Ptr.add_off, hbase, List.length_append]
    omega
  · rw [Ptr.add_off, hbase, Nat.zero_add, List.drop_left' hlength, List.take_left' rfl]

/-- `low_write_to_sync` makes the frame and goes on to push it. -/
theorem WriteInv.fill (hs : WriteInv s) (hexact : Exact f s) :
    ∃ h', Filled f s h' ∧ s.lowWriteToSync f s.wBuffer (pending s).length =
      .ok ({ s with heap := h', writes := s.writes + 1 }.pushToSync s.wBuffer
        ((pending s).length + s.prefixLen + s.suffixLen : Nat)) := by
  obtain ⟨a, rest, hblock, hlength, htotal, hsuffix⟩ := hs.area.block
  have hbase := hs.area.base
  obtain ⟨pre, hpre⟩ : ∃ pre, pre = (f.getPrefix s.writes (pending s)).take s.prefixLen := ⟨_, rfl⟩
  obtain ⟨suf, hsuf⟩ : ∃ suf, suf = (f.getSuffix s.writes (pending s)).take s.suffixLen := ⟨_, rfl⟩
  have hframe : frameOf f s = pre ++ pending s ++ suf := by rw [frameOf, hpre, hsuf]
  have hframeLength := length_frameOf hexact
  rw [hframe, List.length_append, List.length_append] at hframeLength
  have hpreLength : pre.length = s.prefixLen := by
    rw [hpre]
    exact length_take_exact hexact.1
  have hfits₁ : s.wBuffer.off + s.prefixLen ≤ (a ++ (pending s ++ rest)).length := by
    rw [hbase, List.length_append]
    omega
  obtain ⟨h₁, hmemcpy₁, hfresh₁, hblocks₁⟩ := memcpy_eq hblock hfits₁ hexact.1
  have hwrite₁ : writeAt (a ++ (pending s ++ rest)) s.wBuffer.off pre = pre ++ pending s ++ rest := by
    have hwrite := writeAt_append [] (a ++ (pending s ++ rest)) pre
    rw [hpreLength, ← hlength, List.drop_left' rfl] at hwrite
    rw [hbase, List.append_assoc]
    exact hwrite
  rw [← hpre, hwrite₁] at hblocks₁
  have hblock₁ : h₁.blocks s.wBuffer.block = some (pre ++ pending s ++ rest) := by
    rw [hblocks₁, Function.update_self]
  have hoff : (s.wBuffer.add ((pending s).length + s.prefixLen)).off = (pre ++ pending s).length := by
    rw [Ptr.add_off, hbase, List.length_append, hpreLength]
    omega
  have hfits₂ : (s.wBuffer.add ((pending s).length + s.prefixLen)).off + s.suffixLen ≤
      (pre ++ pending s ++ rest).length := by
    simp only [hoff, List.length_append]
    omega
  obtain ⟨h₂, hmemcpy₂, hfresh₂, hblocks₂⟩ :=
    memcpy_eq (s := { s with heap := h₁ }) (p := s.wBuffer.add ((pending s).length + s.prefixLen)) hblock₁
      hfits₂ hexact.2
  rw [hoff, writeAt_append, ← hsuf] at hblocks₂
  refine ⟨h₂, ⟨hfresh₂.trans hfresh₁, rest.drop suf.length, ?_, ?_⟩, ?_⟩
  · rw [hblocks₂, Ptr.add_block, hblocks₁, Function.update_idem, hframe, List.append_assoc (_ ++ _)]
  · rw [hframe, List.length_append, List.length_append, List.length_drop]
    omega
  · rw [BufferedStream.lowWriteToSync, hs.load_payload]
    show (s.memcpy _ _ _ >>= _) = _
    rw [hmemcpy₁, ok_bind]
    show (BufferedStream.memcpy _ _ _ { s with heap := h₁ } >>= _) = _
    rw [hmemcpy₂]
    rfl

/-- A new put buffer. -/
theorem putArea_fresh (s : BufferedStream) (hbefore : s.prefixLen ≤ 6) (hsuffix : s.suffixLen ≤ 4) :
    PutArea s.mallocWBuffer.setp [] := by
  refine ⟨rfl, ⟨List.replicate s.prefixLen 0, List.replicate (BUFFER_SIZE - s.prefixLen) 0, ?_,
    List.length_replicate, ?_, ?_⟩, rfl, rfl, rfl⟩
  · have hsize : BUFFER_SIZE = s.prefixLen + (BUFFER_SIZE - s.prefixLen) := by
      simp only [BUFFER_SIZE]
      omega
    show (s.heap.alloc (List.replicate BUFFER_SIZE 0)).blocks s.heap.newPtr.block = _
    rw [Heap.alloc_newPtr, List.nil_append, List.replicate_append_replicate, ← hsize]
  · simp only [List.length_replicate, List.length_nil, BUFFER_SIZE]
    omega
  · show s.suffixLen ≤ _
    simp only [List.length_replicate, BUFFER_SIZE]
    omega

/-- A state whose put buffer is full of what has been dealt with: the next
one is new. -/
theorem writeInv_fresh (hl : ListOk s.heap s.memoryStream) (hmode : s.modeOut = true)
    (hkeeps : s.consumeAllOfMaxLen = false) (hbefore : s.prefixLen ≤ 6) (hsuffix : s.suffixLen ≤ 4)
    (hlimit : s.maxLen = -1 ∨ 0 < s.maxLen ∧ s.maxLen < 2 ^ 63 ∧ (s.cumLen : Int) ≤ s.maxLen) :
    WriteInv s.mallocWBuffer.setp ∧ pending s.mallocWBuffer.setp = [] ∧
      content s.mallocWBuffer.setp.heap s.mallocWBuffer.setp.memoryStream =
        content s.heap s.memoryStream ∧
      s.mallocWBuffer.setp.wBuffer.block ∉ blocksOf s.memoryStream := by
  have harea := putArea_fresh s hbefore hsuffix
  have hpending := harea.pending_eq
  obtain ⟨hl', hcontent⟩ := hl.alloc (List.replicate BUFFER_SIZE 0)
  have hfresh : s.mallocWBuffer.setp.wBuffer.block ∉ blocksOf s.memoryStream := hl.not_fresh
  refine ⟨⟨hl', hpending.symm ▸ harea, hmode, hkeeps, hbefore, hsuffix, hlimit, ?_⟩, hpending, hcontent, hfresh⟩
  intro n hn hgiven
  exact absurd (mem_blocksOf hn hgiven) hfresh

/-- How much of `size` bytes is pushed below the limit. -/
def pushLen (s : BufferedStream) (size : Nat) : Nat :=
  if s.maxLen = -1 then size else min size (s.maxLen - s.cumLen).toNat

/-- The state after `len` bytes of the put buffer have been pushed. -/
def pushBuffer (s : BufferedStream) (len : Nat) : BufferedStream :=
  { s with
    memoryStream := s.memoryStream ++ [.setBuffer (some s.wBuffer) len]
    cumLen := (s.cumLen + len) % 2 ^ 64 }

theorem pushLen_pos
    (hlimit : s.maxLen = -1 ∨ 0 < s.maxLen ∧ s.maxLen < 2 ^ 63 ∧ (s.cumLen : Int) ≤ s.maxLen)
    (hbelow : s.belowLimit = true) {size : Nat} (hsize : 0 < size) : 0 < pushLen s size := by
  rw [belowLimit_iff hlimit] at hbelow
  unfold pushLen
  split <;> omega

theorem pushToSync_eq
    (hlimit : s.maxLen = -1 ∨ 0 < s.maxLen ∧ s.maxLen < 2 ^ 63 ∧ (s.cumLen : Int) ≤ s.maxLen)
    (size : Nat) (hsize : 0 < size) (hmax : size < 2 ^ 63) :
    s.pushToSync s.wBuffer size =
      if s.belowLimit = true then (pushBuffer s (pushLen s size), pushLen s size) else (s, size) := by
  have hsizeT : sizeT size = size := sizeT_eq (Int.natCast_nonneg size) (by omega)
  by_cases hbelow : s.belowLimit = true
  · have hpos := pushLen_pos hlimit hbelow hsize
    have hlen : (if s.maxLen ≠ -1 ∧ (s.cumLen + size) % 2 ^ 64 > sizeT s.maxLen then
        sizeT (s.maxLen - s.cumLen) else size) = pushLen s size := by
      obtain hnone | ⟨hlimitPos, hlt, hcum⟩ := hlimit
      · rw [if_neg (fun h => h.1 hnone), pushLen, if_pos hnone]
      · have hsome : s.maxLen ≠ -1 := by omega
        have hsum : (s.cumLen + size) % 2 ^ 64 = s.cumLen + size := Nat.mod_eq_of_lt (by omega)
        rw [pushLen, if_neg hsome, hsum, sizeT_eq (Int.le_of_lt hlimitPos) hlt,
          sizeT_eq (by omega) (by omega)]
        split <;> omega
    have hnonzero : pushLen s size ≠ 0 := Nat.ne_of_gt hpos
    simp only [BufferedStream.pushToSync, hsizeT, if_pos hbelow, hlen, ChunkedMemoryStream.push,
      ChunkedMemoryStream.addNode, ne_eq, hnonzero, not_false_eq_true, if_true, pushBuffer]
  · simp only [BufferedStream.pushToSync, hsizeT, if_neg hbelow]

/-- `flush_buffer` after the write. -/
theorem flushBuffer_of_write {s₁ : BufferedStream} {len count : Nat} (hmode : s.modeOut = true)
    (hcount : s.pptr.off - s.pbase.off = count) (hne : count ≠ 0)
    (hwrite : s.lowWriteToSync f s.wBuffer count = .ok (s₁, len)) :
    s.flushBuffer f = if count ≤ len then .ok (s₁.mallocWBuffer.setp, count) else .ok (s₁, -1) := by
  unfold BufferedStream.flushBuffer
  rw [if_neg (not_not.mpr hmode), hcount]
  dsimp only
  rw [if_pos hne, hwrite, ok_bind]
  dsimp only
  split <;> rfl

theorem WriteInv.pending_length (hs : WriteInv s) :
    s.pptr.off - s.pbase.off = (pending s).length ∧
      (pending s).length + s.prefixLen + s.suffixLen ≤ BUFFER_SIZE := by
  obtain ⟨a, rest, -, hbefore, htotal, hsuffix⟩ := hs.area.block
  refine ⟨?_, by omega⟩
  rw [hs.area.pptr, hs.area.pbase, Ptr.add_off, Ptr.add_off]
  omega

/-- `flush_buffer` of a pending payload. -/
theorem WriteInv.flushBuffer_eq (hs : WriteInv s) (hexact : Exact f s) (hne : pending s ≠ []) :
    ∃ h', Filled f s h' ∧ ∀ s₁, s₁ = { s with heap := h', writes := s.writes + 1 } →
      let len := pushLen s ((pending s).length + s.prefixLen + s.suffixLen)
      (s.belowLimit = true → s.flushBuffer f =
        if (pending s).length ≤ len then
          .ok ((pushBuffer s₁ len).mallocWBuffer.setp, (pending s).length)
        else .ok (pushBuffer s₁ len, -1)) ∧
      (s.belowLimit = false → s.flushBuffer f = .ok (s₁.mallocWBuffer.setp, (pending s).length)) := by
  obtain ⟨h', hfilled, hwrite⟩ := hs.fill hexact
  refine ⟨h', hfilled, ?_⟩
  intro s₁ hs₁
  rw [← hs₁] at hwrite
  have hlength : (pending s).length ≠ 0 := fun h => hne (List.length_eq_zero_iff.mp h)
  obtain ⟨hcount, htotal⟩ := hs.pending_length
  rw [BUFFER_SIZE] at htotal
  obtain ⟨hlimit, hbelowLimit, hwBuffer, hlen⟩ : (s₁.maxLen = -1 ∨ 0 < s₁.maxLen ∧
      s₁.maxLen < 2 ^ 63 ∧ (s₁.cumLen : Int) ≤ s₁.maxLen) ∧ s₁.belowLimit = s.belowLimit ∧
      s₁.wBuffer = s.wBuffer ∧ ∀ size, pushLen s₁ size = pushLen s size := by
    rw [hs₁]
    exact ⟨hs.limit, rfl, rfl, fun _ => rfl⟩
  have hpush := pushToSync_eq hlimit
    ((pending s).length + s.prefixLen + s.suffixLen) (by omega) (by omega)
  rw [hwBuffer, hbelowLimit, hlen] at hpush
  rw [hpush] at hwrite
  refine ⟨?_, ?_⟩
  · intro hbelow
    rw [if_pos hbelow] at hwrite
    exact flushBuffer_of_write hs.modeOut hcount hlength hwrite
  · intro hfull
    rw [if_neg (by rw [hfull]; exact Bool.false_ne_true)] at hwrite
    refine (flushBuffer_of_write hs.modeOut hcount hlength hwrite).trans (if_pos ?_)
    omega

/-! ### The memory stream after a flush -/

theorem Filled.list (hs : WriteInv s) (hfilled : Filled f s h') : ListOk h' s.memoryStream := by
  obtain ⟨a, rest, hblock, -, htotal, -⟩ := hs.area.block
  obtain ⟨rest', hblocks, htotal'⟩ := hfilled.block
  refine hs.list.store hblock ?_ hblocks
  rw [List.length_append, List.length_append, List.length_append, htotal', htotal]

/-- The put buffer is not the memory stream's. -/
def Own (s : BufferedStream) : Prop := s.wBuffer.block ∉ blocksOf s.memoryStream

theorem Filled.content_own (hs : WriteInv s) (hfilled : Filled f s h') (hown : Own s) :
    content h' s.memoryStream = content s.heap s.memoryStream := by
  obtain ⟨rest, hblocks, -⟩ := hfilled.block
  refine List.flatMap_congr fun n hn => hs.list.nodeBytes_store hblocks hn fun hgiven => ?_
  exact hown (mem_blocksOf hn hgiven)

/-- Below the limit the put buffer has not been given away. -/
theorem WriteInv.own_of_below (hs : WriteInv s) (hbelow : s.belowLimit = true) : Own s := by
  intro hmem
  obtain ⟨n, hn, hgiven⟩ := List.mem_filterMap.mp hmem
  obtain ⟨-, -, -, hfull⟩ := hs.given n hn hgiven
  rw [hbelow] at hfull
  cases hfull

theorem take_append_iff {pre a xs : List UInt8} (hlength : pre.length = a.length) (size : Nat) :
    (pre ++ xs).take size = (a ++ xs).take size ↔
      pre.take size = ((a ++ xs).take size).take a.length := by
  have hfirst : ((a ++ xs).take size).take a.length = a.take size := by
    rw [List.take_take, Nat.min_comm, ← List.take_take, List.take_left' rfl]
  rw [hfirst, List.take_append, List.take_append, hlength]
  exact ⟨fun h => List.append_cancel_right h, fun h => by rw [h]⟩

/-- A node with the put buffer keeps its bytes if it gets the same prefix. -/
theorem Filled.nodeBytes_iff (hs : WriteInv s) (hexact : Exact f s) (hfilled : Filled f s h')
    (hn : n ∈ s.memoryStream) (hgiven : blockOf n = some s.wBuffer.block) :
    nodeBytes h' n = nodeBytes s.heap n ↔
      ((f.getPrefix s.writes (pending s)).take s.prefixLen).take n.sizeAtPosition =
        (nodeBytes s.heap n).take s.prefixLen := by
  obtain ⟨a, rest, hblock, hlength, -, -⟩ := hs.area.block
  obtain ⟨rest', hblocks, -⟩ := hfilled.block
  obtain ⟨-, -, hsize, -⟩ := hs.given n hn hgiven
  have hpre : ((f.getPrefix s.writes (pending s)).take s.prefixLen).length = a.length := by
    rw [hlength]
    exact length_take_exact hexact.1
  have hnew : h'.blocks s.wBuffer.block = some (frameOf f s ++ rest') := by
    rw [hblocks, Function.update_self]
  have hle : ∀ b : List UInt8, n.sizeAtPosition ≤ (b ++ pending s).length := by
    intro b
    rw [List.length_append]
    omega
  rw [hs.nodeBytes_given hn hgiven hnew, hs.nodeBytes_given hn hgiven hblock, ← hlength, frameOf,
    List.append_assoc, ← List.append_assoc a, List.take_append_of_le_length (hle _),
    List.take_append_of_le_length (hle _), hlength]
  rw [← hlength] at hpre ⊢
  exact take_append_iff hpre n.sizeAtPosition

theorem eq_of_flatMap_eq {α β : Type} {l : List α} {g g' : α → List β}
    (hlength : ∀ x ∈ l, (g x).length = (g' x).length) (heq : l.flatMap g = l.flatMap g') :
    ∀ x ∈ l, g x = g' x := by
  induction l with
  | nil => exact fun x hx => absurd hx List.not_mem_nil
  | cons y l ih =>
    rw [List.flatMap_cons, List.flatMap_cons] at heq
    obtain ⟨hfirst, hrest⟩ := List.append_inj heq (hlength y List.mem_cons_self)
    intro x hx
    obtain rfl | hx := List.mem_cons.mp hx
    · exact hfirst
    · exact ih (fun x hx => hlength x (List.mem_cons_of_mem _ hx)) hrest x hx

/-- The memory stream keeps its bytes if and only if a node with the put
buffer gets the same prefix. -/
theorem Filled.content_iff (hs : WriteInv s) (hexact : Exact f s) (hfilled : Filled f s h') :
    content h' s.memoryStream = content s.heap s.memoryStream ↔
      ∀ n ∈ s.memoryStream, blockOf n = some s.wBuffer.block →
        ((f.getPrefix s.writes (pending s)).take s.prefixLen).take n.sizeAtPosition =
          (nodeBytes s.heap n).take s.prefixLen := by
  have hl := hfilled.list hs
  constructor
  · intro heq n hn hgiven
    refine (hfilled.nodeBytes_iff hs hexact hn hgiven).mp (eq_of_flatMap_eq ?_ heq n hn)
    intro m hm
    rw [(hl.node m hm).length, (hs.list.node m hm).length]
  · intro hsame
    refine List.flatMap_congr fun n hn => ?_
    by_cases hgiven : blockOf n = some s.wBuffer.block
    · exact (hfilled.nodeBytes_iff hs hexact hn hgiven).mpr (hsame n hn hgiven)
    · obtain ⟨rest, hblocks, -⟩ := hfilled.block
      exact hs.list.nodeBytes_store hblocks hn hgiven

/-- The node of a put buffer that has just been pushed. -/
theorem Filled.push (hs : WriteInv s) (hfilled : Filled f s h') (hown : Own s) {len : Nat}
    (hpos : 0 < len) (hle : len ≤ (frameOf f s).length) :
    ListOk h' (s.memoryStream ++ [.setBuffer (some s.wBuffer) len]) ∧
      content h' (s.memoryStream ++ [.setBuffer (some s.wBuffer) len]) =
        content s.heap s.memoryStream ++ (frameOf f s).take len := by
  obtain ⟨rest, hblocks, htotal⟩ := hfilled.block
  have hblock : h'.blocks s.wBuffer.block = some (frameOf f s ++ rest) := by
    rw [hblocks, Function.update_self]
  have hw : s.wBuffer = ⟨s.wBuffer.block, 0⟩ := congrArg (Ptr.mk s.wBuffer.block) hs.area.base
  have hfits : len ≤ (frameOf f s ++ rest).length := by
    rw [List.length_append]
    omega
  obtain ⟨hnode, hbytes⟩ := nodeOk_setBuffer hblock hpos hfits
  rw [← hw] at hnode hbytes
  refine ⟨(hfilled.list hs).append (listOk_singleton hnode) ?_, ?_⟩
  · intro b hb hb'
    have hnew : blockOf (.setBuffer (some s.wBuffer) len) = some s.wBuffer.block := rfl
    rw [blocksOf_cons hnew, blocksOf_nil, List.mem_singleton] at hb'
    exact hown (hb' ▸ hb)
  · rw [content_append, content_cons, content_nil, List.append_nil, hbytes, hfilled.content_own hs hown,
      List.take_append_of_le_length hle]

/-! ### The three ways of a flush -/

/-- What a flush does not change. -/
structure SameWriter (s s' : BufferedStream) : Prop where
  modeIn : s'.modeIn = s.modeIn
  maxLen : s'.maxLen = s.maxLen
  prefixLen : s'.prefixLen = s.prefixLen
  suffixLen : s'.suffixLen = s.suffixLen

/-- A flush that gets a new put buffer. -/
structure Flushed (s s' : BufferedStream) : Prop where
  inv : WriteInv s'
  same : SameWriter s s'
  pending : pending s' = []
  own : Own s'
  writes : s'.writes = s.writes + 1

theorem pushLen_le (s : BufferedStream) (size : Nat) : pushLen s size ≤ size := by
  unfold pushLen
  split <;> omega

/-- The count of the bytes that were pushed stays within the limit. -/
theorem limit_pushLen
    (hlimit : s.maxLen = -1 ∨ 0 < s.maxLen ∧ s.maxLen < 2 ^ 63 ∧ (s.cumLen : Int) ≤ s.maxLen) (size : Nat) :
    s.maxLen = -1 ∨ 0 < s.maxLen ∧ s.maxLen < 2 ^ 63 ∧
      (((s.cumLen + pushLen s size) % 2 ^ 64 : Nat) : Int) ≤ s.maxLen := by
  rw [or_iff_not_imp_left]
  intro hsome
  obtain ⟨hpos, hlt, hle⟩ := hlimit.resolve_left hsome
  have hmod : (s.cumLen + pushLen s size) % 2 ^ 64 ≤ s.cumLen + pushLen s size := Nat.mod_le _ _
  have hlen : pushLen s size ≤ (s.maxLen - s.cumLen).toNat := by
    rw [pushLen, if_neg hsome]
    exact Nat.min_le_right _ _
  omega

/-- At the limit the put buffer is dropped, or has been pushed before. -/
theorem WriteInv.flush_full (hs : WriteInv s) (hexact : Exact f s) (hne : pending s ≠ [])
    (hfull : s.belowLimit = false) :
    ∃ s' h', s.flushBuffer f = .ok (s', (pending s).length) ∧ Flushed s s' ∧ s'.cumLen = s.cumLen ∧
      Filled f s h' ∧ content s'.heap s'.memoryStream = content h' s.memoryStream := by
  obtain ⟨h', hfilled, hflush⟩ := hs.flushBuffer_eq hexact hne
  have hl : ListOk h' s.memoryStream := hfilled.list hs
  obtain ⟨hinv, hpending, hcontent, hown⟩ := writeInv_fresh
    (s := { s with heap := h', writes := s.writes + 1 }) hl hs.modeOut hs.keepsAll hs.prefixLen hs.suffixLen hs.limit
  exact ⟨_, h', (hflush _ rfl).2 hfull, ⟨hinv, ⟨rfl, rfl, rfl, rfl⟩, hpending, hown, rfl⟩, rfl,
    hfilled, hcontent⟩

/-- Below the limit the put buffer is pushed, at least as much of it as
the payload has bytes. -/
theorem WriteInv.flush_pushed (hs : WriteInv s) (hexact : Exact f s) (hne : pending s ≠ [])
    (hbelow : s.belowLimit = true)
    (hroom : (pending s).length ≤ pushLen s (frameOf f s).length) :
    ∃ s', s.flushBuffer f = .ok (s', (pending s).length) ∧ Flushed s s' ∧
      s'.cumLen = (s.cumLen + pushLen s (frameOf f s).length) % 2 ^ 64 ∧
      content s'.heap s'.memoryStream =
        content s.heap s.memoryStream ++ (frameOf f s).take (pushLen s (frameOf f s).length) := by
  obtain ⟨h', hfilled, hflush⟩ := hs.flushBuffer_eq hexact hne
  have hlength : 0 < (pending s).length := List.length_pos_iff.mpr hne
  rw [length_frameOf hexact] at hroom ⊢
  have hsize : 0 < (pending s).length + s.prefixLen + s.suffixLen := by omega
  have hpos := pushLen_pos hs.limit hbelow hsize
  have hle : pushLen s ((pending s).length + s.prefixLen + s.suffixLen) ≤ (frameOf f s).length := by
    rw [length_frameOf hexact]
    exact pushLen_le _ _
  obtain ⟨hl, hpushed⟩ := hfilled.push hs (hs.own_of_below hbelow) hpos hle
  obtain ⟨hinv, hpending, hcontent, hown⟩ := writeInv_fresh
    (s := pushBuffer { s with heap := h', writes := s.writes + 1 } (pushLen s
      ((pending s).length + s.prefixLen + s.suffixLen))) hl hs.modeOut hs.keepsAll hs.prefixLen hs.suffixLen
    (limit_pushLen hs.limit _)
  exact ⟨_, ((hflush _ rfl).1 hbelow).trans (if_pos hroom), ⟨hinv, ⟨rfl, rfl, rfl, rfl⟩, hpending,
    hown, rfl⟩, rfl, hcontent.trans hpushed⟩

/-- The payload is where it was. -/
theorem Filled.putArea (hs : WriteInv s) (hexact : Exact f s) (hfilled : Filled f s h') {len : Nat} :
    PutArea (pushBuffer { s with heap := h', writes := s.writes + 1 } len) (pending s) := by
  obtain ⟨rest, hblocks, htotal⟩ := hfilled.block
  have hframeLength := length_frameOf hexact
  have hpre := length_take_exact hexact.1
  have hsuf := length_take_exact hexact.2
  have hsplit : frameOf f s ++ rest = (f.getPrefix s.writes (pending s)).take s.prefixLen ++
      (pending s ++ ((f.getSuffix s.writes (pending s)).take s.suffixLen ++ rest)) := by
    simp only [frameOf, List.append_assoc]
  refine ⟨hs.area.base, ⟨_, (f.getSuffix s.writes (pending s)).take s.suffixLen ++ rest, ?_, hpre, ?_, ?_⟩,
    hs.area.pbase, hs.area.pptr, hs.area.epptr⟩
  · show h'.blocks s.wBuffer.block = _
    rw [hblocks, Function.update_self, hsplit]
  · rw [List.length_append]
    omega
  · show s.suffixLen ≤ _
    rw [List.length_append]
    omega

/-- When there is room for less than the payload, the put buffer is pushed
and stays the put buffer. -/
theorem WriteInv.flush_truncated (hs : WriteInv s) (hexact : Exact f s) (hne : pending s ≠ [])
    (hbelow : s.belowLimit = true)
    (hroom : pushLen s (frameOf f s).length < (pending s).length) :
    ∃ s', s.flushBuffer f = .ok (s', -1) ∧ WriteInv s' ∧ SameWriter s s' ∧ ¬Own s' ∧
      pending s' = pending s ∧ s'.writes = s.writes + 1 ∧ s'.cumLen = s.maxLen ∧
      content s'.heap s'.memoryStream =
        content s.heap s.memoryStream ++ (frameOf f s).take (pushLen s (frameOf f s).length) := by
  obtain ⟨h', hfilled, hflush⟩ := hs.flushBuffer_eq hexact hne
  have hlength : 0 < (pending s).length := List.length_pos_iff.mpr hne
  rw [length_frameOf hexact] at hroom ⊢
  generalize hlen : pushLen s ((pending s).length + s.prefixLen + s.suffixLen) = len at hroom hflush ⊢
  have hsize : 0 < (pending s).length + s.prefixLen + s.suffixLen := by omega
  have hpos : 0 < len := hlen ▸ pushLen_pos hs.limit hbelow hsize
  have hle : len ≤ (frameOf f s).length := by
    rw [length_frameOf hexact]
    omega
  obtain ⟨hl, hpushed⟩ := hfilled.push hs (hs.own_of_below hbelow) hpos hle
  -- There is a limit, and now it has been reached.
  have hsome : s.maxLen ≠ -1 := by
    intro hnone
    rw [pushLen, if_pos hnone] at hlen
    omega
  obtain ⟨hlimitPos, hlt, hcum⟩ := hs.limit.resolve_left hsome
  have hleft : len = (s.maxLen - s.cumLen).toNat := by
    rw [pushLen, if_neg hsome] at hlen
    omega
  have hreached : (((s.cumLen + len) % 2 ^ 64 : Nat) : Int) = s.maxLen := by
    rw [Nat.mod_eq_of_lt (by omega)]
    omega
  obtain ⟨s', hs'⟩ : ∃ s', s' = pushBuffer { s with heap := h', writes := s.writes + 1 } len := ⟨_, rfl⟩
  have hcum' : (s'.cumLen : Int) = s.maxLen := by
    rw [hs']
    exact hreached
  have hlimit' : s'.maxLen = -1 ∨ 0 < s'.maxLen ∧ s'.maxLen < 2 ^ 63 ∧ (s'.cumLen : Int) ≤ s'.maxLen := by
    rw [hcum', hs']
    exact .inr ⟨hlimitPos, hlt, Int.le_refl _⟩
  have hfull : s'.belowLimit = false := by
    have hnot : ¬s'.belowLimit = true := by
      rw [belowLimit_iff hlimit', hcum', hs']
      exact not_or.mpr ⟨hsome, Int.lt_irrefl _⟩
    exact Bool.eq_false_iff.mpr hnot
  have harea : PutArea s' (pending s) := by
    rw [hs']
    exact hfilled.putArea hs hexact
  have hpending := harea.pending_eq
  have hgiven : blockOf (.setBuffer (some s.wBuffer) len) = some s'.wBuffer.block := by
    rw [hs']
    rfl
  have hmem : .setBuffer (some s.wBuffer) len ∈ s'.memoryStream := by
    rw [hs']
    exact List.mem_append_right _ List.mem_cons_self
  refine ⟨s', ?_, ⟨?_, hpending.symm ▸ harea, ?_, ?_, ?_, ?_, hlimit', ?_⟩, ?_, ?_, hpending, ?_, hcum', ?_⟩
  · rw [hs']
    exact ((hflush _ rfl).1 hbelow).trans (if_neg (Nat.not_le_of_lt hroom))
  · rw [hs']
    exact hl
  · rw [hs']
    exact hs.modeOut
  · rw [hs']
    exact hs.keepsAll
  · rw [hs']
    exact hs.prefixLen
  · rw [hs']
    exact hs.suffixLen
  · intro n hn hblock
    rw [hs'] at hn hblock
    obtain hn | hn := List.mem_append.mp hn
    · exact absurd (mem_blocksOf hn hblock) (hs.own_of_below hbelow)
    · rw [List.mem_singleton.mp hn, hpending]
      refine ⟨?_, ?_, hroom, hfull⟩
      · rw [hs']
        rfl
      · rw [hs']
        rfl
  · rw [hs']
    exact ⟨rfl, rfl, rfl, rfl⟩
  · exact fun hown => hown (mem_blocksOf hmem hgiven)
  · rw [hs']
    rfl
  · rw [hs']
    exact hpushed

/-- `flush_buffer` of nothing. -/
theorem WriteInv.flush_nil (hs : WriteInv s) (hnil : pending s = []) : s.flushBuffer f = .ok (s, -1) := by
  obtain ⟨hcount, -⟩ := hs.pending_length
  rw [hnil, List.length_nil] at hcount
  unfold BufferedStream.flushBuffer
  rw [if_neg (not_not.mpr hs.modeOut), hcount]
  rfl

/-- There is room in a new put buffer. -/
theorem Flushed.room {s₁ : BufferedStream} (h : Flushed s s₁) : s₁.pptr.off < s₁.epptr.off := by
  have hbefore := h.inv.prefixLen
  have hsuffix := h.inv.suffixLen
  rw [h.inv.room_iff, h.pending, List.length_nil, BUFFER_SIZE]
  omega

theorem sputc_of_room {c : UInt8} (hroom : s.pptr.off < s.epptr.off) (hput : s.putChar c = .ok s') :
    s.writeCall f (.sputc c) = .ok (s', toIntType c) := by
  simp only [BufferedStream.writeCall, BufferedStream.sputc, if_pos hroom, hput]
  rfl

theorem overflow_of_flush {s₁ : BufferedStream} {n : Int} (hmode : s.modeOut = true)
    (hflush : s.flushBuffer f = .ok (s₁, n)) (c : Int) :
    s.overflow f c =
      if n = -1 then .ok (s₁, EOF)
      else if c ≠ EOF then (s₁.putChar (UInt8.ofInt c)).map fun s₂ => (s₂, c)
      else .ok (s₁, c) := by
  unfold BufferedStream.overflow
  rw [if_neg (not_not.mpr hmode), hflush, ok_bind]
  dsimp only
  split
  · rfl
  · split
    · cases s₁.putChar (UInt8.ofInt c) with
      | error e => rfl
      | ok s₂ => rfl
    · rfl

theorem sync_of_flush {s₁ : BufferedStream} {n : Int} (hsome : s.pptr.off > s.pbase.off)
    (hflush : s.flushBuffer f = .ok (s₁, n)) :
    s.sync f = .ok (s₁, if n = -1 then -1 else 0) := by
  unfold BufferedStream.sync
  rw [if_pos hsome, hflush, ok_bind]
  dsimp only
  split <;> rfl

theorem WriteInv.some_iff (hs : WriteInv s) : s.pptr.off > s.pbase.off ↔ pending s ≠ [] := by
  rw [hs.area.pptr, hs.area.pbase, Ptr.add_off, Ptr.add_off, ← List.length_pos_iff]
  omega

/-! ### The start -/

/-- A stream that has been set up for writing. -/
theorem writer_eq (chunks : List (List UInt8)) (bufsize : BufSize) (limit : Limit) {p q : Nat}
    (hp : p ≤ 6) (hq : q ≤ 4) (modeIn : Bool) :
    ∃ s₀, BufferedStream.writer chunks bufsize limit p q modeIn = .ok s₀ ∧ WriteInv s₀ ∧ Own s₀ ∧
      pending s₀ = [] ∧ s₀.writes = 0 ∧ s₀.maxLen = limit.val ∧ s₀.cumLen = 0 ∧ s₀.prefixLen = p ∧
      s₀.suffixLen = q ∧ content s₀.heap s₀.memoryStream = chunks.flatten := by
  obtain ⟨hl, hcontent⟩ := pushed_eq chunks
  -- The put buffer is allocated over the chunks, as after a flush.
  obtain ⟨s, hs⟩ : ∃ s : BufferedStream, s =
      { BufferedStream.create (BufferedStream.pushed chunks).1 (BufferedStream.pushed chunks).2
          bufsize.toStreamSize limit.toStreamSize with
        heap := (BufferedStream.pushed chunks).1, prefixLen := p, suffixLen := q, modeIn := modeIn } :=
    ⟨_, rfl⟩
  have hne : limit.val ≠ 0 := by
    have := limit.unlimitedOrPos
    omega
  have hmax : s.maxLen = limit.val := by
    rw [hs]
    exact if_neg hne
  have hcum : s.cumLen = 0 := by
    rw [hs]
    rfl
  have hlimit : s.maxLen = -1 ∨ 0 < s.maxLen ∧ s.maxLen < 2 ^ 63 ∧ (s.cumLen : Int) ≤ s.maxLen := by
    have hunlimited := limit.unlimitedOrPos
    have hlt := limit.max
    rw [hmax, hcum]
    omega
  have hlist : ListOk s.heap s.memoryStream ∧ content s.heap s.memoryStream = chunks.flatten := by
    rw [hs]
    exact ⟨hl.toListOk, hcontent⟩
  have hlens : s.prefixLen = p ∧ s.suffixLen = q ∧ s.modeOut = true ∧ s.writes = 0 ∧
      s.consumeAllOfMaxLen = false := by
    rw [hs]
    exact ⟨rfl, rfl, rfl, rfl, rfl⟩
  obtain ⟨hbefore, hsuffix, hmode, hwrites, hkeeps⟩ := hlens
  obtain ⟨hinv, hpending, hkept, hown⟩ :=
    writeInv_fresh hlist.1 hmode hkeeps (hbefore ▸ hp) (hsuffix ▸ hq) hlimit
  refine ⟨s.mallocWBuffer.setp, ?_, hinv, hown, hpending, hwrites, hmax, hcum, hbefore, hsuffix,
    hkept.trans hlist.2⟩
  simp only [BufferedStream.writer, BufferedStream.setPrefixLen, if_neg (Nat.not_lt_of_le hp), ok_bind,
    BufferedStream.setSuffixLen, if_neg (Nat.not_lt_of_le hq)]
  rw [hs]
  rfl

end Efio.Proofs.Evds
