import Efio.Proofs.Evds.ByteValues
import Efio.Proofs.Evds.LimitedReaders
import Efio.Proofs.Evds.WriteBuffer

/-!
# `Efio.Proofs.Evds.ConsumedLimit`: a limit that is consumed as a whole

With `consume_all_of_max_len` the destructor calls `low_read_from_source`
until it returns 0. What the memory stream has left then is already known
before: it is `leaves`, its content without the segment that the next call
erases and without what is still within the limit. A call of the reader
moves bytes from the one part to the other, so `leaves` stays as it is
wherever the reader stops (`Consuming.readCall`).

The destructor also flushes and frees the put buffer. Of a stream that is
only read nothing is pending there, and the buffer is none of the memory
stream's.
-/

set_option autoImplicit false

namespace Efio.Proofs.Evds

open Efio.Lib
open Efio.Evds
open Efio.Spec

variable {s s' : BufferedStream} {h h' : Heap UInt8} {l l' : ChunkedMemoryStream} {rest : List UInt8}
  {bound : Nat}

/-- An `erase` does not free the block of another. -/
theorem PushedList.erase_other (hl : PushedList h l) {m k b : Nat}
    (herase : ChunkedMemoryStream.erase h l m = .ok (h', l', k)) (hb : b ∉ blocksOf l) :
    h'.blocks b = h.blocks b ∧ b ∉ blocksOf l' := by
  obtain ⟨h₁, hall⟩ := (hl.consumed m).deleteAll_eq fun n hn => hl.base n (consumed_subset l m n hn)
  rw [ChunkedMemoryStream.erase, hl.eraseLoop_eq, hall] at herase
  cases herase
  have hreleased := ((hl.consumed m).deleteAll_ok hall).2
  rw [← hl.blocksOf_consumed m, List.mem_append, not_or] at hb
  exact ⟨hreleased.kept b hb.1, hb.2⟩

/-! ### What a read leaves alone -/

/-- The stream after it may have erased the last segment and handed out
another one. -/
theorem lowReadFromSource_frame {size : Int} {n : Nat} (hread : s.lowReadFromSource size = .ok (s', n)) :
    ∃ k, ChunkedMemoryStream.erase s.heap s.memoryStream s.prevLen = .ok (s'.heap, s'.memoryStream, k) ∧
      s' = { s with
        heap := s'.heap
        memoryStream := s'.memoryStream
        pBuffer := s'.pBuffer
        cumLen := s'.cumLen
        prevLen := s'.prevLen } := by
  obtain ⟨⟨h, l, k⟩, herase, hrest⟩ := bind_eq_ok.mp hread
  refine ⟨k, ?_⟩
  rw [herase]
  dsimp only at hrest
  split at hrest
  · cases hrest
    exact ⟨rfl, rfl⟩
  · cases hrest
    exact ⟨rfl, rfl⟩

/-- What a call of the reader may do to the stream: move the get area, and
before that read from the memory stream once. -/
inductive Refills (s : BufferedStream) : BufferedStream → Prop where
  | kept (g e : Option Ptr) : Refills s { s with gptr := g, egptr := e }
  | read {s₁ : BufferedStream} {n : Nat} (g e : Option Ptr)
      (hread : { s with readingBufFromSource := true }.lowReadFromSource s.bufsize.val = .ok (s₁, n)) :
      Refills s { s₁ with readingBufFromSource := false, gptr := g, egptr := e }

theorem Refills.refl (s : BufferedStream) : Refills s s := .kept s.gptr s.egptr

theorem Refills.gbump (hrefills : Refills s s') : Refills s s'.gbump := by
  cases hrefills with
  | kept g e => exact .kept (g.map (·.add 1)) e
  | read g e hread => exact .read (g.map (·.add 1)) e hread

theorem refills_underflow {ch : Int} (hcall : s.underflow = .ok (s', ch)) : Refills s s' := by
  unfold BufferedStream.underflow at hcall
  split at hcall
  · cases hcall
    exact .refl s
  · split at hcall
    · obtain ⟨c, -, hok⟩ := bind_eq_ok.mp hcall
      cases hok
      exact .refl s
    · obtain ⟨⟨s₁, n⟩, hhigh, hok⟩ := bind_eq_ok.mp hcall
      obtain ⟨⟨s₂, len⟩, hread, hflag⟩ := bind_eq_ok.mp hhigh
      cases hflag
      dsimp only at hok
      split at hok
      · cases hok
      · split at hok
        · cases hok
          exact .read _ _ hread
        · obtain ⟨c, -, hok⟩ := bind_eq_ok.mp hok
          cases hok
          exact .read _ _ hread

theorem refills_readCall {call : ReadCall} {ch : Int} (hcall : s.readCall call = .ok (s', ch)) :
    Refills s s' := by
  cases call with
  | sgetc =>
    rw [BufferedStream.readCall, BufferedStream.sgetc] at hcall
    split at hcall
    · obtain ⟨c, -, hok⟩ := bind_eq_ok.mp hcall
      cases hok
      exact .refl s
    · exact refills_underflow hcall
  | sbumpc =>
    rw [BufferedStream.readCall, BufferedStream.sbumpc] at hcall
    split at hcall
    · obtain ⟨c, -, hok⟩ := bind_eq_ok.mp hcall
      cases hok
      exact (Refills.refl s).gbump
    · obtain ⟨⟨s₁, ch₁⟩, hunderflow, hok⟩ := bind_eq_ok.mp hcall
      have hrefills := refills_underflow hunderflow
      dsimp only at hok
      split at hok
      · cases hok
        exact hrefills
      · obtain ⟨c, -, hok⟩ := bind_eq_ok.mp hok
        cases hok
        exact hrefills.gbump

/-! ### What the memory stream is left with -/

/-- What the memory stream has when all within the limit is consumed. -/
def leaves (s : BufferedStream) : List UInt8 :=
  (content s.heap s.memoryStream).drop (s.prevLen + (within s).length)

/-- A stream that is only read, with a limit that the destructor consumes:
it leaves `rest`, and at most `bound` bytes are within the limit. -/
structure Consuming (rest : List UInt8) (bound : Nat) (s : BufferedStream) : Prop where
  consumes : s.consumeAllOfMaxLen = true
  limit : 0 < s.maxLen
  leaves : leaves s = rest
  bound : (within s).length ≤ bound
  idle : s.pptr = s.pbase
  base : s.wBuffer.off = 0
  live : ∃ c, s.heap.blocks s.wBuffer.block = some c
  own : Own s

/-- The get area and the flag are not looked at. -/
theorem Consuming.congr (hc : Consuming rest bound s) (g e : Option Ptr) (b : Bool) :
    Consuming rest bound { s with gptr := g, egptr := e, readingBufFromSource := b } :=
  ⟨hc.consumes, hc.limit, hc.leaves, hc.bound, hc.idle, hc.base, hc.live, hc.own⟩

theorem Consuming.lowReadFromSource (hc : Consuming rest bound s) (hs : Reading s) {size : Int}
    (hpos : 0 < size) (hmax : size < 2 ^ 63) {n : Nat}
    (hread : s.lowReadFromSource size = .ok (s', n)) : Consuming rest bound s' := by
  obtain ⟨s₁, segment, hread', -, -, -, -, hwithin, -, hprev, hcontent⟩ := hs.lowReadFromSource hpos hmax
  cases hread.symm.trans hread'
  obtain ⟨k, herase, hframe⟩ := lowReadFromSource_frame hread
  obtain ⟨hkept, hown⟩ := hs.list.erase_other herase hc.own
  have hlength := congrArg List.length hwithin
  rw [List.length_append] at hlength
  refine ⟨?_, ?_, ?_, ?_, ?_, ?_, ?_, ?_⟩
  · rw [hframe]
    exact hc.consumes
  · rw [hframe]
    exact hc.limit
  · -- The segment has been taken from what was within the limit.
    rw [← hc.leaves, Evds.leaves, Evds.leaves, hcontent, hprev, List.drop_drop, hlength]
  · have hbound := hc.bound
    omega
  · rw [hframe]
    exact hc.idle
  · rw [hframe]
    exact hc.base
  · obtain ⟨c, hlive⟩ := hc.live
    refine ⟨c, ?_⟩
    have hbuffer : s'.wBuffer = s.wBuffer := by rw [hframe]
    rw [hbuffer, hkept, hlive]
  · rw [Own, hframe]
    exact hown

/-- A call does not change what the memory stream is left with. -/
theorem Consuming.refills (hc : Consuming rest bound s) (hs : GetInv s) (hrefills : Refills s s') :
    Consuming rest bound s' := by
  cases hrefills with
  | kept g e => exact hc.congr g e s.readingBufFromSource
  | read g e hread =>
    have hs₁ : Reading { s with readingBufFromSource := true } := ⟨hs.list, hs.limit, hs.prev⟩
    have hc₁ := (hc.congr s.gptr s.egptr true).lowReadFromSource hs₁ hs.bufsize s.bufsize.max hread
    exact hc₁.congr g e false

theorem Consuming.readCall (hc : Consuming rest bound s) (hs : GetInv s) (call : ReadCall) :
    ∃ s' ch, s.readCall call = .ok (s', ch) ∧ GetInv s' ∧ Consuming rest bound s' := by
  obtain ⟨s', ch, hcall, -, hinv, -⟩ := hs.readCall call
  exact ⟨s', ch, hcall, hinv, hc.refills hs (refills_readCall hcall)⟩

/-! ### The destructor -/

/-- The loop of the destructor. -/
theorem Consuming.drain (hc : Consuming rest bound s) (hs : Reading s) {size : Int} (hpos : 0 < size)
    (hmax : size < 2 ^ 63) {fuel : Nat} {segments : List (List UInt8)}
    (hdrain : s.drain size fuel = .ok (s', segments)) : Consuming rest bound s' := by
  induction fuel generalizing s segments with
  | zero => cases hdrain
  | succ fuel ih =>
    rw [BufferedStream.drain] at hdrain
    obtain ⟨⟨s₁, n⟩, hread, hrest⟩ := bind_eq_ok.mp hdrain
    have hc₁ := hc.lowReadFromSource hs hpos hmax hread
    obtain ⟨s₂, segment, hread', hs₁, -⟩ := hs.lowReadFromSource hpos hmax
    cases hread.symm.trans hread'
    dsimp only at hrest
    split at hrest
    · cases hrest
      exact hc₁
    · split at hrest
      · cases hrest
      · obtain ⟨segment', -, hrest⟩ := bind_eq_ok.mp hrest
        obtain ⟨⟨s₂, segments'⟩, hdrain', hok⟩ := bind_eq_ok.mp hrest
        cases hok
        exact ih hc₁ hs₁ hdrain'

/-- Nothing is pending: the flush changes nothing. -/
theorem Consuming.flushBuffer (hc : Consuming rest bound s) (f : Framing) :
    ∃ n, s.flushBuffer f = .ok (s, n) := by
  have hnone : s.pptr.off - s.pbase.off = 0 := by
    rw [hc.idle, Nat.sub_self]
  unfold BufferedStream.flushBuffer
  split
  · exact ⟨EOF, rfl⟩
  · simp only [hnone]
    exact ⟨-1, rfl⟩

/-- The destructor ends, and leaves what had been known before. -/
theorem Consuming.destroy (hc : Consuming rest bound s) (hs : GetInv s) (f : Framing) {fuel : Nat}
    (hfuel : bound < fuel) :
    ∃ h l, s.destroy f fuel = .ok (h, l) ∧ ListOk h l ∧ content h l = rest := by
  obtain ⟨s₁, segments, hdrain, hl, -, -, hcontent⟩ :=
    hs.toReading.drain hs.bufsize s.bufsize.max (Nat.lt_of_le_of_lt hc.bound hfuel)
  have hc₁ := hc.drain hs.toReading hs.bufsize s.bufsize.max hdrain
  obtain ⟨n, hflush⟩ := hc₁.flushBuffer f
  obtain ⟨c, hlive⟩ := hc₁.live
  obtain ⟨h', hfree, -, hblocks⟩ := Heap.free_eq hlive hc₁.base
  -- The block that is freed is none of those the memory stream has.
  have hkept : ∀ b ∈ blocksOf s₁.memoryStream, h'.blocks b = s₁.heap.blocks b := by
    intro b hb
    have hne : b ≠ s₁.wBuffer.block := fun heq => hc₁.own (heq ▸ hb)
    rw [hblocks, Function.update_of_ne hne]
  obtain ⟨hok, hsame⟩ := hl.toListOk.congr hkept
  refine ⟨h', s₁.memoryStream, ?_, hok, ?_⟩
  · unfold BufferedStream.destroy
    rw [if_pos ⟨hc.consumes, hs.modeIn, hc.limit⟩, hdrain]
    show (s₁.flushBuffer f >>= _) = _
    rw [hflush, ok_bind]
    dsimp only
    rw [hfree]
    rfl
  · rw [hsame, hcontent, ← hc.leaves]
    rfl

/-! ### All runs -/

/-- A new stream. -/
theorem consuming_consumer (chunks : List (List UInt8)) (bufsize : BufSize) (limit : Limit)
    (hpos : 0 < limit.val) (modeOut : Bool) :
    GetInv (.consumer chunks bufsize limit modeOut) ∧
      Consuming (chunks.flatten.drop (min limit.val.toNat chunks.flatten.length)) chunks.flatten.length
        (.consumer chunks bufsize limit modeOut) := by
  obtain ⟨hl, hcontent⟩ := pushed_eq chunks
  obtain ⟨hs, -⟩ := getInv_create hl bufsize limit
  obtain ⟨-, hwithin⟩ := reading_create hl bufsize.toStreamSize limit
  have hwithin : within (.consumer chunks bufsize limit modeOut) = chunks.flatten.take limit.val.toNat := by
    refine hwithin.trans ?_
    rw [hcontent, Spec.Limit.take, if_neg (by omega)]
  have hstart : content (BufferedStream.consumer chunks bufsize limit modeOut).heap
      (BufferedStream.consumer chunks bufsize limit modeOut).memoryStream = chunks.flatten :=
    (hl.toListOk.alloc (List.replicate BUFFER_SIZE 0)).2.trans hcontent
  refine ⟨⟨⟨hs.list, hs.limit, hs.prev⟩, rfl, hs.bufsize, fun hget => by cases hget⟩, rfl, ?_, ?_, ?_, rfl,
    rfl, ⟨_, Heap.alloc_newPtr _⟩, ?_⟩
  · have hmax : (BufferedStream.consumer chunks bufsize limit modeOut).maxLen = limit.val :=
      if_neg (by omega)
    rw [hmax]
    exact hpos
  · show List.drop (0 + _) _ = _
    rw [hwithin, hstart, Nat.zero_add, List.length_take]
  · rw [hwithin]
    exact List.length_take_le' _ _
  · intro hmem
    obtain ⟨c, hc⟩ := hl.toListOk.allocated hmem
    exact Heap.ne_newPtr hc rfl

/-- **A limit is consumed as a whole.** Wherever a reader with
`consume_all_of_max_len` stops, the destructor ends, and the memory stream
has lost the first bytes up to the limit and no others. `fuel` is the
number of calls that the loop of the destructor may make. -/
theorem destroy_consumes (chunks : List (List UInt8)) (bufsize : BufSize) (limit : Limit)
    (hpos : 0 < limit.val) (modeOut : Bool) (calls : List ReadCall) (f : Framing) (more : Nat) :
    ∃ s rs, runCalls BufferedStream.readCall calls (.consumer chunks bufsize limit modeOut) = .ok (s, rs) ∧
      ∃ h l, s.destroy f (chunks.flatten.length + 1 + more) = .ok (h, l) ∧
        content h l = chunks.flatten.drop (min limit.val.toNat chunks.flatten.length) := by
  obtain ⟨hs, hc⟩ := consuming_consumer chunks bufsize limit hpos modeOut
  obtain ⟨s, rs, hrun, hs', hc'⟩ := runCalls_total
    (I := fun s => GetInv s ∧ Consuming (chunks.flatten.drop (min limit.val.toNat chunks.flatten.length))
      chunks.flatten.length s)
    (fun s call hI => hI.2.readCall hI.1 call) calls ⟨hs, hc⟩
  have hfuel : chunks.flatten.length < chunks.flatten.length + 1 + more := by omega
  obtain ⟨h, l, hdestroy, -, hcontent⟩ := hc'.destroy hs' f hfuel
  exact ⟨s, rs, hrun, h, l, hdestroy, hcontent⟩

/-- Three chunks and a limit of one byte, after two calls. -/
theorem destroy_consumes_sample : ∃ s rs,
    runCalls BufferedStream.readCall [.sbumpc, .sgetc]
        (.consumer [[1, 2], [3], [4]] sixteenBytes oneByte true) = .ok (s, rs) ∧
      ∃ h l, s.destroy noFraming 5 = .ok (h, l) ∧ content h l = [2, 3, 4] :=
  destroy_consumes [[1, 2], [3], [4]] sixteenBytes oneByte (by decide) true [.sbumpc, .sgetc] noFraming 0

end Efio.Proofs.Evds
