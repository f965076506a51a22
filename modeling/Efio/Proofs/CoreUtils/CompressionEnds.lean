import Efio.Proofs.CoreUtils.OutputBlock
import Efio.Proofs.CoreUtils.SmallZlib

/-!
# `Efio.Proofs.CoreUtils.CompressionEnds`: when the loops end

Both loops go on as long as a call has used up its `avail_out`. A call with
room then has written something, so what zlib can still write for the input
gets less with each round (`outputs_call`), and the loop ends. This needs no
more than `Bounded`.

`avail_out` is `in_size` cut to 32 bits. When that is zero, a call has no
room, and `avail_out` is zero after it as well: the loop goes on for ever,
unless it is never entered or an assertion stops the program. This is what
`compress_endless` and `uncompress_endless` say, and `compression_ends` puts
both together.
-/

set_option autoImplicit false

namespace Efio.Proofs.CoreUtils

open Efio.Lib Efio.CoreUtils Efio.Spec

variable {checked : Bool} {z : Engine} {mem : Allocator} {n : Nat} {input : List UInt8}

/-- What a call writes is no longer to be written. -/
theorem outputs_call {s : z.State} {x : List UInt8} {N : Nat} (h : ∀ calls, outputs z s x calls ≤ N)
    (p : Option Ptr) (room : Nat) (calls : List (Option Ptr × Nat)) :
    (z.call s ⟨x, p, room⟩).2.output.length +
      outputs z (z.call s ⟨x, p, room⟩).1 (x.drop (z.call s ⟨x, p, room⟩).2.consumed) calls ≤ N :=
  h ((p, room) :: calls)

/-- A call that has used up its room has lowered the bound. -/
theorem outputs_full (hz : Bounded z) {s : z.State} {x : List UInt8} {N : Nat}
    (h : ∀ calls, outputs z s x calls ≤ N) {p : Option Ptr} {room : Nat} (hroom : room ≠ 0)
    (hfull : room - (z.call s ⟨x, p, room⟩).2.output.length = 0) :
    ∃ M < N, ∀ calls, outputs z (z.call s ⟨x, p, room⟩).1
      (x.drop (z.call s ⟨x, p, room⟩).2.consumed) calls ≤ M := by
  have hfits := hz.fits s x p room
  have hnil : outputs z (z.call s ⟨x, p, room⟩).1 (x.drop (z.call s ⟨x, p, room⟩).2.consumed) [] = 0 := rfl
  have hN := outputs_call h p room []
  refine ⟨N - room, by omega, ?_⟩
  intro calls
  have hcalls := outputs_call h p room calls
  omega

/-! ### With room -/

theorem compressRound_lowers (hz : Bounded z) (hn : uInt n ≠ 0) (checked : Bool) (mem : Allocator) (N : Nat)
    (c : Compressor z) (h : ∀ calls, outputs z c.state c.unread calls ≤ N) :
    (compressRound checked mem n c).Meets
      (fun c' => ∃ M < N, ∀ calls, outputs z c'.state c'.unread calls ≤ M) fun _ => True := by
  simp only [compressRound]
  split
  · trivial
  · split
    · next hfull => exact outputs_full hz h hn hfull
    · split <;> trivial

theorem uncompressRound_lowers (hz : Bounded z) (hn : uInt n ≠ 0) (checked : Bool) (mem : Allocator) (N : Nat)
    (u : Uncompressor z) (h : ∀ calls, outputs z u.state u.unread calls ≤ N) :
    (uncompressRound checked mem n u).Meets
      (fun u' => ∃ M < N, ∀ calls, outputs z u'.state u'.unread calls ≤ M) fun _ => True := by
  simp only [uncompressRound]
  split
  · trivial
  · split
    -- The error codes of the `switch` leave the loop.
    · trivial
    · trivial
    · trivial
    · split
      · next hfull => exact outputs_full hz h hn hfull
      · trivial

/-- `compress_inp_buf` ends when its calls have room. -/
theorem compress_ends (hz : Bounded z) (hn : uInt input.length ≠ 0) : CompressEnds checked mem z input := by
  by_cases hinit : z.init.1 = .ok
  · obtain ⟨N, hN⟩ := hz.finite (input.take (uInt input.length))
    obtain ⟨fuel, r, hrun, -⟩ := doWhile_ends (compressRound_lowers hz hn checked mem)
      (s := ⟨z.init.2, input.take (uInt input.length), none, 0, none, 0, []⟩) hN
    exact ⟨fuel, by rw [compressInpBuf, if_pos hinit, hrun, Option.isSome_some]⟩
  · exact ⟨0, by rw [compressInpBuf, if_neg hinit, Option.isSome_some]⟩

/-- `uncompress_inp_buf` ends when its calls have room. -/
theorem uncompress_ends (hz : Bounded z) (hn : uInt input.length ≠ 0) : UncompressEnds checked mem z input := by
  by_cases hinit : z.init.1 = .ok
  · obtain ⟨N, hN⟩ := hz.finite (input.take (uInt input.length))
    obtain ⟨fuel, r, hrun, -⟩ := doWhile_ends (uncompressRound_lowers hz hn checked mem)
      (s := ⟨z.init.2, input.take (uInt input.length), mem.malloc 0 input.length, 0, none, 0, []⟩) hN
    exact ⟨fuel, by rw [uncompressInpBuf, if_pos hinit, hrun, Option.isSome_some]⟩
  · exact ⟨0, by rw [uncompressInpBuf, if_neg hinit, Option.isSome_some]⟩

/-! ### Without room -/

/-- From the first round on there is a `next_out`. -/
theorem exists_nextOut (hplace : mem.place 1 ≠ .failed) {c : Compressor z}
    (hnext : 0 < c.i → c.nextOut.isSome = true) : ∃ p, (c.grow mem n).nextOut = some p := by
  show ∃ p, (if c.i + 1 = 1 then _ else _) = some p
  split
  · next hi =>
    obtain ⟨b, hb⟩ := exists_realloc hplace c.out (toSize (n * 1))
    rw [hi, hb]
    exact ⟨b.start, rfl⟩
  · next hi => exact Option.isSome_iff_exists.mp (hnext (by omega))

/-- With no room every round goes on: no assertion fails, since `deflate`
has an output buffer. -/
theorem compressRound_again {idle : z.State → Prop} (hz : Answers z idle) (hn : uInt n = 0)
    (hplace : ¬(checked = true ∧ mem.place 1 = .failed)) (c : Compressor z)
    (h : checked = true → idle c.state ∧ c.unread = [] ∧ (0 < c.i → c.nextOut.isSome = true)) :
    (compressRound checked mem n c).Meets
      (fun c' => checked = true → idle c'.state ∧ c'.unread = [] ∧ (0 < c'.i → c'.nextOut.isSome = true))
      fun _ => False := by
  simp only [compressRound]
  rw [if_pos (show uInt n - _ = 0 by omega)]
  cases checked with
  | false => exact fun h => absurd h Bool.false_ne_true
  | true =>
    obtain ⟨hidle, hunread, hnext⟩ := h rfl
    obtain ⟨p, hp⟩ := exists_nextOut (n := n) (fun hfailed => hplace ⟨rfl, hfailed⟩) hnext
    have hstrm : (c.grow mem n).strm n = ⟨[], some p, 0⟩ := by
      rw [Compressor.strm, hp, hn]
      exact congrArg (ZStream.mk · _ _) hunread
    obtain ⟨hret, hidle'⟩ := hz.noRoom c.state hidle p
    have hcall : z.call (c.grow mem n).state ((c.grow mem n).strm n) = z.call c.state ⟨[], some p, 0⟩ := by
      rw [hstrm]
      rfl
    rw [hcall, hret, if_neg (by decide)]
    refine fun _ => ⟨hidle', ?_, ?_⟩
    · show List.drop _ c.unread = []
      rw [hunread, List.drop_nil]
    · intro _
      show (Option.map _ (c.grow mem n).nextOut).isSome = true
      rw [hp]
      rfl

/-- `compress_inp_buf` does not end without room. -/
theorem compress_endless {idle : z.State → Prop} (hz : Answers z idle) (hn : uInt input.length = 0)
    (hinit : z.init.1 = .ok) (hplace : ¬(checked = true ∧ mem.place 1 = .failed)) :
    ¬CompressEnds checked mem z input := by
  rintro ⟨fuel, hsome⟩
  rw [compressInpBuf, if_pos hinit, doWhile_endless (compressRound_again hz hn hplace)] at hsome
  · cases hsome
  · refine fun _ => ⟨hz.start, ?_, fun h => absurd h (Nat.lt_irrefl 0)⟩
    show List.take (uInt input.length) input = []
    rw [hn, List.take_zero]

/-- With no room every round goes on: `inflate` returns `Z_BUF_ERROR`, or
`Z_STREAM_ERROR` when there is no buffer, and neither leaves the loop. -/
theorem uncompressRound_again {idle : z.State → Prop} (hz : Answers z idle) (hn : uInt n = 0) (checked : Bool)
    (u : Uncompressor z)
    (h : (u.tempOut.isSome = true ∧ idle u.state ∧ u.unread = []) ∨ (u.tempOut = none ∧ checked = false)) :
    (uncompressRound checked mem n u).Meets
      (fun u' => (u'.tempOut.isSome = true ∧ idle u'.state ∧ u'.unread = []) ∨
        (u'.tempOut = none ∧ checked = false))
      fun _ => False := by
  have hroom : ∀ k, uInt n - k = 0 := by omega
  rcases h with ⟨htemp, hidle, hunread⟩ | ⟨htemp, rfl⟩
  · obtain ⟨b, hb⟩ := Option.isSome_iff_exists.mp htemp
    have hstrm : u.strm n = ⟨[], some b.start, 0⟩ := by rw [Uncompressor.strm, hb, hn, hunread, Option.map_some]
    obtain ⟨hret, hidle'⟩ := hz.noRoom u.state hidle b.start
    simp only [uncompressRound, hstrm, hret, hroom]
    rw [if_neg (by cases checked <;> decide)]
    obtain ⟨b', hb', -⟩ := exists_after (w := ⟨u.tempOut, u.tempOut.map Block.start, _⟩) hb
    refine .inl ⟨?_, hidle', ?_⟩
    · exact Option.isSome_iff_exists.mpr ⟨b', hb'⟩
    · show List.drop _ u.unread = []
      rw [hunread, List.drop_nil]
  · have hret : (z.call u.state (u.strm n)).2.ret = .streamError := by
      rw [Uncompressor.strm, htemp]
      exact hz.null u.state u.unread (uInt n)
    simp only [uncompressRound, hret, hroom]
    rw [if_neg (by decide)]
    exact .inr ⟨after_none htemp, trivial⟩

/-- `uncompress_inp_buf` does not end without room. -/
theorem uncompress_endless {idle : z.State → Prop} (hz : Answers z idle) (hn : uInt input.length = 0)
    (hinit : z.init.1 = .ok) (hplace : ¬(checked = true ∧ mem.place 0 = .failed)) :
    ¬UncompressEnds checked mem z input := by
  rintro ⟨fuel, hsome⟩
  rw [uncompressInpBuf, if_pos hinit, doWhile_endless (uncompressRound_again hz hn checked)] at hsome
  · cases hsome
  · by_cases hfailed : mem.place 0 = .failed
    · have hchecked : checked = false := Bool.eq_false_iff.mpr fun h => hplace ⟨h, hfailed⟩
      exact .inr ⟨realloc_failed hfailed none, hchecked⟩
    · obtain ⟨b, hb⟩ := exists_realloc hfailed none input.length
      refine .inl ⟨?_, hz.start, ?_⟩
      · exact Option.isSome_iff_exists.mpr ⟨b, hb⟩
      · show List.take (uInt input.length) input = []
        rw [hn, List.take_zero]

/-! ### Exactly when the loops end -/

theorem compressEnds_iff {idle : z.State → Prop} (hz : Bounded z) (ha : Answers z idle) :
    CompressEnds checked mem z input ↔ Leaves checked (mem.place 1) z input.length := by
  constructor
  · intro hends
    by_contra hstays
    obtain ⟨hn, hinit, hplace⟩ := not_or.mp hstays |>.imp_right not_or.mp
    exact compress_endless ha (not_not.mp hn) (not_not.mp hinit) hplace hends
  · intro hleaves
    rcases hleaves with hn | hinit | ⟨rfl, hplace⟩
    · exact compress_ends hz hn
    · exact ⟨0, by rw [compressInpBuf, if_neg hinit]; rfl⟩
    · by_cases hinit : z.init.1 = .ok
      · refine ⟨1, ?_⟩
        -- The first call of `deflate` has no output buffer.
        rw [compressInpBuf, if_pos hinit, doWhile_done (compressRound_unplaced ha.null hplace rfl input.length)]
        rfl
      · exact ⟨0, by rw [compressInpBuf, if_neg hinit]; rfl⟩

theorem uncompressEnds_iff {idle : z.State → Prop} (hz : Bounded z) (ha : Answers z idle) :
    UncompressEnds checked mem z input ↔ Leaves checked (mem.place 0) z input.length := by
  constructor
  · intro hends
    by_contra hstays
    obtain ⟨hn, hinit, hplace⟩ := not_or.mp hstays |>.imp_right not_or.mp
    exact uncompress_endless ha (not_not.mp hn) (not_not.mp hinit) hplace hends
  · intro hleaves
    rcases hleaves with hn | hinit | ⟨rfl, hplace⟩
    · exact uncompress_ends hz hn
    · exact ⟨0, by rw [uncompressInpBuf, if_neg hinit]; rfl⟩
    · by_cases hinit : z.init.1 = .ok
      · refine ⟨1, ?_⟩
        rw [uncompressInpBuf, if_pos hinit, doWhile_done]
        · rfl
        -- `malloc` has given no buffer for the first call of `inflate`.
        · simp only [uncompressRound, Uncompressor.strm, Allocator.malloc, realloc_failed hplace, Option.map_none,
            ha.null]
          rfl
      · exact ⟨0, by rw [uncompressInpBuf, if_neg hinit]; rfl⟩

/-- **The loops end when `in_size` is not a multiple of 2^32**, whatever the
input and the allocator. When zlib answers as it should without an output
buffer and without room, they end otherwise only when they are not entered
or an assertion stops the program at once. -/
theorem compression_ends {zlib : Zlib} (hd : Bounded zlib.deflate) (hi : Bounded zlib.inflate) (checked : Bool)
    (mem : Allocator) (input : List UInt8) :
    (uInt input.length ≠ 0 →
      CompressEnds checked mem zlib.deflate input ∧ UncompressEnds checked mem zlib.inflate input) ∧
    (∀ idle, Answers zlib.deflate idle →
      (CompressEnds checked mem zlib.deflate input ↔ Leaves checked (mem.place 1) zlib.deflate input.length)) ∧
    ∀ idle, Answers zlib.inflate idle →
      (UncompressEnds checked mem zlib.inflate input ↔ Leaves checked (mem.place 0) zlib.inflate input.length) :=
  ⟨fun hn => ⟨compress_ends hd hn, uncompress_ends hi hn⟩, fun _ ha => compressEnds_iff hd ha,
    fun _ ha => uncompressEnds_iff hi ha⟩

theorem compression_ends_sample :
    CompressEnds true ⟨fun _ => .moved, fun _ _ => 0⟩ smallZlib.deflate hello ∧
      UncompressEnds true ⟨fun _ => .moved, fun _ _ => 0⟩ smallZlib.inflate hello :=
  (compression_ends small_bounded.1 small_bounded.2 true ⟨fun _ => .moved, fun _ _ => 0⟩ hello).1 (by decide)

/-- The empty input. `realloc(NULL, 0)` gives a block, the next call frees
it, and so on. -/
theorem not_compression_ends :
    ¬∀ zlib : Zlib, Bounded zlib.deflate → Bounded zlib.inflate → ∀ (checked : Bool) (mem : Allocator)
      (input : List UInt8), input.length < 2 ^ 64 →
        CompressEnds checked mem zlib.deflate input ∧ UncompressEnds checked mem zlib.inflate input := by
  intro hall
  let mem : Allocator := ⟨fun k => if k % 2 = 1 then .moved else .failed, fun _ _ => 0⟩
  have hends := (hall smallZlib small_bounded.1 small_bounded.2 true mem [] (by decide)).1
  exact compress_endless emitter_answers rfl rfl (by decide) hends

end Efio.Proofs.CoreUtils
