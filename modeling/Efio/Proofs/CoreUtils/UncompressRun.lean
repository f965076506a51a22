import Efio.Proofs.CoreUtils.OutputBlock

/-!
# `Efio.Proofs.CoreUtils.UncompressRun`: what `uncompress_inp_buf` makes of a stream

A stream that is shorter than 2^32 bytes is given to `inflate` as a whole,
and each round copies the next bytes behind those that the block holds
already (`Uncompressing.turn`). The block may move as it likes, since the
address for the copy is computed anew. `uncompress_gives` is the result.

Of a longer stream `inflate` only sees the beginning, so there is no
`Z_STREAM_END` and no `Z_OK` (`uncompress_starved`).
-/

set_option autoImplicit false

namespace Efio.Proofs.CoreUtils

open Efio.Lib Efio.CoreUtils Efio.Spec

variable {checked : Bool} {mem : Allocator} {z : Engine} {stream : List UInt8 → List UInt8}
  {owes : z.State → List UInt8 → List UInt8 → Prop} {starved : z.State → List UInt8 → Prop}
  {n : Nat} {x : List UInt8}

/-- No stream is empty: it would be the beginning of every other. -/
theorem stream_ne_nil (hz : Inflates z stream owes starved) (x : List UInt8) : stream x ≠ [] := by
  intro hnil
  have hcons := hz.delimits x (0 :: x) (hnil ▸ List.nil_prefix)
  exact absurd (congrArg List.length hcons) (by simp)

/-- The state after `u.i` rounds that have filled `avail_out`. -/
structure Uncompressing (n : Nat) (x : List UInt8) (owes : z.State → List UInt8 → List UInt8 → Prop)
    (u : Uncompressor z) : Prop where
  full : u.i * n ≤ x.length
  owed : owes u.state u.unread (x.drop (u.i * n))
  temp : ∃ b, u.tempOut = some b ∧ b.bytes.length = n
  written : u.written = u.i * n
  first : u.i = 0 → u.out = none
  kept : 0 < u.i → ∃ b, u.out = some b ∧ Begins (u.i * n) b.bytes x

/-- The variables at the end of a round. -/
def copied (mem : Allocator) (n : Nat) (u : Uncompressor z) : Uncompressor z :=
  ((u.advance (z.call u.state (u.strm n)).1 (z.call u.state (u.strm n)).2).grow mem n).copy
    (n - (uInt n - (z.call u.state (u.strm n)).2.output.length))

namespace Uncompressing

variable {u : Uncompressor z}

/-- What the call of `inflate` does in a round. -/
theorem call (h : Uncompressing n x owes u) (hz : Inflates z stream owes starved) (hn : 0 < n)
    (hlt : n < 2 ^ 32) (mem : Allocator) :
    (z.call u.state (u.strm n)).2.output = (x.drop (u.i * n)).take n ∧
      owes (copied mem n u).state (copied mem n u).unread (x.drop ((u.i + 1) * n)) ∧
      ((z.call u.state (u.strm n)).2.ret = .streamEnd ∨
        (u.i + 1) * n ≤ x.length ∧ (z.call u.state (u.strm n)).2.ret = .ok) := by
  obtain ⟨b, hb, -⟩ := h.temp
  have hstrm : u.strm n = ⟨u.unread, some b.start, n⟩ := by
    rw [Uncompressor.strm, hb, uInt_of_lt hlt]
    rfl
  have hwrites := hz.writes _ _ _ h.owed b.start n hn hlt
  have hreturns := hz.returns _ _ _ h.owed b.start n hn hlt
  have hsucc : (u.i + 1) * n = u.i * n + n := Nat.succ_mul _ _
  have hfull := h.full
  rw [List.drop_drop, ← hsucc, ← hstrm] at hwrites
  rw [← hstrm, List.length_drop] at hreturns
  refine ⟨hwrites.1, hwrites.2, hreturns.imp_right fun hok => ⟨?_, hok.2⟩⟩
  have hroom := hok.1
  omega

/-- A round copies what `inflate` has written. -/
theorem turn (h : Uncompressing n x owes u) (hz : Inflates z stream owes starved) (hn : 0 < n)
    (hlt : n < 2 ^ 32) (hx : x.length < 2 ^ 32) (hmem : ∀ k, mem.place k ≠ .failed) :
    (∃ b, (copied mem n u).tempOut = some b ∧ b.bytes.length = n) ∧
      (copied mem n u).written = u.i * n + min n (x.length - u.i * n) ∧
      ∃ b, (copied mem n u).out = some b ∧ Begins (u.i * n + min n (x.length - u.i * n)) b.bytes x := by
  obtain ⟨houtput, -, -⟩ := h.call hz hn hlt mem
  have hlen : (z.call u.state (u.strm n)).2.output.length = min n (x.length - u.i * n) := by
    rw [houtput, List.length_take, List.length_drop]
  have hwritten : n - (uInt n - (z.call u.state (u.strm n)).2.output.length) = min n (x.length - u.i * n) := by
    rw [hlen, uInt_of_lt hlt]
    omega
  have hfull := h.full
  obtain ⟨t, ht, htlen⟩ := h.temp
  -- What is copied is what `inflate` has put at the start of `temp_out`.
  have htemp : Write.after ⟨u.tempOut, u.tempOut.map Block.start, (z.call u.state (u.strm n)).2.output⟩ =
      some ⟨t.id, (writeAt t.bytes 0 (z.call u.state (u.strm n)).2.output).take t.bytes.length⟩ := by
    rw [ht]
    exact after_at t 0 _
  have hcopy : ((writeAt t.bytes 0 (z.call u.state (u.strm n)).2.output).take t.bytes.length).take
      (min n (x.length - u.i * n)) = (x.drop (u.i * n)).take n := by
    have hput : (writeAt t.bytes 0 (z.call u.state (u.strm n)).2.output).take
        (0 + (z.call u.state (u.strm n)).2.output.length) =
          t.bytes.take 0 ++ (z.call u.state (u.strm n)).2.output := take_writeAt _ (Nat.zero_le _)
    rw [List.take_take, Nat.min_eq_left (by omega), ← houtput, ← hlen]
    rwa [Nat.zero_add, List.take_zero, List.nil_append] at hput
  -- The block has grown, and kept what it held.
  obtain ⟨b, hb⟩ := exists_realloc (hmem (u.i + 1)) u.out (toSize (n * (u.i + 1)))
  have hsize : b.bytes.length = u.i * n + n := by
    rw [length_realloc hb, Nat.mul_succ, Nat.mul_comm]
    exact toSize_of_lt (by omega)
  have hbegins : Begins (u.i * n) b.bytes x := by
    by_cases hi : u.i = 0
    · rw [hi, Nat.zero_mul]
      exact begins_zero _ _
    · obtain ⟨old, hold, hkept⟩ := h.kept (Nat.pos_of_ne_zero hi)
      rw [hold] at hb
      have hresized := hkept.resized (mem.fresh (u.i + 1)) (toSize (n * (u.i + 1)))
      rw [← (realloc_some hb).1, ← length_realloc hb, Nat.min_eq_left (by omega)] at hresized
      exact hresized
  have hpiece : ((x.drop (u.i * n)).take n).length = min n (x.length - u.i * n) := by rw [← houtput, hlen]
  have hnext := hbegins.written (m := n) (by omega)
  rw [hpiece] at hnext
  refine ⟨⟨_, htemp, ?_⟩, ?_, ⟨b.id, (writeAt b.bytes (u.i * n) ((x.drop (u.i * n)).take n)).take b.bytes.length⟩,
    ?_, hnext⟩
  · rw [List.length_take, length_writeAt, Nat.min_eq_left (Nat.le_max_left _ _), htlen]
  · show toSize (u.written + (n - (uInt n - _))) = _
    rw [hwritten, h.written]
    exact toSize_of_lt (by omega)
  · show (Write.mk (mem.realloc (u.i + 1) u.out (toSize (n * (u.i + 1))))
      ((mem.realloc (u.i + 1) u.out (toSize (n * (u.i + 1)))).map fun b => ⟨b.id, u.written⟩)
      ((Write.after ⟨u.tempOut, u.tempOut.map Block.start, (z.call u.state (u.strm n)).2.output⟩).elim []
        Block.bytes |>.take (n - (uInt n - (z.call u.state (u.strm n)).2.output.length)))).after = _
    rw [hb, htemp, hwritten, h.written, ← hcopy]
    exact after_at b _ _

end Uncompressing

/-- A round goes on as long as it fills `avail_out`. -/
theorem Uncompressing.round {u : Uncompressor z} (h : Uncompressing n x owes u)
    (hz : Inflates z stream owes starved) (hn : 0 < n) (hlt : n < 2 ^ 32) :
    uncompressRound checked mem n u =
      if (u.i + 1) * n ≤ x.length then .again (copied mem n u)
      else .done (.returned .ok (some (copied mem n u).result)) := by
  obtain ⟨houtput, -, hret⟩ := h.call hz hn hlt mem
  have hsucc : (u.i + 1) * n = u.i * n + n := Nat.succ_mul _ _
  have hfull := h.full
  have havail : uInt n - (z.call u.state (u.strm n)).2.output.length = 0 ↔ (u.i + 1) * n ≤ x.length := by
    rw [houtput, List.length_take, List.length_drop, uInt_of_lt hlt]
    omega
  have hclobbered : ∀ r : Ret, r ≠ .streamError → ¬(checked && r == .streamError) = true := by
    intro r hr
    rw [Bool.and_eq_true, beq_iff_eq]
    exact fun hboth => hr hboth.2
  rcases hret with hend | ⟨hmore, hok⟩
  · simp only [uncompressRound, hend, havail]
    rw [if_neg (hclobbered .streamEnd (by decide))]
    rfl
  · simp only [uncompressRound, hok, havail]
    rw [if_neg (hclobbered .ok (by decide)), if_pos hmore, if_pos hmore]
    rfl

theorem uncompressing_start (hz : Inflates z stream owes starved) (hlt : (stream x).length < 2 ^ 32)
    (hmem : ∀ k, mem.place k ≠ .failed) :
    Uncompressing (stream x).length x owes
      ⟨z.init.2, (stream x).take (uInt (stream x).length), mem.malloc 0 (stream x).length, 0, none, 0, []⟩ where
  full := by
    rw [Nat.zero_mul]
    exact Nat.zero_le _
  owed := by
    rw [Nat.zero_mul, List.drop_zero, uInt_of_lt hlt, List.take_length]
    exact hz.start x hlt
  temp := by
    obtain ⟨b, hb⟩ := exists_realloc (hmem 0) none (stream x).length
    exact ⟨b, hb, length_realloc hb⟩
  written := (Nat.zero_mul _).symm
  first _ := rfl
  kept hpos := absurd hpos (Nat.lt_irrefl 0)

/-- **The stream of `x` gives `x`.** -/
theorem uncompress_gives (hz : Inflates z stream owes starved) (hx : x.length < 2 ^ 32)
    (hlt : (stream x).length < 2 ^ 32) (hmem : ∀ k, mem.place k ≠ .failed) :
    ∃ fuel r, uncompressInpBuf checked mem z (stream x) fuel = some (.returned .ok (some r)) ∧ Gives r x := by
  have hn := List.length_pos_of_ne_nil (stream_ne_nil hz x)
  have hstep : ∀ N u, (Uncompressing (stream x).length x owes u ∧ N = x.length - u.i * (stream x).length) →
      (uncompressRound checked mem (stream x).length u).Meets
        (fun u' => ∃ M < N, Uncompressing (stream x).length x owes u' ∧ M = x.length - u'.i * (stream x).length)
        fun o => ∃ r, o = .returned .ok (some r) ∧ Gives r x := by
    rintro N u ⟨h, rfl⟩
    have hsucc : (u.i + 1) * (stream x).length = u.i * (stream x).length + (stream x).length := Nat.succ_mul _ _
    have hfull := h.full
    obtain ⟨htemp, hwritten, b, hb, hbegins⟩ := h.turn hz hn hlt hx hmem
    rw [h.round hz hn hlt]
    split
    · next hmore =>
      have hmin : u.i * (stream x).length + min (stream x).length (x.length - u.i * (stream x).length) =
          (u.i + 1) * (stream x).length := by omega
      rw [hmin] at hwritten hbegins
      refine ⟨_, ?_, ?_, rfl⟩
      · show x.length - (u.i + 1) * (stream x).length < _
        omega
      · constructor
        · exact hmore
        · exact (h.call hz hn hlt mem).2.1
        · exact htemp
        · exact hwritten
        · intro hi
          cases hi
        · intro _
          exact ⟨b, hb, hbegins⟩
    · next hmore =>
      have hmin : u.i * (stream x).length + min (stream x).length (x.length - u.i * (stream x).length) =
          x.length := by omega
      rw [hmin] at hwritten hbegins
      refine ⟨_, rfl, b, hb, ?_, ?_⟩
      · show (copied mem (stream x).length u).written ≤ b.bytes.length
        rw [hwritten]
        exact hbegins.le
      · show b.bytes.take (copied mem (stream x).length u).written = x
        rw [hwritten, hbegins.eq, List.take_length]
  obtain ⟨fuel, _, hrun, r, rfl, hr⟩ := doWhile_ends hstep ⟨uncompressing_start hz hlt hmem, rfl⟩
  refine ⟨fuel, r, ?_, hr⟩
  rw [uncompressInpBuf, if_pos hz.init, hrun]

/-- Without `Z_STREAM_END` there is no `Z_OK`. -/
theorem uncompressRound_starved (hz : Inflates z stream owes starved) (checked : Bool) (mem : Allocator)
    (u : Uncompressor z) (h : starved u.state u.unread) :
    (uncompressRound checked mem n u).Meets (fun u' => starved u'.state u'.unread)
      fun o => ∀ r, o ≠ .returned .ok r := by
  obtain ⟨hret, hstarved⟩ : (z.call u.state (u.strm n)).2.ret ≠ .streamEnd ∧ _ :=
    hz.starves u.state u.unread h (u.tempOut.map Block.start) (uInt n)
  simp only [uncompressRound]
  split
  · exact fun _ hr => by cases hr
  · split
    · exact fun _ hr => by cases hr
    · exact fun _ hr => by cases hr
    · exact fun _ hr => by cases hr
    · split
      · exact hstarved
      · exact fun _ hr => by cases hr

/-- A stream of 2^32 bytes or more is not uncompressed. -/
theorem uncompress_starved (hz : Inflates z stream owes starved) (hle : 2 ^ 32 ≤ (stream x).length)
    (fuel : Nat) (r : Option Result) :
    uncompressInpBuf checked mem z (stream x) fuel ≠ some (.returned .ok r) := by
  have hcut := uInt_lt (stream x).length
  have hlen : ((stream x).take (uInt (stream x).length)).length = uInt (stream x).length := by
    rw [List.length_take]
    omega
  have hstart : starved z.init.2 ((stream x).take (uInt (stream x).length)) := by
    refine hz.short x _ (by omega) (List.take_prefix _ _) ?_
    intro heq
    have hsame := congrArg List.length heq
    omega
  intro hrun
  rw [uncompressInpBuf, if_pos hz.init] at hrun
  exact doWhile_post (uncompressRound_starved hz checked mem) hstart hrun r rfl

end Efio.Proofs.CoreUtils
