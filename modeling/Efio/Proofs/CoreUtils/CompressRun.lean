import Efio.Proofs.CoreUtils.OutputBlock

/-!
# `Efio.Proofs.CoreUtils.CompressRun`: what `compress_inp_buf` leaves behind

Under zlib's contract each round but the last gets the next `avail_out`
bytes of the stream. `next_out` is only set in the first round, so it points
into the first block, directly behind the bytes that have been written
there. `Compressing` is the invariant.

A write that is not empty goes into the current block if and only if the
block is still the first one. So the rounds whose write is inside keep the
stream so far in the block (`Compressing.inside_begins`), and as long as
the block stays where it is and is large enough, the writes are inside
(`Compressing.inside_of_fits`). `compress_run` says what this means for
the result.
-/

set_option autoImplicit false

namespace Efio.Proofs.CoreUtils

open Efio.Lib Efio.CoreUtils Efio.Spec

variable {checked : Bool} {mem : Allocator} {z : Engine} {stream : List UInt8 → List UInt8}
  {owes : z.State → List UInt8 → List UInt8 → Prop} {n : Nat} {input data : List UInt8}

/-- The sizes fit into 32 bits, and the block stays where it is as long as
bytes of `data` are missing. -/
structure Fits (mem : Allocator) (n : Nat) (data : List UInt8) : Prop where
  input : n < 2 ^ 32
  output : data.length < 2 ^ 32
  stays : ∀ k, 0 < k → k * n < data.length → mem.place (k + 1) = .inPlace
  grows : ∀ k, 0 < k → k * n = data.length → mem.place (k + 1) ≠ .failed

/-- The state after `c.i` rounds that have filled `avail_out`, with the
stream `data`. -/
structure Compressing (mem : Allocator) (n : Nat) (data : List UInt8)
    (owes : z.State → List UInt8 → List UInt8 → Prop) (c : Compressor z) : Prop where
  full : c.i * uInt n ≤ data.length
  owed : owes c.state c.unread (data.drop (c.i * uInt n))
  written : c.written = toSize (c.i * n)
  first : c.i = 0 → c.out = none
  next : 0 < c.i → c.nextOut = some ⟨1, c.i * uInt n⟩
  kept : AllInside c.writes → 0 < c.i →
    ∃ b, c.out = some b ∧ b.id = 1 ∧ Begins (c.i * uInt n) b.bytes data
  placed : AllInside c.writes → ∀ k, 0 < k → k < c.i → mem.place (k + 1) = .inPlace
  inside : Fits mem n data → AllInside c.writes

namespace Compressing

variable {c : Compressor z}

/-- `next_out` points into the first block, behind what has been written. -/
theorem grow_nextOut (h : Compressing mem n data owes c) (hplace : mem.place 1 ≠ .failed) :
    (c.grow mem n).nextOut = some ⟨1, c.i * uInt n⟩ := by
  show (if c.i + 1 = 1 then (mem.realloc (c.i + 1) c.out _).map Block.start else c.nextOut) = _
  by_cases hi : c.i = 0
  · obtain ⟨b, hb⟩ := exists_realloc hplace none (toSize (n * 1))
    rw [hi, if_pos rfl, h.first hi, hb, realloc_none hb, Nat.zero_mul]
    rfl
  · rw [if_neg (by omega), h.next (Nat.pos_of_ne_zero hi)]

/-- A write that is inside and not empty finds the first block, with the
stream so far, and adds to it. -/
theorem inside_begins (h : Compressing mem n data owes c) (hplace : mem.place 1 ≠ .failed)
    (hsafe : AllInside c.writes) {p : Progress} (hp : p.output = (data.drop (c.i * uInt n)).take (uInt n))
    (hne : p.output ≠ []) (hinside : Inside ((c.grow mem n).write p)) :
    (0 < c.i → mem.place (c.i + 1) = .inPlace) ∧
      ∃ b, ((c.grow mem n).write p).after = some b ∧ b.id = 1 ∧
        Begins (c.i * uInt n + p.output.length) b.bytes data := by
  obtain ⟨b, q, hout, hdest, hid, hroom⟩ := hinside.resolve_left hne
  have hq := (h.grow_nextOut hplace).symm.trans hdest
  cases hq
  have hout : mem.realloc (c.i + 1) c.out (toSize (n * (c.i + 1))) = some b := hout
  have hroom : c.i * uInt n + p.output.length ≤ b.bytes.length := hroom
  have hid : b.id = 1 := hid.symm
  -- The block of the last round, which has not moved: it would have another number.
  have hbefore : (0 < c.i → mem.place (c.i + 1) = .inPlace) ∧ Begins (c.i * uInt n) b.bytes data := by
    by_cases hi : c.i = 0
    · rw [hi, Nat.zero_mul]
      exact ⟨fun hpos => absurd hpos (Nat.lt_irrefl 0), begins_zero _ _⟩
    · obtain ⟨old, hold, holdid, hbegins⟩ := h.kept hsafe (Nat.pos_of_ne_zero hi)
      rw [hold] at hout
      obtain ⟨hbytes, ⟨hinPlace, -⟩ | ⟨-, hmoved⟩⟩ := realloc_some hout
      · have hkept := hbegins.resized (mem.fresh (c.i + 1)) (toSize (n * (c.i + 1)))
        have hsize := length_realloc hout
        rw [← hbytes, Nat.min_eq_left (by omega)] at hkept
        exact ⟨fun _ => hinPlace, hkept⟩
      · omega
  refine ⟨hbefore.1, ⟨1, (writeAt b.bytes (c.i * uInt n) p.output).take b.bytes.length⟩, ?_, rfl, ?_⟩
  · show (Write.mk (mem.realloc (c.i + 1) c.out _) (c.grow mem n).nextOut p.output).after = _
    rw [hout, h.grow_nextOut hplace, ← hid]
    exact after_at b _ _
  · rw [hp] at hroom ⊢
    exact hbefore.2.written hroom

/-- A block that stays where it is and has room takes the write. -/
theorem inside_of_fits (h : Compressing mem n data owes c) (hplace : mem.place 1 ≠ .failed)
    (hfits : Fits mem n data) {p : Progress} (hp : p.output = (data.drop (c.i * uInt n)).take (uInt n)) :
    Inside ((c.grow mem n).write p) := by
  have hm := uInt_of_lt hfits.input
  have hlen : p.output.length = min (uInt n) (data.length - c.i * uInt n) := by
    rw [hp, List.length_take, List.length_drop]
  by_cases hne : p.output = []
  · exact .inl hne
  · have hpos := List.length_pos_of_ne_nil hne
    have hout := hfits.output
    have hin := hfits.input
    rw [hm] at hlen
    have hsize : toSize (n * (c.i + 1)) = c.i * n + n := by
      rw [Nat.mul_succ, Nat.mul_comm n c.i]
      exact toSize_of_lt (by omega)
    have hblock : ∃ b, mem.realloc (c.i + 1) c.out (toSize (n * (c.i + 1))) = some b ∧ b.id = 1 := by
      by_cases hi : c.i = 0
      · obtain ⟨b, hb⟩ := exists_realloc hplace none (toSize (n * 1))
        rw [h.first hi, hi]
        exact ⟨b, hb, by rw [realloc_none hb]⟩
      · have hi := Nat.pos_of_ne_zero hi
        obtain ⟨old, hold, holdid, -⟩ := h.kept (h.inside hfits) hi
        have hstays := hfits.stays c.i hi (by omega)
        have hplaced : mem.place (c.i + 1) ≠ .failed := by
          rw [hstays]
          decide
        obtain ⟨b, hb⟩ := exists_realloc hplaced (some old) (toSize (n * (c.i + 1)))
        obtain ⟨-, ⟨-, hid⟩ | ⟨hmoved, -⟩⟩ := realloc_some hb
        · exact ⟨b, hold ▸ hb, hid.trans holdid⟩
        · rw [hstays] at hmoved
          cases hmoved
    obtain ⟨b, hb, hid⟩ := hblock
    refine .inr ⟨b, ⟨1, c.i * uInt n⟩, hb, h.grow_nextOut hplace, hid.symm, ?_⟩
    show c.i * uInt n + p.output.length ≤ b.bytes.length
    rw [length_realloc hb, hsize, hm]
    omega

/-- The block that the last `realloc` has given when nothing is left to be
written: the stream, or as much of it as fits. -/
theorem grow_begins (h : Compressing mem n data owes c) (hsafe : AllInside c.writes)
    (hend : c.i * uInt n = data.length) {b : Block} (hb : (c.grow mem n).out = some b) :
    Begins (min data.length b.bytes.length) b.bytes data := by
  have hb : mem.realloc (c.i + 1) c.out (toSize (n * (c.i + 1))) = some b := hb
  by_cases hi : c.i = 0
  · rw [← hend, hi, Nat.zero_mul, Nat.zero_min]
    exact begins_zero _ _
  · obtain ⟨old, hold, -, hbegins⟩ := h.kept hsafe (Nat.pos_of_ne_zero hi)
    rw [hold] at hb
    have hkept := hbegins.resized (mem.fresh (c.i + 1)) (toSize (n * (c.i + 1)))
    rw [← (realloc_some hb).1, ← length_realloc hb, hend] at hkept
    exact hkept

end Compressing

/-! ### One round -/

/-- The variables at the end of a round. -/
def roundEnd (mem : Allocator) (n : Nat) (c : Compressor z) : Compressor z :=
  (c.grow mem n).advance n (z.call c.state ((c.grow mem n).strm n)).1 (z.call c.state ((c.grow mem n).strm n)).2

/-- What the call of `deflate` does in a round. -/
theorem Compressing.call {c : Compressor z} (h : Compressing mem n data owes c)
    (hz : Deflates z stream owes) (hplace : mem.place 1 ≠ .failed) (hn : uInt n ≠ 0) :
    (z.call c.state ((c.grow mem n).strm n)).2.output = (data.drop (c.i * uInt n)).take (uInt n) ∧
      owes (roundEnd mem n c).state (roundEnd mem n c).unread (data.drop ((c.i + 1) * uInt n)) ∧
      (z.call c.state ((c.grow mem n).strm n)).2.ret ≠ .streamError ∧
      (data.length < (c.i + 1) * uInt n →
        (z.call c.state ((c.grow mem n).strm n)).2.ret = .streamEnd ∧ (roundEnd mem n c).unread = []) := by
  have hstrm : (c.grow mem n).strm n = ⟨c.unread, some ⟨1, c.i * uInt n⟩, uInt n⟩ := by
    rw [Compressor.strm, h.grow_nextOut hplace]
    rfl
  have hwrites := hz.writes _ _ _ h.owed ⟨1, c.i * uInt n⟩ (uInt n) (Nat.pos_of_ne_zero hn) (uInt_lt n)
  have hreturns := hz.returns _ _ _ h.owed ⟨1, c.i * uInt n⟩ (uInt n) (Nat.pos_of_ne_zero hn) (uInt_lt n)
  have hsucc : (c.i + 1) * uInt n = c.i * uInt n + uInt n := Nat.succ_mul _ _
  have hfull := h.full
  rw [List.drop_drop, ← hsucc, ← hstrm] at hwrites
  rw [← hstrm, List.length_drop] at hreturns
  exact ⟨hwrites.1, hwrites.2, hreturns.1, fun hlt => hreturns.2 (by omega)⟩

/-- A round that fills `avail_out` keeps the invariant. -/
theorem Compressing.again {c : Compressor z} (h : Compressing mem n data owes c)
    (hz : Deflates z stream owes) (hplace : mem.place 1 ≠ .failed) (hn : uInt n ≠ 0)
    (hfull : (c.i + 1) * uInt n ≤ data.length) : Compressing mem n data owes (roundEnd mem n c) := by
  obtain ⟨houtput, howes, -, -⟩ := h.call hz hplace hn
  have hsucc : (c.i + 1) * uInt n = c.i * uInt n + uInt n := Nat.succ_mul _ _
  have hlen : (z.call c.state ((c.grow mem n).strm n)).2.output.length = uInt n := by
    rw [houtput, List.length_take, List.length_drop]
    omega
  have hne : (z.call c.state ((c.grow mem n).strm n)).2.output ≠ [] := by
    intro hnil
    rw [hnil] at hlen
    exact hn hlen.symm
  have hinside : AllInside (roundEnd mem n c).writes → AllInside c.writes ∧ _ := allInside_snoc.mp
  constructor
  · exact hfull
  · exact howes
  · show toSize (c.written + (n - (uInt n - _))) = toSize ((c.i + 1) * n)
    rw [h.written, hlen, Nat.sub_self, Nat.sub_zero, toSize_add, Nat.succ_mul]
  · intro hi
    cases hi
  · intro _
    show (c.grow mem n).nextOut.map (Ptr.add · _) = some (Ptr.mk 1 ((c.i + 1) * uInt n))
    rw [h.grow_nextOut hplace, hsucc, hlen]
    rfl
  · intro hsafe _
    obtain ⟨-, b, hafter, hid, hbegins⟩ := h.inside_begins hplace (hinside hsafe).1 houtput hne (hinside hsafe).2
    rw [hlen, ← hsucc] at hbegins
    exact ⟨b, hafter, hid, hbegins⟩
  · intro hsafe k hk hlt
    obtain ⟨hplaced, -⟩ := h.inside_begins hplace (hinside hsafe).1 houtput hne (hinside hsafe).2
    rcases Nat.lt_or_eq_of_le (Nat.le_of_lt_succ hlt) with hlt | rfl
    · exact h.placed (hinside hsafe).1 k hk hlt
    · exact hplaced hk
  · intro hfits
    show AllInside (c.writes ++ [_])
    exact allInside_snoc.mpr ⟨h.inside hfits, h.inside_of_fits hplace hfits houtput⟩

/-- What the result and the placement of the block say about each other. -/
structure Compressed (mem : Allocator) (n : Nat) (data : List UInt8) (r : Result) : Prop where
  placed : AllInside r.writes → ∀ k, 0 < k → k * uInt n < data.length → mem.place (k + 1) = .inPlace
  present : r.out ≠ none → ∀ k, 0 < k → k * uInt n = data.length → mem.place (k + 1) ≠ .failed
  begins : AllInside r.writes → ∀ b, r.out = some b → Begins (min data.length b.bytes.length) b.bytes data
  gives : Fits mem n data → AllInside r.writes ∧ Gives r data

/-- The last round. Nothing may be left to be written then; in this case the
block can have moved. -/
theorem Compressing.last {c : Compressor z} (h : Compressing mem n data owes c)
    (hz : Deflates z stream owes) (hplace : mem.place 1 ≠ .failed) (hn : uInt n ≠ 0)
    (hlast : data.length < (c.i + 1) * uInt n) : Compressed mem n data (roundEnd mem n c).result := by
  obtain ⟨houtput, -, -, -⟩ := h.call hz hplace hn
  have hsucc : (c.i + 1) * uInt n = c.i * uInt n + uInt n := Nat.succ_mul _ _
  have hfull := h.full
  have hlen : c.i * uInt n + (z.call c.state ((c.grow mem n).strm n)).2.output.length = data.length := by
    rw [houtput, List.length_take, List.length_drop]
    omega
  have hle : ∀ k, k * uInt n ≤ data.length → k ≤ c.i := by
    intro k hk
    exact Nat.le_of_lt_succ (Nat.lt_of_mul_lt_mul_right (Nat.lt_of_le_of_lt hk hlast))
  have hinside : AllInside (roundEnd mem n c).writes → AllInside c.writes ∧ _ := allInside_snoc.mp
  have hout : (roundEnd mem n c).out =
      ((c.grow mem n).write (z.call c.state ((c.grow mem n).strm n)).2).after := rfl
  have hbegins : AllInside (roundEnd mem n c).writes → ∀ b, (roundEnd mem n c).out = some b →
      Begins (min data.length b.bytes.length) b.bytes data := by
    intro hsafe b hb
    by_cases hnil : (z.call c.state ((c.grow mem n).strm n)).2.output = []
    · rw [hnil] at hlen
      rw [hout, after_nil hnil] at hb
      exact h.grow_begins (hinside hsafe).1 hlen hb
    · obtain ⟨-, b', hb', -, hbegins⟩ := h.inside_begins hplace (hinside hsafe).1 houtput hnil (hinside hsafe).2
      rw [hlen] at hbegins
      cases hb'.symm.trans hb
      rwa [Nat.min_eq_left hbegins.le]
  constructor
  · intro hsafe k hk hlt
    rcases Nat.lt_or_eq_of_le (hle k (Nat.le_of_lt hlt)) with hki | rfl
    · exact h.placed (hinside hsafe).1 k hk hki
    · have hne : (z.call c.state ((c.grow mem n).strm n)).2.output ≠ [] := by
        intro hnil
        rw [hnil] at hlen
        exact Nat.ne_of_lt hlt hlen
      exact (h.inside_begins hplace (hinside hsafe).1 houtput hne (hinside hsafe).2).1 hk
  · intro hsome k hk heq hfailed
    have hik : c.i ≤ k := Nat.le_of_mul_le_mul_right (heq ▸ hfull) (Nat.pos_of_ne_zero hn)
    obtain rfl : k = c.i := Nat.le_antisymm (hle k (Nat.le_of_eq heq)) hik
    exact hsome (after_none (realloc_failed hfailed c.out))
  · exact hbegins
  · intro hfits
    have hm := uInt_of_lt hfits.input
    have hsafe : AllInside (roundEnd mem n c).writes := by
      show AllInside (c.writes ++ [_])
      exact allInside_snoc.mpr ⟨h.inside hfits, h.inside_of_fits hplace hfits houtput⟩
    have hpresent : mem.place (c.i + 1) ≠ .failed := by
      rcases Nat.eq_zero_or_pos c.i with hi | hi
      · rwa [hi]
      · rcases Nat.lt_or_eq_of_le hfull with hlt | heq
        · rw [hfits.stays c.i hi (hm ▸ hlt)]
          decide
        · exact hfits.grows c.i hi (hm ▸ heq)
    have hin := hfits.input
    have houtlen := hfits.output
    obtain ⟨g, hg⟩ := exists_realloc hpresent c.out (toSize (n * (c.i + 1)))
    obtain ⟨b, hb, hblen⟩ := exists_after (w := (c.grow mem n).write _) hg
    have hsize : b.bytes.length = (c.i + 1) * uInt n := by
      rw [hblen, length_realloc hg, hm, Nat.mul_comm]
      exact toSize_of_lt (by rw [← hm]; omega)
    have hdata := hbegins hsafe b hb
    rw [Nat.min_eq_left (by omega)] at hdata
    have hwritten : (roundEnd mem n c).result.written = data.length := by
      show toSize (c.written + (n - (uInt n - _))) = _
      rw [h.written, toSize_add, ← hlen, hm]
      rw [hm] at hlen hsucc hlast
      exact (congrArg toSize (by omega)).trans (toSize_of_lt (by omega))
    refine ⟨hsafe, b, hb, ?_, ?_⟩
    · rw [hwritten]
      exact hdata.le
    · rw [hwritten, hdata.eq, List.take_length]

/-- A round goes on as long as it fills `avail_out`. -/
theorem Compressing.round {c : Compressor z} (h : Compressing mem n data owes c)
    (hz : Deflates z stream owes) (hplace : mem.place 1 ≠ .failed) (hn : uInt n ≠ 0) :
    compressRound checked mem n c =
      if (c.i + 1) * uInt n ≤ data.length then .again (roundEnd mem n c)
      else .done (.returned .ok (some (roundEnd mem n c).result)) := by
  obtain ⟨houtput, -, hret, hend⟩ := h.call hz hplace hn
  have hsucc : (c.i + 1) * uInt n = c.i * uInt n + uInt n := Nat.succ_mul _ _
  have hlen : (z.call c.state ((c.grow mem n).strm n)).2.output.length = min (uInt n) (data.length - c.i * uInt n) := by
    rw [houtput, List.length_take, List.length_drop]
  have hclobbered : ¬(checked && (z.call c.state ((c.grow mem n).strm n)).2.ret == .streamError) = true := by
    rw [Bool.and_eq_true, beq_iff_eq]
    exact fun hboth => hret hboth.2
  show (if (checked && (z.call c.state ((c.grow mem n).strm n)).2.ret == .streamError) = true then _
    else if uInt n - (z.call c.state ((c.grow mem n).strm n)).2.output.length = 0 then Round.again (roundEnd mem n c)
    else if (checked && (!(roundEnd mem n c).unread.isEmpty ||
      (z.call c.state ((c.grow mem n).strm n)).2.ret != .streamEnd)) = true then _
    else _) = _
  rw [if_neg hclobbered]
  have hfull := h.full
  by_cases hmore : (c.i + 1) * uInt n ≤ data.length
  · rw [if_pos hmore, if_pos (by omega)]
  · obtain ⟨hstreamEnd, hunread⟩ := hend (Nat.lt_of_not_le hmore)
    rw [if_neg hmore, if_neg (by omega), hstreamEnd, hunread, if_neg (by cases checked <;> decide)]
    rfl

theorem compressing_start (hz : Deflates z stream owes) (hinit : z.init.1 = .ok) :
    Compressing mem input.length (stream (input.take (uInt input.length))) owes
      ⟨z.init.2, input.take (uInt input.length), none, 0, none, 0, []⟩ where
  full := by
    rw [Nat.zero_mul]
    exact Nat.zero_le _
  owed := by
    rw [Nat.zero_mul, List.drop_zero]
    refine hz.start hinit _ (Nat.lt_of_le_of_lt ?_ (uInt_lt input.length))
    exact List.length_take_le _ _
  written := by rw [Nat.zero_mul]; rfl
  first _ := rfl
  next hpos := absurd hpos (Nat.lt_irrefl 0)
  kept _ hpos := absurd hpos (Nat.lt_irrefl 0)
  placed _ k hk hlt := absurd (Nat.lt_trans hk hlt) (Nat.lt_irrefl 0)
  inside _ w hw := absurd hw List.not_mem_nil

/-- `compress_inp_buf` returns `Z_OK` when it has a first block and its calls
have room. -/
theorem compress_run (hz : Deflates z stream owes) (hinit : z.init.1 = .ok) (hplace : mem.place 1 ≠ .failed)
    (hn : uInt input.length ≠ 0) (checked : Bool) :
    ∃ fuel r, compressInpBuf checked mem z input fuel = some (.returned .ok (some r)) ∧
      Compressed mem input.length (stream (input.take (uInt input.length))) r := by
  let data := stream (input.take (uInt input.length))
  have hstep : ∀ N c, (Compressing mem input.length data owes c ∧ N = data.length - c.i * uInt input.length) →
      (compressRound checked mem input.length c).Meets
        (fun c' => ∃ M < N, Compressing mem input.length data owes c' ∧
          M = data.length - c'.i * uInt input.length)
        fun o => ∃ r, o = .returned .ok (some r) ∧ Compressed mem input.length data r := by
    rintro N c ⟨h, rfl⟩
    have hsucc : (c.i + 1) * uInt input.length = c.i * uInt input.length + uInt input.length := Nat.succ_mul _ _
    rw [h.round hz hplace hn]
    split
    · next hmore =>
      refine ⟨_, ?_, h.again hz hplace hn hmore, rfl⟩
      show data.length - (c.i + 1) * uInt input.length < _
      omega
    · next hmore => exact ⟨_, rfl, h.last hz hplace hn (Nat.lt_of_not_le hmore)⟩
  obtain ⟨fuel, _, hrun, r, rfl, hr⟩ := doWhile_ends hstep ⟨compressing_start hz hinit, rfl⟩
  refine ⟨fuel, r, ?_, hr⟩
  rw [compressInpBuf, if_pos hinit, hrun]

end Efio.Proofs.CoreUtils
