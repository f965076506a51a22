import Efio.Proofs.CoreUtils.CompressRun
import Efio.Proofs.CoreUtils.SmallZlib
import Efio.Proofs.CoreUtils.UncompressRun

/-!
# `Efio.Proofs.CoreUtils.CompressRoundTrip`: compressing and uncompressing

`compress_roundTrips` says exactly when `compress_inp_buf` gives the stream
of the whole input and `uncompress_inp_buf` the input again.

From the result back to the condition: when every write was inside, the
block is the first one as long as bytes were missing (`Compressed.placed`).
Its content begins with the stream of what `deflate` has been given, or is
a beginning of it (`Compressed.begins`). If it is the stream of the whole
input as well, `deflate` has been given all of it, since no stream is the
beginning of another; so `in_size` fits into 32 bits. The size of the
stream does, because `inflate` has seen all of it.
-/

set_option autoImplicit false

namespace Efio.Proofs.CoreUtils

open Efio.Lib Efio.CoreUtils Efio.Spec

variable {checked : Bool} {mem : Allocator} {zlib : Zlib} {z : Engine} {stream : List UInt8 → List UInt8}
  {owes : z.State → List UInt8 → List UInt8 → Prop} {n : Nat} {input : List UInt8}

/-! ### When nothing is returned -/

/-- Without room there is no end but a failed assertion. -/
theorem compress_noRoom (hn : uInt input.length = 0) (hinit : z.init.1 = .ok) (fuel : Nat) (r : Option Result) :
    compressInpBuf checked mem z input fuel ≠ some (.returned .ok r) := by
  have hstep : ∀ c : Compressor z, True →
      (compressRound checked mem input.length c).Meets (fun _ => True) fun o => o = .aborted := by
    intro c _
    simp only [compressRound]
    rw [if_pos (show uInt input.length - _ = 0 by omega)]
    split <;> trivial
  intro hrun
  rw [compressInpBuf, if_pos hinit] at hrun
  cases doWhile_post hstep trivial hrun

/-- Without a first block `deflate` has no output buffer. The only round ends
at the assertion, or the function returns `Z_OK` without a block. -/
theorem compress_unplaced (hz : Deflates z stream owes) (hinit : z.init.1 = .ok)
    (hplace : mem.place 1 = .failed) (hn : uInt input.length ≠ 0) :
    (∀ fuel r, compressInpBuf true mem z input fuel ≠ some (.returned .ok r)) ∧
      ∃ fuel r, compressInpBuf false mem z input fuel = some (.returned .ok (some r)) ∧ r.out = none := by
  let c : Compressor z := ⟨z.init.2, input.take (uInt input.length), none, 0, none, 0, []⟩
  constructor
  · have hround : compressRound true mem input.length c = .done .aborted :=
      compressRound_unplaced (fun s x room => (hz.null s x room).2) hplace rfl input.length
    intro fuel r hrun
    rw [compressInpBuf, if_pos hinit] at hrun
    cases doWhile_unique hrun (doWhile_done hround 0)
  · have houtput : (z.call c.state ((c.grow mem input.length).strm input.length)).2.output = [] := by
      rw [strm_unplaced hplace rfl input.length]
      exact (hz.null c.state c.unread (uInt input.length)).1
    have hround : compressRound false mem input.length c =
        .done (.returned .ok (some (roundEnd mem input.length c).result)) := by
      -- Nothing has been written, so `avail_out` is not zero.
      show (if uInt input.length - (z.call c.state ((c.grow mem input.length).strm input.length)).2.output.length = 0
        then _ else _) = _
      rw [houtput, if_neg (by exact hn)]
      rfl
    refine ⟨1, (roundEnd mem input.length c).result, ?_, after_none (grow_unplaced hplace rfl input.length)⟩
    rw [compressInpBuf, if_pos hinit]
    exact doWhile_done hround 0

/-! ### The round trip -/

/-- A block that begins like a stream and holds another one holds this one. -/
theorem eq_of_begins {starved : z.State → List UInt8 → Prop} (hz : Inflates z stream owes starved)
    {x y bytes : List UInt8} {k : Nat} (hbegins : Begins (min (stream x).length bytes.length) bytes (stream x))
    (hbytes : bytes.take k = stream y) : x = y := by
  have hy : stream y <+: bytes := hbytes ▸ List.take_prefix k bytes
  rcases Nat.le_total (stream x).length bytes.length with hle | hge
  · have heq := hbegins.eq
    rw [Nat.min_eq_left hle, List.take_length] at heq
    have hx : stream x <+: bytes := heq ▸ List.take_prefix _ bytes
    rcases List.prefix_or_prefix_of_prefix hx hy with hxy | hyx
    · exact hz.delimits x y hxy
    · exact (hz.delimits y x hyx).symm
  -- The block is too small for the stream of `x`.
  · have heq := hbegins.eq
    rw [Nat.min_eq_right hge, List.take_length] at heq
    have hx : bytes <+: stream x := heq ▸ List.take_prefix _ (stream x)
    exact (hz.delimits y x (hy.trans hx)).symm

/-- What a block holds is determined. -/
theorem gives_unique {r : Result} {data data' : List UInt8} (h : Gives r data) (h' : Gives r data') :
    data' = data := by
  obtain ⟨b, hb, -, hdata⟩ := h
  obtain ⟨b', hb', -, hdata'⟩ := h'
  cases hb.symm.trans hb'
  exact hdata'.symm.trans hdata

variable {owesIn : zlib.deflate.State → List UInt8 → List UInt8 → Prop}
  {owesOut : zlib.inflate.State → List UInt8 → List UInt8 → Prop} {starved : zlib.inflate.State → List UInt8 → Prop}

theorem roundTripsWhen_of_roundTrips (hd : Deflates zlib.deflate stream owesIn)
    (hi : Inflates zlib.inflate stream owesOut starved) (h : RoundTrips checked mem zlib stream input) :
    RoundTripsWhen checked mem zlib stream input := by
  intro hinit hn hplace
  have hfirst : mem.place 1 ≠ .failed := by
    intro hfailed
    obtain ⟨fuel, r, hrun, hnone⟩ := (compress_unplaced hd hinit hfailed hn).2
    have hunchecked : checked = false := Bool.eq_false_iff.mpr fun hchecked => hplace ⟨hchecked, hfailed⟩
    rw [← hunchecked] at hrun
    obtain ⟨_, hr, ⟨b, hb, -⟩, -⟩ := h fuel (some r) hrun
    cases hr
    rw [hnone] at hb
    cases hb
  obtain ⟨fuel, r, hrun, hr⟩ := compress_run hd hinit hfirst hn checked
  obtain ⟨_, heq, hgives, hsafe, hback⟩ := h fuel (some r) hrun
  cases heq
  -- `deflate` has been given the whole input.
  have hinput : input.take (uInt input.length) = input := by
    obtain ⟨b, hb, -, hbytes⟩ := hgives
    exact eq_of_begins hi (hr.begins hsafe b hb) hbytes
  have hlt : input.length < 2 ^ 32 := by
    have hlen := congrArg List.length hinput
    have hcut := uInt_lt input.length
    rw [List.length_take] at hlen
    omega
  rw [hinput] at hr
  have hm := uInt_of_lt hlt
  refine ⟨hfirst, hlt, ?_, ?_⟩
  · by_contra hge
    obtain ⟨fuel', r', hrun', -⟩ := hback _ hgives ⟨fun _ => .inPlace, fun _ _ => 0⟩ fun _ h => by cases h
    exact uncompress_starved hi (Nat.le_of_not_lt hge) fuel' (some r') hrun'
  · intro k hk
    have hplaced := hr.placed hsafe k hk
    have hpresent := hr.present (by obtain ⟨b, hb, -⟩ := hgives; rw [hb]; exact Option.some_ne_none b) k hk
    rw [hm] at hplaced hpresent
    exact ⟨hplaced, hpresent⟩

theorem roundTrips_of_roundTripsWhen (hd : Deflates zlib.deflate stream owesIn)
    (hi : Inflates zlib.inflate stream owesOut starved) (h : RoundTripsWhen checked mem zlib stream input) :
    RoundTrips checked mem zlib stream input := by
  intro fuel result hrun
  have hinit : zlib.deflate.init.1 = .ok := by
    by_contra hne
    rw [compressInpBuf, if_neg hne] at hrun
    have hret := Option.some.inj hrun
    rw [Outcome.returned.injEq] at hret
    exact hne hret.1
  have hn : uInt input.length ≠ 0 := fun hn => compress_noRoom hn hinit fuel result hrun
  have hplace : ¬(checked = true ∧ mem.place 1 = .failed) := by
    rintro ⟨rfl, hfailed⟩
    exact (compress_unplaced hd hinit hfailed hn).1 fuel result hrun
  obtain ⟨hfirst, hlt, hout, hblock⟩ := h hinit hn hplace
  have hinput : input.take (uInt input.length) = input := by rw [uInt_of_lt hlt, List.take_length]
  have hfits : Fits mem input.length (stream input) :=
    ⟨hlt, hout, fun k hk => (hblock k hk).1, fun k hk => (hblock k hk).2⟩
  obtain ⟨fuel', r, hrun', hr⟩ := compress_run hd hinit hfirst hn checked
  rw [hinput] at hr
  rw [compressInpBuf, if_pos hinit] at hrun hrun'
  cases doWhile_unique hrun hrun'
  obtain ⟨hsafe, hgives⟩ := hr.gives hfits
  refine ⟨r, rfl, hgives, hsafe, ?_⟩
  intro data hdata mem' hmem'
  rw [gives_unique hgives hdata]
  exact uncompress_gives hi hlt hout hmem'

/-- **The exact condition for the round trip.** -/
theorem compress_roundTrips (hd : Deflates zlib.deflate stream owesIn)
    (hi : Inflates zlib.inflate stream owesOut starved) (checked : Bool) (mem : Allocator) (input : List UInt8) :
    RoundTrips checked mem zlib stream input ↔ RoundTripsWhen checked mem zlib stream input :=
  ⟨roundTripsWhen_of_roundTrips hd hi, roundTrips_of_roundTripsWhen hd hi⟩

/-- A `realloc` that leaves the block where it is. -/
theorem compress_roundTrips_sample :
    RoundTrips true ⟨fun _ => .inPlace, fun _ _ => 0⟩ smallZlib smallStream hello := by
  apply (compress_roundTrips small_deflates small_inflates _ _ _).2
  intro _ _ _
  exact ⟨by decide, by decide, by decide, fun k _ => ⟨fun _ => rfl, fun _ h => by cases h⟩⟩

/-- A `realloc` that moves the block each time. The stream of `hello` has 13
bytes and takes three rounds; the second and the third write into the block
that has been freed, and the result is the first five bytes and zeros. -/
theorem not_compress_roundTrips :
    ¬∀ (zlib : Zlib) (stream : List UInt8 → List UInt8)
      (owesIn : zlib.deflate.State → List UInt8 → List UInt8 → Prop)
      (owesOut : zlib.inflate.State → List UInt8 → List UInt8 → Prop)
      (starved : zlib.inflate.State → List UInt8 → Prop),
      Deflates zlib.deflate stream owesIn → Inflates zlib.inflate stream owesOut starved →
        ∀ (checked : Bool) (mem : Allocator), (∀ k, mem.place k ≠ .failed) →
          ∀ input : List UInt8, input ≠ [] → input.length < 2 ^ 64 → RoundTrips checked mem zlib stream input := by
  intro h
  let mem : Allocator := ⟨fun _ => .moved, fun _ _ => 0⟩
  have htrip := h smallZlib smallStream _ _ _ small_deflates small_inflates true mem
    (fun _ hfailed => by cases hfailed) hello (by decide) (by decide)
  let result : Result := ⟨some ⟨3, [120, 156, 203, 72, 205, 0, 0, 0, 0, 0, 0, 0, 0, 0, 0]⟩, 13,
    [⟨some ⟨1, [0, 0, 0, 0, 0]⟩, some ⟨1, 0⟩, [120, 156, 203, 72, 205]⟩,
      ⟨some ⟨2, [120, 156, 203, 72, 205, 0, 0, 0, 0, 0]⟩, some ⟨1, 5⟩, [201, 201, 7, 0, 6]⟩,
      ⟨some ⟨3, [120, 156, 203, 72, 205, 0, 0, 0, 0, 0, 0, 0, 0, 0, 0]⟩, some ⟨1, 10⟩, [44, 2, 21]⟩]⟩
  have hrun : compressInpBuf true mem smallZlib.deflate hello 3 = some (.returned .ok (some result)) := by decide
  obtain ⟨_, hr, ⟨b, hb, -, hbytes⟩, -⟩ := htrip 3 (some result) hrun
  cases hr
  cases hb
  exact absurd hbytes (by decide)

end Efio.Proofs.CoreUtils
