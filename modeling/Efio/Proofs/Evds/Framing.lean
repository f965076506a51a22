import Efio.Proofs.Evds.BufferedWriting
import Efio.Proofs.Evds.WriteBuffer
import Efio.Proofs.Spec.FlatWriter
import Mathlib.Data.List.TakeWhile

/-!
# `Efio.Proofs.Evds.Framing`: what arrives at the memory stream

`FrameInv.call` compares a call with that of the `FlatWriter`. The two
agree in everything but the pushed bytes, and in these if and only if the
call puts no other prefix into a put buffer that has been pushed
(`SamePrefix`). Without a limit no such buffer exists. So the claim about
all runs, `writes_framed`, follows from what is known of the
`FlatWriter`.
-/

set_option autoImplicit false

namespace Efio.Proofs.Evds

open Efio.Lib
open Efio.Evds
open Efio.Spec
open Efio.Proofs.Spec

variable {F : Frame} {s s' : BufferedStream} {n : BufferNode}

/-- A writer whose prefix and suffix are those of the frame. -/
structure FrameInv (F : Frame) (s : BufferedStream) : Prop extends WriteInv s where
  prefixEq : s.prefixLen = F.prefixLen
  suffixEq : s.suffixLen = F.suffixLen

theorem FrameInv.of_same (hs : FrameInv F s) (hinv : WriteInv s') (hsame : SameWriter s s') :
    FrameInv F s' where
  toWriteInv := hinv
  prefixEq := hsame.prefixLen.trans hs.prefixEq
  suffixEq := hsame.suffixLen.trans hs.suffixEq

theorem strlen_eq {bytes : List UInt8} (hbytes : 0 ∉ bytes) : strlen bytes = bytes.length := by
  have hall : bytes.takeWhile (· ≠ 0) = bytes := by
    rw [List.takeWhile_eq_self_iff]
    intro c hc
    exact decide_eq_true fun hzero => hbytes (hzero ▸ hc)
  exact congrArg List.length hall

theorem FrameInv.exact (hs : FrameInv F s) : Exact F.toFraming s := by
  obtain ⟨hbefore, hprefixNul⟩ := F.getPrefix_exact s.writes (pending s)
  obtain ⟨hsuffix, hsuffixNul⟩ := F.getSuffix_exact s.writes (pending s)
  refine ⟨.inr ?_, .inr ?_⟩
  · rw [strlen_eq hprefixNul, hbefore, hs.prefixEq]
  · rw [strlen_eq hsuffixNul, hsuffix, hs.suffixEq]

theorem FrameInv.take_getPrefix (hs : FrameInv F s) (k : Nat) (payload : List UInt8) :
    (F.getPrefix k payload).take s.prefixLen = F.getPrefix k payload :=
  List.take_of_length_le (Nat.le_of_eq ((F.getPrefix_exact k payload).1.trans hs.prefixEq.symm))

theorem FrameInv.frameOf_eq (hs : FrameInv F s) :
    frameOf F.toFraming s = F.bytes s.writes (pending s) := by
  have hsuffix : (F.getSuffix s.writes (pending s)).take s.suffixLen = F.getSuffix s.writes (pending s) :=
    List.take_of_length_le (Nat.le_of_eq ((F.getSuffix_exact _ _).1.trans hs.suffixEq.symm))
  rw [frameOf, hs.take_getPrefix, hsuffix, Frame.bytes]

/-- A node that has the put buffer has its address. -/
theorem FrameInv.keepsPrefix_iff (hs : FrameInv F s) (hne : pending s ≠ []) :
    KeepsPrefix F.toFraming s ↔ ∀ n ∈ s.memoryStream, blockOf n = some s.wBuffer.block →
      ((F.getPrefix s.writes (pending s)).take s.prefixLen).take n.sizeAtPosition =
        (nodeBytes s.heap n).take s.prefixLen := by
  rw [hs.take_getPrefix]
  constructor
  · intro hkeeps n hn hgiven
    exact hkeeps hne n hn (hs.given n hn hgiven).1
  · intro hall _ n hn hbuffer
    exact hall n hn (congrArg (Option.map Ptr.block) hbuffer)

/-- A put buffer of its own has nothing to keep. -/
theorem keepsPrefix_own {f : Framing} (hown : Own s) : KeepsPrefix f s := by
  intro _ n hn hbuffer
  exact absurd (mem_blocksOf hn (congrArg (Option.map Ptr.block) hbuffer)) hown

/-! ### A flush -/

theorem flush_left_zero {x : FlatWriter} (hne : x.pending ≠ []) (hfull : x.left = some 0) :
    x.flush F = ({ x with pending := [], writes := x.writes + 1 }, (x.pending.length : Int)) := by
  rw [FlatWriter.flush, if_neg hne, hfull]
  show (({ x with writes := x.writes + 1, left := some (0 - _), pending := [] } : FlatWriter), _) = _
  rw [Nat.zero_sub, ← hfull]

theorem flush_left_none {x : FlatWriter} (hne : x.pending ≠ []) (hnone : x.left = none) :
    x.flush F = ({ x with
      pushed := x.pushed ++ F.bytes x.writes x.pending, pending := [], writes := x.writes + 1 },
      (x.pending.length : Int)) := by
  rw [FlatWriter.flush, if_neg hne, hnone]
  rfl

theorem flush_left_succ {x : FlatWriter} {k : Nat} (hne : x.pending ≠ []) (hleft : x.left = some (k + 1)) :
    x.flush F =
      let bytes := F.bytes x.writes x.pending
      let y := { x with
        pushed := x.pushed ++ bytes.take (k + 1), writes := x.writes + 1, left := some (k + 1 - bytes.length) }
      if min (k + 1) bytes.length ≥ x.pending.length then ({ y with pending := [] }, (x.pending.length : Int))
      else (y, -1) := by
  rw [FlatWriter.flush, if_neg hne, hleft]
  rfl

theorem flat_with {payload : List UInt8} {writes : Nat} {left : Option Nat} (P : List UInt8)
    (hpending : pending s = payload) (hwrites : s.writes = writes) (hleft : (flat s).left = left) :
    ({ flat s with pushed := P } : FlatWriter) = ⟨P, payload, writes, left⟩ := by
  rw [← hpending, ← hwrites, ← hleft]
  rfl

theorem left_none (hnone : s.maxLen = -1) : (flat s).left = none := if_pos hnone

theorem left_some (hsome : s.maxLen ≠ -1) : (flat s).left = some (s.maxLen - s.cumLen).toNat := if_neg hsome

/-- Below the limit there is some room. -/
theorem FrameInv.left_below (hs : FrameInv F s) (hbelow : s.belowLimit = true) (hnone : s.maxLen ≠ -1) :
    ∃ k, (flat s).left = some (k + 1) ∧ ∀ size, pushLen s size = min size (k + 1) := by
  have hlt := ((belowLimit_iff hs.limit).mp hbelow).resolve_left hnone
  have hk : (s.maxLen - s.cumLen).toNat = ((s.maxLen - s.cumLen).toNat - 1) + 1 := by omega
  refine ⟨(s.maxLen - s.cumLen).toNat - 1, ?_, fun size => ?_⟩
  · rw [left_some hnone, ← hk]
  · rw [pushLen, if_neg hnone, ← hk]

/-- What a flush leaves of the room within the limit. -/
theorem left_pushed {len : Nat} (hs : WriteInv s) (hmax : s'.maxLen = s.maxLen)
    (hcum : s'.cumLen = (s.cumLen + len) % 2 ^ 64)
    (hlen : s.maxLen ≠ -1 → len ≤ (s.maxLen - s.cumLen).toNat) :
    (flat s').left = (flat s).left.map (· - len) := by
  by_cases hnone : s.maxLen = -1
  · rw [left_none hnone, left_none (hmax.trans hnone)]
    rfl
  · obtain ⟨hpos, hlt, hle⟩ := hs.limit.resolve_left hnone
    have hlen := hlen hnone
    have hmod : (s.cumLen + len) % 2 ^ 64 = s.cumLen + len := Nat.mod_eq_of_lt (by omega)
    rw [left_some hnone, left_some (by rwa [hmax]), hmax, hcum, hmod, Option.map_some]
    congr 1
    omega

theorem take_min (xs : List UInt8) (k : Nat) : xs.take (min xs.length k) = xs.take k := by
  rw [Nat.min_comm, ← List.take_take, List.take_length]

/-- The stream `s'` and the result `r` are what the `FlatWriter` comes to,
apart from the pushed bytes, and with these if and only if `kept`. -/
structure Agrees (s' : BufferedStream) (r : Int) (y : FlatWriter × Int) (kept : Prop) : Prop where
  same : y = ({ flat s' with pushed := y.1.pushed }, r)
  pushed : kept ↔ content s'.heap s'.memoryStream = y.1.pushed

theorem FrameInv.length_bytes (hs : FrameInv F s) :
    (F.bytes s.writes (pending s)).length = (pending s).length + s.prefixLen + s.suffixLen := by
  rw [← hs.frameOf_eq, length_frameOf hs.exact]

/-- At the limit. -/
theorem FrameInv.agrees_full (hs : FrameInv F s) (hne : pending s ≠ []) (hfull : s.belowLimit = false) :
    ∃ s' r, s.flushBuffer F.toFraming = .ok (s', r) ∧ FrameInv F s' ∧ s'.pptr.off < s'.epptr.off ∧
      Agrees s' r ((flat s).flush F) (KeepsPrefix F.toFraming s) := by
  obtain ⟨s', h', hflush, hflushed, hcum, hfilled, hcontent⟩ := hs.flush_full hs.exact hne hfull
  have hlimit : ¬(s.maxLen = -1 ∨ (s.cumLen : Int) < s.maxLen) := by
    rw [← belowLimit_iff hs.limit, hfull]
    exact Bool.false_ne_true
  obtain ⟨hsome, hnot⟩ := not_or.mp hlimit
  have hzero : (s.maxLen - s.cumLen).toNat = 0 := by omega
  have hleft : (flat s).left = some 0 := by rw [left_some hsome, hzero]
  have hleft' : (flat s').left = some 0 := by
    have hmax := hflushed.same.maxLen
    rw [left_some (by rwa [hmax]), hmax, hcum, hzero]
  refine ⟨s', _, hflush, hs.of_same hflushed.inv hflushed.same, hflushed.room, ?_⟩
  rw [flush_left_zero (x := flat s) hne hleft]
  refine ⟨?_, ?_⟩
  · rw [flat_with _ hflushed.pending hflushed.writes (hleft'.trans hleft.symm)]
    rfl
  · rw [hcontent]
    exact (hs.keepsPrefix_iff hne).trans (hfilled.content_iff hs.toWriteInv hs.exact).symm

/-- Below the limit, with room for the payload. -/
theorem FrameInv.agrees_pushed (hs : FrameInv F s) (hne : pending s ≠ []) (hbelow : s.belowLimit = true)
    (hroom : (pending s).length ≤ pushLen s (F.bytes s.writes (pending s)).length) :
    ∃ s' r, s.flushBuffer F.toFraming = .ok (s', r) ∧ FrameInv F s' ∧ s'.pptr.off < s'.epptr.off ∧
      Agrees s' r ((flat s).flush F) (KeepsPrefix F.toFraming s) := by
  have hkeeps : KeepsPrefix F.toFraming s := keepsPrefix_own (hs.own_of_below hbelow)
  rw [← hs.frameOf_eq] at hroom
  obtain ⟨s', hflush, hflushed, hcum, hcontent⟩ := hs.flush_pushed hs.exact hne hbelow hroom
  rw [hs.frameOf_eq] at hroom hcum hcontent
  refine ⟨s', _, hflush, hs.of_same hflushed.inv hflushed.same, hflushed.room, ?_⟩
  by_cases hnone : s.maxLen = -1
  · rw [pushLen, if_pos hnone, List.take_length] at hcontent
    rw [flush_left_none (x := flat s) hne (left_none hnone)]
    refine ⟨?_, fun _ => hcontent, fun _ => hkeeps⟩
    rw [flat_with _ hflushed.pending hflushed.writes (left_none (hflushed.same.maxLen.trans hnone)),
      ← left_none hnone]
    rfl
  · obtain ⟨k, hleft, hlen⟩ := hs.left_below hbelow hnone
    rw [hlen] at hroom hcum hcontent
    have hfits : min (k + 1) (F.bytes (flat s).writes (flat s).pending).length ≥ (flat s).pending.length := by
      show (pending s).length ≤ min (k + 1) (F.bytes s.writes (pending s)).length
      omega
    have hleft' := left_pushed hs.toWriteInv hflushed.same.maxLen hcum fun _ => by
      have hle := left_some hnone
      rw [hleft] at hle
      have hle := Option.some.inj hle
      omega
    have hsub : k + 1 - min (F.bytes s.writes (pending s)).length (k + 1) =
        k + 1 - (F.bytes s.writes (pending s)).length := by omega
    rw [hleft, Option.map_some, hsub] at hleft'
    rw [take_min] at hcontent
    rw [flush_left_succ (x := flat s) hne hleft]
    dsimp only
    rw [if_pos hfits]
    refine ⟨?_, fun _ => hcontent, fun _ => hkeeps⟩
    rw [flat_with _ hflushed.pending hflushed.writes hleft']
    rfl

/-- Below the limit, with room for less than the payload. -/
theorem FrameInv.agrees_truncated (hs : FrameInv F s) (hne : pending s ≠ []) (hbelow : s.belowLimit = true)
    (hshort : pushLen s (F.bytes s.writes (pending s)).length < (pending s).length) :
    ∃ s', s.flushBuffer F.toFraming = .ok (s', -1) ∧ FrameInv F s' ∧
      Agrees s' (-1) ((flat s).flush F) (KeepsPrefix F.toFraming s) := by
  have hkeeps : KeepsPrefix F.toFraming s := keepsPrefix_own (hs.own_of_below hbelow)
  have hlength := hs.length_bytes
  rw [← hs.frameOf_eq] at hshort
  obtain ⟨s', hflush, hinv, hsame, -, hpending, hwrites, hcum, hcontent⟩ :=
    hs.flush_truncated hs.exact hne hbelow hshort
  rw [hs.frameOf_eq] at hshort hcontent
  have hnone : s.maxLen ≠ -1 := by
    intro hnone
    rw [pushLen, if_pos hnone] at hshort
    omega
  obtain ⟨k, hleft, hlen⟩ := hs.left_below hbelow hnone
  rw [hlen] at hshort hcontent
  have hnot : ¬min (k + 1) (F.bytes (flat s).writes (flat s).pending).length ≥ (flat s).pending.length := by
    show ¬(pending s).length ≤ min (k + 1) (F.bytes s.writes (pending s)).length
    omega
  have hzero : k + 1 - (F.bytes s.writes (pending s)).length = 0 := by omega
  have hleft' : (flat s').left = some (k + 1 - (F.bytes s.writes (pending s)).length) := by
    have hmax := hsame.maxLen
    rw [left_some (by rwa [hmax]), hmax, hzero]
    congr 1
    omega
  rw [take_min] at hcontent
  refine ⟨s', hflush, hs.of_same hinv hsame, ?_⟩
  rw [flush_left_succ (x := flat s) hne hleft]
  dsimp only
  rw [if_neg hnot]
  refine ⟨?_, fun _ => hcontent, fun _ => hkeeps⟩
  rw [flat_with _ hpending hwrites hleft']
  rfl

/-- A flush does what the flush of the `FlatWriter` does, apart from the
pushed bytes, and with these if and only if the prefix is kept. -/
theorem FrameInv.flush (hs : FrameInv F s) :
    ∃ s' r, s.flushBuffer F.toFraming = .ok (s', r) ∧ FrameInv F s' ∧
      (r ≠ -1 → s'.pptr.off < s'.epptr.off) ∧
      Agrees s' r ((flat s).flush F) (KeepsPrefix F.toFraming s) := by
  by_cases hnil : pending s = []
  · refine ⟨s, -1, hs.flush_nil hnil, hs, fun h => absurd rfl h, ?_⟩
    rw [flush_nil (x := flat s) hnil]
    exact ⟨rfl, fun _ => rfl, fun _ hne => absurd hnil hne⟩
  · cases hbelow : s.belowLimit with
    | false =>
      obtain ⟨s', r, hflush, hinv, hroom, hagrees⟩ := hs.agrees_full hnil hbelow
      exact ⟨s', r, hflush, hinv, fun _ => hroom, hagrees⟩
    | true =>
      by_cases hfits : (pending s).length ≤ pushLen s (F.bytes s.writes (pending s)).length
      · obtain ⟨s', r, hflush, hinv, hroom, hagrees⟩ := hs.agrees_pushed hnil hbelow hfits
        exact ⟨s', r, hflush, hinv, fun _ => hroom, hagrees⟩
      · obtain ⟨s', hflush, hinv, hagrees⟩ := hs.agrees_truncated hnil hbelow (Nat.lt_of_not_le hfits)
        exact ⟨s', -1, hflush, hinv, fun h => absurd rfl h, hagrees⟩

/-! ### A call -/

theorem FrameInv.room_iff (hs : FrameInv F s) :
    s.pptr.off < s.epptr.off ↔ (flat s).pending.length < F.room := by
  rw [hs.toWriteInv.room_iff, hs.prefixEq, hs.suffixEq, Frame.room]
  show F.prefixLen + (pending s).length < _ ↔ (pending s).length < _
  omega

theorem FrameInv.put (hs : FrameInv F s) (hroom : s.pptr.off < s.epptr.off) (c : UInt8) :
    ∃ s', s.putChar c = .ok s' ∧ FrameInv F s' ∧
      flat s' = { flat s with pending := (flat s).pending ++ [c] } := by
  obtain ⟨h', hput, hinv, hpending, hcontent⟩ := hs.putChar hroom c
  refine ⟨_, hput, ⟨hinv, hs.prefixEq, hs.suffixEq⟩, ?_⟩
  unfold flat
  rw [hpending]
  dsimp only
  rw [hcontent]

/-- A pair that differs from what the stream stands for in nothing. -/
theorem agrees_of_eq {r : Int} {y : FlatWriter × Int} {kept : Prop} (heq : y = (flat s, r)) (hkept : kept) :
    Agrees s r y kept := by
  rw [heq]
  exact ⟨rfl, fun _ => rfl, fun _ => hkept⟩

theorem FrameInv.overflow (hs : FrameInv F s) (c : Int) :
    ∃ s' r, s.overflow F.toFraming c = .ok (s', r) ∧ FrameInv F s' ∧
      Agrees s' r ((flat s).overflow F c) (KeepsPrefix F.toFraming s) := by
  obtain ⟨s₁, r₁, hflush, hinv, hroom, ⟨hsame, hpushed⟩⟩ := hs.flush
  obtain ⟨y, hy⟩ : ∃ y, y = (flat s).flush F := ⟨_, rfl⟩
  rw [← hy] at hsame hpushed
  have hoverflow := overflow_of_flush hs.modeOut hflush c
  have hflat : (flat s).overflow F c =
      if y.2 = -1 then (y.1, EOF)
      else if c ≠ EOF then ({ y.1 with pending := y.1.pending ++ [UInt8.ofInt c] }, c)
      else (y.1, c) := by
    rw [hy]
    rfl
  rw [hflat, hsame]
  dsimp only
  by_cases hfailed : r₁ = -1
  · rw [if_pos hfailed] at hoverflow ⊢
    exact ⟨s₁, EOF, hoverflow, hinv, rfl, hpushed⟩
  · rw [if_neg hfailed] at hoverflow ⊢
    by_cases hc : c ≠ EOF
    · obtain ⟨s₂, hput, hinv₂, hflat₂⟩ := hinv.put (hroom hfailed) (UInt8.ofInt c)
      rw [if_pos hc, hput] at hoverflow
      rw [if_pos hc]
      have hcontent : content s₂.heap s₂.memoryStream = content s₁.heap s₁.memoryStream :=
        congrArg FlatWriter.pushed hflat₂
      refine ⟨s₂, c, hoverflow, hinv₂, ?_, ?_⟩
      · rw [hflat₂]
      · rw [hcontent]
        exact hpushed
    · rw [if_neg hc] at hoverflow ⊢
      exact ⟨s₁, c, hoverflow, hinv, rfl, hpushed⟩

/-- A call does what the call of the `FlatWriter` does, apart from the
pushed bytes. -/
theorem FrameInv.call (hs : FrameInv F s) (op : WriteCall) :
    ∃ s' r, s.writeCall F.toFraming op = .ok (s', r) ∧ FrameInv F s' ∧
      Agrees s' r ((flat s).call F op) (SamePrefix F.toFraming s op) := by
  cases op with
  | sputc c =>
    by_cases hroom : s.pptr.off < s.epptr.off
    · obtain ⟨s', hput, hinv, hflat⟩ := hs.put hroom c
      have hcall : (flat s).call F (.sputc c) = ({ flat s with pending := (flat s).pending ++ [c] },
          toIntType c) := if_pos (hs.room_iff.mp hroom)
      refine ⟨s', toIntType c, sputc_of_room hroom hput, hinv, agrees_of_eq (hcall.trans ?_) ?_⟩
      · rw [hflat]
      · exact fun hflushes => absurd hroom (Nat.not_lt_of_le hflushes)
    · obtain ⟨s', r, hoverflow, hinv, ⟨hsame, hpushed⟩⟩ := hs.overflow (toIntType c)
      have hcall : (flat s).call F (.sputc c) = (flat s).overflow F (toIntType c) :=
        if_neg fun h => hroom (hs.room_iff.mpr h)
      rw [hcall]
      refine ⟨s', r, (if_neg hroom).trans hoverflow, hinv, hsame, ?_⟩
      exact ⟨fun h => hpushed.mp (h (Nat.le_of_not_lt hroom)), fun h _ => hpushed.mpr h⟩
  | overflow c =>
    obtain ⟨s', r, hoverflow, hinv, ⟨hsame, hpushed⟩⟩ := hs.overflow c
    exact ⟨s', r, hoverflow, hinv, hsame, fun h => hpushed.mp (h trivial), fun h _ => hpushed.mpr h⟩
  | sync =>
    by_cases hnil : pending s = []
    · have hempty : ¬s.pptr.off > s.pbase.off := fun hsome => hs.some_iff.mp hsome hnil
      have hcall : (flat s).call F .sync = (flat s, 0) := if_pos hnil
      exact ⟨s, 0, if_neg hempty, hs, agrees_of_eq hcall fun _ hne => absurd hnil hne⟩
    · obtain ⟨s', r, hflush, hinv, -, ⟨hsame, hpushed⟩⟩ := hs.flush
      have hcall : (flat s).call F .sync = (((flat s).flush F).1, if ((flat s).flush F).2 = -1 then -1 else 0) :=
        if_neg hnil
      refine ⟨s', _, sync_of_flush (hs.some_iff.mpr hnil) hflush, hinv, ?_, ?_⟩
      · rw [hcall, hsame]
      · rw [hcall]
        exact ⟨fun h => hpushed.mp (h trivial), fun h _ => hpushed.mpr h⟩

/-! ### All calls -/

theorem Agrees.eq {r : Int} {y : FlatWriter × Int} {kept : Prop} (h : Agrees s r y kept) (hkept : kept) :
    y = (flat s, r) := by
  rw [h.same, ← h.pushed.mp hkept]
  rfl

/-- Without a limit the put buffer is always the stream's own. -/
theorem FrameInv.samePrefix (hs : FrameInv F s) (hnone : (flat s).left = none) (op : WriteCall) :
    SamePrefix F.toFraming s op := by
  have hmax : s.maxLen = -1 := by
    by_contra hsome
    rw [left_some hsome] at hnone
    cases hnone
  exact fun _ => keepsPrefix_own (hs.own_of_below ((belowLimit_iff hs.limit).mpr (.inl hmax)))

/-- Without a limit the calls do what the `FlatWriter` does. -/
theorem FrameInv.run_unlimited (hs : FrameInv F s) (hnone : (flat s).left = none) (ops : List WriteCall) :
    ∃ s' rs, runCalls (BufferedStream.writeCall F.toFraming) ops s = .ok (s', rs) ∧
      specCalls (FlatWriter.call F) ops (flat s) = (flat s', rs) := by
  have hgood : ∀ s op, (FrameInv F s ∧ (flat s).left = none) → True → True →
      ∃ s' r, s.writeCall F.toFraming op = .ok (s', r) ∧ (FrameInv F s' ∧ (flat s').left = none) ∧
        (flat s).call F op = (flat s', r) := by
    intro s op hs _ _
    obtain ⟨s', r, hcall, hinv, hagrees⟩ := hs.1.call op
    have heq := hagrees.eq (hs.1.samePrefix hs.2 op)
    have hleft := (call_extends (f := F) hs.2 op).1
    rw [heq] at hleft
    exact ⟨s', r, hcall, ⟨hinv, hleft⟩, heq⟩
  have htrue : Along (BufferedStream.writeCall F.toFraming) (fun _ _ => True) ops s :=
    along_of_forall fun _ _ => trivial
  exact (calls_refine hgood (fun _ _ _ _ _ _ _ _ => trivial) ⟨hs, hnone⟩ htrue).mpr htrue

/-- The pushed bytes are those of the `FlatWriter` in all states if and
only if no call changes a prefix that has been pushed. -/
theorem FrameInv.run_limited (hs : FrameInv F s) (ops : List WriteCall) :
    (∀ pre, pre <+: ops → ∃ s' rs, runCalls (BufferedStream.writeCall F.toFraming) pre s = .ok (s', rs) ∧
        content s'.heap s'.memoryStream = (specCalls (FlatWriter.call F) pre (flat s)).1.pushed) ↔
      Along (BufferedStream.writeCall F.toFraming) (SamePrefix F.toFraming) ops s := by
  refine along_iff_related (R := fun s x => FrameInv F s ∧ flat s = x)
    (Q := fun s x => content s.heap s.memoryStream = x.pushed) ?_ ?_ ?_ ⟨hs, rfl⟩
  · rintro s x op ⟨hs, rfl⟩ hkept
    obtain ⟨s', r, hcall, hinv, hagrees⟩ := hs.call op
    exact ⟨s', r, hcall, hinv, (congrArg Prod.fst (hagrees.eq hkept)).symm⟩
  · rintro s x ⟨-, rfl⟩
    rfl
  · rintro s x op s' r ⟨hs, rfl⟩ hcall hpushed
    obtain ⟨s₁, r₁, hcall₁, -, hagrees⟩ := hs.call op
    cases hcall.symm.trans hcall₁
    exact hagrees.pushed.mpr hpushed

theorem frameInv_writer (F : Frame) (chunks : List (List UInt8)) (bufsize : BufSize) (limit : Limit)
    (modeIn : Bool) :
    ∃ s₀, BufferedStream.writer chunks bufsize limit F.prefixLen F.suffixLen modeIn = .ok s₀ ∧
      FrameInv F s₀ ∧
      flat s₀ = ⟨chunks.flatten, [], 0, if limit.val = -1 then none else some limit.val.toNat⟩ := by
  obtain ⟨s₀, hstart, hinv, -, hnil, hwrites, hmax, hcum, hbefore, hsuffix, hcontent⟩ :=
    writer_eq chunks bufsize limit F.prefixLen_le F.suffixLen_le modeIn
  refine ⟨s₀, hstart, ⟨hinv, hbefore, hsuffix⟩, ?_⟩
  unfold flat
  rw [hnil, hwrites, hmax, hcum, hcontent, Int.natCast_zero, Int.sub_zero]

/-- **Written characters arrive framed, once and in order**: without a
limit always, and a limit cuts off what the same calls push without one if
and only if no flush puts another prefix into a put buffer that has been
pushed. -/
theorem writes_framed (F : Frame) (chunks : List (List UInt8)) (bufsize : BufSize) (limit : Limit)
    (modeIn : Bool) (calls : List WriteCall) :
    ∃ s₀ u₀, BufferedStream.writer chunks bufsize limit F.prefixLen F.suffixLen modeIn = .ok s₀ ∧
      BufferedStream.writer chunks bufsize Spec.Limit.unlimited F.prefixLen F.suffixLen modeIn = .ok u₀ ∧
      (∃ u us payloads, runCalls (BufferedStream.writeCall F.toFraming) calls u₀ = .ok (u, us) ∧
        content u.heap u.memoryStream = chunks.flatten ++ F.frames payloads ∧
        accepted calls us = payloads.flatten ++ pending u ∧ u.writes = payloads.length ∧
        [] ∉ payloads) ∧
      ((∀ pre, pre <+: calls → ∃ s rs u us pushed,
          runCalls (BufferedStream.writeCall F.toFraming) pre s₀ = .ok (s, rs) ∧
          runCalls (BufferedStream.writeCall F.toFraming) pre u₀ = .ok (u, us) ∧
          content u.heap u.memoryStream = chunks.flatten ++ pushed ∧
          content s.heap s.memoryStream = chunks.flatten ++ Spec.Limit.take limit pushed) ↔
        Along (BufferedStream.writeCall F.toFraming) (SamePrefix F.toFraming) calls s₀) := by
  obtain ⟨s₀, hs₀, hs, hflat⟩ := frameInv_writer F chunks bufsize limit modeIn
  obtain ⟨u₀, hu₀, hu, hflatU⟩ := frameInv_writer F chunks bufsize Spec.Limit.unlimited modeIn
  have hnone : (flat u₀).left = none := by
    rw [hflatU]
    rfl
  have hframed : Framed F chunks.flatten (flat u₀) [] [] := by
    rw [hflatU]
    exact ⟨rfl, (List.append_nil _).symm, rfl, List.not_mem_nil, rfl⟩
  -- The frames that the unlimited stream has pushed, and their cut.
  have hunlimited : ∀ ops, ∃ u us payloads,
      runCalls (BufferedStream.writeCall F.toFraming) ops u₀ = .ok (u, us) ∧
      Framed F chunks.flatten (flat u) payloads (accepted ops us) ∧
      specCalls (FlatWriter.call F) ops (flat u₀) = (flat u, us) := by
    intro ops
    obtain ⟨u, us, hrun, hspec⟩ := hu.run_unlimited hnone ops
    obtain ⟨payloads, hpayloads⟩ := hframed.run ops
    rw [hspec] at hpayloads
    exact ⟨u, us, payloads, hrun, hpayloads, hspec⟩
  have hcut : ∀ ops payloads chars, Framed F chunks.flatten
      (specCalls (FlatWriter.call F) ops (flat u₀)).1 payloads chars →
      (specCalls (FlatWriter.call F) ops (flat s₀)).1.pushed =
        chunks.flatten ++ Spec.Limit.take limit (F.frames payloads) := by
    intro ops payloads chars hpayloads
    by_cases hlimit : limit.val = -1
    · have hsame : flat s₀ = flat u₀ := by
        rw [hflat, hflatU, if_pos hlimit]
        rfl
      rw [hsame, hpayloads.pushed, Spec.Limit.take, if_pos hlimit]
    · have hstart : Cut (chunks.flatten.length + limit.val.toNat) (flat s₀) (flat u₀) := by
        rw [hflat, hflatU, if_neg hlimit]
        exact Cut.below (y := ⟨chunks.flatten, [], 0, none⟩) rfl rfl
      rw [(hstart.run ops).pushed, hpayloads.pushed, Spec.Limit.take, if_neg hlimit,
        List.take_length_add_append]
  refine ⟨s₀, u₀, hs₀, hu₀, ?_, ?_⟩
  · obtain ⟨u, us, payloads, hrun, hpayloads, -⟩ := hunlimited calls
    exact ⟨u, us, payloads, hrun, hpayloads.pushed, hpayloads.chars, hpayloads.writes, hpayloads.nonempty⟩
  · refine Iff.trans ?_ (hs.run_limited calls)
    refine forall_congr' fun pre => imp_congr_right fun _ => ?_
    obtain ⟨u, us, payloads, hrun, hpayloads, hspec⟩ := hunlimited pre
    have hpushed := hcut pre payloads (accepted pre us) (by rwa [hspec])
    have hcontent : content u.heap u.memoryStream = chunks.flatten ++ F.frames payloads := hpayloads.pushed
    constructor
    · rintro ⟨s, rs, u', us', pushed, hrunS, hrunU, hcontentU, hcontentS⟩
      cases hrun.symm.trans hrunU
      have hframes := List.append_cancel_left (hcontent.symm.trans hcontentU)
      refine ⟨s, rs, hrunS, ?_⟩
      rw [hcontentS, hpushed, hframes]
    · rintro ⟨s, rs, hrunS, hcontentS⟩
      exact ⟨s, rs, u, us, F.frames payloads, hrunS, hrun, hcontent, hcontentS.trans hpushed⟩

/-- A prefix that tells payloads of three characters from others. -/
def lengthPrefix : Frame where
  getPrefix _ payload := [if payload.length = 3 then 51 else 50]
  getSuffix _ _ := []
  prefixLen := 1
  suffixLen := 0
  prefixLen_le := by decide
  suffixLen_le := by decide
  getPrefix_exact := by
    intro k payload
    refine ⟨rfl, ?_⟩
    split <;> decide
  getSuffix_exact := fun _ _ => ⟨rfl, List.not_mem_nil⟩

/-- The bytes of the memory stream after the calls. -/
def bytesAfter (F : Frame) (limit : Limit) (calls : List WriteCall) : Option (List UInt8) :=
  Except.toOption do
    let s ← BufferedStream.writer [] sixteenBytes limit F.prefixLen F.suffixLen true
    let (s, _) ← runCalls (BufferedStream.writeCall F.toFraming) calls s
    return content s.heap s.memoryStream

/-- The limit is one byte, and the flush of two characters pushes the
prefix `2`. The put buffer stays, and the flush of three characters makes
a `3` of it. -/
theorem not_writes_framed : ¬∀ (F : Frame) (limit : Limit) (calls : List WriteCall), ∃ pushed,
    bytesAfter F Spec.Limit.unlimited calls = some pushed ∧
      bytesAfter F limit calls = some (Spec.Limit.take limit pushed) := by
  intro h
  obtain ⟨pushed, hunlimited, hlimited⟩ := h lengthPrefix oneByte
    [.sputc 97, .sputc 98, .sync, .sputc 99, .sync]
  have hframes : bytesAfter lengthPrefix Spec.Limit.unlimited
      [.sputc 97, .sputc 98, .sync, .sputc 99, .sync] = some [50, 97, 98, 50, 99] := by decide +kernel
  have hcut : bytesAfter lengthPrefix oneByte
      [.sputc 97, .sputc 98, .sync, .sputc 99, .sync] = some [51] := by decide +kernel
  cases hframes.symm.trans hunlimited
  cases hcut.symm.trans hlimited

end Efio.Proofs.Evds
