import Efio.Proofs.Evio.OpenFlags
import Efio.Proofs.Evio.Readiness

/-!
# `Efio.Proofs.Evio.AccessMode`: the access mode in the open flags

Four pieces of code look at the access mode. `ef_file_open` adds
`O_DIRECT` when no bit of `O_APPEND`, `O_WRONLY` and `O_RDWR` is set, the
two read checks take `O_DIRECT` out again and compare the rest with
`O_RDONLY`, `ef_write` and `ef_poll` test bits, and `ef_poll` compares the
stored flags with `O_RDONLY`.

The comparison with `O_RDONLY` looks at all bits of the word. So a file
opened with `O_RDONLY` and another flag is not readable
(`decodesMode_iff`), and `ef_poll`, which leaves `O_DIRECT` in, never
reports an `O_RDONLY` file as ready (`poll_agrees`).
-/

set_option autoImplicit false

namespace Efio.Proofs.Evio

open Efio.Lib
open Efio.Evio
open Efio.Evio.PipelineState
open Efio.Spec

variable {E : Env} {v : View} {nbyte : Nat} {s : PipelineState} {oflag : OFlag}

/-! ### The bits of the access mode -/

/-- A test of bits inside the mask. -/
theorem has_accessMode {bits : OFlag} (hbits : 3 &&& bits = bits) :
    (accessMode oflag).has bits ↔ oflag.has bits := by
  unfold accessMode OFlag.has
  rw [BitVec.and_assoc, hbits]

/-- The four access modes. -/
theorem accessMode_cases (oflag : OFlag) :
    accessMode oflag = O_RDONLY ∨ accessMode oflag = O_WRONLY ∨ accessMode oflag = O_RDWR ∨
      accessMode oflag = O_WRONLY ||| O_RDWR := by
  have hsplit : accessMode oflag = oflag &&& BitVec.twoPow 32 0 ||| oflag &&& BitVec.twoPow 32 1 := by
    rw [← BitVec.and_or_distrib_left]
    rfl
  rw [hsplit, BitVec.and_twoPow, BitVec.and_twoPow]
  cases oflag.getLsbD 0 <;> cases oflag.getLsbD 1 <;> decide

/-- `O_DIRECT` is one bit. -/
theorem and_direct (oflag : OFlag) : oflag &&& O_DIRECT = 0 ∨ oflag &&& O_DIRECT = O_DIRECT := by
  have hbit : O_DIRECT = BitVec.twoPow 32 14 := by decide
  rw [hbit, BitVec.and_twoPow]
  cases oflag.getLsbD 14
  · exact .inl rfl
  · exact .inr rfl

/-! ### What the read checks compare -/

/-- The flags without `O_DIRECT`, as the read checks take it out. -/
def withoutDirect (oflag : OFlag) : OFlag := if oflag.has O_DIRECT then oflag ^^^ O_DIRECT else oflag

theorem withoutDirect_has_rdwr : (withoutDirect oflag).has O_RDWR ↔ oflag.has O_RDWR := by
  unfold withoutDirect
  split
  · have hsame : (oflag ^^^ O_DIRECT) &&& O_RDWR = oflag &&& O_RDWR := by
      have hbit : O_RDWR = BitVec.twoPow 32 1 := by decide
      have hclear : O_DIRECT.getLsbD 1 = false := by decide
      rw [hbit, BitVec.and_twoPow, BitVec.and_twoPow, BitVec.getLsbD_xor, hclear, Bool.xor_false]
    unfold OFlag.has
    rw [hsame]
  · exact Iff.rfl

theorem withoutDirect_eq_rdonly : withoutDirect oflag = O_RDONLY ↔ oflag = O_RDONLY ∨ oflag = O_DIRECT := by
  unfold withoutDirect
  split
  · rename_i hdirect
    have hset : oflag ≠ O_RDONLY := by
      rintro rfl
      exact absurd hdirect (by decide)
    exact BitVec.xor_eq_zero_iff.trans ⟨.inr, fun h => h.resolve_left hset⟩
  · rename_i hdirect
    have hunset : oflag ≠ O_DIRECT := by
      rintro rfl
      exact hdirect (by decide)
    exact ⟨.inl, fun h => h.resolve_right hunset⟩

theorem readable_iff : Readable oflag ↔ oflag.has O_RDWR ∨ oflag = O_RDONLY ∨ oflag = O_DIRECT :=
  or_congr withoutDirect_has_rdwr withoutDirect_eq_rdonly

/-! ### What `ef_file_open` stores -/

theorem openOflag_has {bits : OFlag} (hbits : O_DIRECT &&& bits = 0#32) :
    (openOflag oflag).has bits ↔ oflag.has bits := by
  unfold openOflag
  split
  · exact Iff.rfl
  · unfold OFlag.has
    rw [BitVec.and_or_distrib_right, hbits, BitVec.or_zero]

/-- The stored flags are never `O_RDONLY`. -/
theorem openOflag_ne_rdonly : openOflag oflag ≠ O_RDONLY := by
  unfold openOflag
  split
  · rename_i hset
    rintro rfl
    exact absurd hset (by decide)
  · intro hzero
    exact absurd (BitVec.or_eq_zero_iff.mp hzero).2 (by decide)

theorem openOflag_eq_direct (haccepts : efOpenAccepts oflag) : openOflag oflag = O_DIRECT ↔ oflag = O_RDONLY := by
  unfold openOflag
  split
  · rename_i hset
    constructor
    · rintro rfl
      exact absurd hset (by decide)
    · rintro rfl
      exact absurd hset (by decide)
  · constructor
    · -- No other bit is set, and `ef_open` does not accept `O_DIRECT` alone.
      intro hsame
      have habsorbed : oflag &&& O_DIRECT = oflag := by
        rw [← hsame]
        ext i hi
        cases hbit : oflag[i] <;> simp [hbit]
      rcases and_direct oflag with hzero | hdirect
      · exact habsorbed.symm.trans hzero
      · obtain rfl : oflag = O_DIRECT := habsorbed.symm.trans hdirect
        exact absurd haccepts (by decide)
    · rintro rfl
      decide

/-- An accepted file is readable when it was opened with `O_RDWR`, or with
`O_RDONLY` and nothing else. -/
theorem readable_openOflag (haccepts : efOpenAccepts oflag) :
    Readable (openOflag oflag) ↔ oflag.has O_RDWR ∨ oflag = O_RDONLY := by
  rw [readable_iff, openOflag_has (by decide), openOflag_eq_direct haccepts]
  simp [openOflag_ne_rdonly]

/-! ### The access checks -/

theorem writeBegins_iff (h : OpenIdle s) {buf : List UInt8} (hbuf : buf ≠ []) :
    WriteBegins E v buf s ↔ s.file.oflag.has (O_RDWR ||| O_WRONLY) := by
  unfold WriteBegins
  simp only [callStep, h.slot, hbuf, not_true_eq_false, or_self, if_false, derefRecord_of_live h.live, ok_bind,
    h.status, ne_eq, false_or]
  by_cases hwrite : s.file.oflag.has (O_RDWR ||| O_WRONLY)
  · simp only [hwrite, not_true_eq_false, if_false, iff_true]
    rfl
  · simp only [hwrite, not_false_eq_true, if_true, iff_false]
    intro hbegins
    have hmoved : s.foreground = .writeSuspend buf :=
      congrArg PipelineState.foreground (Except.ok.inj (show Except.ok s = .ok _ from hbegins))
    cases h.idle.symm.trans hmoved

theorem chkReadConditions_iff (h : OpenIdle s) (hpos : 0 < nbyte) (hle : nbyte ≤ E.pageSize) (hend : ¬ AtEnd v s) :
    s.chkReadConditions E (s.see v) nbyte = .ok none ↔ Readable s.file.oflag := by
  by_cases hreadable : Readable s.file.oflag
  · simp [chkReadConditions_passed h hpos hle hend hreadable, hreadable]
  · simp [chkReadConditions_denied h hpos hle hend hreadable, hreadable]

theorem chkFdReadConditions_iff (h : OpenIdle s) (hend : ¬ AtEnd v s) :
    s.chkFdReadConditions (s.see v) = .ok (1, none) ↔ Readable s.file.oflag := by
  by_cases hreadable : Readable s.file.oflag
  · simp [chkFdReadConditions_passed h hend hreadable, hreadable]
  · simp [chkFdReadConditions_denied h hend hreadable, hreadable]

/-- In every state of a run the checks decode the access mode exactly when
it is `O_WRONLY` or `O_RDWR`, or the flags are `O_RDONLY` and nothing
else. -/
theorem decodesMode_iff (haccepts : efOpenAccepts oflag) {data : List UInt8} {collected : Bool}
    (hreach : Reach (PipelineState.step E) (fun _ _ => True) (opened (efFileOpen E oflag data) collected) s)
    (h : OpenIdle s) (hpos : 0 < nbyte) (hle : nbyte ≤ E.pageSize) (hend : ¬ AtEnd v s) :
    DecodesMode E v nbyte oflag s ↔
      accessMode oflag = O_WRONLY ∨ accessMode oflag = O_RDWR ∨ oflag = O_RDONLY := by
  have hread : Readable s.file.oflag ↔ oflag.has O_RDWR ∨ oflag = O_RDONLY := by
    rw [oflag_of_reach hreach, readable_openOflag haccepts]
  have hwrite : s.file.oflag.has (O_RDWR ||| O_WRONLY) ↔ oflag.has (O_RDWR ||| O_WRONLY) := by
    rw [oflag_of_reach hreach, openOflag_has (by decide)]
  have hbegins : ∀ buf, buf ≠ [] → (WriteBegins E v buf s ↔ oflag.has (O_RDWR ||| O_WRONLY)) :=
    fun buf hbuf => (writeBegins_iff h hbuf).trans hwrite
  have hdecodes : DecodesMode E v nbyte oflag s ↔
      (oflag.has O_RDWR ∨ oflag = O_RDONLY ↔ accessMode oflag = O_RDONLY ∨ accessMode oflag = O_RDWR) ∧
        (oflag.has (O_RDWR ||| O_WRONLY) ↔ accessMode oflag = O_WRONLY ∨ accessMode oflag = O_RDWR) := by
    unfold DecodesMode
    rw [chkReadConditions_iff h hpos hle hend, chkFdReadConditions_iff h hend, hread]
    constructor
    · rintro ⟨hchk, -, hbuf⟩
      exact ⟨hchk, (hbegins [0] (by simp)).symm.trans (hbuf [0] (by simp))⟩
    · rintro ⟨hchk, hmode⟩
      exact ⟨hchk, hchk, fun buf hbuf => (hbegins buf hbuf).trans hmode⟩
  -- What is left is about the four access modes.
  have hrdwr : (accessMode oflag).has O_RDWR ↔ oflag.has O_RDWR := has_accessMode (by decide)
  have hboth : (accessMode oflag).has (O_RDWR ||| O_WRONLY) ↔ oflag.has (O_RDWR ||| O_WRONLY) :=
    has_accessMode (by decide)
  rw [hdecodes, ← hrdwr, ← hboth]
  have hzero : oflag = O_RDONLY → accessMode oflag = O_RDONLY := by
    rintro rfl
    decide
  rcases accessMode_cases oflag with hmode | hmode | hmode | hmode <;> rw [hmode] at hzero ⊢
  · by_cases hrdonly : oflag = O_RDONLY <;> simp [hrdonly] <;> decide
  all_goals
    have hrdonly : oflag ≠ O_RDONLY := fun h => absurd (hzero h) (by decide)
    simp only [hrdonly, or_false]
    decide

/-- A file opened with `O_RDWR` and `O_CREAT`. -/
theorem decodesMode_iff_sample :
    DecodesMode sampleEnv noView 3 (O_RDWR ||| O_CREAT)
      (opened (efFileOpen sampleEnv (O_RDWR ||| O_CREAT) [1, 2, 3]) true) :=
  (decodesMode_iff (by decide) .init ⟨rfl, rfl, rfl, rfl, rfl⟩ (by decide) (by decide)
    (by unfold AtEnd; decide)).mpr (by decide)

/-- A file opened with `O_RDONLY` and `O_CREAT` cannot be read. -/
theorem not_decodesMode_of_creat :
    efOpenAccepts (O_RDONLY ||| O_CREAT) ∧ accessMode (O_RDONLY ||| O_CREAT) = O_RDONLY ∧
      ∃ s : PipelineState,
        Reach (PipelineState.step sampleEnv) (fun _ _ => True)
          (opened (efFileOpen sampleEnv (O_RDONLY ||| O_CREAT) [1, 2, 3]) true) s ∧
        OpenIdle s ∧ s.chkReadConditions sampleEnv (s.see noView) 3 = .ok (some (-1, some .ebadf)) ∧
        s.chkFdReadConditions (s.see noView) = .ok (-1, some .ebadf) ∧
        ¬ DecodesMode sampleEnv noView 3 (O_RDONLY ||| O_CREAT) s := by
  refine ⟨by decide, by decide, _, .init, ⟨rfl, rfl, rfl, rfl, rfl⟩, rfl, rfl, ?_⟩
  rintro ⟨hread, -⟩
  cases hread.mpr (.inl (by decide))

/-! ### `ef_poll` -/

/-- The tests of `ef_poll` on the stored flags. -/
theorem efPoll_eq (h : OpenIdle s) : ∃ ret, s.efPoll = .ok ret ∧
    (OFlag.has ret 2 ↔ (s.file.oflag = O_RDONLY ∨ s.file.oflag.has O_RDWR) ∧ s.file.buf.buffer.isSome = true) ∧
    (OFlag.has ret 1 ↔ s.file.oflag.has (O_WRONLY ||| O_RDWR)) := by
  simp only [efPoll, h.slot, not_true_eq_false, if_false, derefRecord_of_live h.live, ok_bind, h.status, ne_eq]
  by_cases hwrite : s.file.oflag.has (O_WRONLY ||| O_RDWR) <;>
    by_cases hready : (s.file.oflag = O_RDONLY ∨ s.file.oflag.has O_RDWR) ∧ s.file.buf.buffer.isSome = true
  · rw [if_pos hready, if_pos hwrite]
    exact ⟨_, rfl, iff_of_true (by decide) hready, iff_of_true (by decide) hwrite⟩
  · rw [if_neg hready, if_pos hwrite]
    exact ⟨_, rfl, iff_of_false (by decide) hready, iff_of_true (by decide) hwrite⟩
  · rw [if_pos hready, if_neg hwrite]
    exact ⟨_, rfl, iff_of_true (by decide) hready, iff_of_false (by decide) hwrite⟩
  · rw [if_neg hready, if_neg hwrite]
    exact ⟨_, rfl, iff_of_false (by decide) hready, iff_of_false (by decide) hwrite⟩

/-- `ef_poll` tells the truth exactly when a page buffer of an `O_RDWR` file
is data, and an `O_RDONLY` file has none. -/
theorem poll_agrees (haccepts : efOpenAccepts oflag) {data : List UInt8} {collected : Bool}
    (hreach : Reach (PipelineState.step E) (fun _ _ => True) (opened (efFileOpen E oflag data) collected) s)
    (h : OpenIdle s) (hpos : 0 < nbyte) (hle : nbyte ≤ E.pageSize) (hend : ¬ AtEnd v s) :
    PollTells E v nbyte s ↔ PollAgrees E v oflag s := by
  have hstored := oflag_of_reach hreach
  have hreadable : Readable s.file.oflag ↔ oflag.has O_RDWR ∨ oflag = O_RDONLY := by
    rw [hstored, readable_openOflag haccepts]
  have hdelivers : ReadDelivers E v nbyte s ↔ (oflag.has O_RDWR ∨ oflag = O_RDONLY) ∧ Deliverable E v s := by
    rw [← hreadable]
    by_cases hread : Readable s.file.oflag
    · simp [hread, (immediateRead h hpos hle hend hread).1]
    · simp [hread, (immediateRead_denied h hpos hle hend hread).1]
  obtain ⟨ret, hret, hbit, hwritable⟩ := efPoll_eq h
  have hready : OFlag.has ret 2 ↔ oflag.has O_RDWR ∧ s.file.buf.buffer.isSome = true := by
    rw [hbit, hstored, openOflag_has (by decide)]
    simp [openOflag_ne_rdonly]
  have htells : PollTells E v nbyte s ↔
      (oflag.has O_RDWR ∧ s.file.buf.buffer.isSome = true ↔
        (oflag.has O_RDWR ∨ oflag = O_RDONLY) ∧ Deliverable E v s) := by
    rw [← hready, ← hdelivers]
    constructor
    · rintro ⟨ret', hret', hread, -⟩
      obtain rfl := Except.ok.inj (hret.symm.trans hret')
      exact hread
    · intro hread
      refine ⟨ret, hret, hread, fun buf hbuf => ?_⟩
      rw [hwritable, writeBegins_iff h hbuf, BitVec.or_comm]
  rw [htells, PollAgrees]
  by_cases hrdwr : oflag.has O_RDWR
  · have hrdonly : oflag ≠ O_RDONLY := by
      rintro rfl
      exact absurd hrdwr (by decide)
    have hbuffer : Deliverable E v s → s.file.buf.buffer.isSome = true := fun hdeliver => hdeliver.1.2.buffer
    simp only [hrdwr, hrdonly, true_and, or_false, true_implies, false_implies, and_true]
    exact ⟨Iff.mp, fun hdata => ⟨hdata, hbuffer⟩⟩
  · simp only [hrdwr, false_and, false_or, false_implies, true_and, false_iff, not_and]

/-- An `O_RDWR` file that was just opened has no page buffer. -/
theorem poll_agrees_sample :
    PollTells sampleEnv noView 3 (opened (efFileOpen sampleEnv O_RDWR [1, 2, 3]) true) := by
  refine (poll_agrees (by decide) .init ⟨rfl, rfl, rfl, rfl, rfl⟩ (by decide) (by decide)
    (by unfold AtEnd; decide)).mpr ⟨?_, ?_⟩
  · intro _ hbuffer
    cases hbuffer
  · intro hrdonly
    exact absurd hrdonly (by decide)

/-- `ef_read` asks for a page. -/
def askForPage : List PipelineLabel := [.call (.efRead 1) noView] ++ foregroundSteps 8

/-- The page of an `O_RDONLY` file has been read, and `ef_poll` does not
report it. The page of an `O_RDWR` file has been allocated and is not read
yet, and `ef_poll` reports it as data. -/
theorem poll_misleads :
    (∃ s : PipelineState,
      Reach (PipelineState.step sampleEnv) (fun _ _ => True)
        (opened (efFileOpen sampleEnv O_RDONLY [1, 2, 3]) true) s ∧
      OpenIdle s ∧ ¬ AtEnd noView s ∧ s.efPoll = .ok 0 ∧ ReadDelivers sampleEnv noView 3 s ∧
      ¬ PollTells sampleEnv noView 3 s) ∧
    ∃ s : PipelineState,
      Reach (PipelineState.step sampleEnv) (fun _ _ => True)
        (opened (efFileOpen sampleEnv O_RDWR [1, 2, 3]) true) s ∧
      OpenIdle s ∧ ¬ AtEnd noView s ∧ s.efPoll = .ok 3 ∧ ¬ ReadDelivers sampleEnv noView 3 s ∧
      ¬ PollTells sampleEnv noView 3 s := by
  constructor
  · refine ⟨_, Reach.of_run .init (askForPage ++ List.replicate 3 (.readJob 0)) rfl, ⟨rfl, rfl, rfl, rfl, rfl⟩,
      by unfold AtEnd; decide, rfl, ?_⟩
    suffices hdelivers : ReadDelivers sampleEnv noView 3 _ by
      refine ⟨hdelivers, ?_⟩
      rintro ⟨ret, hret, hread, -⟩
      cases hret
      exact absurd (hread.mpr hdelivers) (by decide)
    refine (immediateRead ⟨rfl, rfl, rfl, rfl, rfl⟩ (by decide) (by decide) ?_ (.inr rfl)).1.mpr ?_
    · unfold AtEnd
      decide
    · exact ⟨⟨⟨rfl, by decide, by decide, by decide⟩, ⟨rfl, by decide, by decide, by decide⟩⟩, by decide⟩
  · refine ⟨_, Reach.of_run .init (askForPage ++ List.replicate 2 (.readJob 0)) rfl, ⟨rfl, rfl, rfl, rfl, rfl⟩,
      by unfold AtEnd; decide, rfl, ?_⟩
    suffices hnone : ¬ ReadDelivers sampleEnv noView 3 _ by
      refine ⟨hnone, ?_⟩
      rintro ⟨ret, hret, hread, -⟩
      cases hret
      exact hnone (hread.mp (by decide))
    intro hdelivers
    have hdeliverable := (immediateRead ⟨rfl, rfl, rfl, rfl, rfl⟩ (by decide) (by decide)
      (by unfold AtEnd; decide) (.inl (by decide))).1.mp hdelivers
    cases hdeliverable.1.1.1

end Efio.Proofs.Evio
