import Efio.Proofs.Evio.EventOwner
import Efio.Proofs.Evio.ImmediateRead

/-!
# `Efio.Proofs.Evio.Readiness`: whether the query tells what `ef_read` does

`immediateRead` says in terms of the state what an immediate `ef_read`
returns, and `readyForRead_agrees` compares `ef_file_ready_for_read` with
it.

The query asks the action only. A page that is left over from an earlier
read has no action, so the query fails with `EINVAL` where `ef_read`
delivers (`readyForRead_misleads`).
-/

set_option autoImplicit false

namespace Efio.Proofs.Evio

open Efio.Lib
open Efio.Evio
open Efio.Evio.PipelineState
open Efio.Spec

variable {E : Env} {v : View} {nbyte : Nat} {s : PipelineState}

/-! ### What an immediate `ef_read` returns -/

/-- The action is a read that has to be waited for. -/
def Awaits (s : PipelineState) : Prop :=
  ∃ id a, s.action = .live id a ∧
    (a.cmd = .operReadahead ∧ a.actionStatus ≠ .actionComplete ∨
      a.cmd = .operRead ∧ (a.actionStatus ≠ .actionComplete ∨ a.returnValue = -100 ∨
        a.returnValue = -1 ∧ a.err = some .eagain))

theorem inBuffer_iff : InBuffer E v s ↔ s.file.buf.buffer.isSome = true ∧ 0 ≤ Spec.pageOffset E v s ∧
    Spec.pageOffset E v s < E.pageSize ∧ s.file.fileOffset ≤ s.file.currFileSizeOnDisk :=
  ⟨fun h => ⟨h.buffer, h.low, h.high, h.size⟩, fun h => ⟨h.1, h.2.1, h.2.2.1, h.2.2.2⟩⟩

/-- A call that does not get past the action. -/
theorem refuses_outcome {o : Option Outcome} (h : Refuses s.action o) (hnot : ¬ GetsPast s) :
    (∀ x, o = some x → ¬ 0 < x.ret) ∧ ((∃ x, o = some x ∧ x.ret = 0) ↔ CollectsEnd s) ∧
      ((∃ x, o = some x ∧ x.ret = -1 ∧ x.err = some .eagain ∧ x.fires = false) ↔ Awaits s) := by
  cases hact : s.action with
  | null =>
    rw [hact] at h
    exact h.elim
  | freed =>
    rw [hact] at h
    obtain rfl : o = none := h
    simp [CollectsEnd, Awaits, hact]
  | live id a =>
    rw [hact] at h
    simp only [GetsPast, hact] at hnot
    simp only [Refuses] at h
    cases hcmd : a.cmd <;> simp only [hcmd] at h hnot
    case operWrite =>
      rcases h with rfl | rfl <;> simp [CollectsEnd, Awaits, hact, hcmd]
    case operRead =>
      subst h
      by_cases hcomplete : a.actionStatus = .actionComplete
      · by_cases hnone : a.returnValue = -100
        · simp [CollectsEnd, Awaits, hact, hcmd, hcomplete, hnone]
        by_cases hfailed : a.returnValue = -1
        · simp [CollectsEnd, Awaits, hact, hcmd, hcomplete, hfailed]
        · have hend : a.returnValue = 0 := by
            by_contra hret
            exact hnot ⟨hcomplete, hfailed, hnone, hret⟩
          simp [CollectsEnd, Awaits, hact, hcmd, hcomplete, hend]
      · simp [CollectsEnd, Awaits, hact, hcmd, hcomplete]
    all_goals
      subst h
      simp [CollectsEnd, Awaits, hact, hcmd, hnot]

theorem not_collectsEnd_of_getsPast (h : GetsPast s) : ¬ CollectsEnd s := by
  rintro ⟨id, a, hact, hcmd, -, hret⟩
  simp only [GetsPast, hact, hcmd] at h
  exact h.2.2.2 hret

theorem not_awaits_of_getsPast (h : GetsPast s) : ¬ Awaits s := by
  rintro ⟨id, a, hact, ⟨hcmd, hstatus⟩ | ⟨hcmd, hstatus⟩⟩
  · simp only [GetsPast, hact, hcmd] at h
    exact hstatus h
  · simp only [GetsPast, hact, hcmd] at h
    rcases hstatus with hstatus | hret | ⟨hret, -⟩
    · exact hstatus h.1
    · exact h.2.2.1 hret
    · exact h.2.1 hret

/-- An immediate `ef_read` in front of the end of a readable file. -/
theorem immediateRead (h : OpenIdle s) (hpos : 0 < nbyte) (hle : nbyte ≤ E.pageSize) (hend : ¬ AtEnd v s)
    (hreadable : Readable s.file.oflag) :
    (ReadDelivers E v nbyte s ↔ Deliverable E v s) ∧
    (ReadEnds E v nbyte s ↔
      CollectsEnd s ∨ Reaches E v s ∧ s.file.fileOffset = s.file.currFileSizeOnDisk) ∧
    (ReadTriesAgain E v nbyte s ↔ Awaits s) := by
  obtain ⟨o, hcall, hthen, helse⟩ := callYields_passed h hpos hle hend hreadable
  rw [hcall.delivers, hcall.ends, hcall.triesAgain]
  by_cases hpast : GetsPast s
  · obtain rfl := hthen hpast
    have hcollects := not_collectsEnd_of_getsPast hpast
    have hawaits := not_awaits_of_getsPast hpast
    by_cases hin : InBuffer E v s
    · obtain ⟨n, hn, hcount⟩ := bufferOutcome_inside hin.buffer hin.low hin.high hin.size hpos
      have hsize := hin.size
      have hzero : n = 0 ↔ s.file.fileOffset = s.file.currFileSizeOnDisk := by omega
      simp [hn, Deliverable, Reaches, hpast, hin, hcount, hcollects, hawaits, hzero]
    · have hout : ∀ x, bufferOutcome E s.file nbyte (Spec.pageOffset E v s) = some x →
          x.ret = -1 ∧ (x.err = some .eagain → x.fires = true) :=
        fun x => bufferOutcome_outside (mt inBuffer_iff.mpr hin)
      simp only [Deliverable, Reaches, hin, and_false, false_and, or_false, hcollects, hawaits, iff_false]
      refine ⟨?_, ?_, ?_⟩
      · rintro ⟨x, hx, hret⟩
        rw [(hout x hx).1] at hret
        exact absurd hret (by decide)
      · rintro ⟨x, hx, hret⟩
        rw [(hout x hx).1] at hret
        exact absurd hret (by decide)
      · rintro ⟨x, hx, -, herr, hfires⟩
        rw [(hout x hx).2 herr] at hfires
        cases hfires
  · obtain ⟨hdelivers, hends, htries⟩ := refuses_outcome (helse hpast) hpast
    rw [hends, htries]
    simpa [Deliverable, Reaches, hpast] using hdelivers

/-- `ef_read` at the end of the file. -/
theorem immediateRead_atEnd (h : OpenIdle s) (hpos : 0 < nbyte) (hle : nbyte ≤ E.pageSize) (hend : AtEnd v s) :
    ¬ ReadDelivers E v nbyte s ∧ ReadEnds E v nbyte s ∧ ¬ ReadTriesAgain E v nbyte s := by
  have hcall := CallYields.of_check h (chkReadConditions_atEnd h hpos hle hend)
  rw [hcall.delivers, hcall.ends, hcall.triesAgain]
  simp

/-- `ef_read` of a file that is not readable. -/
theorem immediateRead_denied (h : OpenIdle s) (hpos : 0 < nbyte) (hle : nbyte ≤ E.pageSize)
    (hend : ¬ AtEnd v s) (hdenied : ¬ Readable s.file.oflag) :
    ¬ ReadDelivers E v nbyte s ∧ ¬ ReadEnds E v nbyte s ∧ ¬ ReadTriesAgain E v nbyte s := by
  have hcall := CallYields.of_check h (chkReadConditions_denied h hpos hle hend hdenied)
  rw [hcall.delivers, hcall.ends, hcall.triesAgain]
  simp

/-! ### What `ef_file_ready_for_read` returns -/

theorem chkFdReadConditions_atEnd (h : OpenIdle s) (hend : AtEnd v s) :
    s.chkFdReadConditions (s.see v) = .ok (0, none) := by
  unfold AtEnd at hend
  simp only [chkFdReadConditions, h.slot, not_true_eq_false, if_false, derefRecord_of_live h.live, ok_bind,
    h.status, ne_eq, if_pos hend]
  rfl

theorem chkFdReadConditions_denied (h : OpenIdle s) (hend : ¬ AtEnd v s) (hdenied : ¬ Readable s.file.oflag) :
    s.chkFdReadConditions (s.see v) = .ok (-1, some .ebadf) := by
  unfold AtEnd at hend
  simp only [Readable, not_or] at hdenied
  simp only [chkFdReadConditions, h.slot, not_true_eq_false, if_false, derefRecord_of_live h.live, ok_bind,
    h.status, ne_eq, if_neg hend, hdenied, not_false_eq_true, and_self, if_true]
  rfl

theorem chkFdReadConditions_passed (h : OpenIdle s) (hend : ¬ AtEnd v s) (hreadable : Readable s.file.oflag) :
    s.chkFdReadConditions (s.see v) = .ok (1, none) := by
  unfold AtEnd at hend
  have hallowed : ¬ (¬ OFlag.has (if s.file.oflag.has O_DIRECT then s.file.oflag ^^^ O_DIRECT
      else s.file.oflag) O_RDWR ∧ ¬ (if s.file.oflag.has O_DIRECT then s.file.oflag ^^^ O_DIRECT
      else s.file.oflag) = O_RDONLY) := by
    rintro ⟨hrdwr, hrdonly⟩
    exact hreadable.elim hrdwr hrdonly
  simp only [chkFdReadConditions, h.slot, not_true_eq_false, if_false, derefRecord_of_live h.live, ok_bind,
    h.status, ne_eq, if_neg hend, if_neg hallowed]
  rfl

/-- The answer from the action. -/
def readyAnswer (a : FileCmd) : Int × Option Errno :=
  match a.cmd with
  | .operReadahead => efAnalyseReadaheadActionStatus a
  | .operRead => efAnalyseReadActionStatus a
  | .operOpen | .operWrite | .operClose => (-1, some .ebusy)

theorem ready_null {ret : Int} (hcheck : s.chkFdReadConditions (s.see v) = .ok (ret, none))
    (hret : ¬ ret < 0) (hlive : s.recordLive = true) (hact : s.action = .null) :
    s.efFileReadyForRead v = .ok (-1, some .einval) := by
  simp only [efFileReadyForRead, hcheck, ok_bind, if_neg hret, testAction_of_null hlive hact]
  rfl

theorem ready_freed {ret : Int} (hcheck : s.chkFdReadConditions (s.see v) = .ok (ret, none))
    (hret : ¬ ret < 0) (hlive : s.recordLive = true) (hact : s.action = .freed) :
    s.efFileReadyForRead v = .error .useAfterFree := by
  simp only [efFileReadyForRead, hcheck, ok_bind, if_neg hret, testAction,
    derefRecord_of_live hlive, hact]
  rfl

theorem ready_live {id : Nat} {a : FileCmd} {ret : Int} (hcheck : s.chkFdReadConditions (s.see v) = .ok (ret, none))
    (hret : ¬ ret < 0) (hlive : s.recordLive = true)
    (hact : s.action = .live id a) :
    s.efFileReadyForRead v = .ok (readyAnswer a) := by
  simp only [efFileReadyForRead, hcheck, ok_bind, if_neg hret, testAction_of_live hlive hact,
    readyAnswer]
  cases a.cmd <;> rfl

theorem ready_denied (h : OpenIdle s) (hend : ¬ AtEnd v s) (hdenied : ¬ Readable s.file.oflag) :
    s.efFileReadyForRead v = .ok (-1, some .ebadf) := by
  simp only [efFileReadyForRead, chkFdReadConditions_denied h hend hdenied, ok_bind]
  rfl

/-! ### The query agrees -/

section Live

variable {id : Nat} {a : FileCmd}

theorem collectsEnd_live (hact : s.action = .live id a) : CollectsEnd s ↔
    a.cmd = .operRead ∧ a.actionStatus = .actionComplete ∧ a.returnValue = 0 := by
  simp [CollectsEnd, hact]

theorem readPending_live (hact : s.action = .live id a) : ReadPending s ↔
    (a.cmd = .operRead ∨ a.cmd = .operReadahead) ∧ a.actionStatus ≠ .actionComplete := by
  simp [ReadPending, hact]

theorem awaits_live (hact : s.action = .live id a) : Awaits s ↔
    (a.cmd = .operReadahead ∧ a.actionStatus ≠ .actionComplete ∨
      a.cmd = .operRead ∧ (a.actionStatus ≠ .actionComplete ∨ a.returnValue = -100 ∨
        a.returnValue = -1 ∧ a.err = some .eagain)) := by
  simp [Awaits, hact]

theorem getsPast_live (hact : s.action = .live id a) : GetsPast s ↔
    ((a.cmd = .operOpen ∨ a.cmd = .operReadahead ∨ a.cmd = .operClose) ∧
        a.actionStatus = .actionComplete ∨
      a.cmd = .operRead ∧ a.actionStatus = .actionComplete ∧ a.returnValue ≠ -1 ∧
        a.returnValue ≠ -100 ∧ a.returnValue ≠ 0 ∨
      a.cmd = .operWrite ∧ FlushCompletes s a) := by
  cases hcmd : a.cmd <;> simp [GetsPast, hact, hcmd]

end Live

/-- At the end of the file the query answers `0` for a read action that has
met it, and for nothing else. -/
theorem readyTells_atEnd (h : OpenIdle s) (hpos : 0 < nbyte) (hle : nbyte ≤ E.pageSize) (hend : AtEnd v s) :
    ReadyTells E v nbyte s ↔ CollectsEnd s := by
  obtain ⟨hdelivers, hends, htries⟩ := immediateRead_atEnd h hpos hle hend
  have hcheck := chkFdReadConditions_atEnd h hend
  unfold ReadyTells
  simp only [hdelivers, hends, htries, and_false, iff_false, iff_true]
  cases hact : s.action with
  | null => simp [ready_null hcheck (by decide) h.live hact, CollectsEnd, hact]
  | freed => simp [ready_freed hcheck (by decide) h.live hact, CollectsEnd, hact]
  | live id a =>
    rw [ready_live hcheck (by decide) h.live hact]
    rw [collectsEnd_live hact]
    cases hcmd : a.cmd with
    | operRead =>
      by_cases hcomplete : a.actionStatus = .actionComplete
      · by_cases hend : a.returnValue = 0
        · simp [readyAnswer, hcmd, efAnalyseReadActionStatus, hcomplete, hend]
        · by_cases hfailed : a.returnValue = -1
          · simp [readyAnswer, hcmd, efAnalyseReadActionStatus, hcomplete, hfailed]
          · by_cases hnone : a.returnValue = -100
            · simp [readyAnswer, hcmd, efAnalyseReadActionStatus, hcomplete, hnone]
            · simp [readyAnswer, hcmd, efAnalyseReadActionStatus, hcomplete, hend, hfailed, hnone]
      · simp [readyAnswer, hcmd, efAnalyseReadActionStatus, hcomplete]
    | operReadahead =>
      by_cases hcomplete : a.actionStatus = .actionComplete <;>
        simp [readyAnswer, hcmd, efAnalyseReadaheadActionStatus, hcomplete]
    | operOpen | operWrite | operClose => simp [readyAnswer, hcmd]

/-- In front of the end the query answers what the action says. -/
theorem readyTells_passed (h : OpenIdle s) (hpos : 0 < nbyte) (hle : nbyte ≤ E.pageSize)
    (hend : ¬ AtEnd v s) (hreadable : Readable s.file.oflag) :
    ReadyTells E v nbyte s ↔ ActionTells E v s := by
  obtain ⟨hdelivers, hends, htries⟩ := immediateRead h hpos hle hend hreadable
  have hcheck := chkFdReadConditions_passed h hend hreadable
  unfold ReadyTells ActionTells
  rw [hdelivers, hends, htries]
  have hsize : InBuffer E v s → (s.file.fileOffset < s.file.currFileSizeOnDisk ↔
      ¬ s.file.fileOffset = s.file.currFileSizeOnDisk) := by
    intro hin
    have hle := hin.size
    omega
  cases hact : s.action with
  | null =>
    rw [ready_null hcheck (by decide) h.live hact]
    by_cases hin : InBuffer E v s
    · simp [Deliverable, Reaches, GetsPast, CollectsEnd, ReadPending, hact, hin, hsize hin]
    · simp [Deliverable, Reaches, GetsPast, CollectsEnd, ReadPending, hact, hin]
  | freed =>
    rw [ready_freed hcheck (by decide) h.live hact]
    simp [Deliverable, Reaches, GetsPast, CollectsEnd, ReadPending, hact]
  | live id a =>
    rw [ready_live hcheck (by decide) h.live hact]
    have hpast := getsPast_live hact
    have hcollects := collectsEnd_live hact
    have hpending := readPending_live hact
    have hawaits := awaits_live hact
    simp only [Deliverable, Reaches, hpast, hcollects, hpending, hawaits]
    cases hcmd : a.cmd with
    | operOpen | operClose =>
      by_cases hcomplete : a.actionStatus = .actionComplete
      · by_cases hin : InBuffer E v s
        · simp [readyAnswer, hcmd, hcomplete, hin, hsize hin]
        · simp [readyAnswer, hcmd, hin]
      · simp [readyAnswer, hcmd, hcomplete]
    | operWrite =>
      by_cases hflush : FlushCompletes s a
      · by_cases hin : InBuffer E v s
        · simp [readyAnswer, hcmd, hflush, hin, hsize hin]
        · simp [readyAnswer, hcmd, hin]
      · simp [readyAnswer, hcmd, hflush]
    | operReadahead =>
      by_cases hcomplete : a.actionStatus = .actionComplete
      · by_cases hin : InBuffer E v s
        · simp [readyAnswer, hcmd, efAnalyseReadaheadActionStatus, hcomplete, hin, hsize hin]
        · simp [readyAnswer, hcmd, efAnalyseReadaheadActionStatus, hcomplete, hin]
      · simp [readyAnswer, hcmd, efAnalyseReadaheadActionStatus, hcomplete]
    | operRead =>
      by_cases hcomplete : a.actionStatus = .actionComplete
      · by_cases hfailed : a.returnValue = -1
        · simp [readyAnswer, hcmd, efAnalyseReadActionStatus, hcomplete, hfailed]
        by_cases hnone : a.returnValue = -100
        · simp [readyAnswer, hcmd, efAnalyseReadActionStatus, hcomplete, hnone]
        by_cases hzero : a.returnValue = 0
        · simp [readyAnswer, hcmd, efAnalyseReadActionStatus, hcomplete, hzero]
        by_cases hin : InBuffer E v s
        · by_cases hret : 0 < a.returnValue
          · simp [readyAnswer, hcmd, efAnalyseReadActionStatus, hcomplete, hfailed, hnone, hzero, hin, hret,
              hsize hin]
          · simp [readyAnswer, hcmd, efAnalyseReadActionStatus, hcomplete, hfailed, hnone, hzero, hin, hret,
              hsize hin]
        · by_cases hret : 0 < a.returnValue
          · simp [readyAnswer, hcmd, efAnalyseReadActionStatus, hcomplete, hfailed, hnone, hzero, hin, hret]
          · simp [readyAnswer, hcmd, efAnalyseReadActionStatus, hcomplete, hfailed, hnone, hzero, hin, hret]
      · simp [readyAnswer, hcmd, efAnalyseReadActionStatus, hcomplete]

/-- `ef_file_ready_for_read` agrees with `ef_read` exactly when the state is
such that its answer, which depends on the action only, is right. -/
theorem readyForRead_agrees (h : OpenIdle s) (hpos : 0 < nbyte) (hle : nbyte ≤ E.pageSize) :
    ReadyTells E v nbyte s ↔ ReadyAgrees E v s := by
  unfold ReadyAgrees
  by_cases hend : AtEnd v s
  · simp [hend, readyTells_atEnd h hpos hle hend]
  · by_cases hreadable : Readable s.file.oflag
    · simp [hend, hreadable, readyTells_passed h hpos hle hend hreadable]
    · obtain ⟨hdelivers, hends, htries⟩ := immediateRead_denied h hpos hle hend hreadable
      simp [hend, hreadable, ReadyTells, ready_denied h hend hreadable, hdelivers, hends, htries]

/-- A file that was just opened: no data, and no read under way. -/
theorem readyForRead_agrees_sample :
    ReadyTells sampleEnv noView 3 (opened (efFileOpen sampleEnv O_RDONLY [1, 2, 3]) true) := by
  refine (readyForRead_agrees ⟨rfl, rfl, rfl, rfl, rfl⟩ (by decide) (by decide)).mpr ⟨?_, ?_⟩
  · intro hend
    exact absurd hend (by unfold AtEnd; decide)
  · intro _ _ hin
    cases hin.buffer

/-- The run of `readyForRead_misleads`: `ef_read` asks for the page, the
page is read, and `ef_read` gets the first byte of it. -/
def leftOverPage : List PipelineLabel :=
  [.call (.efRead 1) noView] ++ foregroundSteps 8 ++ List.replicate 3 (.readJob 0) ++
    [.call (.efRead 1) noView] ++ foregroundSteps 7

/-- Two bytes are left in the page buffer. `ef_read` would deliver them, and
`ef_file_ready_for_read` fails. -/
theorem readyForRead_misleads :
    ∃ s : PipelineState,
      Reach (PipelineState.step sampleEnv) (fun _ _ => True)
        (opened (efFileOpen sampleEnv O_RDONLY [1, 2, 3]) true) s ∧
      OpenIdle s ∧ s.history = [.readReturned 1 (-1) (some .eagain) [], .readReturned 1 1 none [1]] ∧
      s.efFileReadyForRead noView = .ok (-1, some .einval) ∧ ReadDelivers sampleEnv noView 2 s ∧
      ¬ ReadyTells sampleEnv noView 2 s := by
  refine ⟨_, Reach.of_run .init leftOverPage rfl, ⟨rfl, rfl, rfl, rfl, rfl⟩, rfl, rfl, ?_⟩
  suffices hdelivers : ReadDelivers sampleEnv noView 2 _ by
    refine ⟨hdelivers, fun htells => ?_⟩
    obtain ⟨ret, err, hready, hret⟩ := htells.1.mpr hdelivers
    cases hready
    exact absurd hret (by decide)
  refine (immediateRead ⟨rfl, rfl, rfl, rfl, rfl⟩ (by decide) (by decide) ?_ ?_).1.mpr ?_
  · unfold AtEnd
    decide
  · exact .inr rfl
  · exact ⟨⟨trivial, ⟨rfl, by decide, by decide, by decide⟩⟩, by decide⟩

end Efio.Proofs.Evio
