import Efio.Proofs.Evio.DiskContent
import Efio.Proofs.Evio.PipelineStep

/-!
# `Efio.Proofs.Evio.WriteOrder`: the order of the write items

`writePipeline_order`: while the foreground thread only calls `ef_write`
and `ef_sync`, the items are executed exactly once and in the order in
which they were pushed, in one task of `ef_file_write` at a time, and the
three counters show how far they are. `noneStranded`: as long as items
are queued or not yet completed, somebody is still going to look at them.

In these runs no write action is ever complete (`Writing`), so none is
freed and the invariant of `PipelineStep` holds without a condition.
-/

set_option autoImplicit false

namespace Efio.Proofs.Evio

open Efio.Lib
open Efio.Evio
open Efio.Evio.PipelineState
open Efio.Spec
open Efio.Proofs.Spec

variable {E : Env} {s s' : PipelineState}

/-- The foreground thread calls nothing but `ef_write` and `ef_sync`. -/
def WritesAndSyncs (_ : PipelineState) : PipelineLabel → Prop
  | .call (.efRead _) _ | .call (.efClose _) _ => False
  | _ => True

instance : DecidableRel WritesAndSyncs := fun _ l =>
  match l with
  | .call (.efRead _) _ | .call (.efClose _) _ => inferInstanceAs (Decidable False)
  | .call (.efWrite _) _ | .call .efSync _ | .foreground _ _ | .slowSync | .fileWriter | .writeJob _
  | .readJob _ | .closeJob _ _ => inferInstanceAs (Decidable True)

/-! ### No write action is complete -/

/-- The places of `ef_write` and `ef_sync`. -/
def writePlace : ForegroundPc → Bool
  | .idle | .pushing _ _ | .freeing _ (.write _) | .freeing _ .sync
  | .allocating _ .operWrite (.write _) | .writeSuspend _ | .writeTest _ | .writeEnsure _
  | .writeLoop _ _ | .writeResume | .syncSuspend | .syncFlush | .syncResume => true
  | _ => false

/-- What the runs with `ef_write` and `ef_sync` keep. -/
structure Writing (s : PipelineState) : Prop where
  place : writePlace s.foreground = true
  reads : s.fileReads = []
  closes : s.fileCloses = []
  incomplete : Incomplete s.action
  drops : ∀ p k, s.foreground = .freeing p k → ¬ IsWrite s.action

/-- No write action is freed. -/
theorem Writing.quietFree (h : Writing s) (l : PipelineLabel) : QuietFree s l := by
  intro hfrees
  cases l with
  | foreground v closeFails =>
    have hplace := h.place
    simp only [frees] at hfrees
    split at hfrees
    · rename_i k hfg
      obtain ⟨⟨id, inp⟩, hsome⟩ := Option.isSome_iff_exists.mp hfrees
      obtain ⟨-, a, hact, hcmd, -⟩ := liveWrite_eq_some.mp hsome
      exact absurd ⟨id, a, hact, hcmd⟩ (h.drops _ _ hfg)
    · rename_i p hfg
      rw [hfg] at hplace
      cases hplace
    · cases hfrees
  | closeJob i closeFails =>
    simp only [frees, h.closes] at hfrees
    cases hfrees
  | _ => cases hfrees

/-! ### Every step -/

/-- A step that leaves the foreground thread where it is. -/
theorem Writing.of_frame (file : EfFile) (h : Writing s)
    (hframe : Frame false { s with file := file } s') : Writing s' := by
  have hrest := hframe.rest
  refine ⟨?_, ?_, ?_, hframe.action.incomplete h.incomplete, fun p k hfg hwrite => ?_⟩
  · rw [hrest]
    exact h.place
  · rw [hrest]
    exact h.reads
  · rw [hrest]
    exact h.closes
  · rw [hrest] at hfg
    exact h.drops p k hfg (hframe.action.isWrite hwrite)

/-- The foreground thread goes on, and frees nothing next. -/
theorem Writing.goto (h : Writing s) (hframe : Frame false { s with foreground := s'.foreground } s')
    (hplace : writePlace s'.foreground = true) (hfree : ∀ p k, s'.foreground ≠ .freeing p k) :
    Writing s' := by
  have hrest := hframe.rest
  refine ⟨hplace, ?_, ?_, hframe.action.incomplete h.incomplete, fun p k hfg _ => hfree p k hfg⟩
  · rw [hrest]
    exact h.reads
  · rw [hrest]
    exact h.closes

/-- A complete action is about to be freed; it is no write action. -/
theorem Writing.dropComplete (h : Writing s) {id : Nat} {a : FileCmd} (hact : s.action = .live id a)
    (hcomplete : a.actionStatus = .actionComplete) {p : FreePc} {k : AfterFree}
    (hplace : writePlace (.freeing p k) = true) :
    Writing { s with foreground := .freeing p k } := by
  refine ⟨hplace, h.reads, h.closes, h.incomplete, fun _ _ _ hwrite => ?_⟩
  obtain ⟨id', a', hact', hcmd⟩ := hwrite
  obtain ⟨rfl, rfl⟩ := ActionPtr.live.inj (hact.symm.trans hact')
  exact h.incomplete _ _ hact hcmd hcomplete

theorem Writing.call {v : View} {c : Call} (h : Writing s) (hok : WritesAndSyncs s (.call c v))
    (hstep : s.callStep E v c = .ok s') : Writing s' := by
  cases c with
  | efWrite buf =>
    obtain rfl | ⟨-, rfl⟩ := callStep_efWrite hstep
    · exact h
    · exact h.goto (.refl _) rfl fun _ _ h => by cases h
  | efSync =>
    obtain rfl | ⟨-, id, a, hact, ⟨hcomplete, rfl⟩ | ⟨-, rfl⟩⟩ := callStep_efSync hstep
    · exact h
    · exact h.dropComplete hact hcomplete rfl
    · exact h.goto (.refl _) rfl fun _ _ h => by cases h
  | efRead nbyte => exact absurd hok id
  | efClose immediate => exact absurd hok id

theorem Writing.write (h : Writing s) {pc : ForegroundPc} (hstep : s.writeStep E pc = .ok s') :
    Writing s' := by
  unfold writeStep at hstep
  split at hstep
  · obtain ⟨_, -, hok⟩ := bind_eq_ok.mp hstep
    cases hok
    refine h.goto ⟨rfl, .same⟩ ?_ ?_ <;> split <;> first | rfl | nofun
  · obtain ⟨r, htest, hok⟩ := bind_eq_ok.mp hstep
    obtain ⟨-, ⟨rfl, -⟩ | ⟨id, a, rfl, hact⟩⟩ := testAction_eq_ok htest
    · cases hok
      exact h.goto (.refl _) rfl nofun
    · simp only at hok
      split at hok
      · rename_i hcomplete
        cases hok
        exact h.dropComplete hact hcomplete rfl
      · split at hok <;> cases hok <;> exact h.goto (.refl _) rfl nofun
  · obtain ⟨_, -, hok⟩ := bind_eq_ok.mp hstep
    cases hok
    refine ⟨?_, h.reads, h.closes, h.incomplete, fun p k hfg => ?_⟩
    · show writePlace (if _ then _ else _) = true
      split <;> rfl
    · simp only at hfg
      split at hfg <;> cases hfg
  · split at hstep
    · cases hstep
      exact h.goto (.refl _) rfl nofun
    · obtain ⟨⟨id, a, inp⟩, hd, hok⟩ := bind_eq_ok.mp hstep
      obtain ⟨-, hact, hinp⟩ := derefWriteInp_eq_ok.mp hd
      simp only at hok
      split at hok
      · cases hok
      · split at hok <;> cases hok <;>
          exact h.goto ⟨rfl, .setWriteInp hact hinp _⟩ rfl nofun
  · obtain ⟨_, -, hok⟩ := bind_eq_ok.mp hstep
    simp only at hok
    split at hok
    · cases hok
    · cases hok
      exact h.goto ⟨rfl, .same⟩ rfl nofun
  · cases hstep
    exact h

theorem Writing.sync (h : Writing s) {pc : ForegroundPc} (hstep : s.efSyncStep pc = .ok s') :
    Writing s' := by
  unfold efSyncStep at hstep
  split at hstep
  · obtain ⟨_, -, hok⟩ := bind_eq_ok.mp hstep
    cases hok
    refine h.goto ⟨rfl, .same⟩ ?_ ?_ <;> split <;> first | rfl | nofun
  · obtain ⟨⟨s₁, p⟩, hsync, hok⟩ := bind_eq_ok.mp hstep
    cases hok
    refine h.goto (Frame.withPlace (lowEfSync_frame hsync).1 _) ?_ ?_ <;> cases p <;> first | rfl | nofun
  · obtain ⟨_, -, hok⟩ := bind_eq_ok.mp hstep
    simp only at hok
    split at hok
    · cases hok
    · cases hok
      exact h.goto ⟨rfl, .same⟩ rfl nofun
  · cases hstep
    exact h

theorem freeStep_not_isWrite {p : FreePc} {next : Option FreePc} (hnot : ¬ IsWrite s.action)
    (hstep : s.freeStep p = .ok (s', next)) : ¬ IsWrite s'.action := by
  rintro ⟨id, a, hact, hcmd⟩
  cases p with
  | acquire expected =>
    obtain ⟨_, -, hok⟩ := bind_eq_ok.mp hstep
    cases hok
    exact hnot ⟨id, a, hact, hcmd⟩
  | cleanup =>
    obtain ⟨⟨i, b⟩, -, hok⟩ := bind_eq_ok.mp hstep
    simp only at hok
    split at hok <;> cases hok
    cases hact
  | setNull =>
    obtain ⟨_, -, hok⟩ := bind_eq_ok.mp hstep
    cases hok
    cases hact
  | release =>
    obtain ⟨_, -, hok⟩ := bind_eq_ok.mp hstep
    cases hok
    exact hnot ⟨id, a, hact, hcmd⟩

/-- `free_file_action` of an action that is no write action. -/
theorem Writing.free (h : Writing s) {p : FreePc} {k : AfterFree} (hfg : s.foreground = .freeing p k)
    {next : Option FreePc} (hstep : s.freeStep p = .ok (s', next)) :
    Writing (match next with
      | some p => { s' with foreground := .freeing p k }
      | none => s'.afterFree k) := by
  have hplace := h.place
  rw [hfg] at hplace
  have hrest := freeStep_rest hstep
  have hno : ¬ IsWrite s'.action := freeStep_not_isWrite (h.drops p k hfg) hstep
  have hinc : Incomplete s'.action := fun id a hact hcmd => absurd ⟨id, a, hact, hcmd⟩ hno
  have hreads : s'.fileReads = [] := by
    rw [hrest]
    exact h.reads
  have hcloses : s'.fileCloses = [] := by
    rw [hrest]
    exact h.closes
  cases next with
  | some q =>
    refine ⟨?_, hreads, hcloses, hinc, fun _ _ _ => hno⟩
    cases k <;> first | rfl | cases hplace
  | none =>
    cases k with
    | write buf => exact ⟨rfl, hreads, hcloses, hinc, nofun⟩
    | sync => exact ⟨rfl, hreads, hcloses, hinc, nofun⟩
    | _ => cases hplace

theorem Writing.alloc (h : Writing s) {p : AllocPc} {oper : FileOper} {k : AfterAlloc}
    (hfg : s.foreground = .allocating p oper k) {next : Option AllocPc}
    (hstep : s.allocStep oper p = .ok (s', next)) :
    Writing { s' with foreground := next.elim (afterAlloc k) (.allocating · oper k) } := by
  have hplace := h.place
  rw [hfg] at hplace
  have hrest := allocStep_rest hstep
  have hinc : Incomplete s'.action := by
    obtain ⟨hact, -⟩ | ⟨-, -, hact⟩ := allocStep_action hstep
    · rw [hact]
      exact h.incomplete
    · rw [hact]
      intro id a heq _ hcomplete
      cases heq
      cases hcomplete
  refine ⟨?_, ?_, ?_, hinc, fun q l hq => ?_⟩
  · cases next <;> cases k <;> cases oper <;> first | rfl | cases hplace
  · show s'.fileReads = []
    rw [hrest]
    exact h.reads
  · show s'.fileCloses = []
    rw [hrest]
    exact h.closes
  · cases next <;> cases k <;> cases hq

theorem Writing.foreground {closeFails : Bool} {v : View} (h : Writing s) (hinv : PipelineInv s)
    (hstep : s.foregroundStep E closeFails v = .ok s') : Writing s' := by
  have hplace := h.place
  unfold foregroundStep at hstep
  cases hfg : s.foreground with
  | idle =>
    simp only [hfg] at hstep
    cases hstep
    exact h
  | pushing p k =>
    simp only [hfg] at hstep
    obtain ⟨⟨s₁, next⟩, hp, hok⟩ := bind_eq_ok.mp hstep
    cases hok
    have hpush : pushOf s = some p := by
      rw [pushOf, hfg]
      rfl
    have hwrite := isWrite_of_push hinv.flow (by rw [hpush]; exact fun h => by cases h)
    refine h.goto ((pushStep_frame hwrite hp).1.withPlace _) ?_ ?_ <;> cases next <;> cases k <;>
      first | rfl | exact fun _ _ h => by cases h
  | freeing p k =>
    simp only [hfg] at hstep
    obtain ⟨⟨s₁, next⟩, hp, hok⟩ := bind_eq_ok.mp hstep
    have hfree := h.free hfg hp
    cases next <;> cases hok <;> exact hfree
  | allocating p oper k =>
    simp only [hfg] at hstep
    obtain ⟨⟨s₁, next⟩, hp, hok⟩ := bind_eq_ok.mp hstep
    cases hok
    exact h.alloc hfg hp
  | writeSuspend buf =>
    simp only [hfg] at hstep
    exact h.write hstep
  | writeTest buf =>
    simp only [hfg] at hstep
    exact h.write hstep
  | writeEnsure buf =>
    simp only [hfg] at hstep
    exact h.write hstep
  | writeLoop buf done =>
    simp only [hfg] at hstep
    exact h.write hstep
  | writeResume =>
    simp only [hfg] at hstep
    exact h.write hstep
  | syncSuspend =>
    simp only [hfg] at hstep
    exact h.sync hstep
  | syncFlush =>
    simp only [hfg] at hstep
    exact h.sync hstep
  | syncResume =>
    simp only [hfg] at hstep
    exact h.sync hstep
  | _ =>
    rw [hfg] at hplace
    cases hplace

theorem Writing.slowSync (h : Writing s) (hinv : PipelineInv s)
    (hstep : s.slowSyncStep = some (.ok s')) : Writing s' := by
  obtain ⟨hslow, rfl⟩ | ⟨p, s₁, next, hslow, hsync, rfl⟩ := slowSyncStep_cases hstep
  · exact ⟨h.place, h.reads, h.closes, h.incomplete, h.drops⟩
  · have hwrite : syncPush p ≠ none → IsWrite s.action := fun hpush =>
      isWrite_of_push hinv.flow fun hnone => hpush (by
        rw [hinv.locks.push_comm, hslow] at hnone
        exact (Option.or_eq_none_iff.mp hnone).1)
    obtain ⟨hplace, hreads, hcloses, hinc, hdrops⟩ :=
      h.of_frame s.file (syncStep_frame hwrite hsync).1
    exact ⟨hplace, hreads, hcloses, hinc, hdrops⟩

/-- Every step of a run with `ef_write` and `ef_sync`. -/
theorem Writing.step {l : PipelineLabel} (h : Writing s) (hinv : PipelineInv s)
    (hok : WritesAndSyncs s l) (hstep : PipelineState.step E l s = some s') : Writing s' := by
  obtain ⟨-, hrun | ⟨e, -, rfl⟩⟩ := step_eq_some hstep
  · cases l with
    | call c v => exact h.call hok (threadStep_call hrun).2
    | foreground v closeFails => exact h.foreground hinv (threadStep_foreground hrun).2
    | slowSync => exact h.slowSync hinv hrun
    | fileWriter => exact h.of_frame s.file (fileWriterStep_frame hrun).1
    | writeJob i =>
      simp only [threadStep] at hrun
      obtain ⟨j, s₁, next, hjob, hj, rfl⟩ := jobStep_eq_some hrun
      exact h.of_frame _ ((writeJobStep_frame hj).1.withWrites _)
    | readJob i => cases (threadStep_readJob_nil h.reads i).symm.trans hrun
    | closeJob i closeFails => cases (threadStep_closeJob_nil h.closes i closeFails).symm.trans hrun
  · exact ⟨h.place, h.reads, h.closes, h.incomplete, h.drops⟩

theorem writing_of_reach {f : EfFile} {collected : Bool}
    (h : Reach (PipelineState.step E) WritesAndSyncs (opened f collected) s) :
    PipelineInv s ∧ Writing s := by
  refine h.invariant (I := fun s => PipelineInv s ∧ Writing s)
    ⟨pipelineInv_opened f collected, rfl, rfl, rfl, ?_, nofun⟩
    fun s s' l hs hok hstep => ⟨hs.1.step (hs.2.quietFree l) hstep, hs.2.step hs.1 hok hstep⟩
  cases collected <;> intro id a heq hcmd <;> cases heq
  cases hcmd

/-! ### The order -/

/-- The items `file_writer` has taken from `_w_queue` and `ef_file_write`
has not yet executed. -/
def takenItems (s : PipelineState) (inp : WriteOper) : List WriteTask :=
  (flow s).unexecuted inp.bWList

/-- In every run with `ef_write` and `ef_sync`: one task of `ef_file_write`
at most; the executed items, then the taken ones, then the queue are the
pushed items; the counters are ordered, and when the outer ones meet,
everything pushed has been executed. -/
theorem writePipeline_order {f : EfFile} {collected : Bool}
    (h : Reach (PipelineState.step E) WritesAndSyncs (opened f collected) s) :
    s.fileWrites.length ≤ 1 ∧
      ∀ id inp, liveWrite s = some (id, inp) →
        s.executed ++ (takenItems s inp ++ inp.wQueue) = s.pushed ∧
        inp.writeCmplCount ≤ inp.writeReqCount ∧ inp.writeReqCount ≤ inp.writeTotreqCount ∧
        (inp.writeTotreqCount = inp.writeCmplCount → s.pushed = s.executed) := by
  have hflow := (writing_of_reach h).1.flow
  refine ⟨?_, fun id inp hlive => ?_⟩
  · cases hlive : liveWrite s with
    | none =>
      have hnil : s.fileWrites = [] := (hflow.quiet hlive).1.2.2.1
      rw [hnil]
      exact Nat.zero_le 1
    | some a =>
      have hf : Flowing (flow s) a.1 a.2 := hflow.flowing hlive
      have hsingle := hf.single
      unfold WriteFlow.tokens at hsingle
      exact Nat.le_trans (Nat.le_add_right _ _) (Nat.le_trans (Nat.le_add_right _ _) hsingle)
  · have hf := hflow.flowing hlive
    exact ⟨hf.order.symm, hf.counters.1, hf.counters.2, hf.all_executed⟩

/-- Two pages in one `ef_write`. The first one has been taken and is being
executed, the second one waits. -/
theorem writePipeline_order_sample :
    ∃ s : PipelineState, s.fileWrites = [.items 1 [⟨.fileWriteEvt, [1, 2, 3, 4]⟩] 0] ∧
      s.fileWrites.length ≤ 1 ∧
      ∀ id inp, liveWrite s = some (id, inp) →
        s.executed ++ (takenItems s inp ++ inp.wQueue) = s.pushed ∧
        inp.writeCmplCount ≤ inp.writeReqCount ∧ inp.writeReqCount ≤ inp.writeTotreqCount ∧
        (inp.writeTotreqCount = inp.writeCmplCount → s.pushed = s.executed) :=
  ⟨_, rfl, @writePipeline_order sampleEnv _ (efFileOpen sampleEnv O_RDWR []) true
    (Reach.of_run .init
      ([.call (.efWrite [1, 2, 3, 4, 5, 6, 7, 8]) ⟨0, 0, 0⟩] ++
        List.replicate 11 (.foreground ⟨0, 0, 0⟩ false) ++ List.replicate 5 .fileWriter ++
        [.writeJob 0] ++ List.replicate 5 (.foreground ⟨0, 0, 0⟩ false)) rfl)⟩

/-! ### No request is stranded -/

/-- The producer has raised `_write_totreq_count` and not yet posted its
event. -/
def pushRaised : PushPc → Bool
  | .count _ => false
  | .enqueue _ | .init _ | .post _ => true

/-- An event of the file is queued or being handled, a task of
`ef_file_write` is queued or running, or a producer is about to post its
event. -/
def Attended (s : PipelineState) : Prop :=
  s.fileWriterQueue ≠ [] ∨ s.fileWriter ≠ .idle ∨ s.fileWrites ≠ [] ∨
    ∃ p, pushOf s = some p ∧ pushRaised p = true

instance (s : PipelineState) : Decidable (Attended s) :=
  decidable_of_iff (s.fileWriterQueue ≠ [] ∨ s.fileWriter ≠ .idle ∨ s.fileWrites ≠ [] ∨
    (pushOf s).any pushRaised = true) (by unfold Attended; rw [Option.any_eq_true])

theorem pushCounted_of_not_raised {p : Option PushPc} (h : ¬ ∃ q, p = some q ∧ pushRaised q = true) :
    pushCounted p = 0 ∧ pushAnnouncing p = false := by
  cases p with
  | none => exact ⟨rfl, rfl⟩
  | some q =>
    cases q with
    | count w => exact ⟨rfl, rfl⟩
    | _ => exact absurd ⟨_, rfl, rfl⟩ h

/-- Requests that are queued or not yet completed are attended to, in every
state that meets the invariant. -/
theorem attended_of_flow (h : PipelineInv s) {id : Nat} {inp : WriteOper}
    (hlive : liveWrite s = some (id, inp))
    (hopen : inp.wQueue ≠ [] ∨ inp.writeTotreqCount ≠ inp.writeCmplCount) : Attended s := by
  by_contra hnone
  unfold Attended at hnone
  push Not at hnone
  obtain ⟨hqueue, hwriter, hjobs, hpush⟩ := hnone
  -- Nobody is left to look at the queue, so there is nothing to look at.
  have hraised := pushCounted_of_not_raised
    (fun ⟨p, heq, hraised⟩ => hpush p heq hraised : ¬ ∃ q, pushOf s = some q ∧ pushRaised q = true)
  obtain ⟨hempty, hmeet⟩ :=
    (h.flow.flowing hlive).settled hqueue hwriter hjobs hraised.1 hraised.2
  rcases hopen with hne | hne
  · exact hne hempty
  · exact hne hmeet

/-- In every run with `ef_write` and `ef_sync`, no request of a live write
action is stranded. -/
theorem noneStranded {f : EfFile} {collected : Bool}
    (h : Reach (PipelineState.step E) WritesAndSyncs (opened f collected) s) {id : Nat}
    {inp : WriteOper} (hlive : liveWrite s = some (id, inp))
    (hopen : inp.wQueue ≠ [] ∨ inp.writeTotreqCount ≠ inp.writeCmplCount) : Attended s :=
  attended_of_flow (writing_of_reach h).1 hlive hopen

/-- The second page is queued while the first one is being executed;
`file_writer` has dropped its event. -/
theorem noneStranded_sample :
    ∃ (s : PipelineState) (inp : WriteOper),
      liveWrite s = some (1, inp) ∧ inp.wQueue = [⟨.fileWriteEvt, [5, 6, 7, 8]⟩] ∧
      s.fileWriterQueue = [] ∧ s.fileWriter = .idle ∧ Attended s :=
  ⟨_, _, rfl, rfl, rfl, rfl, @noneStranded sampleEnv _ (efFileOpen sampleEnv O_RDWR []) true
    (Reach.of_run .init
      ([.call (.efWrite [1, 2, 3, 4, 5, 6, 7, 8]) ⟨0, 0, 0⟩] ++
        List.replicate 11 (.foreground ⟨0, 0, 0⟩ false) ++ List.replicate 5 .fileWriter ++
        [.writeJob 0] ++ List.replicate 5 (.foreground ⟨0, 0, 0⟩ false) ++
        List.replicate 2 .fileWriter) rfl) _ _ rfl (Or.inl (by decide))⟩

end Efio.Proofs.Evio
