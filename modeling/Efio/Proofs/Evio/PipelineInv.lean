import Efio.Proofs.Evio.PipelineFlow

/-!
# `Efio.Proofs.Evio.PipelineInv`: the invariant of the threads on one file

`PipelineInv` has three parts. `FlowInv` and `Fits` of the flow of the state
are about the write items (`Spec/WriteFlow.lean`). `Locks` says that
`_write_suspended` is held by one thread at most, so that only one push is
under way. `Ownership` says that an action is freed by one thread at most,
and that no action is allocated over another one.

`PipelineInv.step`: every step keeps the invariant, provided that a write
action or the record is freed only when nothing is on its way
(`QuietFree`). The foreground thread alone allocates actions; a step of
any other thread leaves the action's place as it is or is a free.
-/

set_option autoImplicit false

namespace Efio.Proofs.Evio

open Efio.Lib
open Efio.Evio
open Efio.Evio.PipelineState
open Efio.Spec
open Efio.Proofs.Spec

variable {E : Env} {s s' : PipelineState}

/-! ### Definitions -/

/-- The push the foreground thread is in. -/
def foregroundPush : ForegroundPc → Option PushPc
  | .pushing p _ => some p
  | .syncing p _ => syncPush p
  | _ => none

/-- The push under way. -/
def pushOf (s : PipelineState) : Option PushPc :=
  (foregroundPush s.foreground).or (s.slowSync.bind syncPush)

/-- The write flow of the state. -/
def flow (s : PipelineState) : WriteFlow := flowWith s (pushOf s)

/-- The value under which a thread in `sync_file_writes` holds
`_write_suspended`. -/
def syncTag (p : SyncPc) : Option Int := if syncHolds p then some 1 else none

/-- The same for the foreground thread. -/
def foregroundTag : ForegroundPc → Option Int
  | .writeTest _ | .writeEnsure _ | .writeLoop _ _ | .writeResume | .pushing _ (.write _ _)
  | .freeing _ (.write _) | .allocating _ _ (.write _) => some (-1)
  | .pushing _ .sync | .syncFlush | .syncResume => some (-2)
  | .syncing p _ => syncTag p
  | _ => none

/-- Of two threads one at most holds the word, and it shows which. -/
structure Holds (tag other : Option Int) (w : Int) : Prop where
  alone : tag = none ∨ other = none
  word : w = (tag.or other).getD 0

/-- `_write_suspended` has one holder at most. -/
def Locks (s : PipelineState) : Prop :=
  Holds (foregroundTag s.foreground) (s.slowSync.bind syncTag) s.writeSuspended

/-- The closing task has freed the action and not yet cleared the pointer. -/
def closeSetNull : CloseJob → Bool
  | .freeing .setNull _ => true
  | _ => false

/-- The same for the foreground thread. -/
def foregroundSetNull : ForegroundPc → Bool
  | .freeing .setNull _ => true
  | .closing p => closeSetNull p
  | _ => false

/-- The threads that have freed the action and not yet cleared the
pointer. -/
def setNulls (s : PipelineState) : Nat :=
  s.fileCloses.countP closeSetNull + (foregroundSetNull s.foreground).toNat

/-- The foreground thread is about to allocate an action, or has just
cleared the pointer. -/
def awaitsAlloc : ForegroundPc → Bool
  | .allocating .release _ _ => false
  | .allocating _ _ _ | .freeing .release _ => true
  | _ => false

/-- `_inp._write_inp` is the member in use only in a write action. -/
def Typed : ActionPtr → Prop
  | .live _ a => a.writeInp.isSome = true → a.cmd = .operWrite
  | _ => True

/-- A freed action has one thread that clears the pointer, and an action is
allocated only where there is none. -/
structure Ownership (s : PipelineState) : Prop where
  setNull : setNulls s = if s.action = .freed then 1 else 0
  null : awaitsAlloc s.foreground = true → s.action = .null
  typed : Typed s.action

/-- The closing task is about to free a live write action or the record. -/
def closeFrees (s : PipelineState) : CloseJob → Bool
  | .freeing .cleanup _ => (liveWrite s).isSome
  | .freeRecord => true
  | _ => false

/-- The step is about to free a live write action or the record. -/
def frees (s : PipelineState) : PipelineLabel → Bool
  | .foreground _ _ =>
    match s.foreground with
    | .freeing .cleanup _ => (liveWrite s).isSome
    | .closing p => closeFrees s p
    | _ => false
  | .closeJob i _ => (s.fileCloses[i]?).any (closeFrees s)
  | _ => false

instance (c : WriteFlow) : Decidable c.Quiet :=
  inferInstanceAs (Decidable (_ ∧ _ ∧ _ ∧ _))

/-- A live write action or the record is freed only when no event is queued
or handled, no task of `ef_file_write` is queued or running, and no push is
under way. -/
def QuietFree (s : PipelineState) (l : PipelineLabel) : Prop :=
  frees s l = true → (flow s).Quiet

instance : DecidableRel QuietFree := fun s l =>
  inferInstanceAs (Decidable (frees s l = true → (flow s).Quiet))

/-- The invariant of the threads on one file. -/
structure PipelineInv (s : PipelineState) : Prop where
  flow : FlowInv (flow s)
  fits : Fits (flowWith s (pushOf s))
  locks : Locks s
  own : Ownership s

/-! ### What the shared pieces of code leave alone -/

/-- An action is neither freed nor replaced. -/
structure Keeps (p p' : ActionPtr) : Prop where
  null : p' = .null ↔ p = .null
  freed : p' = .freed ↔ p = .freed
  typed : Typed p → Typed p'

/-- A store into the action, or none. It keeps the kind of the action, and
with `completes` false it completes no action. -/
inductive Stores (completes : Bool) (p : ActionPtr) : ActionPtr → Prop where
  | same : Stores completes p p
  | store {id : Nat} {a : FileCmd} (a' : FileCmd) (hact : p = .live id a) (hcmd : a'.cmd = a.cmd)
      (hinp : a'.writeInp.isSome = true → a.writeInp.isSome = true)
      (hstatus : completes = false → a'.actionStatus = .actionComplete →
        a.actionStatus = .actionComplete) : Stores completes p (.live id a')

theorem Keeps.refl (p : ActionPtr) : Keeps p p := ⟨Iff.rfl, Iff.rfl, id⟩

theorem Stores.keeps {completes : Bool} {p p' : ActionPtr} (h : Stores completes p p') :
    Keeps p p' := by
  cases h with
  | same => exact .refl p
  | store a' hact hcmd hinp hstatus =>
    subst hact
    exact ⟨by simp, by simp, fun htyped hsome => hcmd.trans (htyped (hinp hsome))⟩

theorem Keeps.of_store {p : ActionPtr} {id : Nat} {a a' : FileCmd} (hact : p = .live id a)
    (hcmd : a'.cmd = a.cmd) (hinp : a'.writeInp = a.writeInp) : Keeps p (.live id a') :=
  (show Stores true p (.live id a') from .store a' hact hcmd (fun h => hinp ▸ h) nofun).keeps

/-- A store into the input of a write request. -/
theorem Stores.setWriteInp {completes : Bool} {p : ActionPtr} {id : Nat} {a : FileCmd}
    {inp : WriteOper} (hact : p = .live id a) (hinp : a.writeInp = some inp) (inp' : WriteOper) :
    Stores completes p (.live id { a with writeInp := some inp' }) :=
  .store _ hact rfl (fun _ => by rw [hinp]; rfl) fun _ h => h

/-- What a piece of code that neither frees nor allocates may change: the
action by a store, the guards, and what belongs to the write flow. -/
structure Frame (completes : Bool) (s s' : PipelineState) : Prop where
  rest : s' = { s with
    action := s'.action
    preventActionMutation := s'.preventActionMutation
    writeSuspended := s'.writeSuspended
    handleToFileAction := s'.handleToFileAction
    fileWriterQueue := s'.fileWriterQueue
    fileWrites := s'.fileWrites
    fileWriter := s'.fileWriter
    pushed := s'.pushed
    executed := s'.executed }
  action : Stores completes s.action s'.action

section Frame

variable {completes : Bool}

theorem Frame.refl (s : PipelineState) : Frame completes s s := ⟨rfl, .same⟩

theorem Frame.foreground (h : Frame completes s s') : s'.foreground = s.foreground := by rw [h.rest]

theorem Frame.slowSync (h : Frame completes s s') : s'.slowSync = s.slowSync := by rw [h.rest]

theorem Frame.closes (h : Frame completes s s') : s'.fileCloses = s.fileCloses := by rw [h.rest]

/-- A task has left its list or gone on. -/
theorem Frame.withWrites (h : Frame completes s s') (js : List WriteJob) :
    Frame completes s { s' with fileWrites := js } :=
  ⟨congrArg (fun x : PipelineState => { x with fileWrites := js }) h.rest, h.action⟩

theorem Frame.withReads (h : Frame completes s s') (js : List ReadJob) :
    Frame completes { s with fileReads := js } { s' with fileReads := js } :=
  ⟨congrArg (fun x : PipelineState => { x with fileReads := js }) h.rest, h.action⟩

theorem Frame.withPlace (h : Frame completes s s') (pc : ForegroundPc) :
    Frame completes { s with foreground := pc } { s' with foreground := pc } :=
  ⟨congrArg (fun x : PipelineState => { x with foreground := pc }) h.rest, h.action⟩

end Frame

/-- The action is a write action. -/
def IsWrite (p : ActionPtr) : Prop := ∃ id a, p = .live id a ∧ a.cmd = .operWrite

/-- A write action is not complete. -/
def Incomplete (p : ActionPtr) : Prop :=
  ∀ id a, p = .live id a → a.cmd = .operWrite → a.actionStatus ≠ .actionComplete

theorem Stores.incomplete {p p' : ActionPtr} (h : Stores false p p') (hinc : Incomplete p) :
    Incomplete p' := by
  cases h with
  | same => exact hinc
  | store a' hact hcmd hinp hstatus =>
    intro id a heq hwrite hcomplete
    cases heq
    exact hinc _ _ hact (hcmd.symm.trans hwrite) (hstatus rfl hcomplete)

theorem Stores.isWrite {completes : Bool} {p p' : ActionPtr} (h : Stores completes p p')
    (hwrite : IsWrite p') : IsWrite p := by
  cases h with
  | same => exact hwrite
  | store a' hact hcmd hinp hstatus =>
    obtain ⟨id, a, heq, hop⟩ := hwrite
    cases heq
    exact ⟨_, _, hact, hcmd.symm.trans hop⟩

/-- What is on its way belongs to a write action. -/
theorem isWrite_of_busy {push : Option PushPc} (h : FlowInv (flowWith s push))
    (hbusy : ¬ (flowWith s push).Quiet) : IsWrite s.action := by
  obtain ⟨id, inp, hinp⟩ := h.exists_inp hbusy
  obtain ⟨-, a, hact, hcmd, -⟩ := liveWrite_eq_some.mp (show liveWrite s = some (id, inp) from hinp)
  exact ⟨id, a, hact, hcmd⟩

theorem isWrite_of_push {push : Option PushPc} (h : FlowInv (flowWith s push))
    (hpush : push ≠ none) : IsWrite s.action :=
  isWrite_of_busy h fun hq => hpush hq.2.2.2

theorem pushStep_frame {p : PushPc} {next : Option PushPc} (hwrite : IsWrite s.action)
    (hstep : s.pushStep p = .ok (s', next)) :
    Frame false s s' ∧ s'.writeSuspended = s.writeSuspended := by
  cases p with
  | count w =>
    obtain ⟨⟨id, a, inp⟩, hd, hok⟩ := bind_eq_ok.mp hstep
    obtain ⟨-, hact, hinp⟩ := derefWriteInp_eq_ok.mp hd
    cases hok
    exact ⟨⟨rfl, .setWriteInp hact hinp _⟩, rfl⟩
  | enqueue w =>
    obtain ⟨⟨id, a, inp⟩, hd, hok⟩ := bind_eq_ok.mp hstep
    obtain ⟨-, hact, hinp⟩ := derefWriteInp_eq_ok.mp hd
    cases hok
    exact ⟨⟨rfl, .setWriteInp hact hinp _⟩, rfl⟩
  | init id =>
    obtain ⟨⟨id', a⟩, hd, hok⟩ := bind_eq_ok.mp hstep
    obtain ⟨-, hact⟩ := derefAction_eq_ok.mp hd
    cases hok
    obtain ⟨i, a₀, hact₀, hcmd⟩ := hwrite
    obtain ⟨-, rfl⟩ := ActionPtr.live.inj (hact₀.symm.trans hact)
    exact ⟨⟨rfl, .store _ hact hcmd.symm (fun h => h) nofun⟩, rfl⟩
  | post id =>
    cases hstep
    exact ⟨⟨rfl, .same⟩, rfl⟩

theorem lowEfSync_frame {next : Option PushPc} (hstep : s.lowEfSync = .ok (s', next)) :
    Frame false s s' ∧ s'.writeSuspended = s.writeSuspended := by
  obtain ⟨r, htest, hok⟩ := bind_eq_ok.mp hstep
  obtain ⟨-, ⟨rfl, -⟩ | ⟨id, a, rfl, hact⟩⟩ := testAction_eq_ok htest
  · cases hok
    exact ⟨.refl s, rfl⟩
  · simp only at hok
    split at hok
    · cases hok
      exact ⟨.refl s, rfl⟩
    · split at hok
      · cases hok
      · rename_i inp hinp
        split at hok
        · cases hok
          exact ⟨.refl s, rfl⟩
        · cases hok
          exact ⟨⟨rfl, .setWriteInp hact hinp _⟩, rfl⟩

theorem setStep_frame {p : SetPc} {next : Option SetPc} (hstep : s.setStep p = .ok (s', next)) :
    Frame true s s' ∧ s'.writeSuspended = s.writeSuspended := by
  cases p with
  | readTotreq =>
    obtain ⟨r, htest, hok⟩ := bind_eq_ok.mp hstep
    obtain ⟨-, ⟨rfl, -⟩ | ⟨id, a, rfl, -⟩⟩ := testAction_eq_ok htest
    · cases hok
      exact ⟨.refl s, rfl⟩
    · simp only at hok
      split at hok
      · cases hok
        exact ⟨.refl s, rfl⟩
      · split at hok <;> cases hok
        exact ⟨.refl s, rfl⟩
  | compare totreq =>
    obtain ⟨⟨id, a, inp⟩, -, hok⟩ := bind_eq_ok.mp hstep
    cases hok
    exact ⟨.refl s, rfl⟩
  | store =>
    obtain ⟨⟨id, a⟩, hd, hok⟩ := bind_eq_ok.mp hstep
    obtain ⟨-, hact⟩ := derefAction_eq_ok.mp hd
    cases hok
    exact ⟨⟨rfl, .store _ hact rfl (fun h => h) nofun⟩, rfl⟩

/-- How a step of a thread moves the word it may hold: it keeps it, takes
it when it is free, or gives it back. -/
inductive Tags (tag tag' : Option Int) (w w' : Int) : Prop where
  | keep (htag : tag' = tag) (hword : w' = w)
  | take (v : Int) (hout : tag = none) (hin : tag' = some v) (hfree : w = 0) (htaken : w' = v)
  | give (v : Int) (hin : tag = some v) (hout : tag' = none) (hgiven : w = v → w' = 0)

theorem Holds.symm {tag other : Option Int} {w : Int} (h : Holds tag other w) : Holds other tag w :=
  ⟨h.alone.symm, by
    obtain ⟨rfl | rfl, hword⟩ := h <;> simpa using hword⟩

theorem Holds.move {tag tag' other : Option Int} {w w' : Int} (h : Holds tag other w)
    (hother : other ≠ some 0) (hmove : Tags tag tag' w w') : Holds tag' other w' := by
  obtain ⟨halone, hword⟩ := h
  cases hmove with
  | keep htag hw =>
    subst htag hw
    exact ⟨halone, hword⟩
  | take v hout hin hfree htaken =>
    subst hout hin hfree htaken
    have hnone : other = none := by
      cases other with
      | none => rfl
      | some u => exact absurd (congrArg some hword).symm hother
    exact ⟨Or.inr hnone, rfl⟩
  | give v hin hout hgiven =>
    subst hin hout
    have hnone : other = none := halone.resolve_left nofun
    subst hnone
    exact ⟨Or.inl rfl, hgiven hword⟩

theorem syncTag_ne_zero (o : Option SyncPc) : o.bind syncTag ≠ some 0 := by
  cases o with
  | none => nofun
  | some p =>
    show syncTag p ≠ some 0
    unfold syncTag
    split <;> decide

theorem foregroundTag_ne_zero (pc : ForegroundPc) : foregroundTag pc ≠ some 0 := by
  unfold foregroundTag
  split
  case h_11 p _ => exact syncTag_ne_zero (some p)
  all_goals decide

theorem syncStep_frame {p : SyncPc} {next : Option SyncPc}
    (hwrite : syncPush p ≠ none → IsWrite s.action) (hstep : s.syncStep p = .ok (s', next)) :
    Frame false s s' ∧
      Tags (syncTag p) (next.bind syncTag) s.writeSuspended s'.writeSuspended := by
  cases p with
  | lockHandle =>
    cases hstep
    exact ⟨⟨rfl, .same⟩, .keep (by split <;> rfl) rfl⟩
  | checkFile =>
    simp only [syncStep] at hstep
    split at hstep
    · cases hstep
      exact ⟨.refl s, .keep rfl rfl⟩
    · obtain ⟨_, -, hstep⟩ := bind_eq_ok.mp hstep
      split at hstep
      · cases hstep
        exact ⟨.refl s, .keep rfl rfl⟩
      · split at hstep <;> cases hstep <;> exact ⟨.refl s, .keep rfl rfl⟩
  | lockAction =>
    obtain ⟨_, -, hok⟩ := bind_eq_ok.mp hstep
    cases hok
    exact ⟨⟨rfl, .same⟩, .keep (by split <;> rfl) rfl⟩
  | suspendWrites =>
    obtain ⟨_, -, hok⟩ := bind_eq_ok.mp hstep
    cases hok
    refine ⟨⟨rfl, .same⟩, ?_⟩
    by_cases hw : s.writeSuspended = 0
    · rw [cas_of_eq hw]
      exact .take 1 rfl rfl hw rfl
    · rw [cas_of_ne hw]
      exact .keep rfl rfl
  | testAction =>
    obtain ⟨r, -, hok⟩ := bind_eq_ok.mp hstep
    split at hok
    · cases hok
      exact ⟨.refl s, .keep (by split <;> rfl) rfl⟩
    · cases hok
      exact ⟨.refl s, .keep rfl rfl⟩
  | awaitComplete =>
    obtain ⟨_, -, hok⟩ := bind_eq_ok.mp hstep
    cases hok
    exact ⟨.refl s, .keep (by split <;> rfl) rfl⟩
  | lowSync =>
    obtain ⟨⟨s₁, p⟩, hsync, hok⟩ := bind_eq_ok.mp hstep
    cases hok
    obtain ⟨hframe, hws⟩ := lowEfSync_frame hsync
    exact ⟨hframe, .keep (by cases p <;> rfl) hws⟩
  | lowSyncPush p =>
    obtain ⟨⟨s₁, p'⟩, hpush, hok⟩ := bind_eq_ok.mp hstep
    cases hok
    obtain ⟨hframe, hws⟩ := pushStep_frame (hwrite fun h => by cases h) hpush
    exact ⟨hframe, .keep (by cases p' <;> rfl) hws⟩
  | fsync =>
    obtain ⟨r, htest, hok⟩ := bind_eq_ok.mp hstep
    obtain ⟨-, ⟨rfl, -⟩ | ⟨id, a, rfl, -⟩⟩ := testAction_eq_ok htest
    · cases hok
      exact ⟨.refl s, .keep rfl rfl⟩
    · simp only at hok
      split at hok
      · cases hok
        exact ⟨.refl s, .keep rfl rfl⟩
      · split at hok <;> cases hok
        exact ⟨.refl s, .keep rfl rfl⟩
  | fsyncPush p =>
    obtain ⟨⟨s₁, p'⟩, hpush, hok⟩ := bind_eq_ok.mp hstep
    cases hok
    obtain ⟨hframe, hws⟩ := pushStep_frame (hwrite fun h => by cases h) hpush
    exact ⟨hframe, .keep (by cases p' <;> rfl) hws⟩
  | resumeWrites =>
    obtain ⟨_, -, hok⟩ := bind_eq_ok.mp hstep
    cases hok
    exact ⟨⟨rfl, .same⟩, .give 1 rfl rfl fun h1 => cas_word_of_eq h1⟩
  | unlockAction =>
    obtain ⟨_, -, hok⟩ := bind_eq_ok.mp hstep
    cases hok
    exact ⟨⟨rfl, .same⟩, .keep rfl rfl⟩
  | unlockHandle =>
    cases hstep
    exact ⟨⟨rfl, .same⟩, .keep rfl rfl⟩

/-! ### Who frees and who allocates -/

/-- How a step moves the action of a thread that clears the pointer after
it (`clears`), or does not. -/
inductive Owns (clears clears' : Bool) (p p' : ActionPtr) : Prop where
  | keep (hclears : clears' = clears) (hkeeps : Keeps p p')
  | free (hout : clears = false) (hin : clears' = true) (hlive : p ≠ .freed ∧ p ≠ .null)
      (hfreed : p' = .freed)
  | clear (hin : clears = true) (hout : clears' = false) (hnull : p' = .null)

/-- `free_file_action` has freed the action and not yet cleared the
pointer. -/
def freeSetNull : FreePc → Bool
  | .setNull => true
  | _ => false

theorem freeStep_owns {p : FreePc} {next : Option FreePc} (hstep : s.freeStep p = .ok (s', next)) :
    Owns (freeSetNull p) (next.any freeSetNull) s.action s'.action ∧
      (next = some .release → s'.action = .null) ∧ (next = none → s'.action = s.action ∧ p = .release) := by
  cases p with
  | acquire expected =>
    obtain ⟨_, -, hok⟩ := bind_eq_ok.mp hstep
    cases hok
    refine ⟨.keep (by split <;> rfl) (.refl _), ?_, nofun⟩
    split <;> exact nofun
  | cleanup =>
    obtain ⟨⟨id, a⟩, hd, hok⟩ := bind_eq_ok.mp hstep
    obtain ⟨-, hact⟩ := derefAction_eq_ok.mp hd
    simp only at hok
    split at hok
    · cases hok
    · cases hok
      exact ⟨.free rfl rfl (by simp [hact]) rfl, nofun, nofun⟩
  | setNull =>
    obtain ⟨_, -, hok⟩ := bind_eq_ok.mp hstep
    cases hok
    exact ⟨.clear rfl rfl rfl, fun _ => rfl, nofun⟩
  | release =>
    obtain ⟨_, -, hok⟩ := bind_eq_ok.mp hstep
    cases hok
    exact ⟨.keep rfl (.refl _), nofun, fun _ => ⟨rfl, rfl⟩⟩

/-- Everything but the action and its guard is left alone. -/
theorem freeStep_rest {p : FreePc} {next : Option FreePc} (hstep : s.freeStep p = .ok (s', next)) :
    s' = { s with action := s'.action, preventActionMutation := s'.preventActionMutation } := by
  cases p with
  | acquire expected =>
    obtain ⟨_, -, hok⟩ := bind_eq_ok.mp hstep
    cases hok
    rfl
  | cleanup =>
    obtain ⟨⟨id, a⟩, hd, hok⟩ := bind_eq_ok.mp hstep
    simp only at hok
    split at hok <;> cases hok
    rfl
  | setNull =>
    obtain ⟨_, -, hok⟩ := bind_eq_ok.mp hstep
    cases hok
    rfl
  | release =>
    obtain ⟨_, -, hok⟩ := bind_eq_ok.mp hstep
    cases hok
    rfl

/-- A closing task owns the action it frees, and moves neither the
foreground thread nor `_write_suspended`. -/
theorem closeStep_owns {closeFails : Bool} {p : CloseJob} {next : Option CloseJob}
    (hstep : s.closeStep closeFails p = .ok (s', next)) :
    Owns (closeSetNull p) (next.any closeSetNull) s.action s'.action ∧
      s'.foreground = s.foreground ∧ s'.slowSync = s.slowSync ∧ s'.fileCloses = s.fileCloses ∧
      s'.writeSuspended = s.writeSuspended := by
  cases p with
  | start =>
    obtain ⟨r, htest, hok⟩ := bind_eq_ok.mp hstep
    obtain ⟨-, ⟨rfl, -⟩ | ⟨id, a, rfl, hact⟩⟩ := testAction_eq_ok htest
    · cases hok
      exact ⟨.keep rfl (.refl _), rfl, rfl, rfl, rfl⟩
    · cases hok
      exact ⟨.keep rfl (.of_store hact rfl rfl), rfl, rfl, rfl, rfl⟩
  | publish ret =>
    obtain ⟨⟨id, a⟩, hd, hok⟩ := bind_eq_ok.mp hstep
    obtain ⟨-, hact⟩ := derefAction_eq_ok.mp hd
    cases hok
    exact ⟨.keep rfl (.of_store hact rfl rfl), rfl, rfl, rfl, rfl⟩
  | complete =>
    obtain ⟨⟨id, a⟩, hd, hok⟩ := bind_eq_ok.mp hstep
    obtain ⟨-, hact⟩ := derefAction_eq_ok.mp hd
    cases hok
    exact ⟨.keep rfl (.of_store hact rfl rfl), rfl, rfl, rfl, rfl⟩
  | closeStatus =>
    obtain ⟨_, -, hok⟩ := bind_eq_ok.mp hstep
    split at hok
    · cases hok
      exact ⟨.keep rfl (.refl _), rfl, rfl, rfl, rfl⟩
    · obtain ⟨r, -, hok⟩ := bind_eq_ok.mp hok
      split at hok
      · cases hok
        exact ⟨.keep rfl (.refl _), rfl, rfl, rfl, rfl⟩
      · split at hok
        · cases hok
          exact ⟨.keep rfl (.refl _), rfl, rfl, rfl, rfl⟩
        · split at hok <;> cases hok <;> exact ⟨.keep rfl (.refl _), rfl, rfl, rfl, rfl⟩
  | lockHandle =>
    cases hstep
    exact ⟨.keep (by split <;> rfl) (.refl _), rfl, rfl, rfl, rfl⟩
  | cleanup =>
    simp only [closeStep] at hstep
    split at hstep
    · cases hstep
    · obtain ⟨_, -, hok⟩ := bind_eq_ok.mp hstep
      cases hok
      exact ⟨.keep (by split <;> rfl) (.refl _), rfl, rfl, rfl, rfl⟩
  | freeing p k =>
    obtain ⟨⟨s₁, p'⟩, hfree, hok⟩ := bind_eq_ok.mp hstep
    have howns := (freeStep_owns hfree).1
    have hframe : s₁.foreground = s.foreground ∧ s₁.slowSync = s.slowSync ∧
        s₁.fileCloses = s.fileCloses ∧ s₁.writeSuspended = s.writeSuspended := by
      rw [freeStep_rest hfree]
      exact ⟨rfl, rfl, rfl, rfl⟩
    have hsame : closeSetNull (.freeing p k) = freeSetNull p := by cases p <;> rfl
    cases p' with
    | none => cases k <;> cases hok <;> exact ⟨hsame ▸ howns, hframe⟩
    | some p' =>
      have hsame' : closeSetNull (.freeing p' k) = freeSetNull p' := by cases p' <;> rfl
      cases hok
      refine ⟨?_, hframe⟩
      rw [Option.any_some] at howns ⊢
      rwa [hsame, hsame']
  | freeRecord =>
    obtain ⟨_, -, hok⟩ := bind_eq_ok.mp hstep
    cases hok
    exact ⟨.keep rfl (.refl _), rfl, rfl, rfl, rfl⟩
  | clearSlot =>
    cases hstep
    exact ⟨.keep rfl (.refl _), rfl, rfl, rfl, rfl⟩
  | unlockHandle =>
    cases hstep
    exact ⟨.keep rfl (.refl _), rfl, rfl, rfl, rfl⟩

/-- A step of `alloc_file_action` keeps the action, or puts a new one where
there is none. -/
theorem allocStep_action {oper : FileOper} {p : AllocPc} {next : Option AllocPc}
    (hstep : s.allocStep oper p = .ok (s', next)) :
    (s'.action = s.action ∧ (p = .release → next = none)) ∨
      (p = .init ∧ next = some .release ∧ s'.action = .live s.nextId (eioCmdInit oper)) := by
  cases p with
  | acquire expected =>
    obtain ⟨_, -, hok⟩ := bind_eq_ok.mp hstep
    cases hok
    exact Or.inl ⟨rfl, nofun⟩
  | init =>
    obtain ⟨_, -, hok⟩ := bind_eq_ok.mp hstep
    cases hok
    exact Or.inr ⟨rfl, rfl, rfl⟩
  | release =>
    obtain ⟨_, -, hok⟩ := bind_eq_ok.mp hstep
    cases hok
    exact Or.inl ⟨rfl, fun _ => rfl⟩

theorem allocStep_rest {oper : FileOper} {p : AllocPc} {next : Option AllocPc}
    (hstep : s.allocStep oper p = .ok (s', next)) :
    s' = { s with
      action := s'.action
      preventActionMutation := s'.preventActionMutation
      nextId := s'.nextId } := by
  cases p <;>
  · obtain ⟨_, -, hok⟩ := bind_eq_ok.mp hstep
    cases hok
    rfl

theorem typed_eioCmdInit (id : Nat) (oper : FileOper) : Typed (.live id (eioCmdInit oper)) := by
  intro hsome
  by_cases hoper : oper = .operWrite
  · exact hoper
  · simp [eioCmdInit, hoper] at hsome

/-- One thread moves and the others keep what they hold. -/
theorem Ownership.move (h : Ownership s) {clears clears' : Bool}
    (howns : Owns clears clears' s.action s'.action)
    (hcount : setNulls s' + clears.toNat = setNulls s + clears'.toNat)
    (hawait : awaitsAlloc s'.foreground = true → s'.action = .null) : Ownership s' := by
  have hset := h.setNull
  cases howns with
  | keep hclears hkeeps =>
    subst hclears
    refine ⟨?_, hawait, hkeeps.typed h.typed⟩
    rw [show setNulls s' = setNulls s by omega, hset]
    simp only [hkeeps.freed]
  | free hout hin hlive hfreed =>
    subst hout hin
    rw [if_neg hlive.1] at hset
    refine ⟨?_, hawait, by rw [hfreed]; trivial⟩
    rw [if_pos hfreed]
    simpa [hset] using hcount
  | clear hin hout hnull =>
    subst hin hout
    refine ⟨?_, hawait, by rw [hnull]; trivial⟩
    rw [if_neg (by rw [hnull]; nofun)]
    simp only [Bool.toNat_true, Bool.toNat_false] at hcount
    split at hset <;> omega

/-- Only the foreground thread brings an action. -/
theorem Owns.null {clears clears' : Bool} {p p' : ActionPtr} (h : Owns clears clears' p p')
    (hnull : p = .null) : p' = .null := by
  cases h with
  | keep _ hkeeps => exact hkeeps.null.mpr hnull
  | free _ _ hlive _ => exact absurd hnull hlive.2
  | clear _ _ hnull' => exact hnull'

end Efio.Proofs.Evio
