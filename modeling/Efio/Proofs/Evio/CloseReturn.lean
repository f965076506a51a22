import Efio.Proofs.Evio.CleanDisk
import Efio.Proofs.Evio.Replay

/-!
# `Efio.Proofs.Evio.CloseReturn`: what a close that returns leaves on disk

The runs of `ef_write`, `ef_sync` and one `ef_close_immediate` have three
parts: up to the accepted close (`WriteRun`); while the close waits for its
tasks (`Waiting`); and from the moment it frees the write action
(`Leaving`). At that moment nothing but `fsync`s is on its way and the page
is clean, so the disk file stays what it is, whatever the other threads
still do with the action that is gone.

`closeImmediate_onDisk`: if no system call made before the return failed or
was short, the file contains the accepted bytes. `not_onDisk_of_failedWrite`
is a run in which the `pwrite` of the last page fails: nothing is reported.
-/

set_option autoImplicit false

namespace Efio.Proofs.Evio

open Efio.Lib
open Efio.Evio
open Efio.Evio.PipelineState
open Efio.Spec
open Efio.Spec.Backlog
open Efio.Proofs.Spec

variable {E : Env} {s s' : PipelineState} {f : EfFile} {oflag : OFlag} {init : List UInt8}

/-! ### Definitions -/

/-- Nothing but `ef_write`, `ef_sync` and `ef_close_immediate` is called. -/
def WritesThenCloses (_ : PipelineState) : PipelineLabel → Prop
  | .call (.efRead _) _ | .call (.efClose false) _ => False
  | _ => True

instance : DecidableRel WritesThenCloses := fun _ l =>
  match l with
  | .call (.efRead _) _ | .call (.efClose false) _ => inferInstanceAs (Decidable False)
  | .call (.efWrite _) _ | .call .efSync _ | .call (.efClose true) _ | .foreground _ _ | .slowSync
  | .fileWriter | .writeJob _ | .readJob _ | .closeJob _ _ => inferInstanceAs (Decidable True)

/-- The step from `s` to `s'` is the return of an `ef_close_immediate` that
gives 0. -/
def CloseReturns (E : Env) (s s' : PipelineState) : Prop :=
  (∃ v closeFails, PipelineState.step E (.foreground v closeFails) s = some s') ∧
    (∃ j, s.foreground = .closing j) ∧ s'.foreground = .idle

/-- The close waits for its tasks. -/
def waitPlace : ForegroundPc → Bool
  | .freeing _ (.closeSync true) | .syncing _ (.close true) | .setting _ (.close true)
  | .closeTest true | .closeDrop true | .freeing (.acquire _) (.closeAlloc true)
  | .freeing .cleanup (.closeAlloc true) => true
  | _ => false

/-- The close has been accepted and waits. -/
structure Waiting (E : Env) (f : EfFile) (s : PipelineState) : Prop where
  draining : Draining s
  replays : Replays E f s
  reads : s.fileReads = []
  place : waitPlace s.foreground = true
  drops : ∀ p, s.foreground = .freeing p (.closeSync true) → ¬ IsWrite s.action

/-- The places behind the free of the write action. -/
def leavePlace : ForegroundPc → Bool
  | .freeing .setNull (.closeAlloc true) | .freeing .release (.closeAlloc true)
  | .allocating _ .operClose (.close true) | .closeDispatch true | .closing _ | .idle => true
  | _ => false

/-- The close action has been allocated, and `ef_file_close` has not yet
looked at it. -/
def holdsClose : ForegroundPc → Bool
  | .allocating .release _ _ | .closeDispatch _ | .closing .start => true
  | _ => false

/-- `ef_file_close` has stored `FILE_NOT_OPEN`. -/
def pastStore : ForegroundPc → Bool
  | .closing j => !beforeStore j
  | .idle => true
  | _ => false

/-- No action has the input of a write request. -/
def NoInput (p : ActionPtr) : Prop := ∀ id a, p = .live id a → a.writeInp = none

/-- The write action is gone. -/
structure Leaving (E : Env) (oflag : OFlag) (init : List UInt8) (s : PipelineState) : Prop where
  reads : s.fileReads = []
  closes : s.fileCloses = []
  clean : s.file.buf.isDirty = false
  input : NoInput s.action
  jobs : ∀ j ∈ s.fileWrites, OnlySyncs (jobRest [] j)
  disk : FullBefore E s.file.fd.calls → OnDisk oflag init (acceptedBytes s.history) s.file.fd.data
  place : leavePlace s.foreground = true
  held : holdsClose s.foreground = true → ∃ id a, s.action = .live id a
  status : pastStore s.foreground = true → s.status ≠ .fileOpen

/-! ### Behind the foreground thread, without a write action -/

/-- A store into the action that leaves its input alone, or none. -/
def Touched (p p' : ActionPtr) : Prop :=
  p' = p ∨ ∃ id a a', p = .live id a ∧ p' = .live id a' ∧ a'.writeInp = a.writeInp

theorem Touched.noInput {p p' : ActionPtr} (h : Touched p p') (hno : NoInput p) : NoInput p' := by
  obtain rfl | ⟨id, a, a', hp, rfl, hinp⟩ := h
  · exact hno
  · intro i b heq
    cases heq
    exact hinp.trans (hno _ _ hp)

theorem Touched.live {p p' : ActionPtr} (h : Touched p p') (hlive : ∃ id a, p = .live id a) :
    ∃ id a, p' = .live id a := by
  obtain rfl | ⟨id, a, a', hp, rfl, hinp⟩ := h
  · exact hlive
  · exact ⟨_, _, rfl⟩

theorem NoInput.not_derefWriteInp (h : NoInput s.action) {id : Nat} {a : FileCmd} {inp : WriteOper}
    (hd : s.derefWriteInp = .ok (id, a, inp)) : False := by
  obtain ⟨-, hact, hinp⟩ := derefWriteInp_eq_ok.mp hd
  rw [h _ _ hact] at hinp
  cases hinp

/-- What the other threads change when there is no write action. -/
structure Beside (s s' : PipelineState) : Prop where
  rest : s' = { s with
    action := s'.action
    preventActionMutation := s'.preventActionMutation
    writeSuspended := s'.writeSuspended
    handleToFileAction := s'.handleToFileAction
    fileWriterQueue := s'.fileWriterQueue
    fileWriter := s'.fileWriter
    fileWrites := s'.fileWrites
    slowSync := s'.slowSync
    pushed := s'.pushed
    executed := s'.executed
    file := s'.file }
  action : Touched s.action s'.action
  data : s'.file.fd.data = s.file.fd.data
  calls : s'.file.fd.calls = s.file.fd.calls
  clean : s'.file.buf.isDirty = s.file.buf.isDirty

theorem Beside.refl (s : PipelineState) : Beside s s := ⟨rfl, Or.inl rfl, rfl, rfl, rfl⟩

theorem Leaving.beside (h : Leaving E oflag init s) (hb : Beside s s')
    (hjobs : ∀ j ∈ s'.fileWrites, OnlySyncs (jobRest [] j)) : Leaving E oflag init s' := by
  have hfg : s'.foreground = s.foreground := by rw [hb.rest]
  have hstatus : s'.status = s.status := by rw [hb.rest]
  have hhistory : s'.history = s.history := by rw [hb.rest]
  refine ⟨?_, ?_, hb.clean.trans h.clean, hb.action.noInput h.input, hjobs, ?_, hfg ▸ h.place, ?_, ?_⟩
  · exact (show s'.fileReads = s.fileReads by rw [hb.rest]).trans h.reads
  · exact (show s'.fileCloses = s.fileCloses by rw [hb.rest]).trans h.closes
  · rw [hb.calls, hb.data, hhistory]
    exact h.disk
  · rw [hfg]
    exact fun hheld => hb.action.live (h.held hheld)
  · rw [hfg, hstatus]
    exact h.status

theorem pushStep_beside (hno : NoInput s.action) {p : PushPc} {next : Option PushPc}
    (hstep : s.pushStep p = .ok (s', next)) : Beside s s' ∧ s'.fileWrites = s.fileWrites := by
  cases p with
  | count w =>
    obtain ⟨_, hd, -⟩ := bind_eq_ok.mp hstep
    exact (hno.not_derefWriteInp hd).elim
  | enqueue w =>
    obtain ⟨_, hd, -⟩ := bind_eq_ok.mp hstep
    exact (hno.not_derefWriteInp hd).elim
  | init id =>
    obtain ⟨⟨id', a⟩, hd, hok⟩ := bind_eq_ok.mp hstep
    obtain ⟨-, hact⟩ := derefAction_eq_ok.mp hd
    cases hok
    exact ⟨⟨rfl, Or.inr ⟨_, _, _, hact, rfl, rfl⟩, rfl, rfl, rfl⟩, rfl⟩
  | post id =>
    cases hstep
    exact ⟨⟨rfl, Or.inl rfl, rfl, rfl, rfl⟩, rfl⟩

theorem lowEfSync_beside (hno : NoInput s.action) {next : Option PushPc}
    (hstep : s.lowEfSync = .ok (s', next)) : s' = s := by
  obtain ⟨r, htest, hok⟩ := bind_eq_ok.mp hstep
  obtain ⟨-, ⟨rfl, -⟩ | ⟨id, a, rfl, hact⟩⟩ := testAction_eq_ok htest
  · cases hok
    rfl
  · simp only [hno _ _ hact] at hok
    split at hok <;> cases hok
    rfl

theorem slowSyncStep_beside (hno : NoInput s.action) (hstep : s.slowSyncStep = some (.ok s')) :
    Beside s s' ∧ s'.fileWrites = s.fileWrites := by
  obtain ⟨-, rfl⟩ | ⟨p, s₁, next, -, hsync, rfl⟩ := slowSyncStep_cases hstep
  · exact ⟨⟨rfl, Or.inl rfl, rfl, rfl, rfl⟩, rfl⟩
  · have hother : ∀ p, syncHolds p = true → (none : Option PushPc) = none := fun _ _ => rfl
    have hpiece : Beside s s₁ ∧ s₁.fileWrites = s.fileWrites :=
      syncStep_rule (R := fun s₁ _ => Beside s s₁ ∧ s₁.fileWrites = s.fileWrites)
        (hother _) hsync
        (fun _ _ _ _ => ⟨⟨rfl, Or.inl rfl, rfl, rfl, rfl⟩, rfl⟩)
        (fun _ _ _ _ _ hp => pushStep_beside hno hp)
        (fun _ _ s₁ _ hlow => by
          obtain rfl := lowEfSync_beside hno hlow
          exact ⟨.refl s₁, rfl⟩)
        fun _ _ _ _ _ => ⟨.refl s, rfl⟩
    obtain ⟨⟨hrest, hact, hdata, hcalls, hclean⟩, hjobs⟩ := hpiece
    refine ⟨⟨?_, hact, hdata, hcalls, hclean⟩, hjobs⟩
    conv => lhs; rw [hrest]

/-- `file_writer` can still fire, but not drain. -/
theorem fileWriterStep_beside (hno : NoInput s.action) (hstep : s.fileWriterStep = some (.ok s')) :
    Beside s s' ∧ (s'.fileWrites = s.fileWrites ∨ s'.fileWrites = s.fileWrites ++ [.queued]) := by
  unfold fileWriterStep at hstep
  split at hstep
  · split at hstep <;> cases hstep <;> exact ⟨⟨rfl, Or.inl rfl, rfl, rfl, rfl⟩, Or.inl rfl⟩
  · obtain ⟨_, hd, -⟩ := bind_eq_ok.mp (Option.some.inj hstep)
    exact (hno.not_derefWriteInp hd).elim
  · obtain ⟨_, hd, -⟩ := bind_eq_ok.mp (Option.some.inj hstep)
    exact (hno.not_derefWriteInp hd).elim
  · obtain ⟨_, hd, -⟩ := bind_eq_ok.mp (Option.some.inj hstep)
    exact (hno.not_derefWriteInp hd).elim
  · cases hstep
    exact ⟨⟨rfl, Or.inl rfl, rfl, rfl, rfl⟩, Or.inr rfl⟩
  · obtain ⟨_, hd, -⟩ := bind_eq_ok.mp (Option.some.inj hstep)
    exact (hno.not_derefWriteInp hd).elim

/-- An `fsync` of a clean page leaves the disk file alone. -/
theorem execTask_of_clean {w : WriteTask} {f' : EfFile} {n : Nat} (hcmd : w.cmd = .fileFsyncEvt)
    (hclean : f.buf.isDirty = false) (hexec : execTask E f w = .ok (f', n)) :
    f'.fd.data = f.fd.data ∧ f'.fd.calls = f.fd.calls ∧ f'.buf.isDirty = false := by
  simp only [execTask, hcmd] at hexec
  obtain ⟨f₁, hsync, hok⟩ := bind_eq_ok.mp hexec
  cases hok
  obtain ⟨f₂, hbuf, hok⟩ := bind_eq_ok.mp hsync
  have hsame := syncBufToFile_of_clean (E := E) { f with fd := f.fd.clearErrno } hclean
  cases hsame.symm.trans hbuf
  simp only at hok
  split at hok
  · cases hok
    exact ⟨rfl, rfl, hclean⟩
  · split at hok <;> cases hok <;> exact ⟨rfl, rfl, hclean⟩

/-- The tasks that are left are `fsync`s of a clean page. -/
theorem writeJobStep_beside (hno : NoInput s.action) (hclean : s.file.buf.isDirty = false)
    {j : WriteJob} (hsyncs : OnlySyncs (jobRest [] j)) {next : Option WriteJob}
    (hstep : s.writeJobStep E j = .ok (s', next)) :
    Beside s s' ∧ s'.fileWrites = s.fileWrites ∧ ∀ q, next = some q → OnlySyncs (jobRest [] q) := by
  have hnil : ∀ q, jobRest [] q = [] → OnlySyncs (jobRest [] q) := by
    intro q hq w hw
    rw [hq] at hw
    cases hw
  cases j with
  | queued =>
    obtain ⟨_, hd, -⟩ := bind_eq_ok.mp hstep
    exact (hno.not_derefWriteInp hd).elim
  | items id rest bytes =>
    cases rest with
    | nil =>
      cases hstep
      refine ⟨.refl s, rfl, fun q hq => ?_⟩
      cases hq
      exact hnil _ rfl
    | cons w rest =>
      obtain ⟨_, -, hok⟩ := bind_eq_ok.mp hstep
      obtain ⟨⟨file, n⟩, hexec, hok⟩ := bind_eq_ok.mp hok
      cases hok
      obtain ⟨hdata, hcalls, hclean'⟩ :=
        execTask_of_clean (hsyncs w List.mem_cons_self) hclean hexec
      refine ⟨⟨rfl, Or.inl rfl, hdata, hcalls, hclean'.trans hclean.symm⟩, rfl, fun q hq => ?_⟩
      cases hq
      exact fun v hv => hsyncs v (List.mem_cons_of_mem _ hv)
  | finish id bytes =>
    obtain ⟨⟨id', a⟩, hd, hok⟩ := bind_eq_ok.mp hstep
    obtain ⟨-, hact⟩ := derefAction_eq_ok.mp hd
    cases hok
    refine ⟨⟨rfl, Or.inr ⟨_, _, _, hact, rfl, rfl⟩, rfl, rfl, rfl⟩, rfl, fun q hq => ?_⟩
    cases hq
    exact hnil _ rfl
  | post id =>
    cases hstep
    exact ⟨⟨rfl, Or.inl rfl, rfl, rfl, rfl⟩, rfl, nofun⟩

/-! ### From the free of the write action on -/

/-- The foreground thread behind the free of the write action. -/
theorem Leaving.goto (h : Leaving E oflag init s)
    (hrest : s' = { s with
      recordLive := s'.recordLive
      slot := s'.slot
      status := s'.status
      action := s'.action
      preventActionMutation := s'.preventActionMutation
      handleToFileAction := s'.handleToFileAction
      nextId := s'.nextId
      file := s'.file
      foreground := s'.foreground })
    (hinput : NoInput s'.action)
    (hfile : s'.file = s.file ∨
      s'.file = { s.file with buf := { s.file.buf with buffer := none } })
    (hplace : leavePlace s'.foreground = true)
    (hheld : holdsClose s'.foreground = true → ∃ id a, s'.action = .live id a)
    (hstatus : pastStore s'.foreground = true → s'.status ≠ .fileOpen) : Leaving E oflag init s' := by
  have hsame : s'.file.fd = s.file.fd ∧ s'.file.buf.isDirty = s.file.buf.isDirty := by
    obtain hfile | hfile := hfile <;> rw [hfile] <;> exact ⟨rfl, rfl⟩
  refine ⟨?_, ?_, hsame.2.trans h.clean, hinput, ?_, ?_, hplace, hheld, hstatus⟩
  · exact (show s'.fileReads = s.fileReads by rw [hrest]).trans h.reads
  · exact (show s'.fileCloses = s.fileCloses by rw [hrest]).trans h.closes
  · rw [show s'.fileWrites = s.fileWrites by rw [hrest]]
    exact h.jobs
  · rw [hsame.1, show s'.history = s.history by rw [hrest]]
    exact h.disk

theorem noInput_freed : NoInput .freed := fun _ _ h => by cases h

theorem noInput_null : NoInput .null := fun _ _ h => by cases h

/-- `free_file_action` brings no action. -/
theorem freeStep_noInput (hno : NoInput s.action) {p : FreePc} {next : Option FreePc}
    (hstep : s.freeStep p = .ok (s', next)) : NoInput s'.action := by
  cases p with
  | acquire expected =>
    obtain ⟨_, -, hok⟩ := bind_eq_ok.mp hstep
    cases hok
    exact hno
  | cleanup =>
    obtain ⟨⟨i, b⟩, -, hok⟩ := bind_eq_ok.mp hstep
    simp only at hok
    split at hok <;> cases hok
    exact noInput_freed
  | setNull =>
    obtain ⟨_, -, hok⟩ := bind_eq_ok.mp hstep
    cases hok
    exact noInput_null
  | release =>
    obtain ⟨_, -, hok⟩ := bind_eq_ok.mp hstep
    cases hok
    exact hno

/-- `ef_file_close`, run by the call itself. -/
theorem Leaving.closing (h : Leaving E oflag init s) {closeFails : Bool} {j : CloseJob}
    (hfg : s.foreground = .closing j) {next : Option CloseJob} {s₁ : PipelineState}
    (hstep : s.closeStep closeFails j = .ok (s₁, next)) :
    Leaving E oflag init { s₁ with foreground := next.elim .idle .closing } := by
  have hopen : pastStore s.foreground = true → s.status ≠ .fileOpen := h.status
  rw [hfg] at hopen
  cases j with
  | start =>
    obtain ⟨id, a, hact⟩ := h.held (by rw [hfg]; rfl)
    obtain ⟨r, htest, hok⟩ := bind_eq_ok.mp hstep
    obtain ⟨-, ⟨rfl, hnull⟩ | ⟨id', a', rfl, hact'⟩⟩ := testAction_eq_ok htest
    · cases hnull.symm.trans hact
    · cases hok
      exact h.goto rfl (Touched.noInput (Or.inr ⟨_, _, _, hact', rfl, rfl⟩) h.input) (Or.inr rfl) rfl
        (by rintro ⟨⟩) (by rintro ⟨⟩)
  | publish ret =>
    obtain ⟨⟨id, a⟩, hd, hok⟩ := bind_eq_ok.mp hstep
    obtain ⟨-, hact⟩ := derefAction_eq_ok.mp hd
    cases hok
    exact h.goto rfl (Touched.noInput (Or.inr ⟨_, _, _, hact, rfl, rfl⟩) h.input) (Or.inl rfl) rfl
      (by rintro ⟨⟩) fun _ => (by simp)
  | complete =>
    obtain ⟨⟨id, a⟩, hd, hok⟩ := bind_eq_ok.mp hstep
    obtain ⟨-, hact⟩ := derefAction_eq_ok.mp hd
    cases hok
    exact h.goto rfl (Touched.noInput (Or.inr ⟨_, _, _, hact, rfl, rfl⟩) h.input) (Or.inl rfl) rfl
      (by rintro ⟨⟩) fun _ => hopen rfl
  | closeStatus =>
    have hgo : ∀ q, leavePlace q = true → holdsClose q = false →
        Leaving E oflag init { s with foreground := q } := fun q hq hheld =>
      h.goto rfl h.input (Or.inl rfl) hq (fun h => absurd (hheld.symm.trans h) Bool.false_ne_true)
        fun _ => hopen rfl
    obtain ⟨_, -, hok⟩ := bind_eq_ok.mp hstep
    split at hok
    · cases hok
      exact hgo _ rfl rfl
    · obtain ⟨r, -, hok⟩ := bind_eq_ok.mp hok
      split at hok
      · cases hok
        exact hgo _ rfl rfl
      · split at hok
        · cases hok
          exact hgo _ rfl rfl
        · split at hok <;> cases hok <;> exact hgo _ rfl rfl
  | lockHandle =>
    cases hstep
    refine h.goto rfl h.input (Or.inl rfl) rfl ?_ fun _ => hopen rfl
    intro hheld
    simp only [Option.elim] at hheld
    split at hheld <;> cases hheld
  | cleanup =>
    simp only [closeStep] at hstep
    split at hstep
    · cases hstep
    · obtain ⟨_, -, hok⟩ := bind_eq_ok.mp hstep
      cases hok
      refine h.goto rfl h.input (Or.inl rfl) rfl ?_ fun _ => hopen rfl
      intro hheld
      simp only [Option.elim] at hheld
      split at hheld <;> cases hheld
  | freeing p k =>
    obtain ⟨⟨s₂, q⟩, hfree, hok⟩ := bind_eq_ok.mp hstep
    have hinput : NoInput s₂.action := freeStep_noInput h.input hfree
    have hrest := freeStep_rest hfree
    have hstatus : s₂.status ≠ .fileOpen := by
      rw [hrest]
      exact hopen rfl
    rw [hrest] at hinput hstatus hok
    cases q <;> cases k <;> cases hok <;>
      exact h.goto rfl hinput (Or.inl rfl) rfl (by rintro ⟨⟩) fun _ => hstatus
  | freeRecord =>
    obtain ⟨_, -, hok⟩ := bind_eq_ok.mp hstep
    cases hok
    exact h.goto rfl h.input (Or.inl rfl) rfl (by rintro ⟨⟩) fun _ => hopen rfl
  | clearSlot =>
    cases hstep
    exact h.goto rfl h.input (Or.inl rfl) rfl (by rintro ⟨⟩) fun _ => hopen rfl
  | unlockHandle =>
    cases hstep
    exact h.goto rfl h.input (Or.inl rfl) rfl (by rintro ⟨⟩) fun _ => hopen rfl

theorem Leaving.foreground (h : Leaving E oflag init s) {v : View} {closeFails : Bool}
    (hstep : s.foregroundStep E closeFails v = .ok s') : Leaving E oflag init s' := by
  have hplace := h.place
  unfold foregroundStep at hstep
  cases hfg : s.foreground with
  | idle =>
    simp only [hfg] at hstep
    cases hstep
    exact h
  | freeing p k =>
    rw [hfg] at hplace
    simp only [hfg] at hstep
    obtain ⟨⟨s₁, next⟩, hfree, hok⟩ := bind_eq_ok.mp hstep
    have hinput : NoInput s₁.action := freeStep_noInput h.input hfree
    cases p with
    | setNull =>
      cases k <;> try cases hplace
      rename_i immediate
      cases immediate <;> try cases hplace
      obtain ⟨_, -, hfree⟩ := bind_eq_ok.mp hfree
      cases hfree
      cases hok
      exact h.goto rfl hinput (Or.inl rfl) rfl (by rintro ⟨⟩) (by rintro ⟨⟩)
    | release =>
      cases k <;> try cases hplace
      rename_i immediate
      cases immediate <;> try cases hplace
      obtain ⟨_, -, hfree⟩ := bind_eq_ok.mp hfree
      cases hfree
      cases hok
      exact h.goto rfl hinput (Or.inl rfl) rfl (by rintro ⟨⟩) (by rintro ⟨⟩)
    | _ => cases hplace
  | allocating p oper k =>
    rw [hfg] at hplace
    cases oper <;> try cases hplace
    cases k <;> try cases hplace
    rename_i immediate
    cases immediate <;> try cases hplace
    simp only [hfg] at hstep
    obtain ⟨⟨s₁, next⟩, halloc, hok⟩ := bind_eq_ok.mp hstep
    cases hok
    cases p with
    | acquire expected =>
      obtain ⟨_, -, halloc⟩ := bind_eq_ok.mp halloc
      cases halloc
      refine h.goto rfl h.input (Or.inl rfl) rfl ?_ (by rintro ⟨⟩)
      intro hheld
      simp only [Option.elim] at hheld
      split at hheld <;> cases hheld
    | init =>
      obtain ⟨_, -, halloc⟩ := bind_eq_ok.mp halloc
      cases halloc
      refine h.goto rfl ?_ (Or.inl rfl) rfl (fun _ => ⟨_, _, rfl⟩) (by rintro ⟨⟩)
      intro i b heq
      cases heq
      rfl
    | release =>
      have hlive := h.held (by rw [hfg]; rfl)
      obtain ⟨_, -, halloc⟩ := bind_eq_ok.mp halloc
      cases halloc
      exact h.goto rfl h.input (Or.inl rfl) rfl (fun _ => hlive) (by rintro ⟨⟩)
  | closeDispatch immediate =>
    rw [hfg] at hplace
    cases immediate <;> try cases hplace
    have hlive := h.held (by rw [hfg]; rfl)
    simp only [hfg, efCloseStep] at hstep
    cases hstep
    exact h.goto rfl h.input (Or.inl rfl) rfl (fun _ => hlive) (by rintro ⟨⟩)
  | closing j =>
    simp only [hfg] at hstep
    obtain ⟨⟨s₁, next⟩, hclose, hok⟩ := bind_eq_ok.mp hstep
    cases hok
    exact h.closing hfg hclose
  | _ =>
    rw [hfg] at hplace
    cases hplace

/-- Once the file is closed, no call does anything. -/
theorem callStep_of_closed {v : View} {c : Call} (hok : WritesThenCloses s (.call c v))
    (hstatus : s.status ≠ .fileOpen) (hstep : s.callStep E v c = .ok s') : s' = s := by
  cases c with
  | efWrite buf => exact (callStep_efWrite hstep).resolve_right fun h => hstatus h.1
  | efRead nbyte => exact hok.elim
  | efSync => exact (callStep_efSync hstep).resolve_right fun h => hstatus h.1
  | efClose immediate => exact (callStep_efClose hstep).resolve_right fun h => hstatus h.1

theorem Leaving.step (h : Leaving E oflag init s) {l : PipelineLabel} (hok : WritesThenCloses s l)
    (hstep : PipelineState.step E l s = some s') : Leaving E oflag init s' := by
  obtain ⟨-, hrun | ⟨e, -, rfl⟩⟩ := step_eq_some hstep
  · cases l with
    | call c v =>
      obtain ⟨hidle, hcall⟩ := threadStep_call hrun
      have hstatus : s.status ≠ .fileOpen := h.status (by rw [hidle]; rfl)
      obtain rfl := callStep_of_closed hok hstatus hcall
      exact h
    | foreground v closeFails => exact h.foreground (threadStep_foreground hrun).2
    | slowSync =>
      obtain ⟨hbeside, hjobs⟩ := slowSyncStep_beside h.input hrun
      exact h.beside hbeside (hjobs ▸ h.jobs)
    | fileWriter =>
      obtain ⟨hbeside, hjobs | hjobs⟩ := fileWriterStep_beside h.input hrun
      · exact h.beside hbeside (hjobs ▸ h.jobs)
      · refine h.beside hbeside fun j hj => ?_
        rw [hjobs, List.mem_append, List.mem_singleton] at hj
        obtain hj | rfl := hj
        · exact h.jobs j hj
        · exact fun w hw => by cases hw
    | writeJob i =>
      simp only [threadStep] at hrun
      obtain ⟨j, s₁, next, hjob, hj, rfl⟩ := jobStep_eq_some hrun
      obtain ⟨hbeside, hjobs, hnext⟩ :=
        writeJobStep_beside h.input h.clean (h.jobs j (List.mem_of_getElem? hjob)) hj
      have hbeside' : Beside s { s₁ with fileWrites := putJob s.fileWrites i next } :=
        ⟨congrArg (fun x : PipelineState => { x with fileWrites := putJob s.fileWrites i next })
          hbeside.rest, hbeside.action, hbeside.data, hbeside.calls, hbeside.clean⟩
      refine h.beside hbeside' fun q hq => ?_
      cases next with
      | none => exact h.jobs q (List.mem_of_mem_eraseIdx hq)
      | some r =>
        obtain hq | rfl := List.mem_or_eq_of_mem_set hq
        · exact h.jobs q hq
        · exact hnext _ rfl
    | readJob i => cases (threadStep_readJob_nil h.reads i).symm.trans hrun
    | closeJob i closeFails => cases (threadStep_closeJob_nil h.closes i closeFails).symm.trans hrun
  · exact ⟨h.reads, h.closes, h.clean, h.input, h.jobs, h.disk, h.place, h.held, h.status⟩

/-! ### While the close waits -/

/-- A settled backlog has brought every accepted byte into the file. -/
theorem Draining.payload_executed (h : Draining s) (hrest : restOf s.foreground = [])
    (hsettled : Settled (backlog s)) : payload s.executed = acceptedBytes s.history := by
  have hqueue := payload_of_onlySyncs hsettled.queue
  have hwaiting := payload_of_onlySyncs hsettled.waiting
  change payload (s.pushed.drop s.executed.length ++ countedTask (pushOf s)) = [] at hqueue
  change payload (waitingTask (pushOf s)).toList = [] at hwaiting
  have hpushed : s.pushed = s.executed ++ s.pushed.drop s.executed.length := pushed_eq h.inv.flow
  have haccounted := h.accounted
  rw [hrest, List.append_nil] at haccounted
  rw [← haccounted]
  show _ = payload (s.pushed ++ countedTask (pushOf s) ++ (waitingTask (pushOf s)).toList)
    ++ (backlog s).accum
  rw [hsettled.accum, List.append_nil, payload_append, hwaiting, List.append_nil]
  conv => rhs; rw [hpushed, List.append_assoc, payload_append, hqueue, List.append_nil]

/-- With a settled backlog the tasks of `ef_file_write` have only `fsync`s
left. -/
theorem onlySyncs_jobs (h : PipelineInv s) (hsettled : Settled (backlog s)) {j : WriteJob}
    (hj : j ∈ s.fileWrites) : OnlySyncs (jobRest [] j) := by
  obtain ⟨i, hi⟩ := List.mem_iff_getElem?.mp hj
  obtain ⟨id, inp, -, hf, -⟩ := h.flow.job (i := i) hi
  cases j with
  | items id' rest bytes =>
    obtain ⟨hjobs, -, -, hwriter⟩ := hf.job_only (i := i) hi
    have hord := hf.order
    rw [unexecuted_of_token _ _ hwriter, hjobs, List.flatMap_singleton] at hord
    have hdrop : s.pushed.drop s.executed.length = rest ++ inp.wQueue := by
      change s.pushed = s.executed ++ (rest ++ inp.wQueue) at hord
      rw [hord, List.drop_append, List.drop_length, List.nil_append, Nat.sub_self, List.drop_zero]
    intro w hw
    refine hsettled.queue w ?_
    show w ∈ s.pushed.drop s.executed.length ++ countedTask (pushOf s)
    rw [hdrop]
    simp [show w ∈ rest from hw]
  | _ => exact fun w hw => by cases hw

/-- The close goes on without a write action. -/
theorem Waiting.leave (hwritable : oflag.has (O_RDWR ||| O_WRONLY))
    (h : Waiting E (efFileOpen E oflag init) s) (hrest : restOf s.foreground = [])
    (hsettled : Settled (backlog s))
    (hstate : s' = { s with
      action := s'.action
      preventActionMutation := s'.preventActionMutation
      foreground := s'.foreground })
    (hinput : NoInput s'.action) (hplace : leavePlace s'.foreground = true)
    (hheld : holdsClose s'.foreground = false) (hstore : pastStore s'.foreground = false) :
    Leaving E oflag init s' := by
  have hfile : s'.file = s.file := by rw [hstate]
  have hclean : s.file.buf.isDirty = false := hsettled.clean
  refine ⟨?_, ?_, ?_, hinput, ?_, ?_, hplace, ?_, ?_⟩
  · exact (show s'.fileReads = s.fileReads by rw [hstate]).trans h.reads
  · exact (show s'.fileCloses = s.fileCloses by rw [hstate]).trans h.draining.closes
  · rw [hfile]
    exact hclean
  · rw [show s'.fileWrites = s.fileWrites by rw [hstate]]
    exact fun j hj => onlySyncs_jobs h.draining.inv hsettled hj
  · rw [hfile, show s'.history = s.history by rw [hstate]]
    intro hfull
    rw [← h.draining.payload_executed hrest hsettled]
    exact onDisk_of_fullCalls hfull hwritable init h.replays hclean
  · exact fun h => absurd (hheld.symm.trans h) Bool.false_ne_true
  · exact fun h => absurd (hstore.symm.trans h) Bool.false_ne_true

theorem Draining.settled_of (h : Draining s) (hsettled : IsWrite s.action → Settled (backlog s)) :
    Settled (backlog s) := by
  by_cases hwrite : IsWrite s.action
  · exact hsettled hwrite
  · exact h.settled hwrite

/-- What the other threads leave alone while the invariant holds. -/
theorem background_stores (h : PipelineInv s) {l : PipelineLabel}
    (hl : l = .slowSync ∨ l = .fileWriter ∨ ∃ i, l = .writeJob i)
    (hrun : s.threadStep E l = some (.ok s')) :
    s'.foreground = s.foreground ∧ s'.fileReads = s.fileReads ∧ Stores false s.action s'.action := by
  obtain rfl | rfl | ⟨i, rfl⟩ := hl
  · obtain ⟨-, rfl⟩ | ⟨p, s₁, next, hslow, hsync, rfl⟩ := slowSyncStep_cases hrun
    · exact ⟨rfl, rfl, .same⟩
    · obtain ⟨hpush, -⟩ := h.locks.slowSync_push hslow
      have hflow : FlowInv (flowWith s ((syncPush p).or (foregroundPush s.foreground))) :=
        hpush ▸ h.flow
      have hframe := (syncStep_frame (isWrite_of_syncPush hflow) hsync).1
      exact ⟨hframe.foreground, (by rw [hframe.rest] : s₁.fileReads = s.fileReads), hframe.action⟩
  · have hframe := (fileWriterStep_frame hrun).1
    exact ⟨hframe.foreground, by rw [hframe.rest], hframe.action⟩
  · simp only [threadStep] at hrun
    obtain ⟨j, s₁, next, -, hj, rfl⟩ := jobStep_eq_some hrun
    have hframe := (writeJobStep_frame hj).1
    exact ⟨hframe.foreground, (by rw [hframe.rest] : s₁.fileReads = s.fileReads), hframe.action⟩

/-- The close goes on waiting. -/
theorem Waiting.stay (h : Waiting E f s) {l : PipelineLabel} (hquiet : QuietFree s l)
    (hrun : s.threadStep E l = some (.ok s')) (hreads : s'.fileReads = s.fileReads)
    (hplace : waitPlace s'.foreground = true)
    (hdrops : ∀ p, s'.foreground = .freeing p (.closeSync true) → ¬ IsWrite s'.action) :
    Waiting E f s' := by
  have hinv : PipelineInv s' := threadStep_inv h.draining.inv hquiet hrun
  have hleaves : leavesFile s.foreground = true := by
    have hwait := h.place
    generalize s.foreground = pc at hwait
    cases pc <;> first | rfl | cases hwait
  refine ⟨?_, h.replays.step hleaves h.reads h.draining.closes hrun, hreads.trans h.reads, hplace,
    hdrops⟩
  refine (h.draining.threadStep hinv hrun).resolve_right fun hbarred => ?_
  obtain ⟨j, -, ⟨-, hout⟩ | ⟨-, hclosing⟩⟩ := hbarred.place
  · generalize s'.foreground = pc at hout hplace
    cases pc <;> first | cases hplace | cases hout
  · rw [hclosing] at hplace
    cases hplace

/-- `free_file_action` on the way to `sync_file_writes`: no write action is
freed there. -/
theorem Waiting.dropOther (h : Waiting E f s) {v : View} {closeFails : Bool} {p : FreePc}
    (hfg : s.foreground = .freeing p (.closeSync true))
    (hrun : s.threadStep E (.foreground v closeFails) = some (.ok s'))
    (hstep : s.foregroundStep E closeFails v = .ok s') : Waiting E f s' := by
  have hno : ¬ IsWrite s.action := h.drops p hfg
  have hquiet : QuietFree s (.foreground v closeFails) := by
    intro hfrees
    simp only [frees, hfg, liveWrite_of_not_isWrite hno] at hfrees
    cases p <;> cases hfrees
  simp only [foregroundStep, hfg] at hstep
  obtain ⟨⟨s₁, next⟩, hfree, hok⟩ := bind_eq_ok.mp hstep
  have hno₁ : ¬ IsWrite s₁.action := freeStep_not_isWrite hno hfree
  have hreads : s₁.fileReads = s.fileReads := by rw [freeStep_rest hfree]
  cases next <;> cases hok
  · exact h.stay hquiet hrun hreads rfl fun _ hfreeing => by cases hfreeing
  · exact h.stay hquiet hrun hreads rfl fun _ _ => hno₁

theorem Waiting.foreground (hwritable : oflag.has (O_RDWR ||| O_WRONLY))
    (h : Waiting E (efFileOpen E oflag init) s) {v : View} {closeFails : Bool}
    (hrun : s.threadStep E (.foreground v closeFails) = some (.ok s'))
    (hstep : s.foregroundStep E closeFails v = .ok s') :
    Waiting E (efFileOpen E oflag init) s' ∨ Leaving E oflag init s' := by
  have hplace := h.place
  have hdrains := h.draining.place
  cases hfg : s.foreground with
  | freeing p k =>
    rw [hfg] at hplace hdrains
    cases k with
    | closeSync immediate =>
      cases immediate
      · cases hplace
      · exact Or.inl (h.dropOther hfg hrun hstep)
    | closeAlloc immediate =>
      cases immediate
      · cases p <;> cases hplace
      simp only [foregroundStep, hfg] at hstep
      cases p with
      | acquire expected =>
        have hquiet : QuietFree s (.foreground v closeFails) := by
          intro hfrees
          simp only [frees, hfg] at hfrees
          cases hfrees
        obtain ⟨⟨s₁, next⟩, hfree, hok⟩ := bind_eq_ok.mp hstep
        obtain ⟨_, -, hfree⟩ := bind_eq_ok.mp hfree
        cases hfree
        cases hok
        refine Or.inl (h.stay hquiet hrun rfl ?_ fun _ hfreeing => by cases hfreeing)
        dsimp only
        split <;> rfl
      | cleanup =>
        -- Here the write action goes.
        obtain ⟨⟨s₁, next⟩, hfree, hok⟩ := bind_eq_ok.mp hstep
        obtain ⟨⟨i, b⟩, -, hfree⟩ := bind_eq_ok.mp hfree
        simp only at hfree
        split at hfree <;> cases hfree
        cases hok
        exact Or.inr (h.leave hwritable (by rw [hfg]; rfl) (h.draining.settled_of hdrains.1) rfl
          noInput_freed rfl rfl rfl)
      | setNull => cases hplace
      | release => cases hplace
    | _ =>
      cases p <;> cases hplace
  | syncing p k =>
    rw [hfg] at hplace
    have hquiet : QuietFree s (.foreground v closeFails) := by
      intro hfrees
      simp only [frees, hfg] at hfrees
      cases hfrees
    cases k with
    | read nbyte po => cases hplace
    | close immediate =>
      cases immediate
      · cases hplace
      simp only [foregroundStep, hfg] at hstep
      obtain ⟨⟨s₁, next⟩, hsync, hok⟩ := bind_eq_ok.mp hstep
      cases hok
      obtain ⟨hpush, -⟩ := h.draining.inv.locks.syncing_push hfg
      have hflow : FlowInv (flowWith s ((syncPush p).or (s.slowSync.bind syncPush))) :=
        hpush ▸ h.draining.inv.flow
      have hframe := (syncStep_frame (isWrite_of_syncPush hflow) hsync).1
      have hreads : s₁.fileReads = s.fileReads := by rw [hframe.rest]
      cases next with
      | none => exact Or.inl (h.stay hquiet hrun hreads rfl fun _ hfreeing => by cases hfreeing)
      | some q => exact Or.inl (h.stay hquiet hrun hreads rfl fun _ hfreeing => by cases hfreeing)
  | setting p k =>
    rw [hfg] at hplace
    have hquiet : QuietFree s (.foreground v closeFails) := by
      intro hfrees
      simp only [frees, hfg] at hfrees
      cases hfrees
    cases k with
    | read nbyte po => cases hplace
    | close immediate =>
      cases immediate
      · cases hplace
      simp only [foregroundStep, hfg] at hstep
      obtain ⟨⟨s₁, next⟩, hset, hok⟩ := bind_eq_ok.mp hstep
      cases hok
      have hreads : s₁.fileReads = s.fileReads := by rw [(setStep_frame hset).1.rest]
      cases next with
      | none => exact Or.inl (h.stay hquiet hrun hreads rfl fun _ hfreeing => by cases hfreeing)
      | some q => exact Or.inl (h.stay hquiet hrun hreads rfl fun _ hfreeing => by cases hfreeing)
  | closeTest immediate =>
    rw [hfg] at hplace
    have hquiet : QuietFree s (.foreground v closeFails) := by
      intro hfrees
      simp only [frees, hfg] at hfrees
      cases hfrees
    cases immediate
    · cases hplace
    simp only [foregroundStep, hfg, efCloseStep] at hstep
    obtain ⟨r, -, hok⟩ := bind_eq_ok.mp hstep
    cases r <;> cases hok
    · exact Or.inl (h.stay hquiet hrun rfl rfl fun _ hfreeing => by cases hfreeing)
    · refine Or.inl (h.stay hquiet hrun rfl ?_ ?_)
      · dsimp only
        split <;> rfl
      · intro q hfreeing
        simp only at hfreeing
        split at hfreeing <;> cases hfreeing
  | closeDrop immediate =>
    rw [hfg] at hplace hdrains
    have hquiet : QuietFree s (.foreground v closeFails) := by
      intro hfrees
      simp only [frees, hfg] at hfrees
      cases hfrees
    cases immediate
    · cases hplace
    simp only [foregroundStep, hfg, efCloseStep] at hstep
    obtain ⟨_, -, hok⟩ := bind_eq_ok.mp hstep
    by_cases hnull : s.action = .null
    · rw [if_pos hnull] at hok
      cases hok
      have hinput : NoInput s.action := hnull ▸ noInput_null
      exact Or.inr (h.leave hwritable (by rw [hfg]; rfl) (h.draining.settled_of hdrains.1) rfl hinput
        rfl rfl rfl)
    · rw [if_neg hnull] at hok
      cases hok
      exact Or.inl (h.stay hquiet hrun rfl rfl fun _ hfreeing => by cases hfreeing)
  | _ =>
    rw [hfg] at hplace
    cases hplace

theorem Waiting.step (hwritable : oflag.has (O_RDWR ||| O_WRONLY))
    (h : Waiting E (efFileOpen E oflag init) s) {l : PipelineLabel}
    (hstep : PipelineState.step E l s = some s') :
    Waiting E (efFileOpen E oflag init) s' ∨ Leaving E oflag init s' := by
  have hbackground : (l = .slowSync ∨ l = .fileWriter ∨ ∃ i, l = .writeJob i) →
      s.threadStep E l = some (.ok s') → Waiting E (efFileOpen E oflag init) s' := by
    intro hl hrun
    have hquiet : QuietFree s l := by
      intro hfrees
      obtain rfl | rfl | ⟨i, rfl⟩ := hl <;> cases hfrees
    obtain ⟨hfg, hreads, hstores⟩ := background_stores h.draining.inv hl hrun
    refine h.stay hquiet hrun hreads (hfg ▸ h.place) fun p hfreeing hwrite => ?_
    exact h.drops p (hfg ▸ hfreeing) (hstores.isWrite hwrite)
  obtain ⟨-, hrun | ⟨e, -, rfl⟩⟩ := step_eq_some hstep
  · cases l with
    | call c v =>
      obtain ⟨hidle, -⟩ := threadStep_call hrun
      have hplace := h.place
      rw [hidle] at hplace
      cases hplace
    | foreground v closeFails => exact h.foreground hwritable hrun (threadStep_foreground hrun).2
    | slowSync => exact Or.inl (hbackground (Or.inl rfl) hrun)
    | fileWriter => exact Or.inl (hbackground (Or.inr (Or.inl rfl)) hrun)
    | writeJob i => exact Or.inl (hbackground (Or.inr (Or.inr ⟨i, rfl⟩)) hrun)
    | readJob i => cases (threadStep_readJob_nil h.reads i).symm.trans hrun
    | closeJob i closeFails => cases (threadStep_closeJob_nil h.draining.closes i closeFails).symm.trans hrun
  · exact Or.inl ⟨h.draining.fault e, h.replays, h.reads, h.place, h.drops⟩

/-! ### The run -/

/-- The close is refused, or accepted. -/
theorem WriteRun.close (h : WriteRun E f s) {v : View} (hidle : s.foreground = .idle)
    (hrun : s.threadStep E (.call (.efClose true) v) = some (.ok s'))
    (hstep : s.callStep E v (.efClose true) = .ok s') : WriteRun E f s' ∨ Waiting E f s' := by
  have hinv : PipelineInv s' := threadStep_inv h.draining.inv (h.writing.quietFree _) hrun
  have hdraining : Draining s' := h.draining.call hidle hinv hstep
  have hreplays : Replays E f s' := h.replays.keep (callStep_keepsFile hstep)
  obtain rfl | ⟨-, ⟨-, rfl⟩ | ⟨id, a, hact, -, ⟨hcomplete, rfl⟩ | ⟨-, rfl⟩⟩⟩ := callStep_efClose hstep
  · exact Or.inl h
  · exact Or.inr ⟨hdraining, hreplays, h.writing.reads, rfl, (by rintro _ ⟨⟩)⟩
  · refine Or.inr ⟨hdraining, hreplays, h.writing.reads, rfl, ?_⟩
    rintro p - ⟨id', a', hact', hcmd⟩
    obtain ⟨-, rfl⟩ := ActionPtr.live.inj (hact.symm.trans hact')
    exact h.writing.incomplete _ _ hact hcmd hcomplete
  · exact Or.inr ⟨hdraining, hreplays, h.writing.reads, rfl, (by rintro _ ⟨⟩)⟩

/-- The part of the run a state belongs to. -/
def CloseRun (E : Env) (oflag : OFlag) (init : List UInt8) (s : PipelineState) : Prop :=
  WriteRun E (efFileOpen E oflag init) s ∨ Waiting E (efFileOpen E oflag init) s ∨
    Leaving E oflag init s

theorem CloseRun.step (hwritable : oflag.has (O_RDWR ||| O_WRONLY)) (h : CloseRun E oflag init s)
    {l : PipelineLabel} (hok : WritesThenCloses s l) (hstep : PipelineState.step E l s = some s') :
    CloseRun E oflag init s' := by
  obtain h | h | h := h
  · by_cases hwrites : WritesAndSyncs s l
    · exact Or.inl (h.step hwrites hstep)
    · obtain ⟨v, rfl⟩ : ∃ v, l = .call (.efClose true) v := by
        cases l with
        | call c v =>
          cases c with
          | efRead nbyte => exact hok.elim
          | efClose immediate =>
            cases immediate
            · exact hok.elim
            · exact ⟨v, rfl⟩
          | _ => exact (hwrites trivial).elim
        | _ => exact (hwrites trivial).elim
      obtain ⟨-, hrun | ⟨e, -, rfl⟩⟩ := step_eq_some hstep
      · obtain ⟨hidle, hcall⟩ := threadStep_call hrun
        exact (h.close hidle hrun hcall).imp_right Or.inl
      · refine Or.inl ⟨h.draining.fault e, ?_, h.replays⟩
        exact ⟨h.writing.place, h.writing.reads, h.writing.closes, h.writing.incomplete, h.writing.drops⟩
  · exact Or.inr (h.step hwritable hstep)
  · exact Or.inr (Or.inr (h.step hok hstep))

theorem closeRun_of_reach (hwritable : oflag.has (O_RDWR ||| O_WRONLY)) {collected : Bool}
    (h : Reach (PipelineState.step E) WritesThenCloses
      (opened (efFileOpen E oflag init) collected) s) : CloseRun E oflag init s :=
  h.invariant (Or.inl (writeRun_opened hwritable init collected))
    fun _ _ _ hrun hok hstep => hrun.step hwritable hok hstep

/-- On a file that is open for writing, with any `ef_write` and `ef_sync`
before it and in any order of the steps: when `ef_close_immediate` returns 0
and every system call of the disk workers has moved all the bytes it was
asked for, the disk file is the initial file with all accepted bytes written
to it. -/
theorem closeImmediate_onDisk (hwritable : oflag.has (O_RDWR ||| O_WRONLY)) {collected : Bool}
    {s₁ s₂ : PipelineState}
    (hrun : Reach (PipelineState.step E) WritesThenCloses
      (opened (efFileOpen E oflag init) collected) s₁)
    (hret : CloseReturns E s₁ s₂) (hfull : FullBefore E s₂.file.fd.calls) :
    OnDisk oflag init (acceptedBytes s₂.history) s₂.file.fd.data := by
  obtain ⟨⟨v, closeFails, hstep⟩, ⟨j, hclosing⟩, -⟩ := hret
  have hleaving : Leaving E oflag init s₁ := by
    obtain h | h | h := closeRun_of_reach hwritable hrun
    · have hplace := h.writing.place
      rw [hclosing] at hplace
      cases hplace
    · have hplace := h.place
      rw [hclosing] at hplace
      cases hplace
    · exact h
  have hleft : Leaving E oflag init s₂ := hleaving.step (l := .foreground v closeFails) trivial hstep
  exact hleft.disk hfull

/-- One byte is written, and the close runs up to its last step. -/
def writeThenClose : List PipelineLabel :=
  [.call (.efWrite [1]) noView] ++ foregroundSteps 9 ++ [.call (.efClose true) noView] ++
    foregroundSteps 18 ++ List.replicate 6 .fileWriter ++ writeJobSteps 6 ++
    List.replicate 6 .fileWriter ++ foregroundSteps 25

set_option maxRecDepth 8000 in
theorem closeImmediate_onDisk_sample :
    ∃ s₁ s₂ : PipelineState, CloseReturns sampleEnv s₁ s₂ ∧ acceptedBytes s₂.history = [1] ∧
      OnDisk O_RDWR [] (acceptedBytes s₂.history) s₂.file.fd.data := by
  obtain ⟨s₁, s₂, hrun, hstep, hfg, hidle, haccepted⟩ : ∃ s₁ s₂ : PipelineState,
      run (PipelineState.step sampleEnv) WritesThenCloses writeThenClose
        (opened (efFileOpen sampleEnv O_RDWR []) true) = some s₁ ∧
      PipelineState.step sampleEnv (.foreground noView false) s₁ = some s₂ ∧
      s₁.foreground = .closing .unlockHandle ∧ s₂.foreground = .idle ∧
      acceptedBytes s₂.history = [1] := ⟨_, _, rfl, rfl, rfl, rfl, rfl⟩
  have hret : CloseReturns sampleEnv s₁ s₂ := ⟨⟨_, _, hstep⟩, ⟨_, hfg⟩, hidle⟩
  exact ⟨s₁, s₂, hret, haccepted,
    closeImmediate_onDisk (by decide) (.of_run .init _ hrun) hret fun _ _ => rfl⟩

/-- The first system call fails, the others succeed. -/
def firstFails : Env := { sampleEnv with outcome := fun k => if k = 0 then .fail else .full }

set_option maxRecDepth 8000 in
/-- The `pwrite` of the page fails: the close returns, and the byte is not
on disk. -/
theorem not_onDisk_of_failedWrite :
    ∃ s₁ s₂ : PipelineState,
      Reach (PipelineState.step firstFails) WritesThenCloses
        (opened (efFileOpen firstFails O_RDWR []) true) s₁ ∧
      CloseReturns firstFails s₁ s₂ ∧ acceptedBytes s₂.history = [1] ∧ s₂.file.fd.data = [0] ∧
      ¬ OnDisk O_RDWR [] (acceptedBytes s₂.history) s₂.file.fd.data := by
  obtain ⟨s₁, s₂, hrun, hstep, hfg, hidle, haccepted, hdata⟩ : ∃ s₁ s₂ : PipelineState,
      run (PipelineState.step firstFails) WritesThenCloses writeThenClose
        (opened (efFileOpen firstFails O_RDWR []) true) = some s₁ ∧
      PipelineState.step firstFails (.foreground noView false) s₁ = some s₂ ∧
      s₁.foreground = .closing .unlockHandle ∧ s₂.foreground = .idle ∧
      acceptedBytes s₂.history = [1] ∧ s₂.file.fd.data = [0] := ⟨_, _, rfl, rfl, rfl, rfl, rfl, rfl⟩
  refine ⟨s₁, s₂, .of_run .init _ hrun, ⟨⟨_, _, hstep⟩, ⟨_, hfg⟩, hidle⟩, haccepted, hdata, ?_⟩
  rw [haccepted, hdata]
  unfold OnDisk
  decide

end Efio.Proofs.Evio
