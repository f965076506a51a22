import Efio.Proofs.Evio.EventOwner
import Efio.Proofs.Evio.MixedStep
import Efio.Proofs.Evio.NoAbort

/-!
# `Efio.Proofs.Evio.MixedAccess`: `ef_read` and `ef_write` agree with a plain file

`mixedAccess_agrees`: in every run of `ef_read` and `ef_write` on an
`O_RDWR` file, the calls get what they would get from a plain file, and no
`EV_ABORT` is reached, as long as

* a write action is freed only when nothing of it is on its way
  (`QuietFree`), and
* `ef_read` copies with the page offset of the file as it is at the copy
  (`CurrentCopy`).

`low_ef_read` computes the page offset before it flushes and waits, so
writes that were outstanding may move the file offset in between
(`not_agrees_of_stale`).
-/

set_option autoImplicit false

namespace Efio.Proofs.Evio

open Efio.Lib
open Efio.Evio
open Efio.Evio.PipelineState
open Efio.Spec
open Efio.Proofs.Spec

variable {E : Env} {init : List UInt8} {s s' : PipelineState}

/-- The foreground thread calls nothing but `ef_read` and `ef_write`. -/
def ReadsAndWrites (_ : PipelineState) : PipelineLabel → Prop
  | .call .efSync _ | .call (.efClose _) _ => False
  | _ => True

instance : DecidableRel ReadsAndWrites := fun _ l =>
  match l with
  | .call .efSync _ | .call (.efClose _) _ => inferInstanceAs (Decidable False)
  | .call (.efWrite _) _ | .call (.efRead _) _ | .foreground _ _ | .slowSync | .fileWriter
  | .writeJob _ | .readJob _ | .closeJob _ _ => inferInstanceAs (Decidable True)

/-- A copy of `ef_read` uses the page offset of the file as it is now. -/
def CurrentCopy (E : Env) (s : PipelineState) : PipelineLabel → Prop
  | .foreground _ _ =>
    match s.foreground, s.file.buf.buffer with
    | .readBuffer _ po, some _ => po = pageOffset E s.file
    | _, _ => True
  | _ => True

/-- The page offset of a copy. -/
def copyOffset : ForegroundPc → Option Int
  | .readBuffer _ po => some po
  | _ => none

theorem currentCopy_iff {view : View} {closeFails : Bool} :
    (∀ po ∈ copyOffset s.foreground, s.file.buf.buffer.isSome = true → po = pageOffset E s.file) ↔
      CurrentCopy E s (.foreground view closeFails) := by
  rw [CurrentCopy]
  cases s.foreground <;> cases s.file.buf.buffer <;> simp [copyOffset]

instance : DecidableRel (CurrentCopy E) := fun _ l =>
  match l with
  | .foreground _ _ => decidable_of_iff _ currentCopy_iff
  | .call _ _ | .slowSync | .fileWriter | .writeJob _ | .readJob _ | .closeJob _ _ =>
    inferInstanceAs (Decidable True)

/-- The condition of the runs. -/
def MixedOk (E : Env) (s : PipelineState) (l : PipelineLabel) : Prop :=
  ReadsAndWrites s l ∧ QuietFree s l ∧ CurrentCopy E s l

instance : DecidableRel (MixedOk E) := fun _ _ =>
  inferInstanceAs (Decidable (_ ∧ _ ∧ _))

theorem CurrentCopy.eq {v : View} {closeFails : Bool} (h : CurrentCopy E s (.foreground v closeFails))
    {nbyte : Nat} {po : Int} (hfg : s.foreground = .readBuffer nbyte po)
    (hbuf : s.file.buf.buffer ≠ none) : po = pageOffset E s.file := by
  unfold CurrentCopy at h
  obtain ⟨b, hb⟩ := Option.ne_none_iff_exists'.mp hbuf
  simpa only [hfg, hb] using h

/-! ### Every step -/

theorem Mixed.foreground (hE : E.Reliable) (h : Mixed E init s) {v : View} {closeFails : Bool}
    (hcopy : CurrentCopy E s (.foreground v closeFails)) (hinv : PipelineInv s')
    (hstep : s.foregroundStep E closeFails v = .ok s') : Mixed E init s' := by
  unfold foregroundStep at hstep
  have hplace := h.place
  generalize hfg : s.foreground = pc at hplace
  cases pc with
  | idle =>
    simp only [hfg] at hstep
    cases hstep
    exact h
  | pushing p k =>
    simp only [hfg] at hstep
    obtain ⟨⟨s₁, next⟩, hp, hok⟩ := bind_eq_ok.mp hstep
    cases hok
    exact h.push hE hfg hinv hp
  | freeing p k =>
    simp only [hfg] at hstep
    obtain ⟨⟨s₁, next⟩, hp, hok⟩ := bind_eq_ok.mp hstep
    cases next <;> cases hok <;> exact h.free hfg hp hinv
  | allocating p oper k =>
    simp only [hfg] at hstep
    obtain ⟨⟨s₁, next⟩, hp, hok⟩ := bind_eq_ok.mp hstep
    cases hok
    exact h.alloc hfg hinv hp
  | setting p k =>
    simp only [hfg] at hstep
    obtain ⟨⟨s₁, next⟩, hp, hok⟩ := bind_eq_ok.mp hstep
    cases hok
    exact h.set hE hfg hinv hp
  | syncing p k =>
    simp only [hfg] at hstep
    obtain ⟨⟨s₁, next⟩, hp, hok⟩ := bind_eq_ok.mp hstep
    cases hok
    exact h.sync hE hfg hinv hp
  | writeSuspend buf =>
    simp only [hfg] at hstep
    exact h.write hfg hinv hstep
  | writeTest buf =>
    simp only [hfg] at hstep
    exact h.write hfg hinv hstep
  | writeEnsure buf =>
    simp only [hfg] at hstep
    exact h.write hfg hinv hstep
  | writeLoop buf done =>
    simp only [hfg] at hstep
    exact h.write hfg hinv hstep
  | writeResume =>
    simp only [hfg] at hstep
    exact h.write hfg hinv hstep
  | readSnapshot nbyte =>
    simp only [hfg] at hstep
    obtain ⟨_, -, hok⟩ := bind_eq_ok.mp hstep
    exact h.dispatch hfg hinv hok
  | readTest nbyte po =>
    simp only [hfg] at hstep
    exact h.test hfg hinv hstep
  | readDrop nbyte po =>
    simp only [hfg] at hstep
    exact h.drop hfg hinv hstep
  | readBuffer nbyte po =>
    simp only [hfg] at hstep
    exact h.buffer hfg (hcopy.eq hfg) hinv hstep
  | readFire nbyte =>
    simp only [hfg] at hstep
    exact h.fire hfg hinv hstep
  | readEnqueue nbyte =>
    simp only [hfg] at hstep
    exact h.enqueue hfg hinv hstep
  | _ =>
    cases hplace with
    | outside hpc => cases hpc

theorem Mixed.slowSync (hE : E.Reliable) (h : Mixed E init s) (hinv : PipelineInv s')
    (hstep : s.slowSyncStep = some (.ok s')) : Mixed E init s' := by
  have hlocks' := hinv.locks
  obtain ⟨hslow, rfl⟩ | ⟨p, s₁, next, hslow, hsync, rfl⟩ := slowSyncStep_cases hstep
  · refine h.background hE hinv ⟨rfl, .same⟩ ?_ (Or.inl rfl)
    have hback : backlog { s with slowSync := some .lockHandle } = backlog s := by
      rw [backlog, backlog, pushOf_begin hslow]
      rfl
    rw [hback]
    exact .same
  · obtain ⟨hpush, hother⟩ := h.inv.locks.slowSync_push hslow
    have hflow := h.inv.flow
    rw [flow, hpush] at hflow
    have hframe := (syncStep_frame (isWrite_of_syncPush hflow) hsync).1
    have hfile : s₁.file = s.file := by rw [hframe.rest]
    refine h.background hE hinv ⟨?_, hframe.action⟩ ?_ (Or.inl hfile)
    · conv => lhs; rw [hframe.rest]
      simp only [hfile]
    · have hnew : backlog { s₁ with slowSync := next }
          = backlogWith s₁ ((next.bind syncPush).or (foregroundPush s.foreground)) := by
        rw [backlog, hlocks'.push_comm]
        show backlogWith s₁ ((next.bind syncPush).or (foregroundPush s₁.foreground)) = _
        rw [hframe.foreground]
      rw [hnew, backlog, hpush]
      exact syncStep_backlog hother hflow hsync

theorem Mixed.fileWriter (hE : E.Reliable) (h : Mixed E init s) (hinv : PipelineInv s')
    (hstep : s.fileWriterStep = some (.ok s')) : Mixed E init s' := by
  have hframe := (fileWriterStep_frame hstep).1
  have hfile : s'.file = s.file := by rw [hframe.rest]
  have hpush : pushOf s' = pushOf s := by rw [pushOf, pushOf, hframe.foreground, hframe.slowSync]
  refine h.background hE hinv ⟨?_, hframe.action⟩ ?_ (Or.inl hfile)
  · rw [hfile, hframe.slowSync]
    exact hframe.rest
  · rw [backlog, backlog, hpush, fileWriterStep_backlog h.inv.flow hstep]
    exact .same

theorem Mixed.writeJob (hE : E.Reliable) (h : Mixed E init s) {i : Nat} {j : WriteJob}
    (hjob : s.fileWrites[i]? = some j) {next : Option WriteJob} {s₁ : PipelineState}
    (hstep : s.writeJobStep E j = .ok (s₁, next))
    (hinv : PipelineInv { s₁ with fileWrites := putJob s.fileWrites i next }) :
    Mixed E init { s₁ with fileWrites := putJob s.fileWrites i next } := by
  have hframe := (writeJobStep_frame hstep).1
  have hslow : s₁.slowSync = s.slowSync := hframe.slowSync
  have hpush : pushOf s₁ = pushOf s := by rw [pushOf, pushOf, hframe.foreground, hslow]
  have hbase : Frame false { s with file := s₁.file, slowSync := s₁.slowSync } s₁ := by
    rw [hslow]
    exact hframe
  refine h.background hE hinv (hbase.withWrites _) ?_ (Or.inr ?_)
  · show BacklogStep E (backlogWith s (pushOf s)) (backlogWith s₁ (pushOf s₁))
    rw [hpush]
    exact writeJobStep_backlog h.inv.flow hjob hstep
  · refine isWrite_of_busy h.inv.flow fun hquiet => ?_
    have hnil : s.fileWrites = [] := hquiet.2.2.1
    rw [hnil] at hjob
    cases hjob

/-- A page that was loaded belongs to the same plain file. -/
theorem Mixed.readJob (hE : E.Reliable) (h : Mixed E init s) {i : Nat} {j : ReadJob}
    (hjob : s.fileReads[i]? = some j) {next : Option ReadJob} {s₁ : PipelineState}
    (hstep : s.readJobStep E j = .ok (s₁, next))
    (hinv : PipelineInv { s₁ with fileReads := putJob s.fileReads i next }) :
    Mixed E init { s₁ with fileReads := putJob s.fileReads i next } := by
  have hne : s.fileReads ≠ [] := fun hnil => by
    rw [hnil] at hjob
    cases hjob
  have houtside : outsidePlace s.foreground = true := by
    have hplace := h.place
    have hreads := h.reads
    generalize s.foreground = pc at hplace
    cases hplace with
    | outside hpc => exact hpc
    | ensure hact =>
      refine absurd (h.reads.nil ?_) hne
      rintro hwork
      obtain hnull | hwrite := hact
      · obtain ⟨id, a, hact, -⟩ := hwork
        cases hnull.symm.trans hact
      · exact hwork.not_isWrite hwrite.isWrite
    | allocWrite halloc =>
      refine absurd (h.reads.nil fun hwork => ?_) hne
      rename_i q buf
      cases q with
      | release => exact hwork.not_isWrite (Working.isWrite halloc)
      | _ =>
        obtain ⟨id, a, hact, -⟩ := hwork
        cases (show s.action = .null from halloc).symm.trans hact
    | loop hwork => exact absurd (h.reads.nil_of_isWrite hwork.isWrite) hne
    | push hwork => exact absurd (h.reads.nil_of_isWrite hwork.isWrite) hne
    | fire hnull _ => exact absurd (h.reads.nil_of_null hnull) hne
    | sync hwork _ => exact absurd (h.reads.nil_of_isWrite hwork.isWrite) hne
    | set hwork _ => exact absurd (h.reads.nil_of_isWrite hwork.isWrite) hne
    | test hwrite _ => exact absurd (h.reads.nil_of_isWrite hwrite) hne
    | _ => exact absurd ‹s.fileReads = []› hne
  have hframe := (readJobStep_frame hstep).1
  have hfg : s₁.foreground = s.foreground := hframe.foreground
  have hhistory : s₁.history = s.history := by rw [hframe.rest]
  obtain ⟨id, a, hact, hcmd, hopen⟩ : Working .operRead s.action := by
    have hreads := h.reads
    generalize s.fileReads = js at hreads hne
    cases hreads with
    | none => exact absurd rfl hne
    | _ => assumption
  have hno := not_isWrite_of_live hact (by rw [hcmd]; exact fun h => by cases h)
  have hclean := h.clean hno
  have hno' : ¬ IsWrite s₁.action := fun hwrite => hno (hframe.action.isWrite hwrite)
  -- The backlog changes in the file only.
  have hback : backlog { s₁ with fileReads := putJob s.fileReads i next }
      = { backlog s with file := s₁.file } := by
    have hpush : pushOf s₁ = pushOf s := by rw [pushOf, pushOf, hfg, hframe.slowSync]
    show (flowWith s₁ (pushOf s₁)).backlog s₁.file = _
    rw [hpush, readJobStep_flow hstep]
    rfl
  have hpending : pending { s₁ with fileReads := putJob s.fileReads i next } = pending s := by
    rw [pending, hback]
    show _ ++ restOf s₁.foreground = _
    rw [hfg]
    rfl
  have hrest : ∀ f reads, s₁.file = f → f.buf.isDirty = false →
      Matches E init s.history f (pending s) → putJob s.fileReads i next = reads →
      PageRead f s₁.action reads →
      Mixed E init { s₁ with fileReads := putJob s.fileReads i next } := by
    rintro f reads rfl hdirty hstands rfl hreads
    refine h.of_frame true hinv ?_ (Or.inl (hdirty.trans hclean.symm)) ?_ hreads
      (.outside ?_ (incomplete_of_not_isWrite hno'))
    · refine ⟨?_, hframe.action⟩
      conv => lhs; rw [hframe.rest]
      simp only [hfg, hframe.slowSync, hhistory]
    · rw [hpending]
      show Matches E init s₁.history s₁.file _
      rw [hhistory]
      exact hstands
    · show outsidePlace s₁.foreground = true
      rw [hfg]
      exact houtside
  have hreads := h.reads
  generalize hjs : s.fileReads = js at hreads hjob hrest ⊢
  cases hreads with
  | none => cases hjob
  | queued hwork hbuf =>
    obtain ⟨rfl, rfl⟩ : i = 0 ∧ j = .queued s.file.buf.bufferIndex := by
      cases i <;> cases hjob
      exact ⟨rfl, rfl⟩
    obtain ⟨⟨id', a'⟩, hd, hok⟩ := bind_eq_ok.mp hstep
    obtain ⟨-, hact'⟩ := derefAction_eq_ok.mp hd
    obtain ⟨rfl, rfl⟩ := ActionPtr.live.inj (hact.symm.trans hact')
    cases hok
    exact hrest _ _ rfl hclean h.stands rfl (.load ⟨_, _, rfl, hcmd, fun h => by cases h⟩ hbuf)
  | load hwork hbuf =>
    obtain ⟨rfl, rfl⟩ : i = 0 ∧ j = .load s.file.buf.bufferIndex := by
      cases i <;> cases hjob
      exact ⟨rfl, rfl⟩
    obtain ⟨content, p, hagrees, hfile, hcontent, hoffset⟩ := h.stands
    obtain ⟨f, err, hload, hpaged, hdirty, hmode, hoff, -⟩ :=
      readJobStep_load hfile.toPagedFile hclean hbuf h.live (moved_of_reliable hE _ _)
    cases hload.symm.trans hstep
    refine hrest f _ rfl hdirty ⟨content, p, hagrees, ⟨hpaged, ?_, ?_, ?_, ?_⟩, ?_, ?_⟩ rfl
      (.publish ⟨id, a, hact, hcmd, hopen⟩)
    · rw [hmode.oflag]
      exact hfile.readable
    · rw [hmode.oflag]
      exact hfile.notAppend
    · exact hmode.append.trans hfile.append
    · exact hmode.unaligned.trans hfile.aligned
    · rw [hoff]
      exact hcontent
    · rw [hoff]
      exact hoffset
  | publish hwork =>
    rename_i ret err
    obtain ⟨rfl, rfl⟩ : i = 0 ∧ j = .publish ret err := by
      cases i <;> cases hjob
      exact ⟨rfl, rfl⟩
    obtain ⟨⟨id', a'⟩, -, hok⟩ := bind_eq_ok.mp hstep
    cases hok
    exact hrest _ _ rfl hclean h.stands rfl .none

/-- A step that does not end in a fault. -/
theorem Mixed.threadStep (hE : E.Reliable) (h : Mixed E init s) {l : PipelineLabel}
    (hok : MixedOk E s l) (hrun : s.threadStep E l = some (.ok s')) : Mixed E init s' := by
  have hinv := threadStep_inv h.inv hok.2.1 hrun
  cases l with
  | call c v =>
    obtain ⟨hidle, hcall⟩ := threadStep_call hrun
    refine h.call hidle (fun immediate => ⟨?_, ?_⟩) hinv hcall
    · rintro rfl
      exact hok.1
    · rintro rfl
      exact hok.1
  | foreground v closeFails => exact h.foreground hE hok.2.2 hinv (threadStep_foreground hrun).2
  | slowSync => exact h.slowSync hE hinv hrun
  | fileWriter => exact h.fileWriter hE hinv hrun
  | writeJob i =>
    simp only [PipelineState.threadStep] at hrun
    obtain ⟨j, s₁, next, hjob, hj, rfl⟩ := jobStep_eq_some hrun
    exact h.writeJob hE hjob hj hinv
  | readJob i =>
    simp only [PipelineState.threadStep] at hrun
    obtain ⟨j, s₁, next, hjob, hj, rfl⟩ := jobStep_eq_some hrun
    exact h.readJob hE hjob hj hinv
  | closeJob i closeFails => cases (threadStep_closeJob_nil h.closes i closeFails).symm.trans hrun

/-! ### No `EV_ABORT` -/

/-- The places of `ef_read` at which the source names `EV_ABORT`. -/
theorem Mixed.noAbort_read (h : Mixed E init s) {v : View} {closeFails : Bool}
    (hcopy : CurrentCopy E s (.foreground v closeFails)) {pc : ForegroundPc} (hfg : s.foreground = pc) :
    NoAbort (s.readStep E v pc) := by
  have hplace := h.place
  unfold readStep
  split
  · exact (noAbort_derefRecord s).bind fun _ _ => noAbort_readDispatch _ _
  · exact (noAbort_derefAction s).bind fun _ _ => .ite (noAbort_pure _) (noAbort_pure _)
  · refine (noAbort_testAction s).bind fun r _ => ?_
    cases r with
    | none => exact noAbort_pure _
    | some r => exact .ite (noAbort_pure _) (noAbort_pure _)
  · rename_i nbyte po
    refine (noAbort_derefRecord s).bind fun _ _ => ?_
    cases hb : s.file.buf.buffer with
    | none =>
      refine (noAbort_testAction s).bind fun r _ => ?_
      cases r <;> exact noAbort_pure _
    | some b =>
      refine NoAbort.bind ?_ fun _ _ => noAbort_pure _
      have hsettled : Backlog.Settled (backlog s) := by
        rw [hfg] at hplace
        cases hplace with
        | outside hpc => cases hpc
        | buffer hsettled _ _ => exact hsettled
      obtain ⟨f, n, bytes, hread, -⟩ :=
        matches_copy (h.stands_settled hsettled (by rw [hfg]; rfl)) hsettled.clean hb nbyte
      rw [hcopy.eq hfg (by rw [hb]; nofun), hread]
      exact noAbort_ok _
  · obtain ⟨hnull, hbuf⟩ : s.action = .null ∧ s.file.buf.buffer = none := by
      rw [hfg] at hplace
      cases hplace with
      | outside hpc => cases hpc
      | fire hnull hbuf => exact ⟨hnull, hbuf⟩
    obtain ⟨content, hfile⟩ := h.overwrites
    refine (noAbort_derefRecord s).bind fun _ _ => ?_
    rw [if_neg (not_not.mpr (hfile.empty hbuf).symm), if_neg (not_not.mpr hnull)]
    exact noAbort_pure _
  · exact (noAbort_derefRecord s).bind fun _ _ => noAbort_pure _
  · exact noAbort_pure _

/-- The same for `ef_write`: who resumes the writes has suspended them. -/
theorem Mixed.noAbort_write (h : Mixed E init s) {pc : ForegroundPc} (hfg : s.foreground = pc) :
    NoAbort (s.writeStep E pc) := by
  unfold writeStep
  split
  · exact (noAbort_derefRecord s).bind fun _ _ => noAbort_pure _
  · refine (noAbort_testAction s).bind fun r _ => ?_
    cases r with
    | none => exact noAbort_pure _
    | some r => exact .ite (noAbort_pure _) (.ite (noAbort_pure _) (noAbort_pure _))
  · exact (noAbort_derefRecord s).bind fun _ _ => noAbort_pure _
  · refine .ite (noAbort_pure _) ((noAbort_derefWriteInp s).bind fun _ _ => ?_)
    exact .ite nofun (.ite (noAbort_pure _) (noAbort_pure _))
  · refine (noAbort_derefRecord s).bind fun _ _ => ?_
    have hword : s.writeSuspended = -1 := by
      have hlocks := h.inv.locks.word
      rw [hfg] at hlocks
      exact hlocks
    simp only [cas_of_eq hword, not_true_eq_false, if_false]
    exact noAbort_pure _
  · exact noAbort_pure _

theorem Mixed.noAbort_thread (hE : E.Reliable) (h : Mixed E init s) {l : PipelineLabel}
    (hok : MixedOk E s l) {r : Except Fault PipelineState} (hrun : s.threadStep E l = some r) :
    NoAbort r := by
  cases l with
  | call c v =>
    simp only [PipelineState.threadStep] at hrun
    split at hrun
    · cases hrun
      cases c with
      | efWrite buf =>
        refine .ite (noAbort_pure _) ((noAbort_derefRecord s).bind fun _ _ => ?_)
        exact .ite (noAbort_pure _) (noAbort_pure _)
      | efRead nbyte =>
        refine (noAbort_chkReadConditions _ _).bind fun r _ => ?_
        cases r <;> exact noAbort_pure _
      | efSync => exact absurd hok.1 id
      | efClose immediate => exact absurd hok.1 id
    · cases hrun
  | slowSync => exact noAbort_slowSyncStep hrun
  | fileWriter => exact noAbort_fileWriterStep hrun
  | writeJob i =>
    simp only [PipelineState.threadStep] at hrun
    obtain ⟨content, hfile⟩ := h.overwrites
    refine noAbort_jobStep hrun fun j _ => ?_
    cases j with
    | queued => exact (noAbort_derefWriteInp s).bind fun _ _ => noAbort_pure _
    | items id rest bytes =>
      cases rest with
      | nil => exact noAbort_pure _
      | cons w rest =>
        refine (noAbort_derefRecord s).bind fun _ _ => NoAbort.bind ?_ fun _ _ => noAbort_pure _
        obtain ⟨f, n, hexec, -⟩ := execTask_overwrite hE hfile w
        rw [hexec]
        exact noAbort_ok _
    | finish id bytes => exact (noAbort_derefAction s).bind fun _ _ => noAbort_pure _
    | post id => exact noAbort_pure _
  | readJob i =>
    simp only [PipelineState.threadStep] at hrun
    exact noAbort_jobStep hrun fun j _ => noAbort_readJobStep j
  | closeJob i closeFails =>
    simp only [PipelineState.threadStep] at hrun
    refine noAbort_jobStep hrun fun j hjob => ?_
    rw [h.closes] at hjob
    cases hjob
  | foreground v closeFails =>
    simp only [PipelineState.threadStep] at hrun
    split at hrun
    · cases hrun
    · cases hrun
      have hplace := h.place
      unfold foregroundStep
      generalize hfg : s.foreground = pc at hplace
      cases pc with
      | idle => exact noAbort_ok _
      | pushing p k => exact (noAbort_pushStep p).bind fun _ _ => noAbort_pure _
      | freeing p k =>
        refine (noAbort_freeStep p).bind fun r _ => ?_
        obtain ⟨s₁, next⟩ := r
        cases next <;> exact noAbort_pure _
      | allocating p oper k => exact (noAbort_allocStep oper p).bind fun _ _ => noAbort_pure _
      | setting p k => exact (noAbort_setStep p).bind fun _ _ => noAbort_pure _
      | syncing p k => exact (noAbort_syncStep p).bind fun _ _ => noAbort_pure _
      | writeSuspend buf => exact h.noAbort_write hfg
      | writeTest buf => exact h.noAbort_write hfg
      | writeEnsure buf => exact h.noAbort_write hfg
      | writeLoop buf done => exact h.noAbort_write hfg
      | writeResume => exact h.noAbort_write hfg
      | readSnapshot nbyte => exact h.noAbort_read hok.2.2 hfg
      | readTest nbyte po => exact h.noAbort_read hok.2.2 hfg
      | readDrop nbyte po => exact h.noAbort_read hok.2.2 hfg
      | readBuffer nbyte po => exact h.noAbort_read hok.2.2 hfg
      | readFire nbyte => exact h.noAbort_read hok.2.2 hfg
      | readEnqueue nbyte => exact h.noAbort_read hok.2.2 hfg
      | _ =>
        cases hplace with
        | outside hpc => cases hpc

theorem Mixed.step (hE : E.Reliable) (h : Mixed E init s) {l : PipelineLabel} (hok : MixedOk E s l)
    (hstep : PipelineState.step E l s = some s') : Mixed E init s' := by
  have hinv := h.inv.step hok.2.1 hstep
  obtain ⟨-, hrun | ⟨e, hrun, rfl⟩⟩ := step_eq_some hstep
  · exact h.threadStep hE hok hrun
  · refine ⟨⟨h.live, h.slot, h.status, h.closes, fun text heq => ?_⟩, hinv, h.clean, h.stands, h.reads,
      h.place⟩
    exact h.noAbort_thread hE hok hrun text (by cases heq; rfl)

theorem mixed_opened {oflag : OFlag} (hread : oflag.has O_RDWR) (happend : ¬ oflag.has O_APPEND)
    (htrunc : ¬ oflag.has O_TRUNC) (init : List UInt8) (collected : Bool) :
    Mixed E init (opened (efFileOpen E oflag init) collected) := by
  obtain ⟨hfile, hoff⟩ := efFileOpen_overwrite (E := E) hread happend init
  rw [openedData, if_neg htrunc] at hfile
  refine ⟨⟨rfl, rfl, rfl, rfl, by rintro _ ⟨⟩⟩, pipelineInv_opened _ _,
    fun _ => (efFileOpen_frame oflag init).2, ?_, .none, .outside rfl ?_⟩
  · have hpending : pending (opened (efFileOpen E oflag init) collected) = [] := by
      cases collected <;> rfl
    rw [hpending]
    refine ⟨init, _, .start, hfile, writeAt_nil_of_le hfile.offset_le, ?_⟩
    exact hoff
  · cases collected
    · exact incomplete_of_not_isWrite (not_isWrite_of_live rfl (by rintro ⟨⟩))
    · exact incomplete_of_not_isWrite (not_isWrite_of_null rfl)

/-! ### The result -/

/-- In every run of `ef_read` and `ef_write` on an `O_RDWR` file in which
each write action is freed quietly and each copy uses the current page
offset: the calls agree with a plain file, whose offset is that of the file
with the bytes on their way, and no `EV_ABORT` is reached. -/
theorem mixedAccess_agrees (hE : E.Reliable) {oflag : OFlag} (hread : oflag.has O_RDWR)
    (happend : ¬ oflag.has O_APPEND) (htrunc : ¬ oflag.has O_TRUNC) {init : List UInt8}
    {collected : Bool}
    (h : Reach (PipelineState.step E) (MixedOk E) (opened (efFileOpen E oflag init) collected) s) :
    (∃ p, Agrees init s.history p ∧ s.file.fileOffset + (pending s).length = p.offset) ∧
      ∀ text, s.fault ≠ some (.evAbort text) := by
  have hmixed : Mixed E init s :=
    h.invariant (mixed_opened hread happend htrunc init collected)
      fun _ _ _ hs hok hstep => hs.step hE hok hstep
  obtain ⟨content, p, hagrees, -, -, hoffset⟩ := hmixed.stands
  exact ⟨⟨p, hagrees, hoffset⟩, hmixed.noAbort⟩

set_option maxRecDepth 4000 in
/-- One byte is written, a read finds it outstanding, and the next read gets
the byte behind it. -/
theorem mixedAccess_agrees_sample :
    ∃ s : PipelineState,
      s.history = [.accepted [9], .readReturned 1 (-1) (some .ebusy) [], .readReturned 1 1 none [2]] ∧
      (∃ p, Agrees [1, 2, 3] s.history p ∧ s.file.fileOffset + (pending s).length = p.offset) ∧
      ∀ text, s.fault ≠ some (.evAbort text) :=
  ⟨_, rfl, @mixedAccess_agrees sampleEnv _ (fun _ => rfl) O_RDWR (by decide) (by decide)
    (by decide) [1, 2, 3] true
    (Reach.of_run .init
      ([.call (.efWrite [9]) noView] ++ foregroundSteps 9 ++ [.call (.efRead 1) noView] ++
        foregroundSteps 22 ++ List.replicate 8 .fileWriter ++ writeJobSteps 6 ++
        List.replicate 4 .fileWriter ++ [.call (.efRead 1) noView] ++ foregroundSteps 14 ++
        List.replicate 5 .fileWriter ++ writeJobSteps 5 ++ List.replicate 4 .fileWriter ++
        foregroundSteps 11) rfl)⟩

/-- The run of `not_agrees_of_stale`: `ef_write` of one byte; `ef_read` up
to the end of its flush; the tasks of the flush with all their events; the
rest of `ef_read`. -/
def staleOffset : List PipelineLabel :=
  [.call (.efWrite [9]) noView] ++ foregroundSteps 9 ++ [.call (.efRead 1) noView] ++
    foregroundSteps 18 ++ List.replicate 8 .fileWriter ++ writeJobSteps 6 ++
    List.replicate 4 .fileWriter ++ foregroundSteps 11

/-- `ef_read` returns the byte that was just written instead of the one
behind it: it copies from the page offset it had before the write was
executed. -/
theorem not_agrees_of_stale :
    ∃ s : PipelineState,
      Reach (PipelineState.step sampleEnv) (fun _ _ => True)
        (opened (efFileOpen sampleEnv O_RDWR [1, 2, 3]) true) s ∧
      s.history = [.accepted [9], .readReturned 1 1 none [9]] ∧
      ¬ ∃ p, Agrees [1, 2, 3] s.history p := by
  refine ⟨_, Reach.of_run .init staleOffset rfl, rfl, ?_⟩
  rintro ⟨p, hp⟩
  obtain ⟨q, hq, hbytes⟩ := @Agrees.of_bytes _ [.accepted [9]] _ _ 1 _ _ hp Nat.one_pos
  obtain ⟨r, hr, rfl⟩ := @Agrees.of_accepted _ [] _ _ hq
  generalize hnil : ([] : List Observed) = history at hr
  cases hr with
  | start => revert hbytes; decide
  | _ => simp at hnil

end Efio.Proofs.Evio
