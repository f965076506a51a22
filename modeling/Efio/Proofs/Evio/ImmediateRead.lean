import Efio.Spec.ImmediateRead
import Efio.Proofs.Evio.NoAbort

/-!
# `Efio.Proofs.Evio.ImmediateRead`: what a call of `ef_read` returns

The foreground thread alone has one run, so a call returns once or not at
all. `Yields` says how it ends from a place inside of the call: it goes
round for ever, or stops at a fault (`none`), or it returns.
-/

set_option autoImplicit false

namespace Efio.Proofs.Evio

open Efio.Lib
open Efio.Evio
open Efio.Evio.PipelineState
open Efio.Spec

variable {E : Env} {v : View} {nbyte : Nat} {s s' t : PipelineState} {pageOffset : Int}

/-! ### Runs of the foreground thread -/

/-- The foreground thread goes from `s` to `s'`. -/
def Goes (E : Env) (v : View) (s s' : PipelineState) : Prop := Reach (step E) (Alone v) s s'

theorem alone_unique (s : PipelineState) (l l' : PipelineLabel) (h : Alone v s l) (h' : Alone v s l') :
    l = l' := h.trans h'.symm

theorem Goes.trans (h : Goes E v s t) (h' : Goes E v t s') : Goes E v s s' := Reach.trans h h'

theorem step_foreground_ok (hfault : s.fault = none) (hfg : s.foreground ≠ .idle)
    (hstep : s.foregroundStep E false v = .ok s') : step E (.foreground v false) s = some s' := by
  simp only [step, hfault, Option.isSome_none, Bool.false_eq_true, if_false, threadStep, if_neg hfg, hstep,
    Option.map_some]

theorem step_foreground_error {e : Fault} (hfault : s.fault = none) (hfg : s.foreground ≠ .idle)
    (hstep : s.foregroundStep E false v = .error e) :
    step E (.foreground v false) s = some { s with fault := some e } := by
  simp only [step, hfault, Option.isSome_none, Bool.false_eq_true, if_false, threadStep, if_neg hfg, hstep,
    Option.map_some]

theorem step_idle (hfg : s.foreground = .idle) : step E (.foreground v false) s = none := by
  simp only [step, threadStep, if_pos hfg, Option.map_none, ite_self]

theorem Goes.step (hfault : s.fault = none) (hfg : s.foreground ≠ .idle)
    (hstep : s.foregroundStep E false v = .ok s') : Goes E v s s' :=
  .single rfl (step_foreground_ok hfault hfg hstep)

/-- Behind the return there is nothing. -/
theorem Goes.eq_of_idle (h : Goes E v s s') (hfg : s.foreground = .idle) : s' = s := by
  rcases Reach.head h with heq | ⟨l, t, rfl, hstep, -⟩
  · exact heq
  · rw [step_idle hfg] at hstep
    cases hstep

/-- The call returns in one state at most. -/
theorem Goes.unique (h : Goes E v s t) (h' : Goes E v s s') (hfg : t.foreground = .idle)
    (hfg' : s'.foreground = .idle) : t = s' := by
  rcases Reach.determined alone_unique h h' with hafter | hafter
  · exact (Goes.eq_of_idle hafter hfg).symm
  · exact Goes.eq_of_idle hafter hfg'

/-- The call does not return. -/
def NoReturn (E : Env) (v : View) (s : PipelineState) : Prop :=
  ∀ s', Goes E v s s' → s'.foreground ≠ .idle

theorem NoReturn.of_goes (h : NoReturn E v t) (hgoes : Goes E v s t) : NoReturn E v s := by
  intro s' hs' hidle
  rcases Reach.determined alone_unique hgoes hs' with hafter | hafter
  · exact h s' hafter hidle
  · have heq := Goes.eq_of_idle hafter hidle
    exact h t .init (heq ▸ hidle)

/-- A thread that waits for ever. -/
theorem NoReturn.of_spin (hfault : s.fault = none) (hfg : s.foreground ≠ .idle)
    (hstep : s.foregroundStep E false v = .ok s) : NoReturn E v s := by
  intro s' hs'
  have hsame : s' = s := by
    refine Reach.invariant (I := fun x => x = s) rfl ?_ hs'
    rintro x x' l rfl rfl hx
    rw [step_foreground_ok hfault hfg hstep] at hx
    exact (Option.some.inj hx).symm
  rwa [hsame]

theorem NoReturn.of_error {e : Fault} (hfault : s.fault = none) (hfg : s.foreground ≠ .idle)
    (hstep : s.foregroundStep E false v = .error e) : NoReturn E v s := by
  intro s' hs'
  rcases Reach.head hs' with rfl | ⟨l, t, rfl, ht, hrest⟩
  · exact hfg
  · rw [step_foreground_error hfault hfg hstep] at ht
    obtain rfl := Option.some.inj ht
    rcases Reach.head hrest with rfl | ⟨l, s₂, -, hs₂, -⟩
    · exact hfg
    · simp [PipelineState.step] at hs₂

/-! ### How a call ends -/

/-- What `ef_read` returns, with `errno`, and whether it has started a
read. -/
structure Outcome where
  ret : Int
  err : Option Errno
  fires : Bool

/-- The call ends so. -/
def Yields (E : Env) (v : View) (nbyte : Nat) (s : PipelineState) : Option Outcome → Prop
  | none => NoReturn E v s
  | some o => ∃ s' bytes, Goes E v s s' ∧ s'.foreground = .idle ∧ s'.fault = none ∧
      s'.history = s.history ++ [.readReturned nbyte o.ret o.err bytes] ∧
        (s'.fileReads = s.fileReads ↔ o.fires = false)

theorem Yields.of_goes {o : Option Outcome} (h : Yields E v nbyte t o) (hgoes : Goes E v s t)
    (hhistory : t.history = s.history) (hreads : t.fileReads = s.fileReads) : Yields E v nbyte s o := by
  cases o with
  | none => exact NoReturn.of_goes h hgoes
  | some o =>
    obtain ⟨s', bytes, hs', hidle, hfault, hhist, hfires⟩ := h
    exact ⟨s', bytes, hgoes.trans hs', hidle, hfault, by rw [hhist, hhistory], by rw [← hreads, hfires]⟩

/-! ### The action is given back or replaced -/

section Steps

variable {k : AfterFree} {id : Nat} {a : FileCmd} {inp : WriteOper}

theorem Goes.free {p : FreePc} {next : FreePc} (hfault : s.fault = none)
    (hfg : s.foreground = .freeing p k) (hstep : s.freeStep p = .ok (t, some next)) :
    Goes E v s { t with foreground := .freeing next k } := by
  refine .step hfault (by rw [hfg]; simp) ?_
  simp only [foregroundStep, hfg, hstep, ok_bind]
  rfl

/-- `free_file_action` ends. Its loop takes the guard at the second attempt
at the latest. -/
theorem goes_freed (hfault : s.fault = none) (hlive : s.recordLive = true)
    (hact : s.action = .live id a) (htyped : ¬ (a.cmd = .operWrite ∧ a.writeInp.isNone = true))
    (hfg : s.foreground = .freeing (.acquire 0) k) :
    Goes E v s ({ s with action := .null, preventActionMutation := 0 }.afterFree k) := by
  have hacquire : ∀ w : Int, s.preventActionMutation = w →
      Goes E v { s with foreground := .freeing (.acquire w) k }
        { s with preventActionMutation := 1, foreground := .freeing .cleanup k } := by
    intro w hw
    refine .free (t := { s with preventActionMutation := 1, foreground := .freeing (.acquire w) k })
      hfault rfl ?_
    simp only [freeStep, derefRecord, hlive, if_true, ok_bind, cas_of_eq hw]
    rfl
  have hguard : Goes E v s { s with preventActionMutation := 1, foreground := .freeing .cleanup k } := by
    by_cases hfree : s.preventActionMutation = 0
    · have hgo := hacquire 0 hfree
      rwa [← hfg] at hgo
    · refine Goes.trans (.free (t := s) hfault hfg ?_) (hacquire _ rfl)
      simp only [freeStep, derefRecord_of_live hlive, ok_bind, cas_of_ne hfree, Bool.false_eq_true, if_false]
      rfl
  have hcleanup : Goes E v { s with preventActionMutation := 1, foreground := .freeing .cleanup k }
      { s with preventActionMutation := 1, action := .freed, foreground := .freeing .setNull k } := by
    refine .free (t := { s with
      preventActionMutation := 1, action := .freed, foreground := .freeing .cleanup k }) hfault rfl ?_
    simp only [freeStep, derefAction, derefRecord, hlive, hact, if_true, ok_bind, if_neg htyped]
    rfl
  have hnull : Goes E v
      { s with preventActionMutation := 1, action := .freed, foreground := .freeing .setNull k }
      { s with preventActionMutation := 1, action := .null, foreground := .freeing .release k } := by
    refine .free (t := { s with
      preventActionMutation := 1, action := .null, foreground := .freeing .setNull k }) hfault rfl ?_
    simp only [freeStep, derefRecord, hlive, if_true, ok_bind]
    rfl
  refine hguard.trans (hcleanup.trans (hnull.trans ?_))
  refine .step hfault (by simp) ?_
  simp only [foregroundStep, freeStep, derefRecord, hlive, if_true, ok_bind, cas_of_eq]
  cases k <;> rfl

theorem Goes.alloc {p next : AllocPc} {oper : FileOper} {k : AfterAlloc} (hfault : s.fault = none)
    (hfg : s.foreground = .allocating p oper k) (hstep : s.allocStep oper p = .ok (t, some next)) :
    Goes E v s { t with foreground := .allocating next oper k } := by
  refine .step hfault (by rw [hfg]; simp) ?_
  simp only [foregroundStep, hfg, hstep, ok_bind]
  rfl

/-- `alloc_file_action` ends. -/
theorem goes_allocated {oper : FileOper} {k : AfterAlloc} (hfault : s.fault = none)
    (hlive : s.recordLive = true) (hfg : s.foreground = .allocating (.acquire 0) oper k) :
    Goes E v s { s with
      action := .live s.nextId (eioCmdInit oper)
      nextId := s.nextId + 1
      preventActionMutation := 0
      foreground := afterAlloc k } := by
  have hacquire : ∀ w : Int, s.preventActionMutation = w →
      Goes E v { s with foreground := .allocating (.acquire w) oper k }
        { s with preventActionMutation := 1, foreground := .allocating .init oper k } := by
    intro w hw
    refine .alloc (t := { s with
      preventActionMutation := 1, foreground := .allocating (.acquire w) oper k }) hfault rfl ?_
    simp only [allocStep, derefRecord, hlive, if_true, ok_bind, cas_of_eq hw]
    rfl
  have hguard : Goes E v s
      { s with preventActionMutation := 1, foreground := .allocating .init oper k } := by
    by_cases hfree : s.preventActionMutation = 0
    · have hgo := hacquire 0 hfree
      rwa [← hfg] at hgo
    · refine Goes.trans (.alloc (t := s) hfault hfg ?_) (hacquire _ rfl)
      simp only [allocStep, derefRecord_of_live hlive, ok_bind, cas_of_ne hfree, Bool.false_eq_true,
        if_false]
      rfl
  have hinit : Goes E v { s with preventActionMutation := 1, foreground := .allocating .init oper k }
      { s with
        preventActionMutation := 1
        action := .live s.nextId (eioCmdInit oper)
        nextId := s.nextId + 1
        foreground := .allocating .release oper k } := by
    refine .alloc (t := { s with
      preventActionMutation := 1
      action := .live s.nextId (eioCmdInit oper)
      nextId := s.nextId + 1
      foreground := .allocating .init oper k }) hfault rfl ?_
    simp only [allocStep, derefRecord, hlive, if_true, ok_bind]
    rfl
  refine hguard.trans (hinit.trans ?_)
  refine .step hfault (by simp) ?_
  simp only [foregroundStep, allocStep, derefRecord, hlive, if_true, ok_bind, cas_of_eq]
  rfl

end Steps

/-! ### The end of the call -/

/-- How `ef_read` ends at the page buffer when there is no action. -/
def bufferOutcome (E : Env) (f : EfFile) (nbyte : Nat) (pageOffset : Int) : Option Outcome :=
  match f.buf.buffer with
  | none => if f.buf.bufferIndex * E.pageSize = f.fileOffset then some ⟨-1, some .eagain, true⟩ else none
  | some b =>
    match readTransfer E f b nbyte pageOffset with
    | .ok (_, ret, err, _) => some ⟨ret, err, false⟩
    | .error _ => none

/-- The call returns at once. -/
theorem Yields.of_return {ret : Int} {err : Option Errno} {b : List UInt8} (hfault : s.fault = none)
    (hfg : s.foreground ≠ .idle)
    (hstep : s.foregroundStep E false v = .ok ({ s with file := t.file }.finishRead nbyte ret err b)) :
    Yields E v nbyte s (some ⟨ret, err, false⟩) :=
  ⟨_, b, .step hfault hfg hstep, rfl, hfault, rfl, iff_of_true rfl rfl⟩

theorem yields_enqueue (hfault : s.fault = none) (hlive : s.recordLive = true)
    (hfg : s.foreground = .readEnqueue nbyte) :
    Yields E v nbyte s (some ⟨-1, some .eagain, true⟩) := by
  have hstep : s.foregroundStep E false v =
      .ok (finishRead { s with fileReads := s.fileReads ++ [ReadJob.queued s.file.buf.bufferIndex] }
        nbyte (-1) (some .eagain) []) := by
    simp only [foregroundStep, hfg, readStep, derefRecord_of_live hlive, ok_bind]
    rfl
  refine ⟨_, [], .step hfault (by rw [hfg]; simp) hstep, rfl, hfault, rfl, iff_of_false ?_ (by simp)⟩
  simp [finishRead]

/-- A fresh read is fired. -/
theorem yields_fire (hfault : s.fault = none) (hlive : s.recordLive = true) (hact : s.action = .null)
    (hfg : s.foreground = .readFire nbyte) :
    Yields E v nbyte s
      (if s.file.buf.bufferIndex * E.pageSize = s.file.fileOffset then some ⟨-1, some .eagain, true⟩
      else none) := by
  have hne : s.foreground ≠ .idle := by rw [hfg]; simp
  by_cases haligned : s.file.buf.bufferIndex * E.pageSize = s.file.fileOffset
  · rw [if_pos haligned]
    have hstep : s.foregroundStep E false v =
        .ok { s with foreground := .allocating (.acquire 0) .operRead (.read nbyte) } := by
      simp only [foregroundStep, hfg, readStep, derefRecord_of_live hlive, ok_bind, ne_eq, haligned,
        not_true_eq_false, if_false, hact]
      rfl
    have halloc := goes_allocated (E := E) (v := v) (s := { s with
      foreground := .allocating (.acquire 0) .operRead (.read nbyte) }) hfault hlive rfl
    refine Yields.of_goes ?_ (Goes.trans (.step hfault hne hstep) halloc) rfl rfl
    exact yields_enqueue hfault hlive rfl
  · rw [if_neg haligned]
    refine NoReturn.of_error (e := .evAbort "") hfault hne ?_
    simp only [foregroundStep, hfg, readStep, derefRecord_of_live hlive, ok_bind, ne_eq, haligned,
      not_false_eq_true, if_true]

theorem yields_buffer (hfault : s.fault = none) (hlive : s.recordLive = true) (hact : s.action = .null)
    (hfg : s.foreground = .readBuffer nbyte pageOffset) :
    Yields E v nbyte s (bufferOutcome E s.file nbyte pageOffset) := by
  have hne : s.foreground ≠ .idle := by rw [hfg]; simp
  unfold bufferOutcome
  cases hbuffer : s.file.buf.buffer with
  | none =>
    have hstep : s.foregroundStep E false v = .ok { s with foreground := .readFire nbyte } := by
      simp only [foregroundStep, hfg, readStep, derefRecord_of_live hlive, ok_bind, hbuffer,
        testAction_of_null hlive hact]
      rfl
    exact Yields.of_goes (yields_fire (s := { s with foreground := .readFire nbyte }) hfault hlive hact rfl)
      (.step hfault hne hstep) rfl rfl
  | some b =>
    cases htransfer : readTransfer E s.file b nbyte pageOffset with
    | ok r =>
      obtain ⟨file, ret, err, bytes⟩ := r
      simp only [htransfer]
      refine Yields.of_return (t := { s with file := file }) (b := bytes) hfault hne ?_
      simp only [foregroundStep, hfg, readStep, derefRecord_of_live hlive, ok_bind, hbuffer, htransfer]
      rfl
    | error e =>
      simp only [htransfer]
      refine NoReturn.of_error (e := e) hfault hne ?_
      simp only [foregroundStep, hfg, readStep, derefRecord_of_live hlive, ok_bind, hbuffer, htransfer]
      rfl

/-- The action is complete, if there is one. -/
structure Collectable (s : PipelineState) : Prop where
  complete : ∀ id a, s.action = .live id a → a.actionStatus = .actionComplete ∧
    ¬ (a.cmd = .operWrite ∧ a.writeInp.isNone = true)
  notFreed : s.action ≠ .freed

/-- The action is collected before the buffer is looked at. -/
theorem yields_drop (hfault : s.fault = none) (hlive : s.recordLive = true) (hact : Collectable s)
    (hfg : s.foreground = .readDrop nbyte pageOffset) :
    Yields E v nbyte s (bufferOutcome E s.file nbyte pageOffset) := by
  have hne : s.foreground ≠ .idle := by rw [hfg]; simp
  cases haction : s.action with
  | null =>
    have hstep : s.foregroundStep E false v = .ok { s with foreground := .readBuffer nbyte pageOffset } := by
      simp only [foregroundStep, hfg, readStep, testAction_of_null hlive haction, ok_bind]
      rfl
    exact Yields.of_goes (yields_buffer (s := { s with foreground := .readBuffer nbyte pageOffset })
      hfault hlive haction rfl) (.step hfault hne hstep) rfl rfl
  | live id a =>
    obtain ⟨hcomplete, htyped⟩ := hact.complete id a haction
    have hstep : s.foregroundStep E false v =
        .ok { s with foreground := .freeing (.acquire 0) (.readBuffer nbyte pageOffset) } := by
      simp only [foregroundStep, hfg, readStep, testAction_of_live hlive haction, ok_bind, hcomplete,
        if_true]
      rfl
    have hfree := goes_freed (E := E) (v := v) (s := { s with
      foreground := .freeing (.acquire 0) (.readBuffer nbyte pageOffset) }) hfault hlive haction htyped rfl
    refine Yields.of_goes ?_ (Goes.trans (.step hfault hne hstep) hfree) rfl rfl
    exact yields_buffer (s := { s with
      action := .null, preventActionMutation := 0, foreground := .readBuffer nbyte pageOffset })
      hfault hlive rfl rfl
  | freed => exact absurd haction hact.notFreed

/-! ### The flush of a write action -/

section Flush

variable {id : Nat} {a : FileCmd} {inp : WriteOper} {k : AfterSync}

/-- How the call goes on behind the flush: the action is complete, or it is
not. -/
def flushedOutcome (E : Env) (f : EfFile) (nbyte : Nat) (pageOffset : Int) (a : FileCmd)
    (inp : WriteOper) : Option Outcome :=
  if a.actionStatus = .actionComplete ∨ inp.writeTotreqCount = inp.writeCmplCount then
    bufferOutcome E f nbyte pageOffset
  else some ⟨-1, some .ebusy, false⟩

theorem yields_test (hfault : s.fault = none) (hlive : s.recordLive = true)
    (hact : s.action = .live id a) (hinp : a.writeInp = some inp)
    (hfg : s.foreground = .readTest nbyte pageOffset) :
    Yields E v nbyte s (if a.actionStatus = .actionComplete then bufferOutcome E s.file nbyte pageOffset
      else some ⟨-1, some .ebusy, false⟩) := by
  have hne : s.foreground ≠ .idle := by rw [hfg]; simp
  by_cases hcomplete : a.actionStatus = .actionComplete
  · rw [if_pos hcomplete]
    have hstep : s.foregroundStep E false v = .ok { s with foreground := .readDrop nbyte pageOffset } := by
      simp only [foregroundStep, hfg, readStep, derefAction_of_live hlive hact, ok_bind, ne_eq, hcomplete,
        not_true_eq_false, if_false]
      rfl
    refine Yields.of_goes ?_ (.step hfault hne hstep) rfl rfl
    refine yields_drop (s := { s with foreground := .readDrop nbyte pageOffset }) hfault hlive ⟨?_, ?_⟩ rfl
    · intro id' a' hact'
      obtain ⟨rfl, rfl⟩ := ActionPtr.live.inj (hact.symm.trans hact')
      exact ⟨hcomplete, by simp [hinp]⟩
    · rw [hact]
      simp
  · rw [if_neg hcomplete]
    refine Yields.of_return (t := s) (b := []) hfault hne ?_
    simp only [foregroundStep, hfg, readStep, derefAction_of_live hlive hact, ok_bind, ne_eq, hcomplete,
      not_false_eq_true, if_true]
    rfl

theorem Goes.set {p next : SetPc} (hfault : s.fault = none)
    (hfg : s.foreground = .setting p k) (hstep : s.setStep p = .ok (t, some next)) :
    Goes E v s { t with foreground := .setting next k } := by
  refine .step hfault (by rw [hfg]; simp) ?_
  simp only [foregroundStep, hfg, hstep, ok_bind]
  rfl

theorem Goes.wasSet {p : SetPc} (hfault : s.fault = none)
    (hfg : s.foreground = .setting p k) (hstep : s.setStep p = .ok (t, none)) :
    Goes E v s { t with foreground := afterSet k } := by
  refine .step hfault (by rw [hfg]; simp) ?_
  simp only [foregroundStep, hfg, hstep, ok_bind]
  rfl

/-- `SET_WRITE_ACTION_STATUS`, and what follows. -/
theorem yields_setting (hfault : s.fault = none) (hlive : s.recordLive = true)
    (hact : s.action = .live id a) (hwrite : a.cmd = .operWrite) (hinp : a.writeInp = some inp)
    (hfg : s.foreground = .setting .readTotreq (.read nbyte pageOffset)) :
    Yields E v nbyte s (flushedOutcome E s.file nbyte pageOffset a inp) := by
  have hread : Goes E v s
      { s with foreground := .setting (.compare inp.writeTotreqCount) (.read nbyte pageOffset) } := by
    refine .set (t := s) hfault hfg ?_
    simp only [setStep, testAction_of_live hlive hact, ok_bind, hwrite, ne_eq, not_true_eq_false, if_false,
      hinp]
    rfl
  by_cases hequal : inp.writeTotreqCount = inp.writeCmplCount
  · have hstore : Goes E v
        { s with foreground := .setting (.compare inp.writeTotreqCount) (.read nbyte pageOffset) }
        { s with foreground := .setting .store (.read nbyte pageOffset) } := by
      refine .set (t := { s with
        foreground := .setting (.compare inp.writeTotreqCount) (.read nbyte pageOffset) }) hfault rfl ?_
      simp only [setStep, derefWriteInp, derefAction, derefRecord, hlive, if_true, ok_bind, hact, hinp, hequal]
      rfl
    have hdone : Goes E v { s with foreground := .setting .store (.read nbyte pageOffset) }
        { s with
          action := .live id { a with actionStatus := .actionComplete }
          foreground := .readTest nbyte pageOffset } := by
      refine .wasSet (k := .read nbyte pageOffset) (t := { s with
        action := .live id { a with actionStatus := .actionComplete }
        foreground := .setting .store (.read nbyte pageOffset) }) hfault rfl ?_
      simp only [setStep, derefAction, derefRecord, hlive, if_true, ok_bind, hact]
      rfl
    rw [flushedOutcome, if_pos (.inr hequal)]
    refine Yields.of_goes ?_ (hread.trans (hstore.trans hdone)) rfl rfl
    exact yields_test (s := { s with
      action := .live id { a with actionStatus := .actionComplete }
      foreground := .readTest nbyte pageOffset }) hfault hlive rfl hinp rfl
  · have hdone : Goes E v
        { s with foreground := .setting (.compare inp.writeTotreqCount) (.read nbyte pageOffset) }
        { s with foreground := .readTest nbyte pageOffset } := by
      refine .wasSet (k := .read nbyte pageOffset) (t := { s with
        foreground := .setting (.compare inp.writeTotreqCount) (.read nbyte pageOffset) }) hfault rfl ?_
      simp only [setStep, derefWriteInp, derefAction, derefRecord, hlive, if_true, ok_bind, hact, hinp,
        if_neg hequal]
      rfl
    have htest := yields_test (E := E) (v := v) (s := { s with foreground := .readTest nbyte pageOffset })
      hfault hlive hact hinp rfl
    simp only [flushedOutcome, hequal, or_false]
    exact Yields.of_goes htest (hread.trans hdone) rfl rfl

theorem Goes.sync {p next : SyncPc} (hfault : s.fault = none) (hfg : s.foreground = .syncing p k)
    (hstep : s.syncStep p = .ok (t, some next)) :
    Goes E v s { t with foreground := .syncing next k } := by
  refine .step hfault (by rw [hfg]; simp) ?_
  simp only [foregroundStep, hfg, hstep, ok_bind]
  rfl

theorem Goes.synced {p : SyncPc} (hfault : s.fault = none) (hfg : s.foreground = .syncing p k)
    (hstep : s.syncStep p = .ok (t, none)) :
    Goes E v s { t with foreground := .setting .readTotreq k } := by
  refine .step hfault (by rw [hfg]; simp) ?_
  simp only [foregroundStep, hfg, hstep, ok_bind]
  rfl

/-- The request once the task `w` is queued. -/
def pushedInp (inp : WriteOper) (w : WriteTask) : WriteOper :=
  { inp with writeTotreqCount := inp.writeTotreqCount + 1, wQueue := inp.wQueue ++ [w] }

/-- The action once the task `w` is queued and announced. -/
def pushedAction (a : FileCmd) (inp : WriteOper) (w : WriteTask) : FileCmd :=
  lowEioCmdInit { a with writeInp := some (pushedInp inp w) }

/-- A push of `sync_file_writes`, from the place `wrap` to the place
`q`. -/
theorem goes_pushed {wrap : PushPc → SyncPc} {q : SyncPc} {w : WriteTask}
    (hwrap : ∀ (s : PipelineState) (p : PushPc), s.syncStep (wrap p) = (do
      let (s, p) ← s.pushStep p
      return (s, some (p.elim q wrap))))
    (hfault : s.fault = none) (hlive : s.recordLive = true) (hact : s.action = .live id a)
    (hinp : a.writeInp = some inp) (hfg : s.foreground = .syncing (wrap (.count w)) k) :
    Goes E v s { s with
      action := .live id (pushedAction a inp w)
      pushed := s.pushed ++ [w]
      fileWriterQueue := s.fileWriterQueue ++ [.fwWriteReqEvt id]
      foreground := .syncing q k } := by
  have hcount : Goes E v s { s with
      action := .live id { a with writeInp := some { inp with writeTotreqCount := inp.writeTotreqCount + 1 } }
      foreground := .syncing (wrap (.enqueue w)) k } := by
    refine .sync (t := { s with action := .live id { a with
      writeInp := some { inp with writeTotreqCount := inp.writeTotreqCount + 1 } } }) hfault hfg ?_
    have hderef : s.derefWriteInp = .ok (id, a, inp) := derefWriteInp_eq_ok.mpr ⟨hlive, hact, hinp⟩
    simp only [hwrap, pushStep, hderef, ok_bind]
    rfl
  have henqueue : Goes E v { s with
      action := .live id { a with writeInp := some { inp with writeTotreqCount := inp.writeTotreqCount + 1 } }
      foreground := .syncing (wrap (.enqueue w)) k } { s with
      action := .live id { a with writeInp := some { inp with
        writeTotreqCount := inp.writeTotreqCount + 1, wQueue := inp.wQueue ++ [w] } }
      pushed := s.pushed ++ [w]
      foreground := .syncing (wrap (.init id)) k } := by
    refine .sync (t := { s with
      action := .live id { a with writeInp := some { inp with
        writeTotreqCount := inp.writeTotreqCount + 1, wQueue := inp.wQueue ++ [w] } }
      pushed := s.pushed ++ [w]
      foreground := .syncing (wrap (.enqueue w)) k }) hfault rfl ?_
    simp only [hwrap, pushStep, derefWriteInp, derefAction, derefRecord, hlive, if_true, ok_bind]
    rfl
  have hinit : Goes E v { s with
      action := .live id { a with writeInp := some { inp with
        writeTotreqCount := inp.writeTotreqCount + 1, wQueue := inp.wQueue ++ [w] } }
      pushed := s.pushed ++ [w]
      foreground := .syncing (wrap (.init id)) k } { s with
      action := .live id (pushedAction a inp w)
      pushed := s.pushed ++ [w]
      foreground := .syncing (wrap (.post id)) k } := by
    refine .sync (t := { s with
      action := .live id (pushedAction a inp w)
      pushed := s.pushed ++ [w]
      foreground := .syncing (wrap (.init id)) k }) hfault rfl ?_
    simp only [hwrap, pushStep, derefAction, derefRecord, hlive, if_true, ok_bind]
    rfl
  refine hcount.trans (henqueue.trans (hinit.trans ?_))
  refine .sync (t := { s with
    action := .live id (pushedAction a inp w)
    pushed := s.pushed ++ [w]
    fileWriterQueue := s.fileWriterQueue ++ [.fwWriteReqEvt id]
    foreground := .syncing (wrap (.post id)) k }) hfault rfl ?_
  simp only [hwrap, pushStep]
  rfl

/-- The guards are given back, and the status is looked at. -/
theorem yields_resume (hfault : s.fault = none) (hlive : s.recordLive = true)
    (hhandle : s.handleToFileAction = 1) (hguard : s.preventActionMutation = 1)
    (hword : s.writeSuspended = 1) (hact : s.action = .live id a) (hwrite : a.cmd = .operWrite)
    (hinp : a.writeInp = some inp) (hfg : s.foreground = .syncing .resumeWrites (.read nbyte pageOffset)) :
    Yields E v nbyte s (flushedOutcome E s.file nbyte pageOffset a inp) := by
  have hresume : Goes E v s
      { s with writeSuspended := 0, foreground := .syncing .unlockAction (.read nbyte pageOffset) } := by
    refine .sync (t := { s with writeSuspended := 0 }) hfault hfg ?_
    simp only [syncStep, derefRecord_of_live hlive, ok_bind, cas_of_eq hword]
    rfl
  have hunlock : Goes E v
      { s with writeSuspended := 0, foreground := .syncing .unlockAction (.read nbyte pageOffset) }
      { s with
        writeSuspended := 0
        preventActionMutation := 0
        foreground := .syncing .unlockHandle (.read nbyte pageOffset) } := by
    refine .sync (t := { s with
      writeSuspended := 0
      preventActionMutation := 0
      foreground := .syncing .unlockAction (.read nbyte pageOffset) }) hfault rfl ?_
    simp only [syncStep, derefRecord, hlive, if_true, ok_bind, cas_of_eq hguard]
    rfl
  have hdone : Goes E v
      { s with
        writeSuspended := 0
        preventActionMutation := 0
        foreground := .syncing .unlockHandle (.read nbyte pageOffset) }
      { s with
        writeSuspended := 0
        preventActionMutation := 0
        handleToFileAction := 0
        foreground := .setting .readTotreq (.read nbyte pageOffset) } := by
    refine .synced (t := { s with
      writeSuspended := 0
      preventActionMutation := 0
      handleToFileAction := 0
      foreground := .syncing .unlockHandle (.read nbyte pageOffset) }) hfault rfl ?_
    simp only [syncStep, cas_of_eq hhandle]
    rfl
  refine Yields.of_goes ?_ (hresume.trans (hunlock.trans hdone)) rfl rfl
  exact yields_setting (s := { s with
    writeSuspended := 0
    preventActionMutation := 0
    handleToFileAction := 0
    foreground := .setting .readTotreq (.read nbyte pageOffset) }) hfault hlive hact hwrite hinp rfl

/-- The flush itself is a request, unless the action is complete. -/
theorem yields_fsync (hfault : s.fault = none) (hlive : s.recordLive = true)
    (hhandle : s.handleToFileAction = 1) (hguard : s.preventActionMutation = 1)
    (hword : s.writeSuspended = 1) (hact : s.action = .live id a) (hwrite : a.cmd = .operWrite)
    (hinp : a.writeInp = some inp) (hfg : s.foreground = .syncing .fsync (.read nbyte pageOffset)) :
    Yields E v nbyte s (if a.actionStatus = .actionComplete then bufferOutcome E s.file nbyte pageOffset
      else if inp.writeTotreqCount + 1 = inp.writeCmplCount then bufferOutcome E s.file nbyte pageOffset
      else some ⟨-1, some .ebusy, false⟩) := by
  by_cases hcomplete : a.actionStatus = .actionComplete
  · have hskip : Goes E v s { s with foreground := .syncing .resumeWrites (.read nbyte pageOffset) } := by
      refine .sync (t := s) hfault hfg ?_
      simp only [syncStep, testAction_of_live hlive hact, ok_bind, hcomplete, or_true, if_true]
      rfl
    have hresume := yields_resume (E := E) (v := v) (s := { s with
      foreground := .syncing .resumeWrites (.read nbyte pageOffset) }) hfault hlive hhandle hguard hword hact
      hwrite hinp rfl
    rw [flushedOutcome, if_pos (.inl hcomplete)] at hresume
    rw [if_pos hcomplete]
    exact Yields.of_goes hresume hskip rfl rfl
  · have hcount : Goes E v s { s with
        foreground := .syncing (.fsyncPush (.count ⟨.fileFsyncEvt, inp.wAccum⟩)) (.read nbyte pageOffset) } := by
      refine .sync (t := s) hfault hfg ?_
      simp only [syncStep, testAction_of_live hlive hact, ok_bind, hwrite, hcomplete, ne_eq,
        not_true_eq_false, or_false, if_false, hinp]
      rfl
    have hpush := goes_pushed (E := E) (v := v) (q := .resumeWrites) (s := { s with
      foreground := .syncing (.fsyncPush (.count ⟨.fileFsyncEvt, inp.wAccum⟩)) (.read nbyte pageOffset) })
      (fun _ _ => rfl) hfault hlive hact hinp rfl
    have houtcome : flushedOutcome E s.file nbyte pageOffset
        (pushedAction a inp ⟨.fileFsyncEvt, inp.wAccum⟩) (pushedInp inp ⟨.fileFsyncEvt, inp.wAccum⟩) =
          if inp.writeTotreqCount + 1 = inp.writeCmplCount then bufferOutcome E s.file nbyte pageOffset
          else some ⟨-1, some .ebusy, false⟩ := by
      simp [flushedOutcome, pushedAction, pushedInp, lowEioCmdInit]
    rw [if_neg hcomplete, ← houtcome]
    refine Yields.of_goes ?_ (hcount.trans hpush) rfl rfl
    exact yields_resume hfault hlive hhandle hguard hword rfl rfl rfl rfl

/-- What is in the accumulator is a request, if there is something. -/
theorem yields_lowSync (hfault : s.fault = none) (hlive : s.recordLive = true)
    (hhandle : s.handleToFileAction = 1) (hguard : s.preventActionMutation = 1)
    (hword : s.writeSuspended = 1) (hact : s.action = .live id a) (hwrite : a.cmd = .operWrite)
    (hinp : a.writeInp = some inp) (hfg : s.foreground = .syncing .lowSync (.read nbyte pageOffset)) :
    Yields E v nbyte s
      (if (if inp.wAccum = [] then
          a.actionStatus = .actionComplete ∨ inp.writeTotreqCount + 1 = inp.writeCmplCount
        else inp.writeTotreqCount + 2 = inp.writeCmplCount) then bufferOutcome E s.file nbyte pageOffset
      else some ⟨-1, some .ebusy, false⟩) := by
  by_cases haccum : inp.wAccum = []
  · have hskip : Goes E v s { s with foreground := .syncing .fsync (.read nbyte pageOffset) } := by
      refine .sync (t := s) hfault hfg ?_
      simp only [syncStep, lowEfSync, testAction_of_live hlive hact, ok_bind, hwrite, ne_eq,
        not_true_eq_false, if_false, hinp, haccum, if_true]
      rfl
    have hfsync := yields_fsync (E := E) (v := v) (s := { s with
      foreground := .syncing .fsync (.read nbyte pageOffset) }) hfault hlive hhandle hguard hword hact
      hwrite hinp rfl
    simp only [if_pos haccum]
    refine Yields.of_goes ?_ hskip rfl rfl
    by_cases hcomplete : a.actionStatus = .actionComplete
    · simpa [hcomplete] using hfsync
    · simpa [hcomplete] using hfsync
  · have hcount : Goes E v s { s with
        action := .live id { a with writeInp := some { inp with wAccum := [] } }
        foreground := .syncing (.lowSyncPush (.count ⟨.fileWriteEvt, inp.wAccum⟩)) (.read nbyte pageOffset) } := by
      have hlow : s.lowEfSync = .ok (s.setWriteInp id a { inp with wAccum := [] },
          some (.count ⟨.fileWriteEvt, inp.wAccum⟩)) := by
        simp only [lowEfSync, testAction_of_live hlive hact, ok_bind, hwrite, ne_eq, not_true_eq_false,
          if_false, hinp, haccum]
        rfl
      refine .sync (t := s.setWriteInp id a { inp with wAccum := [] }) hfault hfg ?_
      simp only [syncStep, hlow, ok_bind]
      rfl
    have hpush := goes_pushed (E := E) (v := v) (q := .fsync) (s := { s with
      action := .live id { a with writeInp := some { inp with wAccum := [] } }
      foreground := .syncing (.lowSyncPush (.count ⟨.fileWriteEvt, inp.wAccum⟩)) (.read nbyte pageOffset) })
      (fun _ _ => rfl) hfault hlive rfl rfl rfl
    simp only [if_neg haccum]
    refine Yields.of_goes ?_ (hcount.trans hpush) rfl rfl
    have hfsync := yields_fsync (E := E) (v := v) (s := { s with
      action := .live id (pushedAction { a with writeInp := some { inp with wAccum := [] } }
        { inp with wAccum := [] } ⟨.fileWriteEvt, inp.wAccum⟩)
      pushed := s.pushed ++ [⟨.fileWriteEvt, inp.wAccum⟩]
      fileWriterQueue := s.fileWriterQueue ++ [.fwWriteReqEvt id]
      foreground := .syncing .fsync (.read nbyte pageOffset) })
      hfault hlive hhandle hguard hword rfl rfl rfl rfl
    simpa [pushedAction, pushedInp, lowEioCmdInit, Nat.add_assoc] using hfsync

/-- How the flush ends when it cannot complete the action: it waits for
ever, or `ef_read` returns `EBUSY`. -/
def Blocked (o : Option Outcome) : Prop := o = none ∨ o = some ⟨-1, some .ebusy, false⟩

/-- The call ends at the buffer if `P` holds, and is blocked else. -/
def YieldsIf (E : Env) (v : View) (nbyte : Nat) (pageOffset : Int) (s : PipelineState) (P : Prop) : Prop :=
  ∃ o, Yields E v nbyte s o ∧ (P → o = bufferOutcome E s.file nbyte pageOffset) ∧ (¬ P → Blocked o)

variable {P : Prop}

theorem NoReturn.yieldsIf (h : NoReturn E v s) (hnot : ¬ P) : YieldsIf E v nbyte pageOffset s P :=
  ⟨none, h, fun hp => absurd hp hnot, fun _ => .inl rfl⟩

theorem Yields.yieldsIf [Decidable P] (h : Yields E v nbyte s
    (if P then bufferOutcome E s.file nbyte pageOffset else some ⟨-1, some .ebusy, false⟩)) :
    YieldsIf E v nbyte pageOffset s P :=
  ⟨_, h, fun hp => if_pos hp, fun hnot => .inr (if_neg hnot)⟩

theorem YieldsIf.of_goes (h : YieldsIf E v nbyte pageOffset t P) (hgoes : Goes E v s t)
    (hfile : t.file = s.file) (hhistory : t.history = s.history) (hreads : t.fileReads = s.fileReads) :
    YieldsIf E v nbyte pageOffset s P := by
  obtain ⟨o, hyields, hthen, helse⟩ := h
  exact ⟨o, hyields.of_goes hgoes hhistory hreads, hfile ▸ hthen, helse⟩

theorem YieldsIf.congr {Q : Prop} (h : YieldsIf E v nbyte pageOffset s P) (hiff : P ↔ Q) :
    YieldsIf E v nbyte pageOffset s Q := by
  rwa [← propext hiff]

/-- The flush waits for a lock. -/
theorem NoReturn.of_waiting {p : SyncPc} (hfault : s.fault = none) (hfg : s.foreground = .syncing p k)
    (hstep : s.syncStep p = .ok (s, some p)) : NoReturn E v s := by
  refine .of_spin hfault (by rw [hfg]; simp) ?_
  have hself : { s with foreground := .syncing p k } = s := by rw [← hfg]
  simp only [foregroundStep, hfg, hstep, ok_bind]
  exact congrArg Except.ok hself

/-- The flush with the handle locked, on a file that is not open for
writing: it does nothing. -/
theorem yieldsIf_readOnly (hfault : s.fault = none) (hlive : s.recordLive = true)
    (hhandle : s.handleToFileAction = 1) (hact : s.action = .live id a) (hwrite : a.cmd = .operWrite)
    (hfg : s.foreground = .syncing .unlockHandle (.read nbyte pageOffset)) :
    YieldsIf E v nbyte pageOffset s (∃ inp, a.writeInp = some inp ∧
      (a.actionStatus = .actionComplete ∨ inp.writeTotreqCount = inp.writeCmplCount)) := by
  have hdone : Goes E v s { s with
      handleToFileAction := 0, foreground := .setting .readTotreq (.read nbyte pageOffset) } := by
    refine .synced (t := { s with handleToFileAction := 0 }) hfault hfg ?_
    simp only [syncStep, cas_of_eq hhandle]
    rfl
  refine YieldsIf.of_goes ?_ hdone rfl rfl rfl
  cases hinp : a.writeInp with
  | none =>
    refine NoReturn.yieldsIf (NoReturn.of_error (e := .wrongMember) hfault (by simp) ?_) (by simp)
    simp only [foregroundStep, setStep, testAction, derefRecord, hlive, if_true, ok_bind, hact, hwrite, ne_eq,
      not_true_eq_false, if_false, hinp]
    rfl
  | some inp =>
    have hset := yields_setting (E := E) (v := v) (s := { s with
      handleToFileAction := 0, foreground := .setting .readTotreq (.read nbyte pageOffset) }) hfault hlive
      hact hwrite hinp rfl
    exact (Yields.yieldsIf hset).congr (by simp)

/-- The flush with the handle locked, on a file that is open for writing. -/
theorem yieldsIf_writable (hfault : s.fault = none) (hlive : s.recordLive = true)
    (hhandle : s.handleToFileAction = 1) (hact : s.action = .live id a) (hwrite : a.cmd = .operWrite)
    (hfg : s.foreground = .syncing .lockAction (.read nbyte pageOffset)) :
    YieldsIf E v nbyte pageOffset s (∃ inp, a.writeInp = some inp ∧
      s.preventActionMutation = 0 ∧ s.writeSuspended = 0 ∧
        if inp.wAccum = [] then
          a.actionStatus = .actionComplete ∨ inp.writeTotreqCount + 1 = inp.writeCmplCount
        else inp.writeTotreqCount + 2 = inp.writeCmplCount) := by
  by_cases hguard : s.preventActionMutation = 0
  case neg =>
    refine NoReturn.yieldsIf (NoReturn.of_waiting hfault hfg ?_) (by simp [hguard])
    simp only [syncStep, derefRecord_of_live hlive, ok_bind, cas_of_ne hguard, Bool.false_eq_true, if_false]
    rfl
  have hlock : Goes E v s { s with
      preventActionMutation := 1, foreground := .syncing .suspendWrites (.read nbyte pageOffset) } := by
    refine .sync (t := { s with preventActionMutation := 1 }) hfault hfg ?_
    simp only [syncStep, derefRecord_of_live hlive, ok_bind, cas_of_eq hguard]
    rfl
  by_cases hword : s.writeSuspended = 0
  case neg =>
    refine NoReturn.yieldsIf (NoReturn.of_goes ?_ hlock) (by simp [hword])
    refine NoReturn.of_waiting hfault rfl ?_
    simp only [syncStep, derefRecord, hlive, if_true, ok_bind, cas_of_ne hword, Bool.false_eq_true, if_false]
    rfl
  have hsuspend : Goes E v
      { s with
        preventActionMutation := 1, foreground := .syncing .suspendWrites (.read nbyte pageOffset) }
      { s with
        preventActionMutation := 1
        writeSuspended := 1
        foreground := .syncing .testAction (.read nbyte pageOffset) } := by
    refine .sync (t := { s with
      preventActionMutation := 1
      writeSuspended := 1
      foreground := .syncing .suspendWrites (.read nbyte pageOffset) }) hfault rfl ?_
    simp only [syncStep, derefRecord, hlive, if_true, ok_bind, cas_of_eq hword]
    rfl
  have htest : Goes E v
      { s with
        preventActionMutation := 1
        writeSuspended := 1
        foreground := .syncing .testAction (.read nbyte pageOffset) }
      { s with
        preventActionMutation := 1
        writeSuspended := 1
        foreground := .syncing .lowSync (.read nbyte pageOffset) } := by
    refine .sync (t := { s with
      preventActionMutation := 1
      writeSuspended := 1
      foreground := .syncing .testAction (.read nbyte pageOffset) }) hfault rfl ?_
    simp only [syncStep, testAction, derefRecord, hlive, if_true, ok_bind, hact, hwrite, ne_eq,
      not_true_eq_false, if_false]
    rfl
  have hgoes := hlock.trans (hsuspend.trans htest)
  cases hinp : a.writeInp with
  | none =>
    refine NoReturn.yieldsIf (NoReturn.of_goes ?_ hgoes) (by simp)
    refine NoReturn.of_error (e := .wrongMember) hfault (by simp) ?_
    simp only [foregroundStep, syncStep, lowEfSync, testAction, derefRecord, hlive, if_true, ok_bind, hact,
      hwrite, ne_eq, not_true_eq_false, if_false, hinp]
    rfl
  | some inp =>
    have hlow := yields_lowSync (E := E) (v := v) (s := { s with
      preventActionMutation := 1
      writeSuspended := 1
      foreground := .syncing .lowSync (.read nbyte pageOffset) }) hfault hlive hhandle rfl rfl hact hwrite
      hinp rfl
    exact ((Yields.yieldsIf hlow).congr (by simp [hguard, hword])).of_goes hgoes rfl rfl rfl

/-- The flush of `ef_read`, and the rest of the call. -/
theorem yieldsIf_flush (h : OpenIdle { s with foreground := .idle }) (hact : s.action = .live id a)
    (hwrite : a.cmd = .operWrite) (hfg : s.foreground = .syncing .lockHandle (.read nbyte pageOffset)) :
    YieldsIf E v nbyte pageOffset s (FlushCompletes s a) := by
  obtain ⟨hslot, hlive, hstatus, hfault, -⟩ := h
  simp only at hslot hlive hstatus hfault
  unfold FlushCompletes
  by_cases hhandle : s.handleToFileAction = 0
  case neg =>
    refine NoReturn.yieldsIf (NoReturn.of_waiting hfault hfg ?_) (by simp [hhandle])
    simp only [syncStep, cas_of_ne hhandle, Bool.false_eq_true, if_false]
    rfl
  have hlock : Goes E v s { s with
      handleToFileAction := 1, foreground := .syncing .checkFile (.read nbyte pageOffset) } := by
    refine .sync (t := { s with handleToFileAction := 1 }) hfault hfg ?_
    simp only [syncStep, cas_of_eq hhandle]
    rfl
  by_cases hwritable : s.file.oflag.has (O_RDWR ||| O_WRONLY)
  · have hcheck : Goes E v
        { s with handleToFileAction := 1, foreground := .syncing .checkFile (.read nbyte pageOffset) }
        { s with handleToFileAction := 1, foreground := .syncing .lockAction (.read nbyte pageOffset) } := by
      refine .sync (t := { s with
        handleToFileAction := 1, foreground := .syncing .checkFile (.read nbyte pageOffset) }) hfault rfl ?_
      simp only [syncStep, hslot, not_true_eq_false, if_false, derefRecord, hlive, if_true, ok_bind, hstatus,
        ne_eq, hwritable]
      rfl
    have hrest := yieldsIf_writable (E := E) (v := v) (s := { s with
      handleToFileAction := 1, foreground := .syncing .lockAction (.read nbyte pageOffset) }) hfault hlive
      rfl hact hwrite rfl
    exact (hrest.of_goes (hlock.trans hcheck) rfl rfl rfl).congr (by simp [hhandle, hwritable])
  · have hcheck : Goes E v
        { s with handleToFileAction := 1, foreground := .syncing .checkFile (.read nbyte pageOffset) }
        { s with handleToFileAction := 1, foreground := .syncing .unlockHandle (.read nbyte pageOffset) } := by
      refine .sync (t := { s with
        handleToFileAction := 1, foreground := .syncing .checkFile (.read nbyte pageOffset) }) hfault rfl ?_
      simp only [syncStep, hslot, not_true_eq_false, if_false, derefRecord, hlive, if_true, ok_bind, hstatus,
        ne_eq, hwritable, not_false_eq_true]
      rfl
    have hrest := yieldsIf_readOnly (E := E) (v := v) (s := { s with
      handleToFileAction := 1, foreground := .syncing .unlockHandle (.read nbyte pageOffset) }) hfault hlive
      rfl hact hwrite rfl
    exact (hrest.of_goes (hlock.trans hcheck) rfl rfl rfl).congr (by simp [hhandle, hwritable])

end Flush

/-! ### The whole call -/

/-- How the call ends when it does not get past the action. -/
def Refuses (p : ActionPtr) (o : Option Outcome) : Prop :=
  match p with
  | .null => False
  | .freed => o = none
  | .live _ a =>
    match a.cmd with
    | .operReadahead => o = some ⟨-1, some .eagain, false⟩
    | .operRead =>
      o = some (if a.actionStatus ≠ .actionComplete ∨ a.returnValue = -100 then ⟨-1, some .eagain, false⟩
        else if a.returnValue = -1 then ⟨-1, a.err, false⟩ else ⟨0, none, false⟩)
    | .operWrite => Blocked o
    | .operOpen | .operClose => o = some ⟨-1, some .ebusy, false⟩

section Dispatch

variable {id : Nat} {a : FileCmd}

/-- The action is given back, and the call returns. -/
theorem yields_readDone {ret : Int} {err : Option Errno} (hfault : s.fault = none)
    (hlive : s.recordLive = true) (hact : s.action = .live id a) (hread : a.cmd = .operRead)
    (hstep : s.foregroundStep E false v =
      .ok { s with foreground := .freeing (.acquire 0) (.readDone nbyte ret err) })
    (hfg : s.foreground ≠ .idle) : Yields E v nbyte s (some ⟨ret, err, false⟩) := by
  have hfree := goes_freed (E := E) (v := v) (s := { s with
    foreground := .freeing (.acquire 0) (.readDone nbyte ret err) }) hfault hlive hact (by simp [hread]) rfl
  exact ⟨_, [], Goes.trans (.step hfault hfg hstep) hfree, rfl, hfault, rfl, iff_of_true rfl rfl⟩

/-- The action is given back, and the call goes on to the buffer. -/
theorem yields_pass (hfault : s.fault = none) (hlive : s.recordLive = true)
    (hact : s.action = .live id a) (hread : a.cmd ≠ .operWrite)
    (hstep : s.foregroundStep E false v =
      .ok { s with foreground := .freeing (.acquire 0) (.readDrop nbyte pageOffset) })
    (hfg : s.foreground ≠ .idle) : Yields E v nbyte s (bufferOutcome E s.file nbyte pageOffset) := by
  have hfree := goes_freed (E := E) (v := v) (s := { s with
    foreground := .freeing (.acquire 0) (.readDrop nbyte pageOffset) }) hfault hlive hact (by simp [hread]) rfl
  refine Yields.of_goes ?_ (Goes.trans (.step hfault hfg hstep) hfree) rfl rfl
  exact yields_drop (s := { s with
    action := .null, preventActionMutation := 0, foreground := .readDrop nbyte pageOffset })
    hfault hlive ⟨by simp, by simp⟩ rfl

theorem yields_snapshot (h : OpenIdle { s with foreground := .idle })
    (hfg : s.foreground = .readSnapshot nbyte) :
    ∃ o, Yields E v nbyte s o ∧
      (GetsPast s → o = bufferOutcome E s.file nbyte (Spec.pageOffset E v s)) ∧
      (¬ GetsPast s → Refuses s.action o) := by
  obtain ⟨hslot, hlive, hstatus, hfault, -⟩ := h
  simp only at hslot hlive hstatus hfault
  have hne : s.foreground ≠ .idle := by rw [hfg]; simp
  have hstep : s.foregroundStep E false v = s.readDispatch nbyte (Spec.pageOffset E v s) := by
    simp only [foregroundStep, hfg, readStep, derefRecord_of_live hlive, ok_bind]
    rfl
  cases hact : s.action with
  | null =>
    refine ⟨_, ?_, fun _ => rfl, fun hnot => absurd (by simp [GetsPast, hact]) hnot⟩
    have hdrop : s.foregroundStep E false v =
        .ok { s with foreground := .readDrop nbyte (Spec.pageOffset E v s) } := by
      rw [hstep]
      simp only [readDispatch, testAction_of_null hlive hact, ok_bind]
      rfl
    refine Yields.of_goes ?_ (.step hfault hne hdrop) rfl rfl
    exact yields_drop (s := { s with foreground := .readDrop nbyte (Spec.pageOffset E v s) })
      hfault hlive ⟨by simp [hact], by simp [hact]⟩ rfl
  | freed =>
    refine ⟨none, NoReturn.of_error (e := .useAfterFree) hfault hne ?_, by simp [GetsPast, hact],
      fun _ => rfl⟩
    rw [hstep]
    simp only [readDispatch, testAction, derefRecord_of_live hlive, ok_bind, hact]
    rfl
  | live id a =>
    have htest := testAction_of_live hlive hact
    cases hcmd : a.cmd with
    | operWrite =>
      have hsync : s.foregroundStep E false v =
          .ok { s with foreground := .syncing .lockHandle (.read nbyte (Spec.pageOffset E v s)) } := by
        rw [hstep]
        simp only [readDispatch, htest, ok_bind, hcmd]
        rfl
      have hflush := yieldsIf_flush (E := E) (v := v) (s := { s with
        foreground := .syncing .lockHandle (.read nbyte (Spec.pageOffset E v s)) })
        ⟨hslot, hlive, hstatus, hfault, rfl⟩ hact hcmd rfl
      obtain ⟨o, hyields, hthen, helse⟩ := hflush.of_goes (.step hfault hne hsync) rfl rfl rfl
      refine ⟨o, hyields, ?_, ?_⟩
      · simp only [GetsPast, hact, hcmd]
        exact hthen
      · simp only [GetsPast, hact, Refuses, hcmd]
        exact helse
    | operReadahead =>
      by_cases hcomplete : a.actionStatus = .actionComplete
      · refine ⟨_, ?_, fun _ => rfl, by simp [GetsPast, hact, hcmd, hcomplete]⟩
        refine yields_pass hfault hlive hact (by simp [hcmd]) ?_ hne
        rw [hstep]
        simp only [readDispatch, htest, ok_bind, hcmd, hcomplete, if_true]
        rfl
      · refine ⟨some ⟨-1, some .eagain, false⟩, ?_, by simp [GetsPast, hact, hcmd, hcomplete],
          fun _ => by simp only [Refuses, hcmd]⟩
        refine Yields.of_return (t := s) (b := []) hfault hne ?_
        rw [hstep]
        simp only [readDispatch, htest, ok_bind, hcmd, hcomplete, if_false]
        rfl
    | operOpen | operClose =>
      by_cases hcomplete : a.actionStatus = .actionComplete
      · refine ⟨_, ?_, fun _ => rfl, by simp [GetsPast, hact, hcmd, hcomplete]⟩
        have hdrop : s.foregroundStep E false v =
            .ok { s with foreground := .readDrop nbyte (Spec.pageOffset E v s) } := by
          rw [hstep]
          simp only [readDispatch, htest, ok_bind, hcmd, ne_eq, hcomplete, not_true_eq_false, if_false]
          rfl
        refine Yields.of_goes ?_ (.step hfault hne hdrop) rfl rfl
        refine yields_drop (s := { s with foreground := .readDrop nbyte (Spec.pageOffset E v s) })
          hfault hlive ⟨?_, by simp [hact]⟩ rfl
        intro id' a' hact'
        obtain ⟨rfl, rfl⟩ := ActionPtr.live.inj (hact.symm.trans hact')
        exact ⟨hcomplete, by simp [hcmd]⟩
      · refine ⟨some ⟨-1, some .ebusy, false⟩, ?_, by simp [GetsPast, hact, hcmd, hcomplete],
          fun _ => by simp only [Refuses, hcmd]⟩
        refine Yields.of_return (t := s) (b := []) hfault hne ?_
        rw [hstep]
        simp only [readDispatch, htest, ok_bind, hcmd, ne_eq, hcomplete, not_false_eq_true, if_true]
        rfl
    | operRead =>
      by_cases hwaits : a.actionStatus ≠ .actionComplete ∨ a.returnValue = -100
      · refine ⟨some ⟨-1, some .eagain, false⟩, ?_, ?_, ?_⟩
        · refine Yields.of_return (t := s) (b := []) hfault hne ?_
          rw [hstep]
          simp only [readDispatch, htest, ok_bind, hcmd, if_pos hwaits]
          rfl
        · simp only [GetsPast, hact, hcmd]
          rintro ⟨hcomplete, -, hreturned, -⟩
          exact absurd hwaits (by simp [hcomplete, hreturned])
        · exact fun _ => by simp only [Refuses, hcmd, if_pos hwaits]
      by_cases hfailed : a.returnValue = -1
      · refine ⟨some ⟨-1, a.err, false⟩, ?_, by simp [GetsPast, hact, hcmd, hfailed],
          fun _ => by simp only [Refuses, hcmd, if_neg hwaits, if_pos hfailed]⟩
        refine yields_readDone hfault hlive hact hcmd ?_ hne
        rw [hstep]
        simp only [readDispatch, htest, ok_bind, hcmd, if_neg hwaits, if_pos hfailed]
        rfl
      by_cases hend : a.returnValue = 0
      · refine ⟨some ⟨0, none, false⟩, ?_, by simp [GetsPast, hact, hcmd, hend],
          fun _ => by simp only [Refuses, hcmd, if_neg hwaits, if_neg hfailed]⟩
        refine yields_readDone hfault hlive hact hcmd ?_ hne
        rw [hstep]
        simp only [readDispatch, htest, ok_bind, hcmd, if_neg hwaits, if_neg hfailed, if_pos hend]
        rfl
      · have hcomplete : a.actionStatus = .actionComplete := by
          by_contra hnot
          exact hwaits (.inl hnot)
        have hreturned : a.returnValue ≠ -100 := fun heq => hwaits (.inr heq)
        refine ⟨_, ?_, fun _ => rfl,
          fun hnot => absurd (by simp [GetsPast, hact, hcmd, hcomplete, hreturned, hfailed, hend]) hnot⟩
        refine yields_pass hfault hlive hact (by simp [hcmd]) ?_ hne
        rw [hstep]
        simp only [readDispatch, htest, ok_bind, hcmd, if_neg hwaits, if_neg hfailed, if_neg hend]
        rfl

end Dispatch

/-- The count that `ef_read` returns from the page buffer. -/
theorem bufferOutcome_inside {f : EfFile} (hbuffer : f.buf.buffer.isSome = true) (hlow : 0 ≤ pageOffset)
    (hhigh : pageOffset < E.pageSize) (hsize : f.fileOffset ≤ f.currFileSizeOnDisk) (hpos : 0 < nbyte) :
    ∃ n : Nat, bufferOutcome E f nbyte pageOffset = some ⟨n, none, false⟩ ∧
      (0 < n ↔ f.fileOffset < f.currFileSizeOnDisk) := by
  obtain ⟨b, hb⟩ := Option.isSome_iff_exists.mp hbuffer
  obtain ⟨po, rfl⟩ := Int.eq_ofNat_of_zero_le hlow
  have hpo : po < E.pageSize := by exact_mod_cast hhigh
  have hne : ¬ ((po : Int) = E.pageSize) := by exact_mod_cast Nat.ne_of_lt hpo
  have hinside : ¬ ((po : Int) < 0 ∨ (E.pageSize : Int) < po) := by omega
  obtain ⟨m, hm⟩ : ∃ m, m = if nbyte ≤ E.pageSize - po then nbyte else E.pageSize - po := ⟨_, rfl⟩
  have hroom : 0 < m ∧ m ≤ E.pageSize - po := by
    rw [hm]
    split <;> omega
  obtain ⟨n, hn⟩ : ∃ n, n = if f.fileOffset + m > f.currFileSizeOnDisk then
      m - (f.fileOffset + m - f.currFileSizeOnDisk) else m := ⟨_, rfl⟩
  have hcount : n ≤ m ∧ (0 < n ↔ f.fileOffset < f.currFileSizeOnDisk) := by
    rw [hn]
    split <;> omega
  refine ⟨n, ?_, hcount.2⟩
  have htransfer : ∃ f' bytes, readTransfer E f b nbyte po = .ok (f', n, none, bytes) := by
    unfold readTransfer
    rw [if_neg hne, if_neg hinside]
    simp only [Int.toNat_natCast, if_neg (Nat.not_lt.mpr hsize), ← hm, ← hn]
    by_cases hfull : po + n = E.pageSize
    · rw [if_pos hfull]
      exact ⟨_, _, rfl⟩
    · rw [if_neg hfull, if_neg (by omega)]
      exact ⟨_, _, rfl⟩
  obtain ⟨f', bytes, htransfer⟩ := htransfer
  simp only [bufferOutcome, hb, htransfer]

/-- Elsewhere the call returns `-1`, and with `EAGAIN` only when it fires a
read. -/
theorem bufferOutcome_outside {f : EfFile} {o : Outcome}
    (hnot : ¬ (f.buf.buffer.isSome = true ∧ 0 ≤ pageOffset ∧ pageOffset < E.pageSize ∧
      f.fileOffset ≤ f.currFileSizeOnDisk)) (ho : bufferOutcome E f nbyte pageOffset = some o) :
    o.ret = -1 ∧ (o.err = some .eagain → o.fires = true) := by
  unfold bufferOutcome at ho
  cases hb : f.buf.buffer with
  | none =>
    simp only [hb] at ho
    split at ho
    · obtain rfl := Option.some.inj ho
      exact ⟨rfl, fun _ => rfl⟩
    · cases ho
  | some b =>
    simp only [hb, readTransfer] at ho
    by_cases hedge : pageOffset = E.pageSize
    · simp only [if_pos hedge, Option.some.injEq] at ho
      subst ho
      exact ⟨rfl, by simp⟩
    · by_cases hinside : pageOffset < 0 ∨ E.pageSize < pageOffset
      · simp only [if_neg hedge, if_pos hinside] at ho
        cases ho
      · have hlt : f.currFileSizeOnDisk < f.fileOffset := by
          simp only [hb, Option.isSome_some, true_and] at hnot
          omega
        simp only [if_neg hedge, if_neg hinside, if_pos hlt] at ho
        cases ho

/-- The call of `ef_read` ends so. -/
def CallYields (E : Env) (v : View) (nbyte : Nat) (s : PipelineState) (o : Option Outcome) : Prop :=
  ∃ t, step E (.call (.efRead nbyte) v) s = some t ∧
    (o = none → NoReturn E v t) ∧
    ∀ x, o = some x → ∃ s' bytes, Goes E v t s' ∧ s'.foreground = .idle ∧ s'.fault = none ∧
      s'.history = s.history ++ [.readReturned nbyte x.ret x.err bytes] ∧
        (s'.fileReads = s.fileReads ↔ x.fires = false)

theorem CallYields.returns {o : Option Outcome} (h : CallYields E v nbyte s o) {ret : Int}
    {err : Option Errno} :
    ReadReturns E v nbyte s s' ret err → ∃ x, o = some x ∧ x.ret = ret ∧ x.err = err ∧
      (s'.fileReads = s.fileReads ↔ x.fires = false) := by
  rintro ⟨t, bytes, hcall, hgoes, hidle, hfault, hhistory⟩
  obtain ⟨t', hcall', hnone, hsome⟩ := h
  obtain rfl := Option.some.inj (hcall.symm.trans hcall')
  cases o with
  | none => exact absurd hidle (hnone rfl s' hgoes)
  | some x =>
    obtain ⟨s'', bytes', hgoes', hidle', -, hhistory', hfires⟩ := hsome x rfl
    obtain rfl := Goes.unique hgoes hgoes' hidle hidle'
    have hlast := hhistory.symm.trans hhistory'
    simp only [List.append_cancel_left_eq, List.cons.injEq, Observed.readReturned.injEq, true_and,
      and_true] at hlast
    exact ⟨x, rfl, hlast.1.symm, hlast.2.1.symm, hfires⟩

theorem CallYields.readReturns {x : Outcome} (h : CallYields E v nbyte s (some x)) :
    ∃ s', ReadReturns E v nbyte s s' x.ret x.err ∧ (s'.fileReads = s.fileReads ↔ x.fires = false) := by
  obtain ⟨t, hcall, -, hsome⟩ := h
  obtain ⟨s', bytes, hgoes, hidle, hfault, hhistory, hfires⟩ := hsome x rfl
  exact ⟨s', ⟨t, bytes, hcall, hgoes, hidle, hfault, hhistory⟩, hfires⟩

theorem CallYields.delivers {o : Option Outcome} (h : CallYields E v nbyte s o) :
    ReadDelivers E v nbyte s ↔ ∃ x, o = some x ∧ 0 < x.ret := by
  constructor
  · rintro ⟨s', ret, err, hreturns, hpos⟩
    obtain ⟨x, ho, rfl, -⟩ := h.returns hreturns
    exact ⟨x, ho, hpos⟩
  · rintro ⟨x, rfl, hpos⟩
    obtain ⟨s', hreturns, -⟩ := h.readReturns
    exact ⟨s', _, _, hreturns, hpos⟩

theorem CallYields.ends {o : Option Outcome} (h : CallYields E v nbyte s o) :
    ReadEnds E v nbyte s ↔ ∃ x, o = some x ∧ x.ret = 0 := by
  constructor
  · rintro ⟨s', err, hreturns⟩
    obtain ⟨x, ho, hret, -⟩ := h.returns hreturns
    exact ⟨x, ho, hret⟩
  · rintro ⟨x, rfl, hret⟩
    obtain ⟨s', hreturns, -⟩ := h.readReturns
    exact ⟨s', _, hret ▸ hreturns⟩

theorem CallYields.triesAgain {o : Option Outcome} (h : CallYields E v nbyte s o) :
    ReadTriesAgain E v nbyte s ↔ ∃ x, o = some x ∧ x.ret = -1 ∧ x.err = some .eagain ∧ x.fires = false := by
  constructor
  · rintro ⟨s', hreturns, hsame⟩
    obtain ⟨x, ho, hret, herr, hfires⟩ := h.returns hreturns
    exact ⟨x, ho, hret, herr, hfires.mp hsame⟩
  · rintro ⟨x, rfl, hret, herr, hfires⟩
    obtain ⟨s', hreturns, hsame⟩ := h.readReturns
    rw [hret, herr] at hreturns
    exact ⟨s', hreturns, hsame.mpr hfires⟩

/-! ### A call between two calls -/

/-- A call that returns at once, from its checks. -/
theorem CallYields.of_check {ret : Int} {err : Option Errno} (h : OpenIdle s)
    (hcheck : s.chkReadConditions E (s.see v) nbyte = .ok (some (ret, err))) :
    CallYields E v nbyte s (some ⟨ret, err, false⟩) := by
  refine ⟨s.finishRead nbyte ret err [], ?_, by simp, ?_⟩
  · simp only [step, h.running, Option.isSome_none, Bool.false_eq_true, if_false, threadStep, h.idle, if_true,
      callStep, hcheck, ok_bind, Option.map_some]
    rfl
  · rintro x hx
    obtain rfl := Option.some.inj hx
    exact ⟨_, [], .init, rfl, h.running, rfl, iff_of_true rfl rfl⟩

theorem chkReadConditions_atEnd (h : OpenIdle s) (hpos : 0 < nbyte) (hle : nbyte ≤ E.pageSize)
    (hend : AtEnd v s) : s.chkReadConditions E (s.see v) nbyte = .ok (some (0, none)) := by
  unfold AtEnd at hend
  simp only [chkReadConditions, h.slot, not_true_eq_false, if_false, derefRecord_of_live h.live, ok_bind,
    h.status, ne_eq, if_neg (show ¬ (nbyte = 0 ∨ E.pageSize < nbyte) by omega), if_pos hend]
  rfl

theorem chkReadConditions_denied (h : OpenIdle s) (hpos : 0 < nbyte) (hle : nbyte ≤ E.pageSize)
    (hend : ¬ AtEnd v s) (hdenied : ¬ Readable s.file.oflag) :
    s.chkReadConditions E (s.see v) nbyte = .ok (some (-1, some .ebadf)) := by
  unfold AtEnd at hend
  simp only [Readable, not_or] at hdenied
  simp only [chkReadConditions, h.slot, not_true_eq_false, if_false, derefRecord_of_live h.live, ok_bind,
    h.status, ne_eq, if_neg (show ¬ (nbyte = 0 ∨ E.pageSize < nbyte) by omega), if_neg hend, hdenied,
    not_false_eq_true, and_self, if_true]
  rfl

theorem chkReadConditions_passed (h : OpenIdle s) (hpos : 0 < nbyte) (hle : nbyte ≤ E.pageSize)
    (hend : ¬ AtEnd v s) (hreadable : Readable s.file.oflag) :
    s.chkReadConditions E (s.see v) nbyte = .ok none := by
  unfold AtEnd at hend
  have hallowed : ¬ (¬ OFlag.has (if s.file.oflag.has O_DIRECT then s.file.oflag ^^^ O_DIRECT
      else s.file.oflag) O_RDWR ∧ (if s.file.oflag.has O_DIRECT then s.file.oflag ^^^ O_DIRECT
      else s.file.oflag) ≠ O_RDONLY) := by
    rintro ⟨hrdwr, hrdonly⟩
    exact hreadable.elim hrdwr hrdonly
  simp only [chkReadConditions, h.slot, not_true_eq_false, if_false, derefRecord_of_live h.live, ok_bind,
    h.status, ne_eq, if_neg (show ¬ (nbyte = 0 ∨ E.pageSize < nbyte) by omega), if_neg hend, if_neg hallowed]
  rfl

/-- How a call ends that passes the checks. -/
theorem callYields_passed (h : OpenIdle s) (hpos : 0 < nbyte) (hle : nbyte ≤ E.pageSize)
    (hend : ¬ AtEnd v s) (hreadable : Readable s.file.oflag) :
    ∃ o, CallYields E v nbyte s o ∧
      (GetsPast s → o = bufferOutcome E s.file nbyte (Spec.pageOffset E v s)) ∧
      (¬ GetsPast s → Refuses s.action o) := by
  have hcall : step E (.call (.efRead nbyte) v) s = some { s with foreground := .readSnapshot nbyte } := by
    simp only [step, h.running, Option.isSome_none, Bool.false_eq_true, if_false, threadStep, h.idle, if_true,
      callStep, chkReadConditions_passed h hpos hle hend hreadable, ok_bind, Option.map_some]
    rfl
  obtain ⟨o, hyields, hthen, helse⟩ := yields_snapshot (E := E) (v := v) (s := { s with
    foreground := .readSnapshot nbyte }) ⟨h.slot, h.live, h.status, h.running, rfl⟩ rfl
  refine ⟨o, ⟨_, hcall, ?_, ?_⟩, hthen, helse⟩
  · rintro rfl
    exact hyields
  · rintro x rfl
    exact hyields

end Efio.Proofs.Evio
