import Efio.Proofs.Evio.PageReader
import Efio.Proofs.Evio.PipelineStep

/-!
# `Efio.Proofs.Evio.PageReads`: `ef_read` and the task of `ef_file_read`

`ReadAction` is the life of a read action: queued, loading, about to
publish, done. `ReadPlace` says for each place of `low_ef_read` what the
action, the task of `ef_file_read` and the page buffer are.

`PageReads` is kept by the foreground thread inside `ef_read` and by that
task, whatever the access mode is and whatever the other threads do.
`Reads` adds what a step of the foreground thread does with the rest of the
state. Neither of the two threads faults.
-/

set_option autoImplicit false

namespace Efio.Proofs.Evio

open Efio.Lib
open Efio.Evio
open Efio.Evio.PipelineState

variable {E : Env} {data : List UInt8} {s s' : PipelineState}

/-! ### The invariant -/

/-- The action between two calls, and the task that works on it. -/
inductive ReadAction (f : EfFile) (size : Nat) : ActionPtr → List ReadJob → Prop where
  | none : ReadAction f size .null []
  | opened {id : Nat} {a : FileCmd} (hcmd : a.cmd = .operOpen)
      (hstatus : a.actionStatus = .actionComplete) : ReadAction f size (.live id a) []
  | queued {id : Nat} {a : FileCmd} (hcmd : a.cmd = .operRead)
      (hstatus : a.actionStatus ≠ .actionComplete) (hbuf : f.buf.buffer = none)
      (hmore : f.fileOffset < size) :
      ReadAction f size (.live id a) [.queued f.buf.bufferIndex]
  | load {id : Nat} {a : FileCmd} (hcmd : a.cmd = .operRead)
      (hstatus : a.actionStatus ≠ .actionComplete) (hbuf : f.buf.buffer = none)
      (hmore : f.fileOffset < size) :
      ReadAction f size (.live id a) [.load f.buf.bufferIndex]
  | publish {id : Nat} {a : FileCmd} {ret : Int} {err : Option Errno} (hcmd : a.cmd = .operRead)
      (hstatus : a.actionStatus ≠ .actionComplete) (hret : 0 < ret) :
      ReadAction f size (.live id a) [.publish ret err]
  | done {id : Nat} {a : FileCmd} (hcmd : a.cmd = .operRead)
      (hstatus : a.actionStatus = .actionComplete) (hret : 0 < a.returnValue) :
      ReadAction f size (.live id a) []

/-- What `free_file_action` finds and leaves at its places. -/
def FreeHolds : FreePc → ActionPtr → Prop
  | .acquire _, p | .cleanup, p => ∃ id a, p = .live id a ∧ a.cmd ≠ .operWrite
  | .setNull, p => p = .freed
  | .release, p => p = .null

/-- The same for `alloc_file_action` of a read action. -/
def AllocHolds : AllocPc → ActionPtr → Prop
  | .acquire _, p | .init, p => p = .null
  | .release, p => ∃ id, p = .live id (eioCmdInit .operRead)

/-- What the places of `ef_read` need. -/
inductive ReadPlace (E : Env) (f : EfFile) (size : Nat) :
    ActionPtr → List ReadJob → ForegroundPc → Prop where
  | idle {p : ActionPtr} {js : List ReadJob} (hact : ReadAction f size p js) :
      ReadPlace E f size p js .idle
  | snapshot {p : ActionPtr} {js : List ReadJob} {nbyte : Nat} (hact : ReadAction f size p js)
      (hpos : 1 ≤ nbyte) (hmore : f.fileOffset < size) :
      ReadPlace E f size p js (.readSnapshot nbyte)
  | drop {p : ActionPtr} {nbyte : Nat} (hact : ReadAction f size p [])
      (hopen : ∀ id a, p = .live id a → a.cmd = .operOpen) (hpos : 1 ≤ nbyte)
      (hmore : f.fileOffset < size) :
      ReadPlace E f size p [] (.readDrop nbyte (pageOffset E f))
  | freeing {p : ActionPtr} {q : FreePc} {k : AfterFree} {nbyte : Nat} (hfree : FreeHolds q p)
      (hk : k = .readDrop nbyte (pageOffset E f) ∨ k = .readBuffer nbyte (pageOffset E f))
      (hpos : 1 ≤ nbyte) (hmore : f.fileOffset < size) : ReadPlace E f size p [] (.freeing q k)
  | buffer {nbyte : Nat} (hpos : 1 ≤ nbyte) (hmore : f.fileOffset < size) :
      ReadPlace E f size .null [] (.readBuffer nbyte (pageOffset E f))
  | fire {nbyte : Nat} (hbuf : f.buf.buffer = none) (hmore : f.fileOffset < size) :
      ReadPlace E f size .null [] (.readFire nbyte)
  | allocating {p : ActionPtr} {q : AllocPc} {nbyte : Nat} (halloc : AllocHolds q p)
      (hbuf : f.buf.buffer = none) (hmore : f.fileOffset < size) :
      ReadPlace E f size p [] (.allocating q .operRead (.read nbyte))
  | enqueue {id : Nat} {nbyte : Nat} (hbuf : f.buf.buffer = none) (hmore : f.fileOffset < size) :
      ReadPlace E f size (.live id (eioCmdInit .operRead)) [] (.readEnqueue nbyte)

/-- The invariant of a file that is read and not written. -/
structure PageReads (E : Env) (data : List UInt8) (s : PipelineState) : Prop where
  paged : PagedFile E s.file data
  clean : s.file.buf.isDirty = false
  live : s.recordLive = true
  writes : s.fileWrites = []
  place : ReadPlace E s.file data.length s.action s.fileReads s.foreground

/-- What a step of `ef_read` tells the caller: nothing, `-1` with `EAGAIN`
before the end of the file, or the next bytes of the page in memory. -/
inductive Tells (E : Env) (data : List UInt8) (s s' : PipelineState) : Prop where
  | silent (hhistory : s'.history = s.history) (hoff : s'.file.fileOffset = s.file.fileOffset)
  | again (nbyte : Nat) (hmore : s.file.fileOffset < data.length)
      (hhistory : s'.history = s.history ++ [.readReturned nbyte (-1) (some .eagain) []])
      (hoff : s'.file.fileOffset = s.file.fileOffset)
  | copies (nbyte size : Nat) (hbuf : s.file.buf.buffer.isSome = true) (hpos : 0 < size) (hle : size ≤ nbyte)
      (hend : s.file.fileOffset + size ≤ data.length)
      (hpage : s.file.fileOffset + size ≤ s.file.buf.bufferIndex * E.pageSize + E.pageSize)
      (hhistory : s'.history = s.history ++
        [.readReturned nbyte size none ((data.drop s.file.fileOffset).take size)])
      (hoff : s'.file.fileOffset = s.file.fileOffset + size)

/-- A step of `ef_read`: it keeps the invariant, brings no page into memory
and leaves the state of the other threads alone. -/
structure Reads (E : Env) (data : List UInt8) (s s' : PipelineState) : Prop where
  kept : PageReads E data s'
  rest : s' = { s with
    file := s'.file
    action := s'.action
    preventActionMutation := s'.preventActionMutation
    nextId := s'.nextId
    fileReads := s'.fileReads
    foreground := s'.foreground
    history := s'.history }
  oflag : s'.file.oflag = s.file.oflag
  page : s'.file.buf.buffer.isSome = true →
    s.file.buf.buffer.isSome = true ∧ s'.file.buf.bufferIndex = s.file.buf.bufferIndex
  tells : Tells E data s s'

/-- A step that touches neither the file nor the history. -/
theorem PageReads.goto (h : PageReads E data s)
    (hrest : s' = { s with
      action := s'.action
      preventActionMutation := s'.preventActionMutation
      nextId := s'.nextId
      foreground := s'.foreground })
    (hplace : ReadPlace E s.file data.length s'.action s.fileReads s'.foreground) :
    Reads E data s s' := by
  obtain ⟨hpaged, hclean, hlive, hwrites, -⟩ := h
  rw [hrest]
  exact ⟨⟨hpaged, hclean, hlive, hwrites, hplace⟩, rfl, rfl, fun hbuf => ⟨hbuf, rfl⟩, .silent rfl rfl⟩

/-- A call returns without bytes. -/
theorem PageReads.finish (h : PageReads E data s) {nbyte : Nat} {ret : Int} {err : Option Errno}
    {reads : List ReadJob} (hact : ReadAction s.file data.length s.action reads) :
    PageReads E data ({ s with fileReads := reads }.finishRead nbyte ret err []) :=
  ⟨h.paged, h.clean, h.live, h.writes, .idle hact⟩

theorem PageReads.again (h : PageReads E data s) {nbyte : Nat} {reads : List ReadJob}
    (hmore : s.file.fileOffset < data.length)
    (hact : ReadAction s.file data.length s.action reads) :
    Reads E data s ({ s with fileReads := reads }.finishRead nbyte (-1) (some .eagain) []) :=
  ⟨h.finish hact, rfl, rfl, fun hbuf => ⟨hbuf, rfl⟩, .again nbyte hmore rfl rfl⟩

/-! ### The steps of the foreground thread -/

theorem PageReads.dispatch (h : PageReads E data s) {nbyte : Nat}
    (hact : ReadAction s.file data.length s.action s.fileReads) (hpos : 1 ≤ nbyte)
    (hmore : s.file.fileOffset < data.length) :
    ∃ s', s.readDispatch nbyte (pageOffset E s.file) = .ok s' ∧ Reads E data s s' := by
  have hagain : Reads E data s (s.finishRead nbyte (-1) (some .eagain) []) := h.again hmore hact
  generalize hp : s.action = p at hact
  generalize hjs : s.fileReads = js at hact
  unfold readDispatch
  cases hact with
  | none =>
    simp only [testAction_of_null h.live hp, ok_bind]
    refine ⟨_, rfl, h.goto rfl ?_⟩
    simp only [hp, hjs]
    exact .drop .none nofun hpos hmore
  | @opened id a hcmd hstatus =>
    simp only [testAction_of_live h.live hp, ok_bind, hcmd, hstatus, ne_eq, not_true_eq_false, if_false]
    refine ⟨_, rfl, h.goto rfl ?_⟩
    simp only [hp, hjs]
    exact .drop (.opened hcmd hstatus) (fun id' a' heq => by cases heq; exact hcmd) hpos hmore
  | @done id a hcmd hstatus hret =>
    have h100 : ¬ (a.actionStatus ≠ .actionComplete ∨ a.returnValue = -100) := by
      rintro (hne | heq)
      · exact hne hstatus
      · omega
    simp only [testAction_of_live h.live hp, ok_bind, hcmd, if_neg h100,
      if_neg (show ¬ a.returnValue = -1 by omega), if_neg (show ¬ a.returnValue = 0 by omega)]
    refine ⟨_, rfl, h.goto rfl ?_⟩
    simp only [hp, hjs]
    exact .freeing ⟨id, a, rfl, by rw [hcmd]; nofun⟩ (Or.inl rfl) hpos hmore
  | @queued id a hcmd hstatus hbuf hlt =>
    simp only [testAction_of_live h.live hp, ok_bind, hcmd, if_pos (Or.inl hstatus)]
    exact ⟨_, rfl, hagain⟩
  | @load id a hcmd hstatus hbuf hlt =>
    simp only [testAction_of_live h.live hp, ok_bind, hcmd, if_pos (Or.inl hstatus)]
    exact ⟨_, rfl, hagain⟩
  | @publish id a ret err hcmd hstatus hret =>
    simp only [testAction_of_live h.live hp, ok_bind, hcmd, if_pos (Or.inl hstatus)]
    exact ⟨_, rfl, hagain⟩

/-- The test of `readDrop`: a complete action is freed first. -/
theorem PageReads.drop (h : PageReads E data s) {nbyte : Nat} (hreads : s.fileReads = [])
    (hact : ReadAction s.file data.length s.action [])
    (hopen : ∀ id a, s.action = .live id a → a.cmd = .operOpen) (hpos : 1 ≤ nbyte)
    (hmore : s.file.fileOffset < data.length) (v : View) :
    ∃ s', s.readStep E v (.readDrop nbyte (pageOffset E s.file)) = .ok s' ∧ Reads E data s s' := by
  generalize hp : s.action = p at hact
  unfold readStep
  cases hact with
  | none =>
    simp only [testAction_of_null h.live hp, ok_bind]
    refine ⟨_, rfl, h.goto rfl ?_⟩
    simp only [hp, hreads]
    exact .buffer hpos hmore
  | @opened id a hcmd hstatus =>
    simp only [testAction_of_live h.live hp, ok_bind, hstatus, if_true]
    refine ⟨_, rfl, h.goto rfl ?_⟩
    simp only [hp, hreads]
    exact .freeing ⟨id, a, rfl, by rw [hcmd]; nofun⟩ (Or.inr rfl) hpos hmore
  | @done id a hcmd hstatus hret =>
    have hno := hopen id a hp
    rw [hcmd] at hno
    cases hno

/-- The copy, or the request of a page. -/
theorem PageReads.buffer (h : PageReads E data s) {nbyte : Nat} (hreads : s.fileReads = [])
    (hact : s.action = .null) (hpos : 1 ≤ nbyte) (hmore : s.file.fileOffset < data.length)
    (v : View) :
    ∃ s', s.readStep E v (.readBuffer nbyte (pageOffset E s.file)) = .ok s' ∧ Reads E data s s' := by
  unfold readStep
  simp only [derefRecord_of_live h.live, ok_bind]
  cases hb : s.file.buf.buffer with
  | none =>
    simp only [testAction_of_null h.live hact, ok_bind]
    refine ⟨_, rfl, h.goto rfl ?_⟩
    simp only [hact, hreads]
    exact .fire hb hmore
  | some b =>
    obtain ⟨f, hread, hpaged, hclean, hmode, hoff⟩ := readTransfer_paged h.paged h.clean hb nbyte
    have hlt := h.paged.offset_lt
    have hsize : 0 < readSize E s.file data nbyte := by
      unfold readSize
      omega
    have hend : s.file.fileOffset + readSize E s.file data nbyte ≤ data.length := by
      unfold readSize
      omega
    have hle : readSize E s.file data nbyte ≤ nbyte := by
      unfold readSize
      omega
    have hpage : s.file.fileOffset + readSize E s.file data nbyte
        ≤ s.file.buf.bufferIndex * E.pageSize + E.pageSize := by
      unfold readSize
      omega
    have hkeep := readTransfer_index hread
    simp only [hread, ok_bind]
    refine ⟨_, rfl, ⟨⟨hpaged, hclean, h.live, h.writes, .idle ?_⟩, rfl, hmode.oflag, ?_,
      .copies nbyte _ (by rw [hb]; rfl) hsize hle hend hpage rfl hoff⟩⟩
    · show ReadAction f data.length s.action s.fileReads
      rw [hact, hreads]
      exact .none
    · intro hsome
      exact ⟨by rw [hb]; rfl, hkeep hsome⟩

/-- `ef_fire_file_read` up to its allocation. -/
theorem PageReads.fire (h : PageReads E data s) {nbyte : Nat} (hreads : s.fileReads = [])
    (hact : s.action = .null) (hbuf : s.file.buf.buffer = none)
    (hmore : s.file.fileOffset < data.length) (v : View) :
    ∃ s', s.readStep E v (.readFire nbyte) = .ok s' ∧ Reads E data s s' := by
  unfold readStep
  simp only [derefRecord_of_live h.live, ok_bind, h.paged.empty hbuf, hact, ne_eq, not_true_eq_false,
    if_false]
  refine ⟨_, rfl, h.goto rfl ?_⟩
  simp only [hreads]
  exact .allocating rfl hbuf hmore

/-- `free_file_action` goes on, or the call does. -/
theorem PageReads.free (h : PageReads E data s) {q : FreePc} {k : AfterFree} {nbyte : Nat}
    (hreads : s.fileReads = []) (hfree : FreeHolds q s.action)
    (hk : k = .readDrop nbyte (pageOffset E s.file) ∨ k = .readBuffer nbyte (pageOffset E s.file))
    (hpos : 1 ≤ nbyte) (hmore : s.file.fileOffset < data.length) :
    ∃ s' next, s.freeStep q = .ok (s', next) ∧
      Reads E data s (match next with
        | some q => { s' with foreground := .freeing q k }
        | none => s'.afterFree k) := by
  cases q with
  | acquire e =>
    have hgo : ∀ (q : FreePc) (w : Int), FreeHolds q s.action →
        Reads E data s { s with preventActionMutation := w, foreground := .freeing q k } :=
      fun q w hq => h.goto rfl (by simp only [hreads]; exact .freeing hq hk hpos hmore)
    simp only [freeStep, derefRecord_of_live h.live, ok_bind]
    refine ⟨_, _, rfl, ?_⟩
    split
    · rename_i q hq
      obtain rfl := Option.some.inj hq
      exact hgo _ _ (by split <;> exact hfree)
    · rename_i hq
      cases hq
  | cleanup =>
    obtain ⟨id, a, hact, hcmd⟩ := hfree
    simp only [freeStep, derefAction_of_live h.live hact, ok_bind, hcmd, false_and, if_false]
    refine ⟨_, _, rfl, h.goto rfl ?_⟩
    simp only [hreads]
    exact .freeing rfl hk hpos hmore
  | setNull =>
    simp only [freeStep, derefRecord_of_live h.live, ok_bind]
    refine ⟨_, _, rfl, h.goto rfl ?_⟩
    simp only [hreads]
    exact .freeing rfl hk hpos hmore
  | release =>
    have hact : s.action = .null := hfree
    simp only [freeStep, derefRecord_of_live h.live, ok_bind]
    refine ⟨_, none, rfl, ?_⟩
    obtain rfl | rfl := hk
    · refine h.goto rfl ?_
      simp only [afterFree, hact, hreads]
      exact .drop .none nofun hpos hmore
    · refine h.goto rfl ?_
      simp only [afterFree, hact, hreads]
      exact .buffer hpos hmore

/-- `alloc_file_action` of the read action. -/
theorem PageReads.alloc (h : PageReads E data s) {q : AllocPc} {nbyte : Nat} (hreads : s.fileReads = [])
    (halloc : AllocHolds q s.action) (hbuf : s.file.buf.buffer = none)
    (hmore : s.file.fileOffset < data.length) :
    ∃ s' next, s.allocStep .operRead q = .ok (s', next) ∧
      Reads E data s { s' with
        foreground := next.elim (afterAlloc (.read nbyte)) (.allocating · .operRead (.read nbyte)) } := by
  cases q with
  | acquire e =>
    simp only [allocStep, derefRecord_of_live h.live, ok_bind]
    refine ⟨_, _, rfl, h.goto rfl ?_⟩
    simp only [hreads]
    exact .allocating (by split <;> exact halloc) hbuf hmore
  | init =>
    simp only [allocStep, derefRecord_of_live h.live, ok_bind]
    refine ⟨_, _, rfl, h.goto rfl ?_⟩
    simp only [hreads]
    exact .allocating ⟨_, rfl⟩ hbuf hmore
  | release =>
    obtain ⟨id, hact⟩ := halloc
    simp only [allocStep, derefRecord_of_live h.live, ok_bind]
    refine ⟨_, none, rfl, h.goto rfl ?_⟩
    simp only [hreads, hact]
    exact .enqueue hbuf hmore

/-- A step inside a call. -/
theorem PageReads.foreground (h : PageReads E data s) (closeFails : Bool) (v : View)
    (hbusy : s.foreground ≠ .idle) :
    ∃ s', s.foregroundStep E closeFails v = .ok s' ∧ Reads E data s s' := by
  have hplace := h.place
  generalize hfg : s.foreground = pc at hplace
  generalize hact : s.action = p at hplace
  generalize hjs : s.fileReads = js at hplace
  unfold foregroundStep
  cases hplace with
  | idle => exact absurd hfg hbusy
  | @snapshot _ _ nbyte hread hpos hmore =>
    have hsee : s.see v = ⟨s.file.fileOffset, s.file.currFileSizeOnDisk, s.file.buf.bufferIndex⟩ := by
      rw [see, writing, h.writes]
      rfl
    simp only [hfg, readStep, derefRecord_of_live h.live, ok_bind, hsee]
    exact h.dispatch (by rw [hact, hjs]; exact hread) hpos hmore
  | @drop _ nbyte hread hopen hpos hmore =>
    simp only [hfg]
    exact h.drop hjs (hact ▸ hread) (hact ▸ hopen) hpos hmore v
  | @freeing _ q k nbyte hfree hk hpos hmore =>
    obtain ⟨s₁, next, hstep, hnext⟩ := h.free hjs (hact ▸ hfree) hk hpos hmore
    simp only [hfg, hstep, ok_bind]
    cases next <;> exact ⟨_, rfl, hnext⟩
  | @buffer nbyte hpos hmore =>
    simp only [hfg]
    exact h.buffer hjs hact hpos hmore v
  | @fire nbyte hbuf hmore =>
    simp only [hfg]
    exact h.fire hjs hact hbuf hmore v
  | @allocating _ q nbyte halloc hbuf hmore =>
    obtain ⟨s₁, next, hstep, hnext⟩ := h.alloc hjs (hact ▸ halloc) hbuf hmore
    simp only [hfg, hstep, ok_bind]
    exact ⟨_, rfl, hnext⟩
  | @enqueue id nbyte hbuf hmore =>
    simp only [hfg, readStep, derefRecord_of_live h.live, ok_bind]
    refine ⟨_, rfl, h.again hmore ?_⟩
    rw [hact, hjs]
    exact .queued rfl nofun hbuf hmore

/-- A task of `ef_file_read` is under way only between two accesses of the
foreground thread to its action. -/
theorem PageReads.job (h : PageReads E data s) (hjobs : s.fileReads ≠ []) :
    ReadAction s.file data.length s.action s.fileReads ∧
      ∀ f p js, f.fileOffset = s.file.fileOffset → ReadAction f data.length p js →
        ReadPlace E f data.length p js s.foreground := by
  have hplace := h.place
  generalize s.foreground = pc at hplace
  generalize s.action = p at hplace
  generalize hjs : s.fileReads = js at hplace hjobs
  cases hplace with
  | idle hact => exact ⟨hact, fun f p js _ hnew => .idle hnew⟩
  | snapshot hact hpos hmore => exact ⟨hact, fun f p js hoff hnew => .snapshot hnew hpos (hoff ▸ hmore)⟩
  | _ => exact absurd rfl hjobs

/-- A step of the task with the job `j`. -/
structure Loads (E : Env) (data : List UInt8) (s : PipelineState) (j : ReadJob) (s' : PipelineState) : Prop where
  kept : PageReads E data s'
  rest : s' = { s with file := s'.file, action := s'.action, fileReads := s'.fileReads }
  oflag : s'.file.oflag = s.file.oflag
  offset : s'.file.fileOffset = s.file.fileOffset
  index : s'.file.buf.bufferIndex = s.file.buf.bufferIndex
  page : s'.file.buf.buffer.isSome = true →
    s.file.buf.buffer.isSome = true ∨ j = .load s.file.buf.bufferIndex

theorem PageReads.readJob (h : PageReads E data s) {i : Nat} {j : ReadJob}
    (hjob : s.fileReads[i]? = some j)
    (hfull : ∀ page, j = .load page →
      (E.outcome s.file.fd.calls).moved ((data.drop (page * E.pageSize)).take E.pageSize).length
        = some ((data.drop (page * E.pageSize)).take E.pageSize).length) :
    ∃ s' next, s.readJobStep E j = .ok (s', next) ∧
      Loads E data s j { s' with fileReads := putJob s.fileReads i next } := by
  have hne : s.fileReads ≠ [] := fun hnil => by
    rw [hnil] at hjob
    cases hjob
  obtain ⟨hact, hplace⟩ := h.job hne
  generalize hp : s.action = p at hact
  generalize hjs : s.fileReads = js at hact hjob
  cases hact with
  | none => cases hjob
  | opened => cases hjob
  | done => cases hjob
  | @queued id a hcmd hstatus hbuf hmore =>
    obtain ⟨rfl, rfl⟩ : i = 0 ∧ j = .queued s.file.buf.bufferIndex := by
      cases i <;> cases hjob
      exact ⟨rfl, rfl⟩
    simp only [readJobStep, derefAction_of_live h.live hp, ok_bind]
    exact ⟨_, _, rfl, ⟨h.paged, h.clean, h.live, h.writes, hplace _ _ _ rfl (.load hcmd nofun hbuf hmore)⟩,
      rfl, rfl, rfl, rfl, Or.inl⟩
  | @load id a hcmd hstatus hbuf hmore =>
    obtain ⟨rfl, rfl⟩ : i = 0 ∧ j = .load s.file.buf.bufferIndex := by
      cases i <;> cases hjob
      exact ⟨rfl, rfl⟩
    have hfull' := hfull _ rfl
    rw [← h.paged.empty hbuf] at hfull'
    obtain ⟨f, err, hstep, hpaged, hclean, hmode, hoff, -, hindex⟩ :=
      readJobStep_load h.paged h.clean hbuf h.live hfull'
    have hret : (0 : Int) < ((data.drop s.file.fileOffset).take E.pageSize).length := by
      have := E.pageSize_pos
      rw [List.length_take, List.length_drop]
      omega
    refine ⟨_, _, hstep, ⟨hpaged, hclean, h.live, h.writes, hplace f _ _ hoff ?_⟩, rfl, hmode.oflag, hoff,
      hindex, fun _ => .inr rfl⟩
    show ReadAction f data.length s.action _
    rw [hp]
    exact .publish hcmd hstatus hret
  | @publish id a ret err hcmd hstatus hret =>
    obtain ⟨rfl, rfl⟩ : i = 0 ∧ j = .publish ret err := by
      cases i <;> cases hjob
      exact ⟨rfl, rfl⟩
    simp only [readJobStep, derefAction_of_live h.live hp, ok_bind]
    exact ⟨_, none, rfl, ⟨h.paged, h.clean, h.live, h.writes, hplace _ _ _ rfl (.done hcmd rfl hret)⟩, rfl, rfl,
      rfl, rfl, Or.inl⟩

end Efio.Proofs.Evio
