import Efio.Proofs.Evio.DiskContent
import Efio.Proofs.Evio.PageReads
import Efio.Spec.SequentialRead

/-!
# `Efio.Proofs.Evio.SequentialRead`: `ef_read` on an `O_RDONLY` file

No thread but the foreground one and the task of `ef_file_read` touches
the file, so every step is one of a reader (`Reading.of_reads`,
`Reading.of_loads`), and none is a fault. `sequentialRead_delivers` is the
result.
-/

set_option autoImplicit false

namespace Efio.Proofs.Evio

open Efio.Lib
open Efio.Evio
open Efio.Evio.PipelineState
open Efio.Spec

variable {E : Env} {data : List UInt8} {s s' : PipelineState}

/-- The foreground thread only calls `ef_read`, for at most one page. -/
def ReadsPages (E : Env) (_ : PipelineState) : PipelineLabel → Prop
  | .call (.efRead nbyte) _ => 1 ≤ nbyte ∧ nbyte ≤ E.pageSize
  | .call _ _ => False
  | _ => True

instance : DecidableRel (ReadsPages E) := fun _ l =>
  match l with
  | .call (.efRead nbyte) _ => inferInstanceAs (Decidable (1 ≤ nbyte ∧ nbyte ≤ E.pageSize))
  | .call (.efWrite _) _ | .call .efSync _ | .call (.efClose _) _ => inferInstanceAs (Decidable False)
  | .foreground _ _ | .slowSync | .fileWriter | .writeJob _ | .readJob _ | .closeJob _ _ =>
    inferInstanceAs (Decidable True)

/-! ### The invariant -/

/-- The places of `slow_sync` on a file that is not written. -/
def slowPlace : SyncPc → Bool
  | .lockHandle | .checkFile | .unlockHandle => true
  | _ => false

/-- The invariant of the runs on an `O_RDONLY` file. -/
structure Reading (E : Env) (data : List UInt8) (s : PipelineState) : Prop where
  paged : PagedFile E s.file data
  clean : s.file.buf.isDirty = false
  oflag : s.file.oflag = O_RDONLY ||| O_DIRECT
  live : s.recordLive = true
  slot : s.slot = true
  status : s.status = .fileOpen
  fault : s.fault = none
  events : s.fileWriterQueue = []
  writer : s.fileWriter = .idle
  writes : s.fileWrites = []
  closes : s.fileCloses = []
  slow : ∀ p, s.slowSync = some p → slowPlace p = true
  delivers : Delivers data s.history s.file.fileOffset
  place : ReadPlace E s.file data.length s.action s.fileReads s.foreground

/-- The part that the foreground thread and `ef_file_read` keep. -/
theorem Reading.reads (h : Reading E data s) : PageReads E data s :=
  ⟨h.paged, h.clean, h.live, h.writes, h.place⟩

/-- What a step tells the caller is what a reader may get. -/
theorem Tells.delivers {s₁ : PipelineState} (h : Tells E data s s₁)
    (hdelivers : Delivers data s.history s.file.fileOffset) : Delivers data s₁.history s₁.file.fileOffset := by
  cases h with
  | silent hhistory hoff =>
    rw [hhistory, hoff]
    exact hdelivers
  | again nbyte hmore hhistory hoff =>
    rw [hhistory, hoff]
    exact .again hdelivers nbyte hmore
  | copies nbyte size hbuf hpos hle hend hpage hhistory hoff =>
    rw [hhistory, hoff]
    exact .bytes hdelivers nbyte size hpos hle hend

/-- A step of `ef_read`. -/
theorem Reading.of_reads (h : Reading E data s) (hreads : Reads E data s s') : Reading E data s' := by
  obtain ⟨hkept, hrest, hoflag, -, htells⟩ := hreads
  refine ⟨hkept.paged, hkept.clean, hoflag.trans h.oflag, hkept.live, ?_, ?_, ?_, ?_, ?_, hkept.writes, ?_, ?_,
    htells.delivers h.delivers, hkept.place⟩
  all_goals rw [hrest]
  · exact h.slot
  · exact h.status
  · exact h.fault
  · exact h.events
  · exact h.writer
  · exact h.closes
  · exact h.slow

/-- A call returns without bytes. -/
theorem Reading.finish (h : Reading E data s) {nbyte : Nat} {ret : Int} {err : Option Errno}
    (hdelivers : Delivers data (s.history ++ [.readReturned nbyte ret err []]) s.file.fileOffset)
    (hact : ReadAction s.file data.length s.action s.fileReads) :
    Reading E data (s.finishRead nbyte ret err []) :=
  ⟨h.paged, h.clean, h.oflag, h.live, h.slot, h.status, h.fault, h.events, h.writer, h.writes,
    h.closes, h.slow, hdelivers, .idle hact⟩

/-- `chk_read_conditions` lets a call through exactly before the end of the
file. -/
theorem Reading.check (h : Reading E data s) {nbyte : Nat} (hpos : 1 ≤ nbyte)
    (hle : nbyte ≤ E.pageSize) (v : View) :
    s.chkReadConditions E (s.see v) nbyte
      = .ok (if data.length ≤ s.file.fileOffset then some (0, none) else none) := by
  obtain ⟨-, hcurr⟩ := h.paged.disk h.clean
  have hsee : s.see v = ⟨s.file.fileOffset, data.length, s.file.buf.bufferIndex⟩ := by
    rw [see, writing, h.writes, hcurr]
    rfl
  have hflg : ¬ (¬ OFlag.has ((O_RDONLY ||| O_DIRECT) ^^^ O_DIRECT) O_RDWR ∧
      (O_RDONLY ||| O_DIRECT) ^^^ O_DIRECT ≠ O_RDONLY) := by decide
  have hdirect : OFlag.has (O_RDONLY ||| O_DIRECT) O_DIRECT := by decide
  unfold chkReadConditions
  simp only [h.slot, derefRecord_of_live h.live, ok_bind, hsee, h.status, h.oflag, if_pos hdirect,
    if_neg hflg, if_neg (show ¬ (nbyte = 0 ∨ E.pageSize < nbyte) by omega), not_true_eq_false,
    ne_eq, if_false]
  split <;> rfl

theorem Reading.call (h : Reading E data s) {nbyte : Nat} (hidle : s.foreground = .idle)
    (hpos : 1 ≤ nbyte) (hle : nbyte ≤ E.pageSize) (v : View) :
    ∃ s', s.callStep E v (.efRead nbyte) = .ok s' ∧ Reading E data s' := by
  have hact : ReadAction s.file data.length s.action s.fileReads := by
    have hplace := h.place
    generalize s.action = p at hplace ⊢
    generalize s.fileReads = js at hplace ⊢
    rw [hidle] at hplace
    cases hplace with
    | idle hact => exact hact
  have hoff := h.paged.offset_le
  simp only [callStep, h.check hpos hle v, ok_bind]
  by_cases hend : data.length ≤ s.file.fileOffset
  · simp only [if_pos hend]
    exact ⟨_, rfl, h.finish (.endOfFile h.delivers nbyte (by omega)) hact⟩
  · simp only [if_neg hend]
    exact ⟨_, rfl, h.of_reads (h.reads.goto rfl (.snapshot hact hpos (by omega)))⟩

/-! ### The background -/

/-- `slow_sync` finds that the file is not written. -/
theorem Reading.slowSync (h : Reading E data s) :
    ∃ s', s.slowSyncStep = some (.ok s') ∧ Reading E data s' := by
  have hgo : ∀ (w : Int) (next : Option SyncPc), (∀ p, next = some p → slowPlace p = true) →
      Reading E data { s with handleToFileAction := w, slowSync := next } := fun w next hnext =>
    ⟨h.paged, h.clean, h.oflag, h.live, h.slot, h.status, h.fault, h.events, h.writer, h.writes,
      h.closes, hnext, h.delivers, h.place⟩
  unfold slowSyncStep
  cases hslow : s.slowSync with
  | none =>
    refine ⟨_, if_pos h.slot, hgo _ _ fun p hp => ?_⟩
    cases hp
    rfl
  | some p =>
    have hp := h.slow p hslow
    simp only
    cases p with
    | lockHandle =>
      refine ⟨_, rfl, hgo _ _ fun p hp => ?_⟩
      obtain rfl := Option.some.inj hp
      split <;> rfl
    | checkFile =>
      have hflags : ¬ s.file.oflag.has (O_RDWR ||| O_WRONLY) := by
        rw [h.oflag]
        decide
      simp only [syncStep, h.slot, derefRecord_of_live h.live, ok_bind, h.status, hflags, ne_eq,
        not_true_eq_false, not_false_eq_true, if_true, if_false]
      exact ⟨_, rfl, hgo _ _ fun p hp => by cases hp; rfl⟩
    | unlockHandle => exact ⟨_, rfl, hgo _ _ fun _ h => by cases h⟩
    | _ => cases hp

/-- A step of `ef_file_read`. -/
theorem Reading.of_loads (h : Reading E data s) {j : ReadJob} (hloads : Loads E data s j s') :
    Reading E data s' := by
  obtain ⟨hkept, hrest, hoflag, hoff, -, -⟩ := hloads
  refine ⟨hkept.paged, hkept.clean, hoflag.trans h.oflag, hkept.live, ?_, ?_, ?_, ?_, ?_, hkept.writes, ?_, ?_,
    ?_, hkept.place⟩
  case refine_8 =>
    rw [hoff, hrest]
    exact h.delivers
  all_goals rw [hrest]
  · exact h.slot
  · exact h.status
  · exact h.fault
  · exact h.events
  · exact h.writer
  · exact h.closes
  · exact h.slow

/-! ### Every step -/

theorem Reading.step (hE : E.Reliable) (h : Reading E data s) {l : PipelineLabel}
    (hok : ReadsPages E s l) (hstep : PipelineState.step E l s = some s') : Reading E data s' := by
  suffices hthread : ∀ r, s.threadStep E l = some r → ∃ s', r = .ok s' ∧ Reading E data s' by
    obtain ⟨-, hrun | ⟨e, hrun, -⟩⟩ := step_eq_some hstep
    · obtain ⟨s₁, heq, hread⟩ := hthread _ hrun
      cases heq
      exact hread
    · obtain ⟨s₁, heq, -⟩ := hthread _ hrun
      cases heq
  intro r hrun
  cases l with
  | call c v =>
    cases c with
    | efRead nbyte =>
      simp only [threadStep] at hrun
      split at hrun
      · rename_i hidle
        obtain ⟨s₁, heq, hread⟩ := h.call hidle hok.1 hok.2 v
        exact ⟨s₁, (Option.some.inj hrun).symm.trans heq, hread⟩
      · cases hrun
    | _ => exact absurd hok id
  | foreground v closeFails =>
    simp only [threadStep] at hrun
    split at hrun
    · cases hrun
    · rename_i hbusy
      obtain ⟨s₁, heq, hread⟩ := h.reads.foreground closeFails v hbusy
      exact ⟨s₁, (Option.some.inj hrun).symm.trans heq, h.of_reads hread⟩
  | slowSync =>
    obtain ⟨s₁, heq, hread⟩ := h.slowSync
    exact ⟨s₁, (Option.some.inj (heq.symm.trans hrun)).symm, hread⟩
  | fileWriter =>
    simp only [threadStep, fileWriterStep, h.writer, h.events] at hrun
    cases hrun
  | writeJob i =>
    simp only [threadStep, jobStep, h.writes] at hrun
    cases hrun
  | closeJob i closeFails =>
    simp only [threadStep, jobStep, h.closes] at hrun
    cases hrun
  | readJob i =>
    simp only [threadStep] at hrun
    obtain ⟨j, hjob, rfl⟩ := Option.map_eq_some_iff.mp hrun
    obtain ⟨s₁, next, heq, hread⟩ := h.reads.readJob hjob fun _ _ => moved_of_reliable hE _ _
    simp only [heq, ok_bind]
    exact ⟨_, rfl, h.of_loads hread⟩

theorem efFileOpen_readOnly (data : List UInt8) :
    PagedFile E (efFileOpen E O_RDONLY data) data ∧ (efFileOpen E O_RDONLY data).fileOffset = 0 ∧
      (efFileOpen E O_RDONLY data).buf.isDirty = false ∧
      (efFileOpen E O_RDONLY data).oflag = O_RDONLY ||| O_DIRECT := by
  have hflag : openOflag O_RDONLY = O_RDONLY ||| O_DIRECT := by decide
  have htrunc : ¬ OFlag.has (O_RDONLY ||| O_DIRECT) O_TRUNC := by decide
  have happend : ¬ OFlag.has (O_RDONLY ||| O_DIRECT) O_APPEND := by decide
  have hdata : (efFileOpen E O_RDONLY data).fd.data = data := by
    simp only [efFileOpen, hflag, efFileInit, Descriptor.ofOpen, if_neg htrunc, if_neg happend]
  have hpaged : PagedFile E (efFileOpen E O_RDONLY data) (efFileOpen E O_RDONLY data).fd.data := by
    apply pagedFile_start
    all_goals simp only [efFileOpen, hflag, efFileInit, Descriptor.ofOpen, if_neg happend, Nat.zero_div]
  rw [hdata] at hpaged
  refine ⟨hpaged, ?_, ?_, ?_⟩
  all_goals simp only [efFileOpen, hflag, efFileInit, if_neg happend]

/-- In every run of calls of `ef_read` on an `O_RDONLY` file no step
faults, each call gets what a reader of the file may get, and what was
handed out is the file up to its offset. -/
theorem sequentialRead_delivers (hE : E.Reliable) {collected : Bool}
    (h : Reach (PipelineState.step E) (ReadsPages E)
      (opened (efFileOpen E O_RDONLY data) collected) s) :
    s.fault = none ∧ Delivers data s.history s.file.fileOffset ∧
      delivered s.history = data.take s.file.fileOffset ∧ s.file.fileOffset ≤ data.length := by
  have hread : Reading E data s := by
    refine h.invariant ?_ fun s s' l hs hok hstep => hs.step hE hok hstep
    obtain ⟨hpaged, hoff, hclean, hoflag⟩ := efFileOpen_readOnly (E := E) data
    refine ⟨hpaged, hclean, hoflag, rfl, rfl, rfl, rfl, rfl, rfl, rfl, rfl, nofun, ?_, .idle ?_⟩
    · show Delivers data [] (efFileOpen E O_RDONLY data).fileOffset
      rw [hoff]
      exact .start
    · cases collected
      · exact .opened rfl rfl
      · exact .none
  exact ⟨hread.fault, hread.delivers, hread.delivers.delivered_eq.1, hread.delivers.delivered_eq.2⟩

/-- The first call asks for the page, the second one gets bytes of it. -/
theorem sequentialRead_delivers_sample :
    ∃ s : PipelineState,
      s.history = [.readReturned 3 (-1) (some .eagain) [], .readReturned 3 3 none [1, 2, 3]] ∧
      s.fault = none ∧ Delivers [1, 2, 3, 4, 5] s.history s.file.fileOffset ∧
      delivered s.history = [1, 2, 3, 4, 5].take s.file.fileOffset ∧
      s.file.fileOffset ≤ [1, 2, 3, 4, 5].length :=
  ⟨_, rfl, @sequentialRead_delivers sampleEnv _ _ (fun _ => rfl) true
    (Reach.of_run .init
      ([.call (.efRead 3) ⟨0, 0, 0⟩] ++ List.replicate 8 (.foreground ⟨0, 0, 0⟩ false) ++
        List.replicate 3 (.readJob 0) ++ [.call (.efRead 3) ⟨0, 0, 0⟩] ++
        List.replicate 7 (.foreground ⟨0, 0, 0⟩ false)) rfl)⟩

end Efio.Proofs.Evio
