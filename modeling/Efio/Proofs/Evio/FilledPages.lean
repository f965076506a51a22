import Efio.Proofs.Evio.AccessMode
import Efio.Proofs.Evio.MixedInv
import Efio.Proofs.Evio.DrainInv
import Efio.Proofs.Evio.PageReads
import Efio.Spec.PreadLog

/-!
# `Efio.Proofs.Evio.FilledPages`: where the bytes that `ef_read` copies come from

`ef_file_read` allocates the page buffer before its `pread`, and `ef_read`
takes every buffer for a page of the file. As long as each `pread` returns
all that the file has in the page this is right: the page in memory is in
the log (`Filling.page`), and so is every byte copied (`copied_fromPread`).
After a failed `pread` the page stays as it was allocated, and the next
`ef_read` but one hands it out (`not_fromPread_of_failed`).

The file may be open for reading and writing. Then `slow_sync` takes the
locks of the file, and it may find the action freed; it pushes nothing, as
there is no write action.
-/

set_option autoImplicit false

namespace Efio.Proofs.Evio

open Efio.Lib
open Efio.Evio
open Efio.Evio.PipelineState
open Efio.Spec

variable {E : Env} {data : List UInt8} {log : PreadLog} {s s' : PipelineState}

/-- The page of the file at `index`. -/
def pageEntry (E : Env) (data : List UInt8) (index : Nat) : Nat × List UInt8 :=
  (index * E.pageSize, (data.drop (index * E.pageSize)).take E.pageSize)

/-- The invariant of the runs of `ef_read` with full preads. -/
structure Filling (E : Env) (data : List UInt8) (log : PreadLog) (s : PipelineState) : Prop where
  reads : PageReads E data s
  events : s.fileWriterQueue = []
  writer : s.fileWriter = .idle
  closes : s.fileCloses = []
  slow : ∀ p, s.slowSync = some p → syncPush p = none
  page : s.file.buf.buffer.isSome = true → pageEntry E data s.file.buf.bufferIndex ∈ log
  copied : copied s.history = data.take s.file.fileOffset
  source : FromPread log s.history

/-! ### The foreground thread -/

theorem Filling.length_copied (h : Filling E data log s) : (Spec.copied s.history).length = s.file.fileOffset := by
  rw [h.copied, List.length_take, Nat.min_eq_left h.reads.paged.offset_le]

/-- What a step tells the caller comes from the page in memory. -/
theorem Filling.tells (h : Filling E data log s) (htells : Tells E data s s') :
    Spec.copied s'.history = data.take s'.file.fileOffset ∧ FromPread log s'.history := by
  cases htells with
  | silent hhistory hoff =>
    rw [hhistory, hoff]
    exact ⟨h.copied, h.source⟩
  | again nbyte hmore hhistory hoff =>
    rw [hhistory, hoff, copied_snoc, List.append_nil]
    exact ⟨h.copied, h.source.snoc_nil _ _ _⟩
  | copies nbyte size hbuf hpos hle hend hpage hhistory hoff =>
    have hindex := h.reads.paged.index_le_offset
    have hlength := h.length_copied
    rw [hhistory, hoff, copied_snoc, h.copied, List.take_add]
    refine ⟨rfl, h.source.snoc (h.page hbuf) (by rw [hlength]; exact hindex) ?_ _ _ _⟩
    intro i byte hbyte
    have hi : i < size := by
      rw [List.getElem?_take] at hbyte
      by_contra hge
      rw [if_neg hge] at hbyte
      cases hbyte
    rw [List.getElem?_take_of_lt hi, List.getElem?_drop] at hbyte
    rw [hlength, List.getElem?_take_of_lt (by omega), List.getElem?_drop]
    rw [show s.file.buf.bufferIndex * E.pageSize + (s.file.fileOffset + i - s.file.buf.bufferIndex * E.pageSize)
      = s.file.fileOffset + i by omega]
    exact hbyte

theorem Filling.of_reads (h : Filling E data log s) (hreads : Reads E data s s') : Filling E data log s' := by
  obtain ⟨hcopied, hsource⟩ := h.tells hreads.tells
  refine ⟨hreads.kept, ?_, ?_, ?_, ?_, fun hbuf => ?_, hcopied, hsource⟩
  case refine_5 =>
    obtain ⟨hsome, hindex⟩ := hreads.page hbuf
    rw [hindex]
    exact h.page hsome
  all_goals rw [hreads.rest]
  · exact h.events
  · exact h.writer
  · exact h.closes
  · exact h.slow

/-- `chk_read_conditions` lets a call through only before the end of the
file. -/
theorem chkReadConditions_before {v : View} {nbyte : Nat} (h : s.chkReadConditions E v nbyte = .ok none) :
    1 ≤ nbyte ∧ v.fileOffset < v.currFileSizeOnDisk := by
  unfold chkReadConditions at h
  split at h
  · cases h
  · obtain ⟨_, -, h⟩ := bind_eq_ok.mp h
    split at h
    · cases h
    · rename_i hsize
      split at h
      · cases h
      · split at h
        · cases h
        · rename_i hend
          exact ⟨by omega, by omega⟩

theorem Filling.call (h : Filling E data log s) {nbyte : Nat} {v : View} (hidle : s.foreground = .idle)
    (hstep : s.callStep E v (.efRead nbyte) = .ok s') : Filling E data log s' := by
  have hact : ReadAction s.file data.length s.action s.fileReads := by
    have hplace := h.reads.place
    generalize s.action = p at hplace ⊢
    generalize s.fileReads = js at hplace ⊢
    rw [hidle] at hplace
    cases hplace with
    | idle hact => exact hact
  obtain ⟨r, hcheck, hok⟩ := bind_eq_ok.mp hstep
  cases r with
  | some r =>
    cases hok
    refine ⟨h.reads.finish hact, h.events, h.writer, h.closes, h.slow, h.page, ?_, h.source.snoc_nil _ _ _⟩
    show Spec.copied (s.history ++ _) = _
    rw [copied_snoc, List.append_nil]
    exact h.copied
  | none =>
    cases hok
    obtain ⟨hpos, hmore⟩ := chkReadConditions_before hcheck
    have hsee : s.see v = ⟨s.file.fileOffset, s.file.currFileSizeOnDisk, s.file.buf.bufferIndex⟩ := by
      rw [see, writing, h.reads.writes]
      rfl
    rw [hsee, (h.reads.paged.disk h.reads.clean).2] at hmore
    exact h.of_reads (h.reads.goto rfl (.snapshot hact hpos hmore))

/-! ### The background -/

/-- There is no write action. -/
theorem PageReads.not_isWrite (h : PageReads E data s) : ¬ IsWrite s.action := by
  have hread : ∀ {f : EfFile} {size : Nat} {p : ActionPtr} {js : List ReadJob}, ReadAction f size p js →
      ¬ IsWrite p := by
    rintro f size p js hact ⟨id, a, rfl, hcmd⟩
    cases hact with
    | opened hopen => rw [hcmd] at hopen; cases hopen
    | queued hop | load hop | publish hop | done hop => rw [hcmd] at hop; cases hop
  have hplace := h.place
  generalize s.action = p at hplace ⊢
  generalize s.foreground = pc at hplace
  generalize s.fileReads = js at hplace
  cases hplace with
  | idle hact | snapshot hact | drop hact => exact hread hact
  | @freeing _ q k nbyte hfree =>
    cases q with
    | acquire e | cleanup =>
      obtain ⟨id, a, hact, hcmd⟩ := hfree
      exact not_isWrite_of_live hact hcmd
    | setNull =>
      rintro ⟨id, a, hact, -⟩
      cases hfree.symm.trans hact
    | release => exact not_isWrite_of_null hfree
  | buffer | fire => exact not_isWrite_of_null rfl
  | @allocating _ q nbyte halloc =>
    cases q with
    | acquire e | init => exact not_isWrite_of_null halloc
    | release =>
      obtain ⟨id, hact⟩ := halloc
      exact not_isWrite_of_live hact (by decide)
  | enqueue => exact not_isWrite_of_live rfl (by decide)

/-- Without a write action `sync_file_writes` only takes and releases its
locks. -/
theorem syncStep_locks {p : SyncPc} {next : Option SyncPc} (hno : ¬ IsWrite s.action) (hpush : syncPush p = none)
    (hstep : s.syncStep p = .ok (s', next)) :
    (∃ guard suspended handle, s' = { s with
      preventActionMutation := guard
      writeSuspended := suspended
      handleToFileAction := handle }) ∧ next.bind syncPush = none := by
  have hrule := syncStep_rule (s := s) (R := fun s₁ q => (∃ guard suspended handle, s₁ = { s with
      preventActionMutation := guard
      writeSuspended := suspended
      handleToFileAction := handle }) ∧ q = none) (fun _ => (rfl : (none : Option PushPc) = none)) hstep
    (fun _ guard suspended handle => ⟨⟨guard, suspended, handle, rfl⟩, rfl⟩)
    (fun q _ _ hq => by rw [hpush] at hq; cases hq) ?_ ?_
  · rwa [Option.or_none] at hrule
  · intro _ _ s₁ q hlow
    obtain ⟨r, htest, hok⟩ := bind_eq_ok.mp hlow
    obtain ⟨-, ⟨rfl, -⟩ | ⟨id, a, rfl, hact⟩⟩ := testAction_eq_ok htest
    · cases hok
      exact ⟨⟨_, _, _, rfl⟩, rfl⟩
    · have hcmd : a.cmd ≠ .operWrite := fun hcmd => hno ⟨id, a, hact, hcmd⟩
      simp only [hcmd, ne_eq, not_false_eq_true, if_true] at hok
      cases hok
      exact ⟨⟨_, _, _, rfl⟩, rfl⟩
  · intro _ _ id inp hlive
    rw [liveWrite_of_not_isWrite hno] at hlive
    cases hlive

theorem Filling.slowSync (h : Filling E data log s) (hstep : s.slowSyncStep = some (.ok s')) :
    Filling E data log s' := by
  have hgo : ∀ (guard suspended handle : Int) (next : Option SyncPc), next.bind syncPush = none →
      Filling E data log { s with
        preventActionMutation := guard
        writeSuspended := suspended
        handleToFileAction := handle
        slowSync := next } := by
    intro guard suspended handle next hnext
    refine ⟨⟨h.reads.paged, h.reads.clean, h.reads.live, h.reads.writes, h.reads.place⟩, h.events, h.writer,
      h.closes, ?_, h.page, h.copied, h.source⟩
    rintro p rfl
    exact hnext
  obtain ⟨-, rfl⟩ | ⟨p, s₁, next, hslow, hsync, rfl⟩ := slowSyncStep_cases hstep
  · exact hgo _ _ _ _ rfl
  · obtain ⟨⟨guard, suspended, handle, rfl⟩, hnext⟩ := syncStep_locks h.reads.not_isWrite (h.slow p hslow) hsync
    exact hgo guard suspended handle next hnext

theorem Filling.of_loads (h : Filling E data log s) {i : Nat} {j : ReadJob} (hjob : s.fileReads[i]? = some j)
    (hfull : PreadInFull E s (.readJob i)) (hloads : Loads E data s j s') :
    Filling E data (log ++ preadOf E s (.readJob i)) s' := by
  obtain ⟨hkept, hrest, -, hoff, hindex, hpage⟩ := hloads
  refine ⟨hkept, ?_, ?_, ?_, ?_, fun hbuf => ?_, ?_, ?_⟩
  case refine_5 =>
    rw [hindex]
    rcases hpage hbuf with hsome | rfl
    · exact List.mem_append_left _ (h.page hsome)
    · -- The entry of this very step.
      have hread := pread_of_full s.file.fd E.pageSize (s.file.buf.bufferIndex * E.pageSize) (hfull.load hjob)
      simp only [preadOf, hjob, h.reads.live, if_true, hread, (h.reads.paged.disk h.reads.clean).1]
      exact List.mem_append_right _ (List.mem_singleton_self _)
  case refine_6 =>
    rw [hoff, hrest]
    exact h.copied
  all_goals rw [hrest]
  · exact h.events
  · exact h.writer
  · exact h.closes
  · exact h.slow
  · exact h.source.mono

/-! ### The run -/

theorem Filling.mono (h : Filling E data log s) (more : PreadLog) : Filling E data (log ++ more) s :=
  ⟨h.reads, h.events, h.writer, h.closes, h.slow, fun hbuf => List.mem_append_left _ (h.page hbuf), h.copied,
    h.source.mono⟩

theorem Filling.fault (h : Filling E data log s) (e : Fault) : Filling E data log { s with fault := some e } :=
  ⟨⟨h.reads.paged, h.reads.clean, h.reads.live, h.reads.writes, h.reads.place⟩, h.events, h.writer, h.closes,
    h.slow, h.page, h.copied, h.source⟩

theorem Filling.step (h : Filling E data log s) {l : PipelineLabel} (hok : ReadsInFull E (s, log) l)
    (hstep : PipelineState.step E l s = some s') : Filling E data (log ++ preadOf E s l) s' := by
  obtain ⟨-, hrun | ⟨e, -, rfl⟩⟩ := step_eq_some hstep
  · cases l <;> simp only [threadStep] at hrun
    case call c v =>
      split at hrun
      · rename_i hidle
        cases c with
        | efRead nbyte => exact (h.call hidle (Option.some.inj hrun)).mono _
        | _ => exact hok.1.elim
      · cases hrun
    case foreground v closeFails =>
      split at hrun
      · cases hrun
      · rename_i hbusy
        obtain ⟨s₁, heq, hreads⟩ := h.reads.foreground closeFails v hbusy
        cases heq.symm.trans (Option.some.inj hrun)
        exact (h.of_reads hreads).mono _
    case slowSync => exact (h.slowSync hrun).mono _
    case fileWriter =>
      simp only [fileWriterStep, h.writer, h.events] at hrun
      cases hrun
    case writeJob i =>
      simp only [jobStep, h.reads.writes] at hrun
      cases hrun
    case closeJob i closeFails =>
      simp only [jobStep, h.closes] at hrun
      cases hrun
    case readJob i =>
      obtain ⟨j, s₁, next, hjob, hj, rfl⟩ := jobStep_eq_some hrun
      have hfull : ∀ page, j = .load page →
          (E.outcome s.file.fd.calls).moved ((data.drop (page * E.pageSize)).take E.pageSize).length
            = some ((data.drop (page * E.pageSize)).take E.pageSize).length := by
        rintro page rfl
        have hmoved := hok.2.load hjob
        rwa [(h.reads.paged.disk h.reads.clean).1] at hmoved
      obtain ⟨s₂, next', heq, hloads⟩ := h.reads.readJob hjob hfull
      cases heq.symm.trans hj
      exact h.of_loads hjob hok.2 hloads
  · exact (h.fault e).mono _

/-- The start position of a file that is not write-only. -/
theorem openAppend_reads {f : EfFile} (hwrite : ¬ f.oflag.has O_WRONLY) :
    (openAppend E f).fileOffset = f.fileOffset ∧ (openAppend E f).runningFileSize = f.runningFileSize ∧
      (openAppend E f).currFileSizeOnDisk = f.currFileSizeOnDisk ∧ (openAppend E f).fd.data = f.fd.data := by
  unfold openAppend
  rw [if_neg hwrite]
  split
  · split <;> exact ⟨rfl, rfl, rfl, rfl⟩
  · exact ⟨rfl, rfl, rfl, rfl⟩

/-- A file that is not write-only starts at its first byte. -/
theorem efFileOpen_paged {oflag : OFlag} (hwrite : ¬ oflag.has O_WRONLY) (init : List UInt8) :
    PagedFile E (efFileOpen E oflag init) (efFileOpen E oflag init).fd.data ∧
      (efFileOpen E oflag init).fileOffset = 0 ∧ (efFileOpen E oflag init).buf.buffer = none := by
  have hstored : ¬ (openOflag oflag).has O_WRONLY := fun h => hwrite ((openOflag_has (by decide)).mp h)
  obtain ⟨f, hopen, hoff, hrunning, hcurr, hbuf, hclean⟩ : ∃ f : EfFile,
      efFileOpen E oflag init = { f with buf := { f.buf with bufferIndex := f.fileOffset / E.pageSize } } ∧
      f.fileOffset = 0 ∧ f.runningFileSize = f.fd.data.length ∧ f.currFileSizeOnDisk = f.fd.data.length ∧
      f.buf.buffer = none ∧ f.buf.isDirty = false := by
    by_cases happend : (openOflag oflag).has O_APPEND
    · obtain ⟨hoff, hrunning, hcurr, hdata⟩ := openAppend_reads (E := E)
        (f := { efFileInit (Descriptor.ofOpen (openOflag oflag) init) with
          currFileSizeOnDisk := (Descriptor.ofOpen (openOflag oflag) init).data.length
          runningFileSize := (Descriptor.ofOpen (openOflag oflag) init).data.length
          oflag := openOflag oflag }) hstored
      refine ⟨_, by simp only [efFileOpen, if_pos happend], hoff, hrunning.trans ?_, hcurr.trans ?_, ?_, ?_⟩
      · rw [hdata]
        rfl
      · rw [hdata]
        rfl
      · rw [(openAppend_frame _).2]
        rfl
      · rw [(openAppend_frame _).2]
        rfl
    · exact ⟨{ efFileInit (Descriptor.ofOpen (openOflag oflag) init) with
          currFileSizeOnDisk := (Descriptor.ofOpen (openOflag oflag) init).data.length
          runningFileSize := (Descriptor.ofOpen (openOflag oflag) init).data.length
          oflag := openOflag oflag }, by simp only [efFileOpen, if_neg happend], rfl, rfl, rfl, rfl, rfl⟩
  rw [hopen]
  exact ⟨pagedFile_start hoff (by rw [hoff]; exact Nat.zero_div _) hbuf hclean hrunning hcurr, hoff, hbuf⟩

/-- In every run of calls of `ef_read` on a readable file in which the
preads return all that the file has, every byte copied was returned by a
`pread` for its position. -/
theorem copied_fromPread {oflag : OFlag} (hmode : accessMode oflag = O_RDONLY ∨ accessMode oflag = O_RDWR)
    {init : List UInt8} {collected : Bool}
    (h : Reach (loggedStep E) (ReadsInFull E) (opened (efFileOpen E oflag init) collected, []) (s, log)) :
    FromPread log s.history := by
  have hwrite : ¬ oflag.has O_WRONLY := by
    rw [← has_accessMode (by decide)]
    rcases hmode with hmode | hmode <;> rw [hmode] <;> decide
  obtain ⟨hpaged, hoff, hbuf⟩ := efFileOpen_paged (E := E) hwrite init
  have hinv : Filling E (efFileOpen E oflag init).fd.data (s, log).2 (s, log).1 := by
    refine h.invariant (I := fun t => Filling E (efFileOpen E oflag init).fd.data t.2 t.1) ?_ ?_
    · refine ⟨⟨hpaged, (efFileOpen_frame oflag init).2, rfl, rfl, .idle ?_⟩, rfl, rfl, rfl, nofun, ?_, ?_, ?_⟩
      · cases collected
        · exact .opened rfl rfl
        · exact .none
      · intro hsome
        cases (congrArg Option.isSome hbuf).symm.trans hsome
      · show _ = List.take (efFileOpen E oflag init).fileOffset _
        rw [hoff]
        rfl
      · intro k byte hk
        cases hk
    · rintro ⟨t, log⟩ t' l hs hok hstep
      obtain ⟨t', hrun, rfl⟩ := Option.map_eq_some_iff.mp hstep
      exact hs.step hok hrun
  exact hinv.source

/-- The first call asks for the page, the second one copies three bytes of
it. -/
theorem copied_fromPread_sample :
    ∃ s : PipelineState, copied s.history = [1, 2, 3] ∧ FromPread [(0, [1, 2, 3, 4])] s.history :=
  ⟨_, rfl, @copied_fromPread sampleEnv _ _ O_RDWR (.inr (by decide)) [1, 2, 3, 4, 5] true
    (Reach.of_run .init
      ([.call (.efRead 3) noView] ++ foregroundSteps 8 ++ List.replicate 3 (.readJob 0) ++
        [.call (.efRead 3) noView] ++ foregroundSteps 7) rfl)⟩

/-- The first system call fails, and pages are not zeroed. -/
def firstPreadFails : Env :=
  { sampleEnv with
    fresh := fun _ _ => 7
    outcome := fun k => if k = 0 then .fail else .full }

/-- `pread` fails and the next call of `ef_read` reports it. The call after
that copies from the page as it was allocated. -/
theorem not_fromPread_of_failed :
    ∃ s : PipelineState × PreadLog,
      Reach (loggedStep firstPreadFails) (fun _ l => CallsRead l)
        (opened (efFileOpen firstPreadFails O_RDONLY [1, 2, 3]) true, []) s ∧
      s.1.history = [.readReturned 3 (-1) (some .eagain) [], .readReturned 3 (-1) (some .eio) [],
        .readReturned 3 3 none [7, 7, 7]] ∧
      s.2 = [(0, [])] ∧ ¬ FromPread s.2 s.1.history := by
  refine ⟨_, Reach.of_run .init
    ([.call (.efRead 3) noView] ++ foregroundSteps 8 ++ List.replicate 3 (.readJob 0) ++
      [.call (.efRead 3) noView] ++ foregroundSteps 5 ++ [.call (.efRead 3) noView] ++ foregroundSteps 3) rfl,
    rfl, rfl, fun h => ?_⟩
  obtain ⟨e, he, -, hbyte⟩ := h 0 7 rfl
  obtain rfl := List.mem_singleton.mp he
  cases hbyte

end Efio.Proofs.Evio
