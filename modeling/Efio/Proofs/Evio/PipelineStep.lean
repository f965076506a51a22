import Efio.Proofs.Evio.PipelineInv

/-!
# `Efio.Proofs.Evio.PipelineStep`: every step keeps the invariant

`ForegroundMoves` says what a step of the foreground thread does to what
the invariant reads; `PipelineInv.of_moves` is that such a step keeps it.
The places of `ef_read`, and the others at which the foreground thread
holds nothing (`Plain`), are treated together.

`PipelineInv.step` is the result, `pipelineInv_opened` the start of the
runs.
-/

set_option autoImplicit false

namespace Efio.Proofs.Evio

open Efio.Lib
open Efio.Evio
open Efio.Evio.PipelineState
open Efio.Spec
open Efio.Proofs.Spec

variable {E : Env} {s s' : PipelineState} {pc : ForegroundPc}

/-! ### What the foreground thread may do -/

/-- A step of the foreground thread from `pc`, as the invariant sees it. -/
structure ForegroundMoves (s : PipelineState) (pc : ForegroundPc) (s' : PipelineState) : Prop where
  flow : FlowStep (flowWith s ((foregroundPush pc).or (s.slowSync.bind syncPush))) (flow s')
  slow : s'.slowSync = s.slowSync
  tags : Tags (foregroundTag pc) (foregroundTag s'.foreground) s.writeSuspended s'.writeSuspended
  own : s.foreground = pc → Ownership s → Ownership s'

/-- A step of the write flow that keeps the rest. -/
theorem PipelineInv.of_flow (h : PipelineInv s)
    (hflow : FlowStep (flowWith s (pushOf s)) (flowWith s' (pushOf s'))) (hlocks : Locks s')
    (hown : Ownership s') : PipelineInv s' :=
  ⟨h.flow.step hflow, h.fits.step h.flow hflow, hlocks, hown⟩

theorem PipelineInv.of_moves (h : PipelineInv s) (hm : ForegroundMoves s s.foreground s') :
    PipelineInv s' := by
  refine h.of_flow hm.flow ?_ (hm.own rfl h.own)
  unfold Locks
  rw [hm.slow]
  exact Holds.move h.locks (syncTag_ne_zero _) hm.tags

theorem Ownership.of_owns (hpc : s.foreground = pc) (h : Ownership s)
    (hcloses : s'.fileCloses.countP closeSetNull = s.fileCloses.countP closeSetNull)
    (howns : Owns (foregroundSetNull pc) (foregroundSetNull s'.foreground) s.action s'.action)
    (hawait : awaitsAlloc s'.foreground = true → s'.action = .null) : Ownership s' := by
  refine h.move howns ?_ hawait
  unfold setNulls
  rw [hcloses, hpc]
  omega

/-- The state but for the places, the history and the page buffer. -/
structure Aside (s s' : PipelineState) : Prop where
  flow : ∀ push, flowWith s' push = flowWith s push
  slow : s'.slowSync = s.slowSync
  closes : s'.fileCloses.countP closeSetNull = s.fileCloses.countP closeSetNull
  word : s'.writeSuspended = s.writeSuspended
  action : s'.action = s.action

/-- The foreground thread goes from one place to another. -/
theorem ForegroundMoves.goto (ha : Aside s s')
    (hpush : foregroundPush s'.foreground = foregroundPush pc)
    (htag : foregroundTag s'.foreground = foregroundTag pc)
    (hset : foregroundSetNull s'.foreground = foregroundSetNull pc)
    (hawait : awaitsAlloc s'.foreground = true → s.action = .null) : ForegroundMoves s pc s' where
  flow := by
    show FlowStep _ (flowWith s' (pushOf s'))
    rw [pushOf, hpush, ha.slow, ha.flow]
    exact .same
  slow := ha.slow
  tags := .keep htag ha.word
  own := fun hpc h => h.of_owns hpc ha.closes (.keep hset (ha.action ▸ .refl _))
    fun h => ha.action.trans (hawait h)

/-- The foreground thread holds nothing. -/
structure Plain (pc : ForegroundPc) : Prop where
  push : foregroundPush pc = none
  tag : foregroundTag pc = none
  setNull : foregroundSetNull pc = false
  await : awaitsAlloc pc = false

theorem ForegroundMoves.plain (hpc : Plain pc) (ha : Aside s s') (hpc' : Plain s'.foreground) :
    ForegroundMoves s pc s' :=
  .goto ha (hpc'.push.trans hpc.push.symm) (hpc'.tag.trans hpc.tag.symm)
    (hpc'.setNull.trans hpc.setNull.symm) fun h => absurd (hpc'.await.symm.trans h) nofun

theorem plain_idle : Plain .idle := ⟨rfl, rfl, rfl, rfl⟩

/-- A step from one place that holds nothing to another. -/
theorem ForegroundMoves.jump (hpc : Plain pc) {pc' : ForegroundPc} (hpc' : Plain pc') :
    ForegroundMoves s pc { s with foreground := pc' } :=
  .plain hpc ⟨fun _ => rfl, rfl, rfl, rfl, rfl⟩ hpc'

theorem ForegroundMoves.finishRead (hpc : Plain pc) {nbyte : Nat} {ret : Int} {err : Option Errno}
    {bytes : List UInt8} : ForegroundMoves s pc (s.finishRead nbyte ret err bytes) :=
  .plain hpc ⟨fun _ => rfl, rfl, rfl, rfl, rfl⟩ plain_idle

theorem ForegroundMoves.stay (hfg : s.foreground = pc) : ForegroundMoves s pc s := by
  subst hfg
  exact ⟨.same, rfl, .keep rfl rfl, fun _ h => h⟩

/-! ### The start of a call -/

theorem callStep_moves {v : View} {c : Call} (hidle : s.foreground = .idle)
    (hstep : s.callStep E v c = .ok s') : ForegroundMoves s .idle s' := by
  have hstay : ForegroundMoves s .idle s := .stay hidle
  cases c with
  | efWrite buf =>
    obtain rfl | ⟨-, rfl⟩ := callStep_efWrite hstep
    · exact hstay
    · exact .jump plain_idle ⟨rfl, rfl, rfl, rfl⟩
  | efSync =>
    obtain rfl | ⟨-, id, a, -, ⟨-, rfl⟩ | ⟨-, rfl⟩⟩ := callStep_efSync hstep
    · exact hstay
    · exact .jump plain_idle ⟨rfl, rfl, rfl, rfl⟩
    · exact .jump plain_idle ⟨rfl, rfl, rfl, rfl⟩
  | efRead nbyte =>
    obtain ⟨ret, err, -, rfl⟩ | ⟨-, rfl⟩ := callStep_efRead hstep
    · exact .finishRead plain_idle
    · exact .jump plain_idle ⟨rfl, rfl, rfl, rfl⟩
  | efClose immediate =>
    obtain rfl | ⟨-, ⟨-, rfl⟩ | ⟨id, a, -, -, ⟨-, rfl⟩ | ⟨-, rfl⟩⟩⟩ := callStep_efClose hstep
    · exact hstay
    · exact .jump plain_idle ⟨rfl, rfl, rfl, rfl⟩
    · exact .jump plain_idle ⟨rfl, rfl, rfl, rfl⟩
    · exact .jump plain_idle ⟨rfl, rfl, rfl, rfl⟩

/-! ### `ef_read` -/

theorem readDispatch_moves {nbyte : Nat} {pageOffset : Int} (hpc : Plain pc)
    (hstep : s.readDispatch nbyte pageOffset = .ok s') : ForegroundMoves s pc s' := by
  obtain ⟨r, -, hok⟩ := bind_eq_ok.mp hstep
  split at hok
  · cases hok
    exact .jump hpc ⟨rfl, rfl, rfl, rfl⟩
  · split at hok
    · split at hok
      · cases hok
        exact .jump hpc ⟨rfl, rfl, rfl, rfl⟩
      · cases hok
        exact .finishRead hpc
    · split at hok
      · cases hok
        exact .finishRead hpc
      · split at hok
        · cases hok
          exact .jump hpc ⟨rfl, rfl, rfl, rfl⟩
        · split at hok <;> cases hok <;> exact .jump hpc ⟨rfl, rfl, rfl, rfl⟩
    · cases hok
      exact .jump hpc ⟨rfl, rfl, rfl, rfl⟩
    · split at hok
      · cases hok
        exact .finishRead hpc
      · cases hok
        exact .jump hpc ⟨rfl, rfl, rfl, rfl⟩
    · split at hok
      · cases hok
        exact .finishRead hpc
      · cases hok
        exact .jump hpc ⟨rfl, rfl, rfl, rfl⟩

theorem readStep_moves {v : View} (hpc : Plain pc) (hfg : s.foreground = pc)
    (hstep : s.readStep E v pc = .ok s') : ForegroundMoves s pc s' := by
  unfold readStep at hstep
  split at hstep
  · obtain ⟨_, -, hok⟩ := bind_eq_ok.mp hstep
    exact readDispatch_moves hpc hok
  · obtain ⟨⟨id, a⟩, -, hok⟩ := bind_eq_ok.mp hstep
    simp only at hok
    split at hok
    · cases hok
      exact .finishRead hpc
    · cases hok
      exact .jump hpc ⟨rfl, rfl, rfl, rfl⟩
  · obtain ⟨r, -, hok⟩ := bind_eq_ok.mp hstep
    split at hok
    · split at hok <;> cases hok <;> exact .jump hpc ⟨rfl, rfl, rfl, rfl⟩
    · cases hok
      exact .jump hpc ⟨rfl, rfl, rfl, rfl⟩
  · obtain ⟨_, -, hok⟩ := bind_eq_ok.mp hstep
    split at hok
    · obtain ⟨r, -, hok⟩ := bind_eq_ok.mp hok
      split at hok
      · cases hok
        exact .finishRead hpc
      · cases hok
        exact .jump hpc ⟨rfl, rfl, rfl, rfl⟩
    · obtain ⟨⟨file, ret, err, bytes⟩, -, hok⟩ := bind_eq_ok.mp hok
      cases hok
      exact .plain hpc ⟨fun _ => rfl, rfl, rfl, rfl, rfl⟩ plain_idle
  · obtain ⟨_, -, hok⟩ := bind_eq_ok.mp hstep
    split at hok
    · cases hok
    · split at hok
      · cases hok
      · rename_i hnull
        cases hok
        exact .goto ⟨fun _ => rfl, rfl, rfl, rfl, rfl⟩ rfl rfl rfl fun _ => not_not.mp hnull
  · obtain ⟨_, -, hok⟩ := bind_eq_ok.mp hstep
    cases hok
    exact .plain hpc ⟨fun _ => rfl, rfl, rfl, rfl, rfl⟩ plain_idle
  · cases hstep
    exact .stay hfg

/-! ### `ef_write`, `ef_sync` and `ef_close_api` -/

/-- While the foreground thread holds `_write_suspended`, `slow_sync` is
not in a push. -/
theorem Locks.slow_push (h : Locks s) (htag : foregroundTag s.foreground ≠ none) :
    s.slowSync.bind syncPush = none := by
  have hnone := h.alone.resolve_left htag
  cases hslow : s.slowSync with
  | none => rfl
  | some p =>
    rw [hslow] at hnone
    cases p <;> first | rfl | exact absurd hnone nofun

/-- The same for the push under way. -/
theorem Locks.push_eq (h : Locks s) (hfg : s.foreground = pc) (htag : foregroundTag pc ≠ none) :
    (foregroundPush pc).or (s.slowSync.bind syncPush) = foregroundPush pc := by
  rw [h.slow_push (hfg ▸ htag), Option.or_none]

/-- A step of the thread that holds `_write_suspended`, with its push. -/
theorem ForegroundMoves.holding (h : Locks s) (hfg : s.foreground = pc)
    (htag : foregroundTag pc ≠ none)
    (hflow : FlowStep (flowWith s (foregroundPush pc)) (flowWith s' (foregroundPush s'.foreground)))
    (hslow : s'.slowSync = s.slowSync) (hcloses : s'.fileCloses = s.fileCloses)
    (hword : s'.writeSuspended = s.writeSuspended)
    (htag' : foregroundTag s'.foreground = foregroundTag pc)
    (howns : Owns (foregroundSetNull pc) (foregroundSetNull s'.foreground) s.action s'.action)
    (hawait : awaitsAlloc s'.foreground = true → s'.action = .null) : ForegroundMoves s pc s' where
  flow := by
    rw [h.push_eq hfg htag]
    show FlowStep _ (flowWith s' (pushOf s'))
    rw [pushOf, hslow, h.slow_push (hfg ▸ htag), Option.or_none]
    exact hflow
  slow := hslow
  tags := .keep htag' hword
  own := fun hpc h => h.of_owns hpc (by rw [hcloses]) howns hawait

theorem writeStep_moves (h : PipelineInv s) (hfg : s.foreground = pc)
    (hstep : s.writeStep E pc = .ok s') : ForegroundMoves s pc s' := by
  unfold writeStep at hstep
  split at hstep
  · obtain ⟨_, -, hok⟩ := bind_eq_ok.mp hstep
    cases hok
    refine ⟨?_, rfl, ?_, fun hpc h => h.of_owns hpc rfl (.keep (by split <;> rfl) (.refl _)) ?_⟩
    · split <;> exact .same
    · by_cases hfree : s.writeSuspended = 0
      · rw [cas_of_eq hfree]
        exact .take (-1) rfl rfl hfree rfl
      · rw [cas_of_ne hfree]
        exact .keep rfl rfl
    · split <;> exact nofun
  · obtain ⟨r, -, hok⟩ := bind_eq_ok.mp hstep
    split at hok
    · split at hok
      · cases hok
        exact .goto ⟨fun _ => rfl, rfl, rfl, rfl, rfl⟩ rfl rfl rfl nofun
      · split at hok <;> cases hok <;>
          exact .goto ⟨fun _ => rfl, rfl, rfl, rfl, rfl⟩ rfl rfl rfl nofun
    · cases hok
      exact .goto ⟨fun _ => rfl, rfl, rfl, rfl, rfl⟩ rfl rfl rfl nofun
  · obtain ⟨_, -, hok⟩ := bind_eq_ok.mp hstep
    cases hok
    by_cases hnull : s.action = .null
    · rw [if_pos hnull]
      exact .goto ⟨fun _ => rfl, rfl, rfl, rfl, rfl⟩ rfl rfl rfl fun _ => hnull
    · rw [if_neg hnull]
      exact .goto ⟨fun _ => rfl, rfl, rfl, rfl, rfl⟩ rfl rfl rfl nofun
  · rename_i buf done
    split at hstep
    · cases hstep
      exact .goto ⟨fun _ => rfl, rfl, rfl, rfl, rfl⟩ rfl rfl rfl nofun
    · obtain ⟨⟨id, a, inp⟩, hd, hok⟩ := bind_eq_ok.mp hstep
      obtain ⟨hlive, hact, hinp⟩ := derefWriteInp_eq_ok.mp hd
      have htyped := h.own.typed
      rw [hact] at htyped
      have hcmd := htyped (by rw [hinp]; rfl)
      have hsome := liveWrite_eq_some.mpr ⟨hlive, a, hact, hcmd, hinp⟩
      simp only at hok
      split at hok
      · cases hok
      · split at hok
        · cases hok
          refine .holding h.locks hfg nofun ?_ rfl rfl rfl rfl
            (.keep rfl (show Stores false _ _ from .setWriteInp hact hinp _).keeps) nofun
          have hflow := FlowStep.start (c := flowWith s none) [] ⟨.fileWriteEvt, inp.wAccum ++
            (buf.drop done).take (min (buf.length - done) (E.pageSize - inp.wAccum.length))⟩ hsome rfl
          rwa [← liveWrite_setWriteInp s id hlive hcmd] at hflow
        · cases hok
          refine .holding h.locks hfg nofun ?_ rfl rfl rfl rfl
            (.keep rfl (show Stores false _ _ from .setWriteInp hact hinp _).keeps) nofun
          have hflow := FlowStep.accumulate (c := flowWith s none) (inp.wAccum ++
            (buf.drop done).take (min (buf.length - done) (E.pageSize - inp.wAccum.length))) hsome
          rwa [← liveWrite_setWriteInp s id hlive hcmd] at hflow
  · obtain ⟨_, -, hok⟩ := bind_eq_ok.mp hstep
    simp only at hok
    split at hok
    · cases hok
    · cases hok
      exact ⟨.same, rfl, .give (-1) rfl rfl fun hw => cas_word_of_eq hw,
        fun hpc h => h.of_owns hpc rfl (.keep rfl (.refl _)) nofun⟩
  · cases hstep
    exact .stay hfg

theorem efSyncStep_moves (h : PipelineInv s) (hfg : s.foreground = pc)
    (hstep : s.efSyncStep pc = .ok s') : ForegroundMoves s pc s' := by
  unfold efSyncStep at hstep
  split at hstep
  · obtain ⟨_, -, hok⟩ := bind_eq_ok.mp hstep
    cases hok
    refine ⟨?_, rfl, ?_, fun hpc h => h.of_owns hpc rfl (.keep (by split <;> rfl) (.refl _)) ?_⟩
    · split <;> exact .same
    · by_cases hfree : s.writeSuspended = 0
      · rw [cas_of_eq hfree]
        exact .take (-2) rfl rfl hfree rfl
      · rw [cas_of_ne hfree]
        exact .keep rfl rfl
    · split <;> exact nofun
  · obtain ⟨⟨s₁, p⟩, hsync, hok⟩ := bind_eq_ok.mp hstep
    cases hok
    have hflow := lowEfSync_flow hsync
    obtain ⟨hframe, hword⟩ := lowEfSync_frame hsync
    refine .holding h.locks hfg nofun ?_ hframe.slowSync hframe.closes hword ?_
      (.keep ?_ hframe.action.keeps) ?_
    · cases p <;> exact hflow
    · cases p <;> rfl
    · cases p <;> rfl
    · cases p <;> exact nofun
  · obtain ⟨_, -, hok⟩ := bind_eq_ok.mp hstep
    simp only at hok
    split at hok
    · cases hok
    · cases hok
      exact ⟨.same, rfl, .give (-2) rfl rfl fun hw => cas_word_of_eq hw,
        fun hpc h => h.of_owns hpc rfl (.keep rfl (.refl _)) nofun⟩
  · cases hstep
    exact .stay hfg

/-- Who is about to clear the pointer finds a freed action. -/
theorem Ownership.freed (h : Ownership s) (hpos : 0 < setNulls s) : s.action = .freed := by
  have hset := h.setNull
  split at hset
  · assumption
  · omega

theorem Ownership.freed_of_foreground (h : Ownership s) (hset : foregroundSetNull s.foreground = true) :
    s.action = .freed := by
  refine h.freed ?_
  unfold setNulls
  rw [hset]
  exact Nat.succ_pos _

theorem Ownership.freed_of_job (h : Ownership s) {j : CloseJob} (hmem : j ∈ s.fileCloses)
    (hset : closeSetNull j = true) : s.action = .freed := by
  refine h.freed (Nat.lt_of_lt_of_le ?_ (Nat.le_add_right _ _))
  exact List.countP_pos_iff.mpr ⟨j, hmem, hset⟩

/-- A step of a closing task, whoever runs it. -/
theorem closeStep_flow_of_quiet {closeFails : Bool} {p : CloseJob} {next : Option CloseJob}
    (hquiet : closeFrees s p = true → (flow s).Quiet)
    (hfreed : closeSetNull p = true → s.action = .freed)
    (hstep : s.closeStep closeFails p = .ok (s', next)) :
    FlowStep (flow s) (flowWith s' (pushOf s)) := by
  refine closeStep_flow ?_ ?_ ?_ hstep
  · rintro ⟨k, rfl⟩ hlw
    exact hquiet (Option.isSome_iff_ne_none.mpr hlw)
  · rintro rfl
    exact hquiet rfl
  · rintro ⟨k, rfl⟩
    exact hfreed rfl

theorem efCloseStep_moves {closeFails : Bool} (h : PipelineInv s) (hfg : s.foreground = pc)
    (hquiet : ∀ p, pc = .closing p → closeFrees s p = true → (flow s).Quiet)
    (hstep : s.efCloseStep closeFails pc = .ok s') : ForegroundMoves s pc s' := by
  unfold efCloseStep at hstep
  split at hstep
  · obtain ⟨r, -, hok⟩ := bind_eq_ok.mp hstep
    split at hok
    · cases hok
      split <;> exact .jump ⟨rfl, rfl, rfl, rfl⟩ ⟨rfl, rfl, rfl, rfl⟩
    · cases hok
      exact .jump ⟨rfl, rfl, rfl, rfl⟩ ⟨rfl, rfl, rfl, rfl⟩
  · obtain ⟨_, -, hok⟩ := bind_eq_ok.mp hstep
    cases hok
    by_cases hnull : s.action = .null
    · rw [if_pos hnull]
      exact .goto ⟨fun _ => rfl, rfl, rfl, rfl, rfl⟩ rfl rfl rfl fun _ => hnull
    · rw [if_neg hnull]
      exact .jump ⟨rfl, rfl, rfl, rfl⟩ ⟨rfl, rfl, rfl, rfl⟩
  · split at hstep
    · cases hstep
      exact .jump ⟨rfl, rfl, rfl, rfl⟩ ⟨rfl, rfl, rfl, rfl⟩
    · cases hstep
      exact .plain ⟨rfl, rfl, rfl, rfl⟩
        ⟨fun _ => rfl, rfl, by simp [closeSetNull], rfl, rfl⟩ plain_idle
  · rename_i p
    obtain ⟨⟨s₁, p'⟩, hclose, hok⟩ := bind_eq_ok.mp hstep
    cases hok
    obtain ⟨howns, -, hslow, hcloses, hword⟩ := closeStep_owns hclose
    have hflow := closeStep_flow_of_quiet (hquiet p rfl)
      (fun hset => h.own.freed_of_foreground (by rw [hfg]; exact hset)) hclose
    refine ⟨?_, hslow, .keep (by cases p' <;> rfl) hword, fun hpc h => h.of_owns hpc ?_ ?_ ?_⟩
    · have hpush : pushOf s = s.slowSync.bind syncPush := by
        rw [pushOf, hfg]
        rfl
      rw [flow, hpush] at hflow
      show FlowStep _ (flowWith _ (pushOf _))
      rw [pushOf, hslow]
      cases p' <;> exact hflow
    · rw [hcloses]
    · cases p' <;> exact howns
    · cases p' <;> exact nofun
  · cases hstep
    exact .stay hfg

/-! ### The shared pieces of code -/

theorem afterFree_aside (s : PipelineState) (k : AfterFree) : Aside s (s.afterFree k) := by
  cases k <;> exact ⟨fun _ => rfl, rfl, rfl, rfl, rfl⟩

theorem afterFree_place (s : PipelineState) (p : FreePc) (k : AfterFree) :
    foregroundPush (s.afterFree k).foreground = none ∧
      foregroundTag (s.afterFree k).foreground = foregroundTag (.freeing p k) ∧
      foregroundSetNull (s.afterFree k).foreground = false := by
  cases k <;> exact ⟨rfl, rfl, rfl⟩

theorem freeing_moves {p : FreePc} {k : AfterFree} {next : Option FreePc} (h : PipelineInv s)
    (hfg : s.foreground = .freeing p k)
    (hquiet : p = .cleanup → (liveWrite s).isSome = true → (flow s).Quiet)
    (hstep : s.freeStep p = .ok (s', next)) :
    ForegroundMoves s (.freeing p k)
      (match next with
      | some p => { s' with foreground := .freeing p k }
      | none => s'.afterFree k) := by
  have hpush : pushOf s = s.slowSync.bind syncPush := by
    rw [pushOf, hfg]
    rfl
  have hset : ∀ q, foregroundSetNull (.freeing q k) = freeSetNull q := fun q => by cases q <;> rfl
  have htag : ∀ q, foregroundTag (.freeing q k) = foregroundTag (.freeing p k) := fun q => by
    cases k <;> rfl
  have hflow : FlowStep (flow s) (flowWith s' (pushOf s)) := by
    refine freeStep_flow (fun hp hlw => hquiet hp (Option.isSome_iff_ne_none.mpr hlw)) ?_ hstep
    rintro rfl
    exact h.own.freed_of_foreground (by rw [hfg]; rfl)
  rw [flow, hpush] at hflow
  obtain ⟨howns, hrel, hend⟩ := freeStep_owns hstep
  have hrest := freeStep_rest hstep
  have hslow : s'.slowSync = s.slowSync := by rw [hrest]
  have hcloses : s'.fileCloses = s.fileCloses := by rw [hrest]
  have hword : s'.writeSuspended = s.writeSuspended := by rw [hrest]
  cases next with
  | some q =>
    refine ⟨?_, hslow, .keep (htag q) hword, fun hpc h => h.of_owns hpc (by rw [hcloses]) ?_ ?_⟩
    · show FlowStep _ (flowWith _ (pushOf _))
      rw [pushOf, hslow]
      exact hflow
    · rw [hset, hset]
      exact howns
    · intro hawait
      cases q <;> first | exact hrel rfl | cases hawait
  | none =>
    obtain ⟨hact, rfl⟩ := hend rfl
    have haside := afterFree_aside s' k
    obtain ⟨hplace, htag', hset'⟩ := afterFree_place s' .release k
    refine ⟨?_, haside.slow.trans hslow, .keep htag' (haside.word.trans hword), fun hpc h =>
      h.of_owns hpc (by rw [haside.closes, hcloses]) ?_ ?_⟩
    · show FlowStep _ (flowWith (s'.afterFree k) (pushOf (s'.afterFree k)))
      rw [pushOf, hplace, haside.slow, hslow, haside.flow]
      exact hflow
    · exact .keep hset' (haside.action.trans hact ▸ .refl _)
    · intro _
      exact haside.action.trans (hact.trans (h.null (by rw [hpc]; rfl)))

theorem allocating_moves {p : AllocPc} {oper : FileOper} {k : AfterAlloc} {next : Option AllocPc}
    (h : PipelineInv s) (hfg : s.foreground = .allocating p oper k)
    (hstep : s.allocStep oper p = .ok (s', next)) :
    ForegroundMoves s (.allocating p oper k)
      { s' with foreground := next.elim (afterAlloc k) (.allocating · oper k) } := by
  have hpush : pushOf s = s.slowSync.bind syncPush := by
    rw [pushOf, hfg]
    rfl
  have hnull : p ≠ .release → s.action = .null := fun hp => h.own.null (by
    rw [hfg]
    cases p <;> first | rfl | exact absurd rfl hp)
  have hflow : FlowStep (flow s) (flowWith s' (pushOf s)) :=
    allocStep_flow (fun hp => hnull (by rw [hp]; nofun)) hstep
  rw [flow, hpush] at hflow
  have hrest := allocStep_rest hstep
  have hslow : s'.slowSync = s.slowSync := by rw [hrest]
  have hcloses : s'.fileCloses = s.fileCloses := by rw [hrest]
  have hword : s'.writeSuspended = s.writeSuspended := by rw [hrest]
  have htag : foregroundTag (next.elim (afterAlloc k) (.allocating · oper k))
      = foregroundTag (.allocating p oper k) := by
    cases next <;> cases k <;> rfl
  have hset : foregroundSetNull (next.elim (afterAlloc k) (.allocating · oper k)) = false := by
    cases next <;> cases k <;> rfl
  refine ⟨?_, hslow, .keep htag hword, fun hpc ho => ?_⟩
  · show FlowStep _ (flowWith _ (pushOf _))
    rw [pushOf, hslow]
    cases next <;> cases k <;> exact hflow
  · have hcount : setNulls { s' with foreground := next.elim (afterAlloc k) (.allocating · oper k) }
        = setNulls s := by
      unfold setNulls
      rw [hcloses, hset, hpc]
      rfl
    obtain ⟨hact, hend⟩ | ⟨rfl, rfl, hact⟩ := allocStep_action hstep
    · refine ho.move (show Owns false false _ _ from .keep rfl (hact ▸ .refl _)) (by rw [hcount]) fun hawait => ?_
      refine hact.trans (hnull fun hp => ?_)
      rw [hend hp] at hawait
      cases k <;> cases hawait
    · refine ⟨?_, nofun, ?_⟩
      · show setNulls _ = if s'.action = .freed then 1 else 0
        rw [hcount, ho.setNull, hact, hnull nofun]
        rfl
      · show Typed s'.action
        rw [hact]
        exact typed_eioCmdInit _ _

theorem pushing_moves {p : PushPc} {k : AfterPush} {next : Option PushPc} (h : PipelineInv s)
    (hfg : s.foreground = .pushing p k) (hstep : s.pushStep p = .ok (s', next)) :
    ForegroundMoves s (.pushing p k)
      { s' with foreground := next.elim (afterPush k) (.pushing · k) } := by
  have htag : foregroundTag (.pushing p k) ≠ none := by cases k <;> nofun
  have hflow : FlowInv (flowWith s (some p)) := by
    have hpush : pushOf s = some p := by
      rw [pushOf, hfg]
      rfl
    exact hpush ▸ h.flow
  obtain ⟨hframe, hword⟩ := pushStep_frame (isWrite_of_push hflow nofun) hstep
  refine .holding h.locks hfg htag ?_ hframe.slowSync hframe.closes hword ?_ (.keep ?_ hframe.action.keeps) ?_
  · have := pushStep_flow hflow hstep
    cases next <;> cases k <;> exact this
  · cases next <;> cases k <;> rfl
  · cases next <;> cases k <;> rfl
  · cases next <;> cases k <;> exact nofun

theorem setting_moves {p : SetPc} {k : AfterSync} {next : Option SetPc}
    (hstep : s.setStep p = .ok (s', next)) :
    ForegroundMoves s (.setting p k)
      { s' with foreground := next.elim (afterSet k) (.setting · k) } := by
  obtain ⟨hframe, hword⟩ := setStep_frame hstep
  have hflow := setStep_flow hstep (s.slowSync.bind syncPush)
  refine ⟨?_, hframe.slowSync, .keep ?_ hword, fun hpc h =>
    h.of_owns hpc (by rw [hframe.closes]) (.keep ?_ hframe.action.keeps) ?_⟩
  · show FlowStep _ (flowWith _ (pushOf _))
    rw [pushOf, hframe.slowSync]
    cases next <;> cases k <;> exact flowStep_of_eq hflow
  · cases next <;> cases k <;> rfl
  · cases next <;> cases k <;> rfl
  · cases next <;> cases k <;> exact nofun

/-! ### `sync_file_writes` -/

/-- A push needs `_write_suspended`. -/
theorem foregroundPush_of_tag (htag : foregroundTag pc = none) : foregroundPush pc = none := by
  revert htag
  cases pc with
  | pushing p k => cases k <;> exact nofun
  | syncing p k => cases p <;> first | exact fun _ => rfl | exact nofun
  | _ => exact fun _ => rfl

/-- Two threads, one push at most: the order does not matter. -/
theorem Locks.push_comm (h : Locks s) :
    pushOf s = (s.slowSync.bind syncPush).or (foregroundPush s.foreground) := by
  unfold pushOf
  by_cases htag : foregroundTag s.foreground = none
  · rw [foregroundPush_of_tag htag, Option.or_none, Option.none_or]
  · rw [h.slow_push htag, Option.or_none, Option.none_or]

theorem syncTag_of_holds {p : SyncPc} (hholds : syncHolds p = true) : syncTag p ≠ none := by
  unfold syncTag
  rw [if_pos hholds]
  intro hnone
  cases hnone

/-- The push under way while a call is in `sync_file_writes`. -/
theorem Locks.syncing_push {p : SyncPc} {k : AfterSync} (h : Locks s)
    (hfg : s.foreground = .syncing p k) :
    pushOf s = (syncPush p).or (s.slowSync.bind syncPush) ∧
      (syncHolds p = true → s.slowSync.bind syncPush = none) := by
  refine ⟨?_, fun hholds => h.slow_push ?_⟩
  · rw [pushOf, hfg]
    rfl
  · rw [hfg]
    exact syncTag_of_holds hholds

/-- The push under way while `slow_sync` is in `sync_file_writes`. -/
theorem Locks.slowSync_push {p : SyncPc} (h : Locks s) (hslow : s.slowSync = some p) :
    pushOf s = (syncPush p).or (foregroundPush s.foreground) ∧
      (syncHolds p = true → foregroundPush s.foreground = none) := by
  refine ⟨?_, fun hholds => ?_⟩
  · rw [h.push_comm, hslow]
    rfl
  · unfold Locks at h
    rw [hslow] at h
    exact foregroundPush_of_tag (h.alone.resolve_right (syncTag_of_holds hholds))

theorem isWrite_of_syncPush {p : SyncPc} {other : Option PushPc}
    (h : FlowInv (flowWith s ((syncPush p).or other))) (hpush : syncPush p ≠ none) :
    IsWrite s.action :=
  isWrite_of_push h fun hnone => hpush (Option.or_eq_none_iff.mp hnone).1

theorem syncing_moves {p : SyncPc} {k : AfterSync} {next : Option SyncPc} (h : PipelineInv s)
    (hfg : s.foreground = .syncing p k) (hstep : s.syncStep p = .ok (s', next)) :
    ForegroundMoves s (.syncing p k)
      { s' with foreground := next.elim (.setting .readTotreq k) (.syncing · k) } := by
  obtain ⟨hpush, hother⟩ := h.locks.syncing_push hfg
  have hinv : FlowInv (flowWith s ((syncPush p).or (s.slowSync.bind syncPush))) := hpush ▸ h.flow
  have hflow := syncStep_flow hother hinv hstep
  obtain ⟨hframe, htags⟩ := syncStep_frame (isWrite_of_syncPush hinv) hstep
  refine ⟨?_, hframe.slowSync, ?_, fun hpc h =>
    h.of_owns hpc (by rw [hframe.closes]) (.keep ?_ hframe.action.keeps) ?_⟩
  · show FlowStep _ (flowWith _ (pushOf _))
    rw [pushOf, hframe.slowSync]
    cases next <;> exact hflow
  · cases next <;> exact htags
  · cases next <;> rfl
  · cases next <;> exact nofun

/-- `slow_sync` does not begin with a push. -/
theorem pushOf_begin (hslow : s.slowSync = none) : pushOf { s with slowSync := some .lockHandle } = pushOf s := by
  rw [pushOf, pushOf, hslow]
  rfl

/-- `slow_sync` begins, or goes on. -/
theorem slowSyncStep_cases (h : s.slowSyncStep = some (.ok s')) :
    (s.slowSync = none ∧ s' = { s with slowSync := some .lockHandle }) ∨
      ∃ p s₁ next, s.slowSync = some p ∧ s.syncStep p = .ok (s₁, next) ∧ s' = { s₁ with slowSync := next } := by
  unfold slowSyncStep at h
  split at h
  · rename_i hslow
    split at h <;> cases h
    exact .inl ⟨hslow, rfl⟩
  · rename_i p hslow
    obtain ⟨⟨s₁, next⟩, hsync, h⟩ := bind_eq_ok.mp (Option.some.inj h)
    cases h
    exact .inr ⟨p, s₁, next, hslow, hsync, rfl⟩

/-- The step of `slow_sync`. -/
theorem slowSyncStep_inv (h : PipelineInv s) (hstep : s.slowSyncStep = some (.ok s')) :
    PipelineInv s' := by
  obtain ⟨hslow, rfl⟩ | ⟨p, s₁, next, hslow, hsync, rfl⟩ := slowSyncStep_cases hstep
  · refine h.of_flow ?_ ?_ ⟨h.own.setNull, h.own.null, h.own.typed⟩
    · show FlowStep _ (flowWith _ (pushOf _))
      rw [pushOf_begin hslow]
      exact .same
    · have hlocks := h.locks
      unfold Locks at hlocks
      rw [hslow] at hlocks
      exact hlocks
  · obtain ⟨hpush, hother⟩ := h.locks.slowSync_push hslow
    have hinv := h.flow
    rw [flow, hpush] at hinv
    obtain ⟨hframe, htags⟩ := syncStep_frame (isWrite_of_syncPush hinv) hsync
    have hlocks : Locks { s₁ with slowSync := next } := by
      have hold := h.locks
      unfold Locks at hold
      rw [hslow] at hold
      have hnew := (hold.symm.move (foregroundTag_ne_zero _) htags).symm
      rw [← hframe.foreground] at hnew
      exact hnew
    have hflow := syncStep_flow hother hinv hsync
    refine h.of_flow ?_ hlocks ?_
    · show FlowStep (flowWith s (pushOf s)) (flowWith _ (pushOf _))
      rw [hlocks.push_comm, hpush]
      show FlowStep _ (flowWith s₁ ((next.bind syncPush).or (foregroundPush s₁.foreground)))
      rw [hframe.foreground]
      exact hflow
    · refine h.own.move (show Owns false false _ _ from .keep rfl hframe.action.keeps) ?_ fun hawait => ?_
      · unfold setNulls
        rw [hframe.closes, hframe.foreground]
      · refine hframe.action.keeps.null.mpr (h.own.null ?_)
        rw [← hframe.foreground]
        exact hawait

/-! ### The background -/

theorem fileWriterStep_frame (hstep : s.fileWriterStep = some (.ok s')) :
    Frame false s s' ∧ s'.writeSuspended = s.writeSuspended := by
  unfold fileWriterStep at hstep
  split at hstep
  · split at hstep <;> cases hstep
    · exact ⟨⟨rfl, .same⟩, rfl⟩
    · exact ⟨⟨rfl, .same⟩, rfl⟩
  · obtain ⟨⟨i, a, inp⟩, -, hok⟩ := bind_eq_ok.mp (Option.some.inj hstep)
    cases hok
    exact ⟨⟨rfl, .same⟩, rfl⟩
  · obtain ⟨⟨i, a, inp⟩, hd, hok⟩ := bind_eq_ok.mp (Option.some.inj hstep)
    obtain ⟨-, hact, hinp⟩ := derefWriteInp_eq_ok.mp hd
    cases hok
    exact ⟨⟨rfl, .setWriteInp hact hinp _⟩, rfl⟩
  · obtain ⟨⟨i, a, inp⟩, hd, hok⟩ := bind_eq_ok.mp (Option.some.inj hstep)
    obtain ⟨-, hact, hinp⟩ := derefWriteInp_eq_ok.mp hd
    simp only at hok
    split at hok
    · cases hok
      exact ⟨⟨rfl, .same⟩, rfl⟩
    · cases hok
      exact ⟨⟨rfl, .setWriteInp hact hinp _⟩, rfl⟩
  · cases hstep
    exact ⟨⟨rfl, .same⟩, rfl⟩
  · obtain ⟨⟨i, a, inp⟩, hd, hok⟩ := bind_eq_ok.mp (Option.some.inj hstep)
    obtain ⟨-, hact, hinp⟩ := derefWriteInp_eq_ok.mp hd
    cases hok
    exact ⟨⟨rfl, .setWriteInp hact hinp _⟩, rfl⟩

theorem writeJobStep_frame {j : WriteJob} {next : Option WriteJob}
    (hstep : s.writeJobStep E j = .ok (s', next)) :
    Frame false { s with file := s'.file } s' ∧ s'.writeSuspended = s.writeSuspended := by
  cases j with
  | queued =>
    obtain ⟨⟨id, a, inp⟩, hd, hok⟩ := bind_eq_ok.mp hstep
    obtain ⟨-, hact, -⟩ := derefWriteInp_eq_ok.mp hd
    cases hok
    exact ⟨⟨rfl, .store _ hact rfl (fun h => h) nofun⟩, rfl⟩
  | items id rest bytes =>
    cases rest with
    | nil =>
      cases hstep
      exact ⟨.refl _, rfl⟩
    | cons w rest =>
      obtain ⟨_, -, hok⟩ := bind_eq_ok.mp hstep
      obtain ⟨⟨file, n⟩, -, hok⟩ := bind_eq_ok.mp hok
      cases hok
      exact ⟨⟨rfl, .same⟩, rfl⟩
  | finish id bytes =>
    obtain ⟨⟨id', a⟩, hd, hok⟩ := bind_eq_ok.mp hstep
    obtain ⟨-, hact⟩ := derefAction_eq_ok.mp hd
    cases hok
    exact ⟨⟨rfl, .store _ hact rfl (fun h => h) fun _ h => h⟩, rfl⟩
  | post id =>
    cases hstep
    exact ⟨⟨rfl, .same⟩, rfl⟩

theorem readJobStep_frame {j : ReadJob} {next : Option ReadJob}
    (hstep : s.readJobStep E j = .ok (s', next)) :
    Frame true { s with file := s'.file } s' ∧ s'.writeSuspended = s.writeSuspended := by
  cases j with
  | queued page =>
    obtain ⟨⟨id, a⟩, hd, hok⟩ := bind_eq_ok.mp hstep
    obtain ⟨-, hact⟩ := derefAction_eq_ok.mp hd
    cases hok
    exact ⟨⟨rfl, .store _ hact rfl (fun h => h) nofun⟩, rfl⟩
  | load page =>
    obtain ⟨_, -, hok⟩ := bind_eq_ok.mp hstep
    cases hok
    exact ⟨⟨rfl, .same⟩, rfl⟩
  | publish ret err =>
    obtain ⟨⟨id, a⟩, hd, hok⟩ := bind_eq_ok.mp hstep
    obtain ⟨-, hact⟩ := derefAction_eq_ok.mp hd
    cases hok
    exact ⟨⟨rfl, .store _ hact rfl (fun h => h) nofun⟩, rfl⟩

/-- A step of a background thread that neither frees nor allocates. -/
theorem PipelineInv.of_frame {completes : Bool} {file : EfFile} {reads : List ReadJob}
    (h : PipelineInv s) (hframe : Frame completes { s with file := file, fileReads := reads } s')
    (hword : s'.writeSuspended = s.writeSuspended)
    (hflow : FlowStep (flowWith s (pushOf s)) (flowWith s' (pushOf s))) : PipelineInv s' := by
  have hpush : pushOf s' = pushOf s := by rw [pushOf, pushOf, hframe.foreground, hframe.slowSync]
  refine h.of_flow ?_ ?_ ?_
  · show FlowStep (flowWith s (pushOf s)) (flowWith s' (pushOf s'))
    rw [hpush]
    exact hflow
  · unfold Locks
    rw [hframe.foreground, hframe.slowSync, hword]
    exact h.locks
  · refine h.own.move (show Owns false false _ _ from .keep rfl hframe.action.keeps) ?_ fun hawait => ?_
    · rw [setNulls, setNulls, hframe.closes, hframe.foreground]
    · rw [hframe.foreground] at hawait
      exact hframe.action.keeps.null.mpr (h.own.null hawait)

/-! ### The steps of the threads -/

theorem threadStep_call {c : Call} {v : View} (h : s.threadStep E (.call c v) = some (.ok s')) :
    s.foreground = .idle ∧ s.callStep E v c = .ok s' := by
  simp only [threadStep] at h
  split at h
  · rename_i hidle
    exact ⟨hidle, Option.some.inj h⟩
  · cases h

theorem threadStep_foreground {v : View} {closeFails : Bool}
    (h : s.threadStep E (.foreground v closeFails) = some (.ok s')) :
    s.foreground ≠ .idle ∧ s.foregroundStep E closeFails v = .ok s' := by
  simp only [threadStep] at h
  split at h
  · cases h
  · rename_i hbusy
    exact ⟨hbusy, Option.some.inj h⟩

/-- Without jobs no job moves. -/
theorem threadStep_readJob_nil (hreads : s.fileReads = []) (i : Nat) : s.threadStep E (.readJob i) = none := by
  rw [threadStep, hreads]
  rfl

theorem threadStep_closeJob_nil (hcloses : s.fileCloses = []) (i : Nat) (closeFails : Bool) :
    s.threadStep E (.closeJob i closeFails) = none := by
  rw [threadStep, hcloses]
  rfl

/-- A step of a job that is in its list. -/
theorem jobStep_eq_some {J : Type} {jobs : List J} {i : Nat}
    {stepJob : J → Except Fault (PipelineState × Option J)}
    {put : PipelineState → List J → PipelineState}
    (hstep : jobStep jobs i stepJob put = some (.ok s')) :
    ∃ j s₁ next, jobs[i]? = some j ∧ stepJob j = .ok (s₁, next) ∧ s' = put s₁ (putJob jobs i next) := by
  obtain ⟨j, hjob, hrun⟩ := Option.map_eq_some_iff.mp hstep
  obtain ⟨⟨s₁, next⟩, hj, hok⟩ := bind_eq_ok.mp hrun
  cases hok
  exact ⟨j, s₁, next, hjob, hj, rfl⟩

/-- The closing tasks that clear the pointer, after one of them moved. -/
theorem countP_putJob {J : Type} (f : J → Bool) {jobs : List J} {i : Nat} {j : J}
    (hjob : jobs[i]? = some j) (next : Option J) :
    (putJob jobs i next).countP f + (f j).toNat = jobs.countP f + (next.any f).toNat := by
  obtain ⟨hlt, hget⟩ := List.getElem?_eq_some_iff.mp hjob
  have hsplit : jobs = jobs.take i ++ j :: jobs.drop (i + 1) := by
    rw [← hget, List.getElem_cons_drop, List.take_append_drop]
  have hcount : jobs.countP f
      = (jobs.take i).countP f + ((jobs.drop (i + 1)).countP f + (f j).toNat) := by
    conv => lhs; rw [hsplit]
    rw [List.countP_append, List.countP_cons]
    cases f j <;> rfl
  cases next with
  | none =>
    show (jobs.eraseIdx i).countP f + _ = _
    rw [List.eraseIdx_eq_take_drop_succ, List.countP_append, hcount]
    simp only [Option.any_none, Bool.toNat_false]
    omega
  | some j' =>
    show (jobs.set i j').countP f + _ = _
    rw [List.set_eq_take_append_cons_drop, if_pos hlt, List.countP_append, List.countP_cons, hcount]
    simp only [Option.any_some]
    cases f j' <;> simp <;> omega

theorem closeJobStep_inv {closeFails : Bool} {i : Nat} {j : CloseJob} {next : Option CloseJob}
    {s₁ : PipelineState} (h : PipelineInv s) (hjob : s.fileCloses[i]? = some j)
    (hquiet : closeFrees s j = true → (flow s).Quiet)
    (hstep : s.closeStep closeFails j = .ok (s₁, next)) :
    PipelineInv { s₁ with fileCloses := putJob s.fileCloses i next } := by
  obtain ⟨howns, hfg, hslow, hcloses, hword⟩ := closeStep_owns hstep
  have hflow := closeStep_flow_of_quiet hquiet
    (h.own.freed_of_job (List.mem_of_getElem? hjob)) hstep
  have hpush : pushOf { s₁ with fileCloses := putJob s.fileCloses i next } = pushOf s := by
    rw [pushOf, pushOf]
    show (foregroundPush s₁.foreground).or (s₁.slowSync.bind syncPush) = _
    rw [hfg, hslow]
  refine h.of_flow ?_ ?_ (h.own.move howns ?_ fun hawait => ?_)
  · show FlowStep _ (flowWith _ (pushOf _))
    rw [hpush]
    exact hflow
  · show Holds (foregroundTag s₁.foreground) (s₁.slowSync.bind syncTag) s₁.writeSuspended
    rw [hfg, hslow, hword]
    exact h.locks
  · show (putJob s.fileCloses i next).countP closeSetNull + (foregroundSetNull s₁.foreground).toNat
      + _ = s.fileCloses.countP closeSetNull + _ + _
    have hcount := countP_putJob closeSetNull hjob next
    rw [hfg]
    omega
  · refine howns.null (h.own.null ?_)
    rw [← hfg]
    exact hawait

/-! ### Every step -/

theorem foregroundStep_inv {closeFails : Bool} {v : View} (h : PipelineInv s)
    (hquiet : QuietFree s (.foreground v closeFails))
    (hstep : s.foregroundStep E closeFails v = .ok s') : PipelineInv s' := by
  refine h.of_moves ?_
  unfold QuietFree frees at hquiet
  unfold foregroundStep at hstep
  cases hfg : s.foreground with
  | idle =>
    simp only [hfg] at hstep
    cases hstep
    exact .stay hfg
  | pushing p k =>
    simp only [hfg] at hstep
    obtain ⟨⟨s₁, next⟩, hp, hok⟩ := bind_eq_ok.mp hstep
    cases hok
    exact pushing_moves h hfg hp
  | freeing p k =>
    simp only [hfg] at hstep hquiet
    obtain ⟨⟨s₁, next⟩, hp, hok⟩ := bind_eq_ok.mp hstep
    have hm := freeing_moves h hfg (by rintro rfl; exact hquiet) hp
    cases next <;> cases hok <;> exact hm
  | allocating p oper k =>
    simp only [hfg] at hstep
    obtain ⟨⟨s₁, next⟩, hp, hok⟩ := bind_eq_ok.mp hstep
    cases hok
    exact allocating_moves h hfg hp
  | setting p k =>
    simp only [hfg] at hstep
    obtain ⟨⟨s₁, next⟩, hp, hok⟩ := bind_eq_ok.mp hstep
    cases hok
    exact setting_moves hp
  | syncing p k =>
    simp only [hfg] at hstep
    obtain ⟨⟨s₁, next⟩, hp, hok⟩ := bind_eq_ok.mp hstep
    cases hok
    exact syncing_moves h hfg hp
  | writeSuspend buf =>
    simp only [hfg] at hstep
    exact writeStep_moves h hfg hstep
  | writeTest buf =>
    simp only [hfg] at hstep
    exact writeStep_moves h hfg hstep
  | writeEnsure buf =>
    simp only [hfg] at hstep
    exact writeStep_moves h hfg hstep
  | writeLoop buf done =>
    simp only [hfg] at hstep
    exact writeStep_moves h hfg hstep
  | writeResume =>
    simp only [hfg] at hstep
    exact writeStep_moves h hfg hstep
  | syncSuspend =>
    simp only [hfg] at hstep
    exact efSyncStep_moves h hfg hstep
  | syncFlush =>
    simp only [hfg] at hstep
    exact efSyncStep_moves h hfg hstep
  | syncResume =>
    simp only [hfg] at hstep
    exact efSyncStep_moves h hfg hstep
  | closeTest immediate =>
    simp only [hfg] at hstep
    exact efCloseStep_moves h hfg nofun hstep
  | closeDrop immediate =>
    simp only [hfg] at hstep
    exact efCloseStep_moves h hfg nofun hstep
  | closeDispatch immediate =>
    simp only [hfg] at hstep
    exact efCloseStep_moves h hfg nofun hstep
  | closing p =>
    simp only [hfg] at hstep hquiet
    refine efCloseStep_moves h hfg ?_ hstep
    rintro q hq
    cases hq
    exact hquiet
  | readSnapshot nbyte =>
    simp only [hfg] at hstep
    exact readStep_moves ⟨rfl, rfl, rfl, rfl⟩ hfg hstep
  | readTest nbyte pageOffset =>
    simp only [hfg] at hstep
    exact readStep_moves ⟨rfl, rfl, rfl, rfl⟩ hfg hstep
  | readDrop nbyte pageOffset =>
    simp only [hfg] at hstep
    exact readStep_moves ⟨rfl, rfl, rfl, rfl⟩ hfg hstep
  | readBuffer nbyte pageOffset =>
    simp only [hfg] at hstep
    exact readStep_moves ⟨rfl, rfl, rfl, rfl⟩ hfg hstep
  | readFire nbyte =>
    simp only [hfg] at hstep
    exact readStep_moves ⟨rfl, rfl, rfl, rfl⟩ hfg hstep
  | readEnqueue nbyte =>
    simp only [hfg] at hstep
    exact readStep_moves ⟨rfl, rfl, rfl, rfl⟩ hfg hstep

/-- A step of any thread that does not end in a fault. -/
theorem threadStep_inv {l : PipelineLabel} (h : PipelineInv s) (hquiet : QuietFree s l)
    (hstep : s.threadStep E l = some (.ok s')) : PipelineInv s' := by
  cases l with
  | call c v =>
    obtain ⟨hidle, hcall⟩ := threadStep_call hstep
    exact h.of_moves (hidle ▸ callStep_moves hidle hcall)
  | foreground v closeFails => exact foregroundStep_inv h hquiet (threadStep_foreground hstep).2
  | slowSync => exact slowSyncStep_inv h hstep
  | fileWriter =>
    obtain ⟨hframe, hword⟩ := fileWriterStep_frame hstep
    exact h.of_frame hframe hword (fileWriterStep_flow h.flow hstep)
  | writeJob i =>
    simp only [threadStep] at hstep
    obtain ⟨j, s₁, next, hjob, hj, rfl⟩ := jobStep_eq_some hstep
    obtain ⟨hframe, hword⟩ := writeJobStep_frame hj
    exact h.of_frame (hframe.withWrites _) hword (writeJobStep_flow h.flow hjob hj)
  | readJob i =>
    simp only [threadStep] at hstep
    obtain ⟨j, s₁, next, hjob, hj, rfl⟩ := jobStep_eq_some hstep
    obtain ⟨hframe, hword⟩ := readJobStep_frame hj
    exact h.of_frame (hframe.withReads _) hword (flowStep_of_eq (readJobStep_flow hj _))
  | closeJob i closeFails =>
    simp only [threadStep] at hstep
    obtain ⟨j, s₁, next, hjob, hj, rfl⟩ := jobStep_eq_some hstep
    refine closeJobStep_inv h hjob (fun hfrees => hquiet ?_) hj
    show (s.fileCloses[i]?).any (closeFrees s) = true
    rw [hjob]
    exact hfrees

/-- A step of the system is a step of a thread or its fault. -/
theorem step_eq_some {l : PipelineLabel} (hstep : step E l s = some s') :
    s.fault = none ∧ (s.threadStep E l = some (.ok s') ∨
      ∃ e, s.threadStep E l = some (.error e) ∧ s' = { s with fault := some e }) := by
  unfold step at hstep
  split at hstep
  · cases hstep
  · rename_i hfault
    refine ⟨by simpa using hfault, ?_⟩
    obtain ⟨r, hr, rfl⟩ := Option.map_eq_some_iff.mp hstep
    cases r with
    | ok s₁ => exact Or.inl hr
    | error e => exact Or.inr ⟨e, hr, rfl⟩

/-- Every step keeps the invariant. -/
theorem PipelineInv.step {l : PipelineLabel} (h : PipelineInv s) (hquiet : QuietFree s l)
    (hstep : PipelineState.step E l s = some s') : PipelineInv s' := by
  obtain ⟨-, hok | ⟨e, -, rfl⟩⟩ := step_eq_some hstep
  · exact threadStep_inv h hquiet hok
  · exact ⟨h.flow, h.fits, h.locks, ⟨h.own.setNull, h.own.null, h.own.typed⟩⟩

theorem pipelineInv_opened (f : EfFile) (collected : Bool) : PipelineInv (opened f collected) := by
  have hnone : liveWrite (opened f collected) = none := by
    cases collected <;> rfl
  refine ⟨?_, ?_, ⟨Or.inl rfl, rfl⟩, ?_⟩
  · show FlowInv (flowWith _ _)
    unfold flowWith FlowInv
    rw [hnone]
    exact ⟨⟨rfl, rfl, rfl, rfl⟩, rfl⟩
  · intro id inp hinp
    cases hnone.symm.trans hinp
  · cases collected
    · exact ⟨rfl, nofun, nofun⟩
    · exact ⟨rfl, nofun, trivial⟩

/-- The invariant holds in every run in which the actions are freed
quietly. -/
theorem pipelineInv_of_reach {f : EfFile} {collected : Bool}
    (h : Reach (PipelineState.step E) QuietFree (opened f collected) s) :
    PipelineInv s :=
  h.invariant (pipelineInv_opened f collected) fun _ _ _ hinv hok hstep => hinv.step hok hstep

end Efio.Proofs.Evio
