import Efio.Proofs.Evio.DiskContent
import Efio.Proofs.Evio.PipelineStep

/-!
# `Efio.Proofs.Evio.EventOwner`: the action of an event of `file_writer`

An event of `file_writer` names a file, and the handler takes whatever
`_action` holds by then. `handlesLive_of_quietFree`: as long as a write
action, and the record, are freed only when nothing is on its way, the
handler finds the write action for which the event was posted.

`not_handlesLive_of_close` is a run in which `ef_close` frees the write
action and allocates its own one while the event of the last `fsync` is
still queued: the item travels through `_w_queue` and is completed before
its event is posted, and `ef_close` waits only for the counters.
-/

set_option autoImplicit false

namespace Efio.Proofs.Evio

open Efio.Lib
open Efio.Evio
open Efio.Evio.PipelineState
open Efio.Spec
open Efio.Proofs.Spec

variable {E : Env} {s : PipelineState}

/-- The write action `id` is live in a live record. -/
def WriteActionLive (s : PipelineState) (id : Nat) : Prop :=
  s.recordLive = true ∧ ∃ a, s.action = .live id a ∧ a.cmd = .operWrite

/-- `file_writer` starts to handle an event only for the write action for
which it was posted. -/
def HandlesLive (s : PipelineState) : Prop :=
  ∀ id, s.fileWriter = .reqTest id ∨ s.fileWriter = .cmplCollect id → WriteActionLive s id

/-- Whatever belongs to an event under way belongs to the live write
action. -/
theorem writeActionLive_of_handled (h : PipelineInv s) {id : Nat}
    (hmem : id ∈ writerAction s.fileWriter) : WriteActionLive s id := by
  have hbusy : ¬ (flow s).Quiet := fun hq => by
    have hidle : s.fileWriter = .idle := hq.2.1
    rw [hidle] at hmem
    cases hmem
  obtain ⟨id', inp, hinp⟩ := h.flow.exists_inp hbusy
  obtain rfl : id = id' := (h.flow.flowing hinp).writer id hmem
  obtain ⟨hlive, a, hact, hcmd, -⟩ := liveWrite_eq_some.mp hinp
  exact ⟨hlive, a, hact, hcmd⟩

/-- In every run in which a write action, or the record, is freed only when
nothing is on its way, `file_writer` handles events of live actions
only. -/
theorem handlesLive_of_quietFree {f : EfFile} {collected : Bool}
    (h : Reach (PipelineState.step E) QuietFree (opened f collected) s) : HandlesLive s := by
  have hinv := pipelineInv_of_reach h
  intro id hpc
  refine writeActionLive_of_handled hinv ?_
  obtain hpc | hpc := hpc <;> rw [hpc] <;> rfl

/-- A view for the steps at which no write item is being executed. -/
def noView : View := ⟨0, 0, 0⟩

/-- `n` steps of the foreground thread. -/
def foregroundSteps (n : Nat) : List PipelineLabel := List.replicate n (.foreground noView false)

/-- `n` steps of the first task of `ef_file_write`. -/
def writeJobSteps (n : Nat) : List PipelineLabel := List.replicate n (.writeJob 0)

/-- One page is written, announced, taken and executed, and both of its
events are handled. -/
theorem handlesLive_of_quietFree_sample :
    ∃ s : PipelineState, s.fileWriter = .cmplCollect 1 ∧ HandlesLive s :=
  ⟨_, rfl, @handlesLive_of_quietFree sampleEnv _ (efFileOpen sampleEnv O_RDWR []) true
    (Reach.of_run .init
      ([.call (.efWrite [1, 2, 3, 4]) noView] ++ foregroundSteps 13 ++
        List.replicate 5 .fileWriter ++ writeJobSteps 5 ++ [.fileWriter]) rfl)⟩

/-- The run of `not_handlesLive_of_close`: `ef_write` of a page; `ef_close`
up to the enqueue of its `fsync`; `file_writer` and `ef_file_write` with
both items; the rest of `ef_close` up to its own action; the event of the
`fsync`. -/
def closeOvertakes : List PipelineLabel :=
  [.call (.efWrite [1, 2, 3, 4]) noView] ++ foregroundSteps 13 ++
    [.call (.efClose false) noView] ++ foregroundSteps 9 ++ List.replicate 6 .fileWriter ++
    writeJobSteps 6 ++ List.replicate 4 .fileWriter ++ foregroundSteps 16 ++ [.fileWriter]

/-- `file_writer` starts to handle the event of a write action that has been
freed and replaced by a close action. -/
theorem not_handlesLive_of_close :
    ∃ s : PipelineState,
      Reach (PipelineState.step sampleEnv) (fun _ _ => True)
        (opened (efFileOpen sampleEnv O_RDWR []) true) s ∧
      s.fileWriter = .reqTest 1 ∧ s.action = .live 2 (eioCmdInit .operClose) ∧ ¬ HandlesLive s := by
  refine ⟨_, Reach.of_run .init closeOvertakes rfl, rfl, rfl, fun h => ?_⟩
  obtain ⟨-, a, hact, -⟩ := h 1 (Or.inl rfl)
  cases hact

end Efio.Proofs.Evio
