import Efio.Evio.Pipeline
import Efio.Lib.Transition

/-!
# `Efio.Spec.PreadLog`: what the preads of a run have returned

The log is kept beside the state (`loggedStep`): each `pread` adds its
offset and the bytes that it returned. `FromPread` says that every byte
that `ef_read` has copied is in the log, at its place in the file.
-/

set_option autoImplicit false

namespace Efio.Spec

open Efio.Lib
open Efio.Evio

/-- Offsets and the bytes that `pread` returned for them. -/
abbrev PreadLog := List (Nat × List UInt8)

/-- The `pread` that the step `l` makes in `s`. -/
def preadOf (E : Env) (s : PipelineState) : PipelineLabel → PreadLog
  | .readJob i =>
    match s.fileReads[i]? with
    | some (.load page) =>
      if s.recordLive then
        [(page * E.pageSize, (s.file.fd.pread E E.pageSize (page * E.pageSize)).2.2)]
      else []
    | _ => []
  | _ => []

/-- The steps of the system, with the log. -/
def loggedStep (E : Env) (l : PipelineLabel) (s : PipelineState × PreadLog) :
    Option (PipelineState × PreadLog) :=
  (PipelineState.step E l s.1).map fun s' => (s', s.2 ++ preadOf E s.1 l)

/-- The bytes that the calls of `ef_read` have copied, one after the
other. -/
def copied (history : List Observed) : List UInt8 :=
  history.flatMap fun
    | .readReturned _ _ _ bytes => bytes
    | .accepted _ => []

/-- Each byte copied was returned by a `pread` for its position. -/
def FromPread (log : PreadLog) (history : List Observed) : Prop :=
  ∀ k byte, (copied history)[k]? = some byte →
    ∃ e ∈ log, e.1 ≤ k ∧ e.2[k - e.1]? = some byte

/-- The foreground thread only calls `ef_read`. -/
def CallsRead : PipelineLabel → Prop
  | .call (.efRead _) _ => True
  | .call _ _ => False
  | _ => True

instance : DecidablePred CallsRead := fun l => by
  unfold CallsRead
  split <;> infer_instance

/-- The `pread` of the step, if it makes one, returns all that the file has
in the page. -/
def PreadInFull (E : Env) (s : PipelineState) : PipelineLabel → Prop
  | .readJob i =>
    match s.fileReads[i]? with
    | some (.load page) =>
      (E.outcome s.file.fd.calls).moved ((s.file.fd.data.drop (page * E.pageSize)).take E.pageSize).length
        = some ((s.file.fd.data.drop (page * E.pageSize)).take E.pageSize).length
    | _ => True
  | _ => True

instance (E : Env) (s : PipelineState) : DecidablePred (PreadInFull E s) := fun l => by
  unfold PreadInFull
  split
  · split <;> infer_instance
  · infer_instance

/-- Calls of `ef_read`, with full preads. -/
def ReadsInFull (E : Env) (s : PipelineState × PreadLog) (l : PipelineLabel) : Prop :=
  CallsRead l ∧ PreadInFull E s.1 l

instance (E : Env) : DecidableRel (ReadsInFull E) := fun _ _ => inferInstanceAs (Decidable (_ ∧ _))

theorem PreadInFull.load {E : Env} {s : PipelineState} {i page : Nat} (h : PreadInFull E s (.readJob i))
    (hjob : s.fileReads[i]? = some (.load page)) :
    (E.outcome s.file.fd.calls).moved ((s.file.fd.data.drop (page * E.pageSize)).take E.pageSize).length
      = some ((s.file.fd.data.drop (page * E.pageSize)).take E.pageSize).length := by
  simpa only [PreadInFull, hjob] using h

theorem copied_snoc (history : List Observed) (nbyte : Nat) (ret : Int) (err : Option Errno)
    (bytes : List UInt8) :
    copied (history ++ [.readReturned nbyte ret err bytes]) = copied history ++ bytes := by
  simp [copied]

theorem FromPread.mono {log more : PreadLog} {history : List Observed} (h : FromPread log history) :
    FromPread (log ++ more) history := by
  intro k byte hk
  obtain ⟨e, he, hrest⟩ := h k byte hk
  exact ⟨e, List.mem_append_left _ he, hrest⟩

/-- A call that copies nothing. -/
theorem FromPread.snoc_nil {log : PreadLog} {history : List Observed} (h : FromPread log history)
    (nbyte : Nat) (ret : Int) (err : Option Errno) :
    FromPread log (history ++ [.readReturned nbyte ret err []]) := by
  unfold FromPread
  rw [copied_snoc, List.append_nil]
  exact h

/-- A call copies a piece of what one `pread` has returned. -/
theorem FromPread.snoc {log : PreadLog} {history : List Observed} (h : FromPread log history) {off : Nat}
    {page : List UInt8} (hpage : (off, page) ∈ log) (hoff : off ≤ (copied history).length) {bytes : List UInt8}
    (hbytes : ∀ i byte, bytes[i]? = some byte → page[(copied history).length + i - off]? = some byte)
    (nbyte : Nat) (ret : Int) (err : Option Errno) :
    FromPread log (history ++ [.readReturned nbyte ret err bytes]) := by
  intro k byte hk
  rw [copied_snoc] at hk
  rcases Nat.lt_or_ge k (copied history).length with hlt | hge
  · rw [List.getElem?_append_left hlt] at hk
    exact h k byte hk
  · rw [List.getElem?_append_right hge] at hk
    have hbyte := hbytes _ _ hk
    rw [Nat.add_sub_of_le hge] at hbyte
    exact ⟨_, hpage, by dsimp only; omega, hbyte⟩

end Efio.Spec
