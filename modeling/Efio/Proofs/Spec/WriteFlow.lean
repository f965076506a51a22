import Efio.Spec.WriteFlow

/-!
# `Efio.Proofs.Spec.WriteFlow`: the invariant of the write flow

`FlowInv` says: there is at most one batch under way; the three counters
follow from the lists; what was pushed is what was executed, then the rest
of the batch, then the queue; and a queue that is not empty is noticed by
somebody.

`FlowInv.step`: every step of the flow keeps `FlowInv`. There is one lemma
for each kind of step; the steps of the push come first, then those of
`file_writer`, then those of `ef_file_write`. A task, when there is one,
is the only batch under way (`Flowing.job_only`).

The results the invariant is there for follow at the end:
`Flowing.counters`, `Flowing.all_executed` and `Flowing.settled`.
-/

set_option autoImplicit false

namespace Efio.Proofs.Spec

open Efio.Evio
open Efio.Spec

/-! ### The invariant -/

/-- The invariant while the write action `id` is live. -/
structure Flowing (c : WriteFlow) (id : Nat) (inp : WriteOper) : Prop where
  events : ∀ e ∈ c.queue, eventAction e = id
  writer : ∀ i ∈ writerAction c.writer, i = id
  jobs : ∀ j ∈ c.jobs, ∀ i ∈ jobAction j, i = id
  push : ∀ p ∈ c.push, ∀ i ∈ pushAction p, i = id
  single : c.tokens ≤ 1
  fresh : ∀ i compl, c.writer = .drain i compl false → c.tokens = 0
  batch : inp.bWList = [] ↔ c.tokens = 0
  req : inp.writeReqCount = inp.writeCmplCount + inp.bWList.length + pendingCmpl c.writer
  totreq : inp.writeTotreqCount = inp.writeReqCount + inp.wQueue.length + pushCounted c.push
  order : c.pushed = c.executed ++ (c.unexecuted inp.bWList ++ inp.wQueue)
  noticed : inp.wQueue ≠ [] → c.tokens = 1 ∨ (∃ e ∈ c.queue, isCmpl e = false) ∨
    writerLooking c.writer = true ∨ pushAnnouncing c.push = true

/-- The invariant. Without a live write action nothing is on its way. -/
def FlowInv (c : WriteFlow) : Prop :=
  match c.inp with
  | some (id, inp) => Flowing c id inp
  | none => c.Quiet ∧ c.pushed = c.executed

variable {c : WriteFlow} {id : Nat} {inp : WriteOper}

/-! ### Reading the invariant -/

theorem FlowInv.flowing (h : FlowInv c) (hinp : c.inp = some (id, inp)) : Flowing c id inp := by
  unfold FlowInv at h
  rw [hinp] at h
  exact h

theorem FlowInv.of_flowing (hinp : c.inp = some (id, inp)) (h : Flowing c id inp) : FlowInv c := by
  unfold FlowInv
  rw [hinp]
  exact h

theorem FlowInv.quiet (h : FlowInv c) (hinp : c.inp = none) :
    c.Quiet ∧ c.pushed = c.executed := by
  unfold FlowInv at h
  rw [hinp] at h
  exact h

/-- What is not quiet belongs to a live write action. -/
theorem FlowInv.exists_inp (h : FlowInv c) (hbusy : ¬ c.Quiet) : ∃ id inp, c.inp = some (id, inp) := by
  cases hinp : c.inp with
  | none => exact absurd (h.quiet hinp).1 hbusy
  | some a => exact ⟨a.1, a.2, rfl⟩

/-- A task of `ef_file_write` is the only batch under way. -/
theorem Flowing.job_only (h : Flowing c id inp) {i : Nat} {j : WriteJob} (hjob : c.jobs[i]? = some j) :
    c.jobs = [j] ∧ i = 0 ∧ c.queue.countP isCmpl = 0 ∧ writerToken c.writer = 0 := by
  have hsingle := h.single
  unfold WriteFlow.tokens at hsingle
  obtain ⟨hlt, hget⟩ := List.getElem?_eq_some_iff.mp hjob
  have hi : i = 0 := by omega
  subst hi
  refine ⟨?_, rfl, by omega, by omega⟩
  obtain ⟨j', hj'⟩ := List.length_eq_one_iff.mp (show c.jobs.length = 1 by omega)
  simp only [hj', List.getElem_cons_zero] at hget
  rw [hj', hget]

/-- A task that holds no batch place: `file_writer` is not draining. -/
theorem unexecuted_of_token (c : WriteFlow) (batch : List WriteTask) (h : writerToken c.writer = 0) :
    c.unexecuted batch = c.jobs.flatMap (jobRest batch) := by
  unfold WriteFlow.unexecuted
  split
  · rename_i hpc
    rw [hpc] at h
    cases h
  · rename_i hpc
    rw [hpc] at h
    cases h
  · rfl

/-! ### The push -/

theorem FlowInv.accumulate (h : FlowInv c) (accum : List UInt8) (hinp : c.inp = some (id, inp)) :
    FlowInv { c with inp := some (id, { inp with wAccum := accum }) } := by
  have hf := h.flowing hinp
  exact .of_flowing rfl ⟨hf.events, hf.writer, hf.jobs, hf.push, hf.single, hf.fresh, hf.batch, hf.req,
    hf.totreq, hf.order, hf.noticed⟩

theorem FlowInv.start (h : FlowInv c) (accum : List UInt8) (w : WriteTask)
    (hinp : c.inp = some (id, inp)) (hpush : c.push = none) :
    FlowInv { c with
      inp := some (id, { inp with wAccum := accum })
      push := some (.count w) } := by
  have hf := h.flowing hinp
  have htot := hf.totreq
  have hnot := hf.noticed
  rw [hpush] at htot hnot
  exact .of_flowing rfl ⟨hf.events, hf.writer, hf.jobs, by simp [pushAction], hf.single, hf.fresh,
    hf.batch, hf.req, htot, hf.order, hnot⟩

theorem FlowInv.count {w : WriteTask} (h : FlowInv c) (hinp : c.inp = some (id, inp))
    (hpush : c.push = some (.count w)) :
    FlowInv { c with
      inp := some (id, { inp with writeTotreqCount := inp.writeTotreqCount + 1 })
      push := some (.enqueue w) } := by
  have hf := h.flowing hinp
  have htot := hf.totreq
  have hnot := hf.noticed
  rw [hpush] at htot hnot
  refine .of_flowing rfl ⟨hf.events, hf.writer, hf.jobs, by simp [pushAction], hf.single, hf.fresh,
    hf.batch, hf.req, ?_, hf.order, hnot⟩
  show inp.writeTotreqCount + 1 = inp.writeReqCount + inp.wQueue.length + 1
  rw [htot]
  rfl

theorem FlowInv.enqueue {w : WriteTask} (h : FlowInv c) (hinp : c.inp = some (id, inp))
    (hpush : c.push = some (.enqueue w)) :
    FlowInv { c with
      inp := some (id, { inp with wQueue := inp.wQueue ++ [w] })
      push := some (.init id)
      pushed := c.pushed ++ [w] } := by
  have hf := h.flowing hinp
  have htot := hf.totreq
  rw [hpush] at htot
  refine .of_flowing rfl ⟨hf.events, hf.writer, hf.jobs, by simp [pushAction], hf.single, hf.fresh,
    hf.batch, hf.req, ?_, ?_, fun _ => Or.inr (Or.inr (Or.inr rfl))⟩
  · show inp.writeTotreqCount = inp.writeReqCount + (inp.wQueue ++ [w]).length + 0
    rw [htot, List.length_append]
    rfl
  · show c.pushed ++ [w] = c.executed ++ (c.unexecuted inp.bWList ++ (inp.wQueue ++ [w]))
    rw [hf.order]
    simp only [List.append_assoc]

theorem FlowInv.init (h : FlowInv c) (hpush : c.push = some (.init id)) :
    FlowInv { c with push := some (.post id) } := by
  obtain ⟨i, inp, hinp⟩ := h.exists_inp fun hq => by
    rw [hq.2.2.2] at hpush
    cases hpush
  have hf := h.flowing hinp
  obtain rfl : id = i := hf.push _ (by rw [hpush]; rfl) _ rfl
  have htot := hf.totreq
  have hnot := hf.noticed
  rw [hpush] at htot hnot
  exact .of_flowing hinp ⟨hf.events, hf.writer, hf.jobs, by simp [pushAction], hf.single, hf.fresh,
    hf.batch, hf.req, htot, hf.order, hnot⟩

theorem FlowInv.post (h : FlowInv c) (hpush : c.push = some (.post id)) :
    FlowInv { c with push := none, queue := c.queue ++ [.fwWriteReqEvt id] } := by
  obtain ⟨i, inp, hinp⟩ := h.exists_inp fun hq => by
    rw [hq.2.2.2] at hpush
    cases hpush
  have hf := h.flowing hinp
  obtain rfl : id = i := hf.push _ (by rw [hpush]; rfl) _ rfl
  have htot := hf.totreq
  rw [hpush] at htot
  have htok : WriteFlow.tokens { c with push := none, queue := c.queue ++ [.fwWriteReqEvt id] }
      = c.tokens := by
    simp [WriteFlow.tokens, isCmpl]
  refine .of_flowing hinp ⟨?_, hf.writer, hf.jobs, by simp, htok ▸ hf.single, ?_, ?_, hf.req, htot,
    hf.order, fun _ => Or.inr (Or.inl ⟨.fwWriteReqEvt id, by simp, rfl⟩)⟩
  · intro e he
    obtain he | rfl := List.mem_append.mp he |>.imp_right List.mem_singleton.mp
    · exact hf.events e he
    · rfl
  · rw [htok]
    exact hf.fresh
  · rw [htok]
    exact hf.batch

/-! ### `file_writer` -/

theorem FlowInv.takeReq {rest : List FileWriterTask} (h : FlowInv c) (hidle : c.writer = .idle)
    (hqueue : c.queue = .fwWriteReqEvt id :: rest) :
    FlowInv { c with queue := rest, writer := .reqTest id } := by
  obtain ⟨i, inp, hinp⟩ := h.exists_inp fun hq => by
    rw [hq.1] at hqueue
    cases hqueue
  have hf := h.flowing hinp
  obtain rfl : id = i := hf.events (.fwWriteReqEvt id) (by rw [hqueue]; exact List.mem_cons_self)
  have htok : WriteFlow.tokens { c with queue := rest, writer := .reqTest id } = c.tokens := by
    simp [WriteFlow.tokens, hqueue, hidle, isCmpl, writerToken]
  have hreq := hf.req
  have horder := hf.order
  rw [hidle] at hreq
  rw [unexecuted_of_token c _ (by rw [hidle]; rfl)] at horder
  refine .of_flowing hinp ⟨fun e he => hf.events e (by rw [hqueue]; exact List.mem_cons_of_mem _ he),
    by simp [writerAction], hf.jobs, hf.push, htok ▸ hf.single, by simp, ?_, hreq, hf.totreq, horder,
    fun _ => Or.inr (Or.inr (Or.inl rfl))⟩
  rw [htok]
  exact hf.batch

theorem FlowInv.takeCmpl {rest : List FileWriterTask} (h : FlowInv c) (hidle : c.writer = .idle)
    (hqueue : c.queue = .fwWriteCmplEvt id :: rest) :
    FlowInv { c with queue := rest, writer := .cmplCollect id } := by
  obtain ⟨i, inp, hinp⟩ := h.exists_inp fun hq => by
    rw [hq.1] at hqueue
    cases hqueue
  have hf := h.flowing hinp
  obtain rfl : id = i := hf.events (.fwWriteCmplEvt id) (by rw [hqueue]; exact List.mem_cons_self)
  have htok : WriteFlow.tokens { c with queue := rest, writer := .cmplCollect id } = c.tokens := by
    simp only [WriteFlow.tokens, hqueue, hidle, writerToken,
      List.countP_cons_of_pos (show isCmpl (.fwWriteCmplEvt id) = true from rfl)]
    omega
  have hone : c.tokens = 1 := by
    have hsingle := hf.single
    have : c.tokens ≠ 0 := by simp [WriteFlow.tokens, hqueue, isCmpl]
    omega
  have hreq := hf.req
  have horder := hf.order
  rw [hidle] at hreq
  rw [unexecuted_of_token c _ (by rw [hidle]; rfl)] at horder
  refine .of_flowing hinp ⟨fun e he => hf.events e (by rw [hqueue]; exact List.mem_cons_of_mem _ he),
    by simp [writerAction], hf.jobs, hf.push, htok ▸ hf.single, by simp, ?_, hreq, hf.totreq, horder,
    fun _ => Or.inl (htok.trans hone)⟩
  rw [htok]
  exact hf.batch

theorem FlowInv.skip {i : Nat} (h : FlowInv c) (hinp : c.inp = some (i, inp))
    (hpc : c.writer = .reqTest id) (hbusy : inp.writeReqCount ≠ inp.writeCmplCount) :
    FlowInv { c with writer := .idle } := by
  have hf := h.flowing hinp
  have htok : WriteFlow.tokens { c with writer := .idle } = c.tokens := by
    simp [WriteFlow.tokens, hpc, writerToken]
  have hreq := hf.req
  have horder := hf.order
  rw [hpc] at hreq
  rw [unexecuted_of_token c _ (by rw [hpc]; rfl)] at horder
  have hone : c.tokens = 1 := by
    have hsingle := hf.single
    have : c.tokens ≠ 0 := fun h0 => hbusy (by rw [hreq, hf.batch.mpr h0]; rfl)
    omega
  refine .of_flowing hinp ⟨hf.events, by simp [writerAction], hf.jobs, hf.push, htok ▸ hf.single,
    by simp, ?_, hreq, hf.totreq, horder, fun _ => Or.inl (htok.trans hone)⟩
  rw [htok]
  exact hf.batch

theorem FlowInv.look {i : Nat} (h : FlowInv c) (hinp : c.inp = some (i, inp))
    (hpc : c.writer = .reqTest id) (hfree : inp.writeReqCount = inp.writeCmplCount) :
    FlowInv { c with writer := .drain id none false } := by
  have hf := h.flowing hinp
  have htok : WriteFlow.tokens { c with writer := .drain id none false } = c.tokens := by
    simp [WriteFlow.tokens, hpc, writerToken]
  have hreq := hf.req
  have horder := hf.order
  have hact := hf.writer
  rw [hpc] at hreq hact
  rw [unexecuted_of_token c _ (by rw [hpc]; rfl)] at horder
  have hzero : c.tokens = 0 := by
    apply hf.batch.mp
    apply List.eq_nil_of_length_eq_zero
    simp only [pendingCmpl] at hreq
    omega
  refine .of_flowing hinp ⟨hf.events, hact, hf.jobs, hf.push, htok ▸ hf.single,
    fun _ _ _ => htok.trans hzero, ?_, hreq, hf.totreq, horder,
    fun _ => Or.inr (Or.inr (Or.inl rfl))⟩
  rw [htok]
  exact hf.batch

theorem FlowInv.collect {i : Nat} (h : FlowInv c) (hinp : c.inp = some (i, inp))
    (hpc : c.writer = .cmplCollect id) :
    FlowInv { c with
      inp := some (i, { inp with bWList := [] })
      writer := .drain id (some inp.bWList.length) false } := by
  have hf := h.flowing hinp
  have hsingle := hf.single
  simp only [WriteFlow.tokens, hpc, writerToken] at hsingle
  have hjobs : c.jobs = [] := List.eq_nil_of_length_eq_zero (by omega)
  have htok : WriteFlow.tokens { c with
      inp := some (i, { inp with bWList := [] })
      writer := .drain id (some inp.bWList.length) false } = 0 := by
    simp only [WriteFlow.tokens, writerToken]
    omega
  have hreq := hf.req
  have hact := hf.writer
  have horder := hf.order
  rw [hpc] at hreq hact
  simp only [WriteFlow.unexecuted, hpc, hjobs, List.flatMap_nil] at horder
  refine .of_flowing rfl ⟨hf.events, hact, hf.jobs, hf.push, by rw [htok]; exact Nat.zero_le 1,
    fun _ _ _ => htok, iff_of_true rfl htok, ?_, hf.totreq, ?_, fun _ => Or.inr (Or.inr (Or.inl rfl))⟩
  · show inp.writeReqCount = inp.writeCmplCount + 0 + inp.bWList.length
    rw [hreq]
    simp [pendingCmpl]
  · simp only [WriteFlow.unexecuted, hjobs, List.flatMap_nil]
    exact horder

theorem FlowInv.drain {i : Nat} {compl : Option Nat} {got : Bool} {w : WriteTask}
    {rest : List WriteTask} (h : FlowInv c) (hinp : c.inp = some (i, inp))
    (hpc : c.writer = .drain id compl got) (hqueue : inp.wQueue = w :: rest) :
    FlowInv { c with
      inp := some (i, { inp with
        wQueue := rest
        bWList := if got then inp.bWList ++ [w] else [w]
        writeReqCount := inp.writeReqCount + 1 })
      writer := .drain id compl true } := by
  have hf := h.flowing hinp
  have hsingle := hf.single
  have hreq := hf.req
  have htot := hf.totreq
  have hact := hf.writer
  have horder := hf.order
  rw [hpc] at hreq hact
  -- No batch is under way but the one being drained.
  have hbatch : (if got then inp.bWList ++ [w] else [w]) = inp.bWList ++ [w] := by
    cases got with
    | true => rfl
    | false => rw [hf.batch.mpr (hf.fresh _ _ hpc)]; rfl
  have hzero : c.jobs.length + c.queue.countP isCmpl = 0 := by
    cases got with
    | true =>
      simp only [WriteFlow.tokens, hpc, writerToken] at hsingle
      omega
    | false =>
      have h0 := hf.fresh _ _ hpc
      simp only [WriteFlow.tokens, hpc, writerToken] at h0
      omega
  have hun : c.unexecuted inp.bWList = inp.bWList := by
    cases got with
    | true => simp only [WriteFlow.unexecuted, hpc]
    | false =>
      have hjobs : c.jobs = [] := List.eq_nil_of_length_eq_zero (by omega)
      simp only [WriteFlow.unexecuted, hpc, hjobs, List.flatMap_nil, hf.batch.mpr (hf.fresh _ _ hpc)]
  have htok : WriteFlow.tokens { c with
      inp := some (i, { inp with
        wQueue := rest
        bWList := if got then inp.bWList ++ [w] else [w]
        writeReqCount := inp.writeReqCount + 1 })
      writer := .drain id compl true } = 1 := by
    simp only [WriteFlow.tokens, writerToken]
    omega
  refine .of_flowing rfl ⟨hf.events, hact, hf.jobs, hf.push, Nat.le_of_eq htok, by simp, ?_, ?_, ?_, ?_,
    fun _ => Or.inl htok⟩
  · rw [htok, hbatch]
    simp
  · show inp.writeReqCount + 1 = inp.writeCmplCount + (if got then _ else _ : List _).length
      + pendingCmpl (.drain id compl true)
    rw [hbatch, hreq, List.length_append]
    cases compl <;> simp [pendingCmpl] <;> omega
  · show inp.writeTotreqCount = inp.writeReqCount + 1 + rest.length + pushCounted c.push
    rw [htot, hqueue, List.length_cons]
    omega
  · show c.pushed = c.executed ++ ((if got then _ else _) ++ rest)
    rw [hbatch, horder, hun, hqueue]
    simp

theorem FlowInv.drainEnd {i : Nat} {compl : Option Nat} (h : FlowInv c)
    (hinp : c.inp = some (i, inp)) (hpc : c.writer = .drain id compl true) (hqueue : inp.wQueue = []) :
    FlowInv { c with writer := .fire id compl } := by
  have hf := h.flowing hinp
  have htok : WriteFlow.tokens { c with writer := .fire id compl } = c.tokens := by
    simp [WriteFlow.tokens, hpc, writerToken]
  have hreq := hf.req
  have hact := hf.writer
  have horder := hf.order
  rw [hpc] at hact
  simp only [WriteFlow.unexecuted, hpc] at horder
  refine .of_flowing hinp ⟨hf.events, hact, hf.jobs, hf.push, htok ▸ hf.single, by simp, ?_, ?_,
    hf.totreq, horder, fun hne => absurd hqueue hne⟩
  · rw [htok]
    exact hf.batch
  · rw [hreq, hpc]
    cases compl <;> rfl

theorem pendingCmpl_afterDrain (compl : Option Nat) :
    pendingCmpl (afterDrain id compl) = compl.getD 0 := by
  cases compl <;> rfl

theorem writerToken_afterDrain (compl : Option Nat) : writerToken (afterDrain id compl) = 0 := by
  cases compl <;> rfl

theorem writerAction_afterDrain {i : Nat} {compl : Option Nat} (hi : id = i) :
    ∀ k ∈ writerAction (afterDrain id compl), k = i := by
  subst hi
  cases compl <;> simp [afterDrain, writerAction]

theorem afterDrain_ne_drain {i : Nat} {compl k : Option Nat} {got : Bool} :
    afterDrain id compl ≠ .drain i k got := by
  cases compl <;> simp [afterDrain]

theorem FlowInv.drainNone {i : Nat} {compl : Option Nat} (h : FlowInv c)
    (hinp : c.inp = some (i, inp)) (hpc : c.writer = .drain id compl false)
    (hqueue : inp.wQueue = []) : FlowInv { c with writer := afterDrain id compl } := by
  have hf := h.flowing hinp
  have htok : WriteFlow.tokens { c with writer := afterDrain id compl } = c.tokens := by
    simp only [WriteFlow.tokens, hpc, writerToken_afterDrain]
    rfl
  have hreq := hf.req
  have hact := hf.writer
  have horder := hf.order
  rw [hpc] at hact
  rw [unexecuted_of_token c _ (by rw [hpc]; rfl)] at horder
  refine .of_flowing hinp ⟨hf.events, writerAction_afterDrain (hact id rfl), hf.jobs, hf.push,
    htok ▸ hf.single, fun _ _ hd => absurd hd afterDrain_ne_drain, ?_, ?_, hf.totreq, ?_,
    fun hne => absurd hqueue hne⟩
  · rw [htok]
    exact hf.batch
  · rw [pendingCmpl_afterDrain, hreq, hpc]
    cases compl <;> rfl
  · rw [unexecuted_of_token _ _ (writerToken_afterDrain compl)]
    exact horder

theorem FlowInv.fire {compl : Option Nat} (h : FlowInv c) (hpc : c.writer = .fire id compl) :
    FlowInv { c with jobs := c.jobs ++ [.queued], writer := afterDrain id compl } := by
  obtain ⟨i, inp, hinp⟩ := h.exists_inp fun hq => by
    rw [hq.2.1] at hpc
    cases hpc
  have hf := h.flowing hinp
  have hsingle := hf.single
  have hreq := hf.req
  have hact := hf.writer
  have horder := hf.order
  rw [hpc] at hact
  simp only [WriteFlow.tokens, hpc, writerToken] at hsingle
  simp only [WriteFlow.unexecuted, hpc] at horder
  have hjobs : c.jobs = [] := List.eq_nil_of_length_eq_zero (by omega)
  have htok : WriteFlow.tokens { c with jobs := c.jobs ++ [.queued], writer := afterDrain id compl }
      = 1 := by
    simp only [WriteFlow.tokens, writerToken_afterDrain, List.length_append, List.length_singleton]
    omega
  have hone : c.tokens = 1 := by
    simp only [WriteFlow.tokens, hpc, writerToken]
    omega
  refine .of_flowing hinp ⟨hf.events, writerAction_afterDrain (hact id rfl), ?_, hf.push,
    Nat.le_of_eq htok, fun _ _ hd => absurd hd afterDrain_ne_drain, ?_, ?_, hf.totreq, ?_,
    fun _ => Or.inl htok⟩
  · intro j hj
    rw [hjobs, List.nil_append, List.mem_singleton] at hj
    subst hj
    simp [jobAction]
  · rw [htok, ← hone]
    exact hf.batch
  · rw [pendingCmpl_afterDrain, hreq, hpc]
    cases compl <;> rfl
  · rw [unexecuted_of_token _ _ (writerToken_afterDrain compl)]
    simp only [hjobs, List.nil_append, List.flatMap_cons, List.flatMap_nil, List.append_nil, jobRest]
    exact horder

theorem FlowInv.addCmpl {i compl : Nat} (h : FlowInv c) (hinp : c.inp = some (i, inp))
    (hpc : c.writer = .addCmpl id compl) :
    FlowInv { c with
      inp := some (i, { inp with writeCmplCount := inp.writeCmplCount + compl })
      writer := .idle } := by
  have hf := h.flowing hinp
  have htok : WriteFlow.tokens { c with
      inp := some (i, { inp with writeCmplCount := inp.writeCmplCount + compl })
      writer := .idle } = c.tokens := by
    simp [WriteFlow.tokens, hpc, writerToken]
  have hreq := hf.req
  have horder := hf.order
  have hnot := hf.noticed
  rw [hpc] at hreq hnot
  rw [unexecuted_of_token c _ (by rw [hpc]; rfl)] at horder
  refine .of_flowing rfl ⟨hf.events, by simp [writerAction], hf.jobs, hf.push, htok ▸ hf.single,
    by simp, ?_, ?_, hf.totreq, horder, ?_⟩
  · rw [htok]
    exact hf.batch
  · show inp.writeReqCount = inp.writeCmplCount + compl + inp.bWList.length + 0
    simp only [pendingCmpl] at hreq
    omega
  · rw [htok]
    exact hnot

/-! ### `ef_file_write` -/

/-- A task goes on from `j` to `j'`. -/
theorem Flowing.setJob (hf : Flowing c id inp) (hinp : c.inp = some (id, inp)) {i : Nat}
    {j : WriteJob} (j' : WriteJob) (hjob : c.jobs[i]? = some j) (hact : ∀ k ∈ jobAction j', k = id)
    {executed : List WriteTask}
    (horder : c.executed ++ jobRest inp.bWList j = executed ++ jobRest inp.bWList j') :
    FlowInv { c with jobs := c.jobs.set i j', executed := executed } := by
  obtain ⟨hjobs, rfl, hcmpl, hwriter⟩ := hf.job_only hjob
  have htok : WriteFlow.tokens { c with jobs := c.jobs.set 0 j', executed := executed }
      = c.tokens := by
    simp [WriteFlow.tokens]
  have hord := hf.order
  rw [unexecuted_of_token c _ hwriter, hjobs] at hord
  refine .of_flowing hinp ⟨hf.events, hf.writer, ?_, hf.push, htok ▸ hf.single, ?_, ?_, hf.req,
    hf.totreq, ?_, ?_⟩
  · intro k hk
    rw [hjobs, List.set_cons_zero, List.mem_singleton] at hk
    exact hk ▸ hact
  · rw [htok]
    exact hf.fresh
  · rw [htok]
    exact hf.batch
  · have hun : WriteFlow.unexecuted { c with jobs := c.jobs.set 0 j', executed := executed } inp.bWList
        = jobRest inp.bWList j' := by
      rw [unexecuted_of_token { c with jobs := c.jobs.set 0 j', executed := executed } _ hwriter]
      simp [hjobs]
    rw [hun]
    show c.pushed = _
    rw [hord, List.flatMap_singleton, ← List.append_assoc, ← List.append_assoc, horder]
  · rw [htok]
    exact hf.noticed

theorem FlowInv.job {i : Nat} {j : WriteJob} (h : FlowInv c) (hjob : c.jobs[i]? = some j) :
    ∃ id inp, c.inp = some (id, inp) ∧ Flowing c id inp ∧ ∀ k ∈ jobAction j, k = id := by
  obtain ⟨id, inp, hinp⟩ := h.exists_inp fun hq => by
    rw [hq.2.2.1] at hjob
    cases hjob
  have hf := h.flowing hinp
  exact ⟨id, inp, hinp, hf, hf.jobs j (List.mem_of_getElem? hjob)⟩

theorem FlowInv.jobStart {i : Nat} (h : FlowInv c) (hinp : c.inp = some (id, inp))
    (hjob : c.jobs[i]? = some .queued) :
    FlowInv { c with jobs := c.jobs.set i (.items id inp.bWList 0) } :=
  (h.flowing hinp).setJob hinp _ hjob (by simp [jobAction]) rfl

theorem FlowInv.jobExec {i bytes bytes' : Nat} {w : WriteTask} {rest : List WriteTask} (h : FlowInv c)
    (hjob : c.jobs[i]? = some (.items id (w :: rest) bytes)) :
    FlowInv { c with
      jobs := c.jobs.set i (.items id rest bytes')
      executed := c.executed ++ [w] } := by
  obtain ⟨id', inp, hinp, hf, hact⟩ := h.job hjob
  exact hf.setJob hinp (.items id rest bytes') hjob hact (by simp [jobRest])

theorem FlowInv.jobEnd {i bytes : Nat} (h : FlowInv c)
    (hjob : c.jobs[i]? = some (.items id [] bytes)) :
    FlowInv { c with jobs := c.jobs.set i (.finish id bytes) } := by
  obtain ⟨id', inp, hinp, hf, hact⟩ := h.job hjob
  exact hf.setJob hinp (.finish id bytes) hjob hact rfl

theorem FlowInv.jobFinish {i bytes : Nat} (h : FlowInv c)
    (hjob : c.jobs[i]? = some (.finish id bytes)) :
    FlowInv { c with jobs := c.jobs.set i (.post id) } := by
  obtain ⟨id', inp, hinp, hf, hact⟩ := h.job hjob
  exact hf.setJob hinp (.post id) hjob hact rfl

theorem FlowInv.jobPost {i : Nat} (h : FlowInv c) (hjob : c.jobs[i]? = some (.post id)) :
    FlowInv { c with jobs := c.jobs.eraseIdx i, queue := c.queue ++ [.fwWriteCmplEvt id] } := by
  obtain ⟨id', inp, hinp, hf, hact⟩ := h.job hjob
  obtain ⟨hjobs, rfl, hcmpl, hwriter⟩ := hf.job_only hjob
  obtain rfl : id = id' := hact id rfl
  have htok : WriteFlow.tokens
      { c with jobs := c.jobs.eraseIdx 0, queue := c.queue ++ [.fwWriteCmplEvt id] } = 1 := by
    simp [WriteFlow.tokens, hjobs, hcmpl, hwriter, isCmpl]
  have hone : c.tokens = 1 := by simp [WriteFlow.tokens, hjobs, hcmpl, hwriter]
  have hord := hf.order
  rw [unexecuted_of_token c _ hwriter, hjobs] at hord
  refine .of_flowing hinp ⟨?_, hf.writer, ?_, hf.push, Nat.le_of_eq htok, ?_, ?_, hf.req, hf.totreq, ?_,
    fun _ => Or.inl htok⟩
  · intro e he
    obtain he | rfl := List.mem_append.mp he |>.imp_right List.mem_singleton.mp
    · exact hf.events e he
    · rfl
  · intro j hj
    rw [hjobs] at hj
    cases hj
  · intro i' k hd
    have h0 := hf.fresh i' k hd
    omega
  · rw [htok, ← hone]
    exact hf.batch
  · rw [unexecuted_of_token
      { c with jobs := c.jobs.eraseIdx 0, queue := c.queue ++ [.fwWriteCmplEvt id] } _ hwriter]
    simpa [jobRest, hjobs] using hord

/-! ### The action -/

theorem FlowInv.alloc (h : FlowInv c) (id : Nat) (hnone : c.inp = none) :
    FlowInv { c with inp := some (id, WriteOper.init) } := by
  obtain ⟨⟨hqueue, hwriter, hjobs, hpush⟩, hall⟩ := h.quiet hnone
  have htok : WriteFlow.tokens { c with inp := some (id, WriteOper.init) } = 0 := by
    simp [WriteFlow.tokens, hqueue, hwriter, hjobs, writerToken]
  refine .of_flowing rfl ⟨by simp [hqueue], by simp [hwriter, writerAction], by simp [hjobs],
    by simp [hpush], by rw [htok]; exact Nat.zero_le 1, fun _ _ _ => htok, iff_of_true rfl htok, ?_, ?_,
    ?_, fun hne => absurd rfl hne⟩
  · simp [WriteOper.init, hwriter, pendingCmpl]
  · simp [WriteOper.init, hpush, pushCounted]
  · simp [WriteFlow.unexecuted, hwriter, hjobs, WriteOper.init, hall]

/-- When nothing is on its way, every pushed item has been executed. -/
theorem Flowing.all_executed_of_quiet (hf : Flowing c id inp) (hquiet : c.Quiet) :
    c.pushed = c.executed := by
  obtain ⟨hqueue, hwriter, hjobs, hpush⟩ := hquiet
  have htok : c.tokens = 0 := by simp [WriteFlow.tokens, hqueue, hwriter, hjobs, writerToken]
  have hempty : inp.wQueue = [] := by
    refine Classical.byContradiction fun hne => ?_
    have := hf.noticed hne
    simp [htok, hqueue, hwriter, hpush, writerLooking, pushAnnouncing] at this
  have hord := hf.order
  simpa [WriteFlow.unexecuted, hwriter, hjobs, hempty] using hord

theorem FlowInv.free (h : FlowInv c) (hquiet : c.Quiet) : FlowInv { c with inp := none } := by
  refine ⟨hquiet, ?_⟩
  show c.pushed = c.executed
  cases hinp : c.inp with
  | none => exact (h.quiet hinp).2
  | some a => exact (h.flowing hinp).all_executed_of_quiet hquiet

/-- Every step of the flow keeps the invariant. -/
theorem FlowInv.step (h : FlowInv c) {c' : WriteFlow} (hstep : FlowStep c c') : FlowInv c' := by
  cases hstep with
  | same => exact h
  | accumulate accum hinp => exact h.accumulate accum hinp
  | start accum w hinp hpush => exact h.start accum w hinp hpush
  | count hinp hpush => exact h.count hinp hpush
  | enqueue hinp hpush => exact h.enqueue hinp hpush
  | init hpush => exact h.init hpush
  | post hpush => exact h.post hpush
  | takeReq hidle hqueue => exact h.takeReq hidle hqueue
  | takeCmpl hidle hqueue => exact h.takeCmpl hidle hqueue
  | skip hinp hpc hbusy => exact h.skip hinp hpc hbusy
  | look hinp hpc hfree => exact h.look hinp hpc hfree
  | collect hinp hpc => exact h.collect hinp hpc
  | drain hinp hpc hqueue => exact h.drain hinp hpc hqueue
  | drainEnd hinp hpc hqueue => exact h.drainEnd hinp hpc hqueue
  | drainNone hinp hpc hqueue => exact h.drainNone hinp hpc hqueue
  | fire hpc => exact h.fire hpc
  | addCmpl hinp hpc => exact h.addCmpl hinp hpc
  | jobStart hinp hjob => exact h.jobStart hinp hjob
  | jobExec hjob => exact h.jobExec hjob
  | jobEnd hjob => exact h.jobEnd hjob
  | jobFinish hjob => exact h.jobFinish hjob
  | jobPost hjob => exact h.jobPost hjob
  | alloc id hnone => exact h.alloc id hnone
  | free hquiet => exact h.free hquiet

/-! ### The batch and the queue -/

/-- What is not executed fits in the queue and the batch. -/
def Fits (c : WriteFlow) : Prop :=
  ∀ id inp, c.inp = some (id, inp) →
    c.pushed.length ≤ c.executed.length + inp.wQueue.length + inp.bWList.length

theorem Fits.step {c c' : WriteFlow} (h : Fits c) (hinv : FlowInv c) (hstep : FlowStep c c') :
    Fits c' := by
  intro id' inp' hinp'
  cases hstep with
  | same => exact h id' inp' hinp'
  | accumulate accum hinp =>
    cases hinp'
    exact (h _ _ hinp :)
  | start accum w hinp hpush =>
    cases hinp'
    exact (h _ _ hinp :)
  | count hinp hpush =>
    cases hinp'
    exact (h _ _ hinp :)
  | enqueue hinp hpush =>
    cases hinp'
    have := h _ _ hinp
    simp only [List.length_append, List.length_singleton]
    omega
  | init hpush => exact h id' inp' hinp'
  | post hpush => exact h id' inp' hinp'
  | takeReq hidle hqueue => exact h id' inp' hinp'
  | takeCmpl hidle hqueue => exact h id' inp' hinp'
  | skip hinp hpc hbusy => exact h id' inp' hinp'
  | look hinp hpc hfree => exact h id' inp' hinp'
  | collect hinp hpc =>
    cases hinp'
    have hf := hinv.flowing hinp
    have hsingle := hf.single
    simp only [WriteFlow.tokens, hpc, writerToken] at hsingle
    have hjobs : c.jobs = [] := List.eq_nil_of_length_eq_zero (by omega)
    have hlen := congrArg List.length hf.order
    simp only [WriteFlow.unexecuted, hpc, hjobs, List.flatMap_nil, List.nil_append,
      List.length_append] at hlen
    simp only [List.length_nil]
    omega
  | drain hinp hpc hqueue =>
    rename_i id i inp compl got w rest
    cases hinp'
    have hle := h _ _ hinp
    rw [hqueue, List.length_cons] at hle
    cases got with
    | true =>
      simp only [if_true, List.length_append, List.length_singleton]
      omega
    | false =>
      have hf := hinv.flowing hinp
      have hempty := hf.batch.mpr (hf.fresh _ _ hpc)
      rw [hempty, List.length_nil] at hle
      simp only [Bool.false_eq_true, if_false, List.length_singleton]
      omega
  | drainEnd hinp hpc hqueue => exact h id' inp' hinp'
  | drainNone hinp hpc hqueue => exact h id' inp' hinp'
  | fire hpc => exact h id' inp' hinp'
  | addCmpl hinp hpc =>
    cases hinp'
    exact (h _ _ hinp :)
  | jobStart hinp hjob => exact h id' inp' hinp'
  | jobExec hjob =>
    have := h id' inp' hinp'
    simp only [List.length_append]
    omega
  | jobEnd hjob => exact h id' inp' hinp'
  | jobFinish hjob => exact h id' inp' hinp'
  | jobPost hjob => exact h id' inp' hinp'
  | alloc id hnone =>
    have hall := (hinv.quiet hnone).2
    show c.pushed.length ≤ c.executed.length + _ + _
    rw [hall]
    omega
  | free hquiet => cases hinp'

/-! ### What the invariant says -/

/-- The counters are ordered when `file_writer` has no completions left to
add, and in any case. -/
theorem Flowing.counters (hf : Flowing c id inp) :
    inp.writeCmplCount ≤ inp.writeReqCount ∧ inp.writeReqCount ≤ inp.writeTotreqCount := by
  have hreq := hf.req
  have htot := hf.totreq
  omega

/-- When the counters meet, nothing is left to execute. -/
theorem Flowing.all_executed (hf : Flowing c id inp)
    (hmeet : inp.writeTotreqCount = inp.writeCmplCount) : c.pushed = c.executed := by
  have hreq := hf.req
  have htot := hf.totreq
  have hbatch : inp.bWList = [] := List.eq_nil_of_length_eq_zero (by omega)
  have hqueue : inp.wQueue = [] := List.eq_nil_of_length_eq_zero (by omega)
  have htok := hf.batch.mp hbatch
  have hun : c.unexecuted inp.bWList = [] := by
    have hw : writerToken c.writer = 0 := by
      unfold WriteFlow.tokens at htok
      omega
    have hj : c.jobs = [] := by
      unfold WriteFlow.tokens at htok
      exact List.eq_nil_of_length_eq_zero (by omega)
    rw [unexecuted_of_token c _ hw, hj, List.flatMap_nil]
  rw [hf.order, hun, hqueue, List.append_nil, List.append_nil]

/-- Where nobody is going to look at the queue, it is empty and the outer
counters meet. -/
theorem Flowing.settled (hf : Flowing c id inp) (hqueue : c.queue = []) (hwriter : c.writer = .idle)
    (hjobs : c.jobs = []) (hcounted : pushCounted c.push = 0)
    (hannouncing : pushAnnouncing c.push = false) :
    inp.wQueue = [] ∧ inp.writeTotreqCount = inp.writeCmplCount := by
  have htok : c.tokens = 0 := by
    unfold WriteFlow.tokens
    rw [hqueue, hwriter, hjobs]
    rfl
  have hempty : inp.wQueue = [] := by
    by_contra hne
    rcases hf.noticed hne with hone | ⟨e, hmem, -⟩ | hlook | hpush
    · omega
    · rw [hqueue] at hmem
      cases hmem
    · rw [hwriter] at hlook
      cases hlook
    · rw [hannouncing] at hpush
      cases hpush
  have hreq := hf.req
  have htot := hf.totreq
  rw [hf.batch.mpr htok, hwriter] at hreq
  rw [hempty, hcounted] at htot
  exact ⟨hempty, htot.trans hreq⟩

end Efio.Proofs.Spec
