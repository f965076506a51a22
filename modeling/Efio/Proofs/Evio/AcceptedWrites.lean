import Efio.Proofs.Evds.PQueueOrder
import Efio.Spec.AcceptedWrites

/-!
# `Efio.Proofs.Evio.AcceptedWrites`: `ef_write` accepts what it reports

Between two passes of the loop of `low_ef_write` the file `Accumulates` the
data passed so far: the pages that were full are tasks, and the rest is in
the accumulator. `efWrites_accepted`: the calls return what they should if
and only if no call is for `2 ^ 31` bytes or more, which the `int`
`bytes_transfered` cannot count.
-/

set_option autoImplicit false

namespace Efio.Proofs.Evio

open Efio.Lib
open Efio.Evio
open Efio.Spec
open Efio.Evds (atomicInt)
open Efio.Proofs.Evds (atomicInt_of_lt)

variable {pageSize : Nat} {buf data : List UInt8} {s s' : Writer} {c c' : Accumulation} {done fuel : Nat}

/-! ### The accumulator page -/

/-- There is no page before the first byte, and one of the page size later. -/
def HasPage (pageSize : Nat) (d : AccumWrites) : Prop :=
  d = .init ∨ ∃ page, d.data = some page ∧ page.length = pageSize

theorem HasPage.length_page {d : AccumWrites} (h : HasPage pageSize d) : (d.page pageSize).length = pageSize := by
  obtain rfl | ⟨page, hdata, hlength⟩ := h
  · exact List.length_replicate
  · rw [AccumWrites.page, hdata]
    exact hlength

theorem HasPage.take_page {d : AccumWrites} (h : HasPage pageSize d) :
    (d.page pageSize).take d.bytes = accumBytes d := by
  obtain rfl | ⟨page, hdata, -⟩ := h
  · rfl
  · rw [AccumWrites.page, accumBytes, hdata]
    rfl

/-- What a pass copies into the page. -/
theorem HasPage.take_writeAt {d : AccumWrites} (h : HasPage pageSize d) (chunk : List UInt8)
    (hfits : d.bytes + chunk.length ≤ pageSize) :
    (writeAt (d.page pageSize) d.bytes chunk).length = pageSize ∧
      (writeAt (d.page pageSize) d.bytes chunk).take (d.bytes + chunk.length) = accumBytes d ++ chunk := by
  have hlength := h.length_page
  refine ⟨?_, ?_⟩
  · rw [length_writeAt, hlength]
    omega
  · rw [Lib.take_writeAt chunk (by omega), h.take_page]

/-! ### One pass -/

/-- There is a write action that is not complete, with the accumulator `d`. -/
def WritesInto (pageSize : Nat) (s : Writer) (d : AccumWrites) : Prop :=
  (∃ a, s.action = some a ∧ a.cmd = .operWrite ∧ a.actionStatus ≠ .actionComplete ∧ a.wAccum = some d) ∧
    HasPage pageSize d

/-- The tasks and the accumulator of the write action hold `data`. -/
def Accumulates (pageSize : Nat) (s : Writer) (data : List UInt8) : Prop :=
  (∃ d, WritesInto pageSize s d) ∧ HoldsData pageSize s data

theorem writesInto_init (wQueue : List PageTask) : WritesInto pageSize ⟨some .init, wQueue⟩ .init :=
  ⟨⟨.init, rfl, rfl, by decide, rfl⟩, .inl rfl⟩

theorem WritesInto.accumOf {d : AccumWrites} (h : WritesInto pageSize s d) : accumOf s = d := by
  obtain ⟨⟨a, hact, -, -, hinp⟩, -⟩ := h
  rw [Spec.accumOf, hact, Option.bind_some, hinp]
  rfl

theorem WritesInto.derefAccum {d : AccumWrites} (h : WritesInto pageSize s d) :
    ∃ a, s.derefAccum = .ok (a, d) ∧ a.cmd = .operWrite ∧ a.actionStatus ≠ .actionComplete := by
  obtain ⟨⟨a, hact, hcmd, hstatus, hinp⟩, -⟩ := h
  refine ⟨a, ?_, hcmd, hstatus⟩
  rw [Writer.derefAccum, hact]
  simp only [hinp]

theorem accumulates_init (hpage : 0 < pageSize) : Accumulates pageSize ⟨some .init, []⟩ [] :=
  ⟨⟨.init, writesInto_init []⟩, rfl, fun _ ht => absurd ht List.not_mem_nil, hpage⟩

/-- `write_buffer_sync` moves the accumulator into a task. -/
theorem WritesInto.writeBufferSync {d : AccumWrites} (h : WritesInto pageSize s d) (hpage : 0 < pageSize)
    (hbytes : 1 ≤ d.bytes) (hle : d.bytes ≤ pageSize) (hlength : (accumBytes d).length = d.bytes)
    (hcarried : carriedBytes s = data)
    (htasks : ∀ t ∈ s.wQueue, 1 ≤ t.nbyte ∧ t.nbyte ≤ pageSize ∧ (pagePayload t).length = t.nbyte) :
    ∃ s', s.writeBufferSync = .ok s' ∧ Accumulates pageSize s' data := by
  obtain ⟨a, hderef, -⟩ := h.derefAccum
  have htask : ∀ t ∈ s.wQueue ++ [⟨d.data, d.bytes⟩],
      1 ≤ t.nbyte ∧ t.nbyte ≤ pageSize ∧ (pagePayload t).length = t.nbyte :=
    List.forall_mem_append.mpr ⟨htasks, List.forall_mem_singleton.mpr ⟨hbytes, hle, hlength⟩⟩
  refine ⟨⟨some .init, s.wQueue ++ [⟨d.data, d.bytes⟩]⟩, ?_, ⟨.init, writesInto_init _⟩, ?_, htask, hpage⟩
  · rw [Writer.writeBufferSync, hderef]
    rfl
  · have hfresh : Spec.accumOf ⟨some .init, s.wQueue ++ [⟨d.data, d.bytes⟩]⟩ = AccumWrites.init := rfl
    rw [← hcarried, carriedBytes, carriedBytes, h.accumOf, hfresh, List.flatMap_append, List.flatMap_singleton]
    exact List.append_nil _

/-- The accumulator with `chunk` behind its bytes. -/
def withChunk (pageSize : Nat) (d : AccumWrites) (chunk : List UInt8) : AccumWrites :=
  { data := some (writeAt (d.page pageSize) d.bytes chunk), bytes := d.bytes + chunk.length }

/-- A pass copies `chunk`, and pushes the page when it is full. -/
theorem Accumulates.copy {a : WriterAction} {d : AccumWrites} (h : HoldsData pageSize s data)
    (hwrites : WritesInto pageSize s d) (hcmd : a.cmd = .operWrite) (hstatus : a.actionStatus ≠ .actionComplete)
    (chunk : List UInt8) (hpos : 1 ≤ chunk.length) (hfits : d.bytes + chunk.length ≤ pageSize)
    (hs : s' = { s with action := some { a with wAccum := some (withChunk pageSize d chunk) } }) :
    ∃ s'', Writer.pushFull pageSize (withChunk pageSize d chunk) s' = .ok s'' ∧ Accumulates pageSize s'' (data ++ chunk) := by
  obtain ⟨hlength, htake⟩ := hwrites.2.take_writeAt chunk hfits
  have hinto : WritesInto pageSize s' (withChunk pageSize d chunk) := by
    subst hs
    exact ⟨⟨_, rfl, hcmd, hstatus, rfl⟩, .inr ⟨_, rfl, hlength⟩⟩
  have haccum : accumBytes (withChunk pageSize d chunk) = accumBytes d ++ chunk := htake
  have hcarried : carriedBytes s' = data ++ chunk := by
    have hqueue : s'.wQueue = s.wQueue := by rw [hs]
    rw [← h.carried, carriedBytes, carriedBytes, hinto.accumOf, hwrites.accumOf, haccum, hqueue,
      List.append_assoc]
  have htasks : ∀ t ∈ s'.wQueue, 1 ≤ t.nbyte ∧ t.nbyte ≤ pageSize ∧ (pagePayload t).length = t.nbyte := by
    rw [hs]
    exact h.tasks
  rw [Writer.pushFull]
  by_cases hfull : (withChunk pageSize d chunk).bytes ≥ pageSize
  · rw [if_pos hfull]
    have hbytes : (accumBytes (withChunk pageSize d chunk)).length = (withChunk pageSize d chunk).bytes := by
      rw [accumBytes, List.length_take]
      exact Nat.min_eq_left (Nat.le_trans hfits (Nat.le_of_eq hlength.symm))
    exact hinto.writeBufferSync (by omega) (Nat.le_trans hpos (Nat.le_add_left _ _)) hfits hbytes hcarried htasks
  · rw [if_neg hfull]
    refine ⟨s', rfl, ⟨_, hinto⟩, hcarried, htasks, ?_⟩
    rw [hinto.accumOf]
    omega

/-- A pass of the loop: some bytes more are copied. -/
theorem Accumulates.accumulate (h : Accumulates pageSize s data) (hdone : done < buf.length)
    (hlt : buf.length < 2 ^ 31) : ∃ (s' : Writer) (done' : Nat),
      accumulate pageSize buf ⟨s, done, buf.length - done⟩ = .ok ⟨s', done', buf.length - done'⟩ ∧
        done < done' ∧ done' ≤ buf.length ∧
        Accumulates pageSize s' (data ++ (buf.drop done).take (done' - done)) := by
  obtain ⟨⟨d, hwrites⟩, hholds⟩ := h
  obtain ⟨a, hderef, hcmd, hstatus⟩ := hwrites.derefAccum
  have hroom : d.bytes < pageSize := by
    rw [← hwrites.accumOf]
    exact hholds.bytes
  obtain ⟨n, hn⟩ : ∃ n, min (buf.length - done) (pageSize - d.bytes) = n := ⟨_, rfl⟩
  have hchunk : ((buf.drop done).take n).length = n := by
    rw [List.length_take, List.length_drop]
    omega
  obtain ⟨s', hsync, hs'⟩ := Accumulates.copy hholds hwrites hcmd hstatus ((buf.drop done).take n)
    (by omega) (by omega) rfl
  refine ⟨s', done + n, ?_, by omega, by omega, ?_⟩
  · have hinside : ¬((done : Int) < 0 ∨ (buf.length : Int) < done + n ∨
        (d.page pageSize).length < d.bytes + n) := by
      rw [hwrites.2.length_page]
      omega
    have hcount : atomicInt ((done : Int) + n) = ((done + n : Nat) : Int) := by
      rw [Int.natCast_add]
      exact atomicInt_of_lt (by omega) (by omega)
    rw [withChunk, hchunk] at hsync
    rw [Evio.accumulate, hderef, ok_bind]
    simp only [hn, if_neg hinside, Int.toNat_natCast]
    rw [hsync, ok_bind, hcount, Nat.sub_sub]
    rfl
  · rwa [Nat.add_sub_cancel_left]

/-- The loop copies the rest of the data. -/
theorem Accumulates.loop (hlt : buf.length < 2 ^ 31) (h : Accumulates pageSize s data)
    (hdone : done ≤ buf.length) (hfuel : buf.length - done ≤ fuel) :
    ∃ s', accumulateLoop pageSize buf fuel ⟨s, done, buf.length - done⟩ = .ok ⟨s', buf.length, 0⟩ ∧
      Accumulates pageSize s' (data ++ buf.drop done) := by
  induction fuel generalizing s data done with
  | zero =>
    obtain rfl : done = buf.length := by omega
    refine ⟨s, ?_, ?_⟩
    · rw [accumulateLoop, Nat.sub_self, if_pos rfl]
    · rwa [List.drop_length, List.append_nil]
  | succ fuel ih =>
    by_cases hend : done = buf.length
    · subst hend
      refine ⟨s, ?_, ?_⟩
      · rw [accumulateLoop, Nat.sub_self, if_pos rfl]
      · rwa [List.drop_length, List.append_nil]
    · have hmissing : done < buf.length := by omega
      obtain ⟨s₁, done', hpass, hmore, hle, h₁⟩ := h.accumulate hmissing hlt
      have hless : buf.length - done' ≤ fuel := by omega
      obtain ⟨s', hloop, h'⟩ := ih h₁ hle hless
      refine ⟨s', ?_, ?_⟩
      · have hleft : buf.length - done ≠ 0 := by omega
        rw [accumulateLoop, if_neg hleft, hpass, ok_bind, hloop]
      · have hdrop : (buf.drop done).drop (done' - done) = buf.drop done' := by
          rw [List.drop_drop]
          congr 1
          omega
        rwa [List.append_assoc, ← hdrop, List.take_append_drop] at h'

/-! ### The calls -/

/-- Before the first write, the file holds nothing; later there is the write
action. -/
def Between (pageSize : Nat) (s : Writer) : Prop :=
  Accumulates pageSize s (carriedBytes s) ∨ ∃ completed, s = Writer.opened completed

theorem Accumulates.carried (h : Accumulates pageSize s data) : carriedBytes s = data := h.2.carried

theorem Accumulates.between (h : Accumulates pageSize s data) : Between pageSize s :=
  .inl (h.carried ▸ h)

theorem carriedBytes_opened (completed : Option FileOper) : carriedBytes (Writer.opened completed) = [] := by
  cases completed with
  | none => rfl
  | some oper => cases oper <;> rfl

theorem Between.holdsData (h : Between pageSize s) (hpage : 0 < pageSize) :
    HoldsData pageSize s (carriedBytes s) := by
  obtain h | ⟨completed, rfl⟩ := h
  · exact h.2
  · refine ⟨rfl, fun _ ht => absurd ht List.not_mem_nil, ?_⟩
    cases completed with
    | none => exact hpage
    | some oper => cases oper <;> exact hpage

/-- `low_ef_write` starts its loop on a write action. -/
theorem Between.ensureAction (h : Between pageSize s) (hpage : 0 < pageSize) :
    s.ensureAction.cmd = .operWrite ∧
      Accumulates pageSize { s with action := some s.ensureAction } (carriedBytes s) := by
  obtain h | ⟨completed, rfl⟩ := h
  · obtain ⟨d, ⟨a, hact, hcmd, hstatus, -⟩, -⟩ := h.1
    have hensure : s.ensureAction = a := by
      rw [Writer.ensureAction, hact]
      exact if_neg hstatus
    refine ⟨hensure ▸ hcmd, ?_⟩
    rw [hensure, ← hact]
    exact h
  · have hensure : (Writer.opened completed).ensureAction = .init := by
      cases completed with
      | none => rfl
      | some oper => rfl
    rw [hensure, carriedBytes_opened]
    exact ⟨rfl, accumulates_init hpage⟩

theorem Between.lowEfWrite (h : Between pageSize s) (hpage : 0 < pageSize) (hlt : buf.length < 2 ^ 31) :
    ∃ s', s.lowEfWrite pageSize buf = .ok (s', buf.length) ∧
      Accumulates pageSize s' (carriedBytes s ++ buf) := by
  obtain ⟨hcmd, hstart⟩ := h.ensureAction hpage
  obtain ⟨s', hloop, h'⟩ := hstart.loop hlt (Nat.zero_le _) (Nat.le_refl _)
  refine ⟨s', ?_, h'⟩
  rw [Writer.lowEfWrite, if_neg (not_not.mpr hcmd)]
  rw [Nat.sub_zero, Int.natCast_zero] at hloop
  rw [hloop]
  rfl

theorem Between.lowEfSync (h : Between pageSize s) (hpage : 0 < pageSize) :
    ∃ s', s.lowEfSync = .ok s' ∧ Between pageSize s' ∧ carriedBytes s' = carriedBytes s := by
  obtain h | ⟨completed, rfl⟩ := h
  · obtain ⟨⟨d, hwrites⟩, hholds⟩ := h
    obtain ⟨a', hderef, -⟩ := hwrites.derefAccum
    obtain ⟨a, hact, hcmd, -⟩ := hwrites.1
    rw [Writer.lowEfSync, hact]
    simp only [hcmd, ne_eq, not_true_eq_false, if_false, hderef, ok_bind]
    by_cases hempty : d.bytes = 0
    · rw [if_pos hempty]
      exact ⟨s, rfl, .inl ⟨⟨d, hwrites⟩, hholds⟩, rfl⟩
    · rw [if_neg hempty]
      have hroom : d.bytes < pageSize := by
        rw [← hwrites.accumOf]
        exact hholds.bytes
      have hlength : (accumBytes d).length = d.bytes := by
        obtain rfl | ⟨page, hdata, hpageLength⟩ := hwrites.2
        · rfl
        · rw [accumBytes, hdata, List.length_take]
          exact Nat.min_eq_left (hpageLength ▸ Nat.le_of_lt hroom)
      obtain ⟨s', hsync, h'⟩ :=
        hwrites.writeBufferSync hpage (by omega) (Nat.le_of_lt hroom) hlength rfl hholds.tasks
      exact ⟨s', hsync, h'.between, h'.carried⟩
  · refine ⟨Writer.opened completed, ?_, .inr ⟨completed, rfl⟩, rfl⟩
    cases completed with
    | none => rfl
    | some oper => cases oper <;> rfl

/-- The specification of the calls on the data held. -/
def acceptAll (op : WriterOp) (data : List UInt8) : List UInt8 × Option Int :=
  (data ++ passedData op, expectedReturn op)

theorem specCalls_acceptAll (ops : List WriterOp) (data : List UInt8) :
    specCalls acceptAll ops data = (data ++ ops.flatMap passedData, ops.map expectedReturn) := by
  induction ops generalizing data with
  | nil => rw [specCalls, List.flatMap_nil, List.append_nil, List.map_nil]
  | cons op ops ih =>
    simp only [specCalls, acceptAll, ih, List.flatMap_cons, List.map_cons, List.append_assoc]

/-- The number of bytes of the call can be counted in an `int`. -/
def Countable (_ : Writer) (op : WriterOp) : Prop := (passedData op).length < 2 ^ 31

theorem Between.call (h : Between pageSize s) (hpage : 0 < pageSize) {op : WriterOp} (hop : Countable s op) :
    ∃ s' r, op.call pageSize s = .ok (s', r) ∧ Between pageSize s' ∧
      acceptAll op (carriedBytes s) = (carriedBytes s', r) := by
  cases op with
  | lowEfWrite buf =>
    have hbuf : buf.length < 2 ^ 31 := hop
    obtain ⟨s', hwrite, h'⟩ := h.lowEfWrite hpage hbuf
    refine ⟨s', some buf.length, ?_, h'.between, ?_⟩
    · rw [WriterOp.call, hwrite]
      rfl
    · rw [h'.carried]
      rfl
  | lowEfSync =>
    obtain ⟨s', hsync, h', hcarried⟩ := h.lowEfSync hpage
    refine ⟨s', none, ?_, h', ?_⟩
    · rw [WriterOp.call, hsync]
      rfl
    · rw [hcarried]
      exact congrArg (·, none) (List.append_nil _)

/-! ### What is returned -/

theorem atomicInt_lt (n : Int) : atomicInt n < 2 ^ 31 := by
  have h := Int.bmod_lt (x := n) (Nat.two_pow_pos 32)
  rw [atomicInt]
  omega

/-- The count of a pass is an `int`. -/
theorem accumulate_lt (h : Evio.accumulate pageSize buf c = .ok c') : c'.bytesTransfered < 2 ^ 31 := by
  obtain ⟨x, -, h⟩ := bind_eq_ok.mp h
  simp only at h
  split at h
  · cases h
  · obtain ⟨s, -, h⟩ := bind_eq_ok.mp h
    cases h
    exact atomicInt_lt _

theorem accumulateLoop_lt (hc : c.bytesTransfered < 2 ^ 31) (h : accumulateLoop pageSize buf fuel c = .ok c') :
    c'.bytesTransfered < 2 ^ 31 := by
  induction fuel generalizing c with
  | zero =>
    rw [accumulateLoop] at h
    split at h
    · cases h
      exact hc
    · cases h
  | succ fuel ih =>
    rw [accumulateLoop] at h
    split at h
    · cases h
      exact hc
    · obtain ⟨c₁, hpass, hrest⟩ := bind_eq_ok.mp h
      exact ih (accumulate_lt hpass) hrest

/-- A call cannot return `2 ^ 31` or more. -/
theorem countable_of_return {op : WriterOp} (h : op.call pageSize s = .ok (s', expectedReturn op)) :
    Countable s op := by
  cases op with
  | lowEfSync => exact Nat.two_pow_pos 31
  | lowEfWrite buf =>
    obtain ⟨⟨s₁, ret⟩, hwrite, hret⟩ := bind_eq_ok.mp h
    obtain ⟨-, hret⟩ := Prod.mk.inj (Except.ok.inj hret)
    obtain rfl : ret = (buf.length : Int) := Option.some.inj hret
    have hlt : (buf.length : Int) < 2 ^ 31 := by
      rw [Writer.lowEfWrite] at hwrite
      split at hwrite
      · have hneg := (Prod.mk.inj (Except.ok.inj hwrite)).2
        omega
      · obtain ⟨c, hloop, hc⟩ := bind_eq_ok.mp hwrite
        obtain ⟨-, hcount⟩ := Prod.mk.inj (Except.ok.inj hc)
        have hzero : (0 : Int) < 2 ^ 31 := by decide
        exact hcount ▸ accumulateLoop_lt hzero hloop
    show buf.length < 2 ^ 31
    omega

/-- The calls accept what they report, and return the number of bytes, if and
only if these can be counted. -/
theorem runCalls_accepted (hpage : 0 < pageSize) (completed : Option FileOper) (ops : List WriterOp) :
    (∃ s rs, runCalls (WriterOp.call pageSize) ops (Writer.opened completed) = .ok (s, rs) ∧
      ops.flatMap passedData = carriedBytes s ∧ ops.map expectedReturn = rs) ↔
      Along (WriterOp.call pageSize) Countable ops (Writer.opened completed) := by
  have hbad : ∀ s op s' r, Between pageSize s → True → WriterOp.call pageSize op s = .ok (s', r) →
      r = (acceptAll op (carriedBytes s)).2 → Countable s op := by
    rintro s op s' _ - - hcall rfl
    exact countable_of_return hcall
  have hstart : Between pageSize (Writer.opened completed) := .inr ⟨completed, rfl⟩
  rw [← calls_refine (fun s op hs _ hop => hs.call hpage hop) hbad hstart (along_of_forall fun _ _ => trivial),
    specCalls_acceptAll, carriedBytes_opened, List.nil_append]
  simp only [Prod.mk.injEq]

/-- **`ef_write` accepts what it reports**: at every call boundary the tasks
and the accumulator hold the data passed so far, and each call has returned
the number of its bytes, if and only if no call is for `2 ^ 31` bytes or
more. -/
theorem efWrites_accepted (hpage : 0 < pageSize) (completed : Option FileOper) (ops : List WriterOp) :
    (∀ pre, pre <+: ops → ∃ s rs,
      runCalls (WriterOp.call pageSize) pre (Writer.opened completed) = .ok (s, rs) ∧
        rs = pre.map expectedReturn ∧ HoldsData pageSize s (pre.flatMap passedData)) ↔
      ∀ op ∈ ops, (passedData op).length < 2 ^ 31 := by
  constructor
  · intro hall
    obtain ⟨s, rs, hrun, hrs, hholds⟩ := hall ops (List.prefix_refl ops)
    exact forall_of_along ((runCalls_accepted hpage completed ops).mp ⟨s, rs, hrun, hholds.carried.symm, hrs.symm⟩) hrun
  · intro hops pre hpre
    have halong : Along (WriterOp.call pageSize) Countable pre (Writer.opened completed) :=
      along_of_forall fun op hop => hops op (hpre.subset hop)
    obtain ⟨s, rs, hrun, hdata, hrs⟩ := (runCalls_accepted hpage completed pre).mpr halong
    have hbetween : Between pageSize s := by
      refine Along.invariant ?_ (.inr ⟨completed, rfl⟩) halong hrun
      intro s op s' r hs hop hcall
      obtain ⟨s₁, r₁, hcall₁, hs₁, -⟩ := hs.call hpage hop
      cases hcall.symm.trans hcall₁
      exact hs₁
    exact ⟨s, rs, hrun, hrs.symm, hdata ▸ hbetween.holdsData hpage⟩

/-- Pages of three bytes: a write over the end of a page, a flush, a write. -/
theorem efWrites_accepted_sample : ∃ s rs,
    runCalls (WriterOp.call 3) [.lowEfWrite [1, 2, 3, 4], .lowEfSync, .lowEfWrite [5]] (Writer.opened none) =
        .ok (s, rs) ∧
      rs = [some 4, none, some 1] ∧ HoldsData 3 s [1, 2, 3, 4, 5] :=
  (efWrites_accepted (by decide) none _).mpr (by decide) _ (List.prefix_refl _)

/-- A write of `2 ^ 31` bytes does not return their number. -/
theorem not_efWrites_accepted : ¬∃ s rs, runCalls (WriterOp.call 4096)
    [.lowEfWrite (List.replicate (2 ^ 31) 0)] (Writer.opened none) = .ok (s, rs) ∧ rs = [some (2 ^ 31)] := by
  rintro ⟨s, _, hrun, rfl⟩
  obtain ⟨s', r, rs, hcall, -, hrs⟩ := runCalls_cons hrun
  obtain ⟨rfl, -⟩ := List.cons.inj hrs
  have hexpected : some (2 ^ 31) = expectedReturn (.lowEfWrite (List.replicate (2 ^ 31) 0)) := by
    rw [expectedReturn, List.length_replicate]
    rfl
  rw [hexpected] at hcall
  have hlt := countable_of_return hcall
  rw [Countable, passedData, List.length_replicate] at hlt
  exact Nat.lt_irrefl _ hlt

end Efio.Proofs.Evio
