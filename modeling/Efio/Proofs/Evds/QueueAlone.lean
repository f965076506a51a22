import Efio.Evds.PiQueue
import Efio.Lib.LinkedList

/-!
# `Efio.Proofs.Evds.QueueAlone`: one thread on an `ev_queue`

Between the calls of a single thread the queue is `Quiet`: the list from
`head` to `tail` has all elements, and no link is outstanding. A call then
makes its accesses without being disturbed; `enqueue` adds an element at
the end of the list and `try_dequeue` takes the first one off.
-/

set_option autoImplicit false

namespace Efio.Proofs.Evds

open Efio.Lib
open Efio.Evds

variable {s s' : EvQueue} {xs : List Nat} {x d : Nat} {a : Addr} {n : Nat} {q : QueuePc}

/-- The queue has the elements `xs`, and nobody is inside. -/
structure Quiet (s : EvQueue) (xs : List Nat) : Prop where
  running : s.aborted = none
  idle : (s.pc 0).isIdle = true
  mark : s.head.mark = false
  list : ∃ l, TailList (fun a => (s.mem a).next) s.head.addr s.tail l ∧
    l.map (fun a => (s.mem a).data) = xs ∧
    ∀ a ∈ l, s.live a = true ∧ (s.mem a).magic = EVQ_MAGIC_LIVE

theorem quiet_create : Quiet EvQueue.create [] where
  running := rfl
  idle := rfl
  mark := rfl
  list := ⟨[], .nil, rfl, fun _ ha => absurd ha List.not_mem_nil⟩

/-! ### Undisturbed accesses -/

section Accesses

variable {P : EvQueue → Prop}

/-- A call goes on with its next access. -/
theorem finish_access (hrun : s.aborted = none) (hpc : s.pc 0 = q) (hbusy : q.isIdle = false)
    (hstep : (s.enqueueStep 0 q).or ((s.claimStep 0 q).or ((s.advanceStep 0 q).or (s.retireStep 0 q))) =
      some s')
    (hrest : ∃ f, EvQueue.finish n s' = some f ∧ P f) : ∃ f, EvQueue.finish (n + 1) s = some f ∧ P f := by
  rw [EvQueue.finish, hpc, hbusy, EvQueue.step, hrun]
  show ∃ f, (s.threadStep 0).bind _ = some f ∧ P f
  rw [EvQueue.threadStep, hpc, hstep]
  exact hrest

/-- A call has returned. -/
theorem finish_idle (hpc : (s.pc 0).isIdle = true) (hs : P s) :
    ∃ f, EvQueue.finish (n + 1) s = some f ∧ P f :=
  ⟨s, by rw [EvQueue.finish, if_pos hpc], hs⟩

end Accesses

theorem goto_isIdle (s : EvQueue) (t : Nat) (q : QueuePc) : ((s.goto t q).pc t).isIdle = q.isIdle := by
  rw [EvQueue.goto_pc_self]

/-- What a call leaves: the words of the queue, and no access outstanding. -/
structure Left (head : HeadWord) (tail : Addr) (live : Addr → Bool) (mem : Addr → Node) (s : EvQueue) :
    Prop where
  running : s.aborted = none
  idle : (s.pc 0).isIdle = true
  head : s.head = head
  tail : s.tail = tail
  live : s.live = live
  mem : s.mem = mem

/-! ### Enqueue -/

/-- An enqueue that has found the queue empty stores the head. -/
theorem finish_setHead (hrun : s.aborted = none) (hpc : s.pc 0 = .count a 0) :
    ∃ f, EvQueue.finish (n + 3) s = some f ∧ Left ⟨a, false⟩ s.tail s.live s.mem f := by
  refine finish_access hrun hpc rfl rfl ?_
  refine finish_access hrun (EvQueue.goto_pc_self _ _ _) rfl rfl ?_
  exact finish_idle (goto_isIdle _ _ _) ⟨hrun, goto_isIdle _ _ _, rfl, rfl, rfl, rfl⟩

/-- An enqueue that has found a tail links its node behind it. -/
theorem finish_link {old : Addr} (hrun : s.aborted = none) (hpc : s.pc 0 = .count a old) (hold : old ≠ 0)
    (hmagic : (s.mem old).magic = EVQ_MAGIC_LIVE) :
    ∃ f, EvQueue.finish (n + 7) s = some f ∧ Left s.head s.tail s.live
      (Function.update s.mem old { s.mem old with next := a, inflight := 0 }) f := by
  refine finish_access hrun hpc rfl rfl ?_
  refine finish_access hrun ((EvQueue.goto_pc_self _ _ _).trans (if_pos hold)) rfl rfl ?_
  have hlive : ∀ m : Node, m = { s.mem old with inflight := 1 } → ¬m.magic ≠ EVQ_MAGIC_LIVE := by
    rintro m rfl
    exact not_not.mpr hmagic
  refine finish_access hrun (EvQueue.goto_pc_self _ _ _) rfl
    (congrArg some (if_neg (hlive _ (EvQueue.store_mem_self _ _ _)))) ?_
  refine finish_access hrun (EvQueue.goto_pc_self _ _ _) rfl rfl ?_
  refine finish_access hrun (EvQueue.goto_pc_self _ _ _) rfl rfl ?_
  refine finish_idle (goto_isIdle _ _ _) ⟨hrun, goto_isIdle _ _ _, rfl, rfl, rfl, ?_⟩
  simp only [EvQueue.goto, EvQueue.store, Function.update_self, Function.update_idem]

theorem call_step (hrun : s.aborted = none) (hidle : (s.pc 0).isIdle = true) (c : QueueCall) :
    EvQueue.step (.call 0 c) s = some (s.goto 0 c.start) := by
  rw [EvQueue.step, hrun]
  cases hpc : s.pc 0 with
  | idle r => simp only [Option.isSome_none, Bool.false_eq_true, if_false]
  | _ =>
    rw [hpc] at hidle
    cases hidle

/-- The node of an enqueue. -/
def queueNode (data gid : Nat) : Node :=
  { data := data, next := 0, inflight := 0, id := gid, magic := EVQ_MAGIC_LIVE }

theorem malloc_step (hrun : s.aborted = none) (hpc : s.pc 0 = .alloc d) (hnull : a ≠ 0)
    (hfree : s.live a = false) :
    EvQueue.step (.malloc 0 a) s = some ({ s.store a (queueNode d s.gid) with
      gid := s.gid + 1
      live := Function.update s.live a true }.goto 0 (.exchange a)) := by
  have hnot : ¬(a = 0 ∨ s.live a = true) := by simp [hnull, hfree]
  rw [EvQueue.step, hrun]
  show s.mallocStep 0 a = _
  rw [EvQueue.mallocStep, hpc]
  exact if_neg hnot

/-- The words after an enqueue. -/
theorem enqueueAlone_left (hrun : s.aborted = none) (hidle : (s.pc 0).isIdle = true) (hnull : a ≠ 0)
    (hfree : s.live a = false) (hmagic : s.tail ≠ 0 → s.tail ≠ a ∧ (s.mem s.tail).magic = EVQ_MAGIC_LIVE)
    (data : Nat) : ∃ f, s.enqueueAlone data a = some f ∧
      if s.tail = 0 then
        Left ⟨a, false⟩ a (Function.update s.live a true) (Function.update s.mem a (queueNode data s.gid)) f
      else
        Left s.head a (Function.update s.live a true)
          (Function.update (Function.update s.mem a (queueNode data s.gid)) s.tail
            { s.mem s.tail with next := a, inflight := 0 }) f := by
  have hmalloc := malloc_step (s := s.goto 0 (.alloc data)) hrun (EvQueue.goto_pc_self _ _ _) hnull hfree
  rw [EvQueue.enqueueAlone, call_step hrun hidle, Option.bind_some]
  show ∃ f, (EvQueue.step (.malloc 0 a) (s.goto 0 (.alloc data))).bind _ = some f ∧ _
  rw [hmalloc, Option.bind_some]
  by_cases htail : s.tail = 0
  · simp only [if_pos htail]
    refine finish_access hrun (EvQueue.goto_pc_self _ _ _) rfl rfl ?_
    refine finish_setHead hrun ((EvQueue.goto_pc_self _ _ _).trans ?_)
    exact congrArg (QueuePc.count a) htail
  · simp only [if_neg htail]
    refine finish_access hrun (EvQueue.goto_pc_self _ _ _) rfl rfl ?_
    obtain ⟨hne, hlive⟩ := hmagic htail
    have hold : Function.update s.mem a (queueNode data s.gid) s.tail = s.mem s.tail :=
      Function.update_of_ne hne _ _
    rw [← hold] at hlive ⊢
    exact finish_link hrun (EvQueue.goto_pc_self _ _ _) htail hlive

/-- `enqueue` adds its element at the end. -/
theorem Quiet.enqueueAlone (h : Quiet s xs) (hnull : a ≠ 0) (hfree : s.live a = false) (data : Nat) :
    ∃ f, s.enqueueAlone data a = some f ∧ Quiet f (xs ++ [data]) := by
  obtain ⟨l, hlist, hdata, hold⟩ := h.list
  have hne : ∀ b ∈ l, b ≠ a := by
    rintro b hb rfl
    have hlive := (hold b hb).1
    rw [hfree] at hlive
    cases hlive
  have hmagic : s.tail ≠ 0 → s.tail ≠ a ∧ (s.mem s.tail).magic = EVQ_MAGIC_LIVE := by
    intro htail
    have hmem := hlist.tail_mem (mt hlist.tail_eq_zero_iff.mpr htail)
    exact ⟨hne _ hmem, (hold _ hmem).2⟩
  obtain ⟨f, henqueue, hleft⟩ := enqueueAlone_left h.running h.idle hnull hfree hmagic data
  refine ⟨f, henqueue, ?_⟩
  by_cases htail : s.tail = 0
  · rw [if_pos htail] at hleft
    obtain rfl : l = [] := hlist.tail_eq_zero_iff.mp htail
    refine ⟨hleft.running, hleft.idle, by rw [hleft.head], [a], ?_, ?_, ?_⟩
    · rw [hleft.head, hleft.tail, hleft.mem]
      exact TailList.single hnull (by simp only [Function.update_self, queueNode])
    · rw [hleft.mem, ← hdata]
      simp only [List.map_cons, List.map_nil, List.nil_append, Function.update_self, queueNode]
    · intro b hb
      rw [List.mem_singleton.mp hb, hleft.mem, hleft.live, Function.update_self, Function.update_self]
      exact ⟨rfl, rfl⟩
  · rw [if_neg htail] at hleft
    have hcons : l ≠ [] := mt hlist.tail_eq_zero_iff.mpr htail
    have hlast : s.tail ≠ a := (hmagic htail).1
    refine ⟨hleft.running, hleft.idle, by rw [hleft.head, h.mark], l ++ [a], ?_, ?_, ?_⟩
    · rw [hleft.head, hleft.tail, hleft.mem]
      refine hlist.push hcons hnull (fun hmem => hne a hmem rfl) ?_ ?_ ?_
      · simp only [Function.update_of_ne hlast.symm, Function.update_self, queueNode]
      · simp only [Function.update_self]
      · intro b hb hother
        simp only [Function.update_of_ne hother, Function.update_of_ne (hne b hb)]
    · rw [hleft.mem, ← hdata, List.map_append]
      refine congrArg₂ (· ++ ·) (List.map_congr_left fun b hb => ?_) ?_
      · by_cases hother : b = s.tail
        · subst hother
          simp only [Function.update_self]
        · simp only [Function.update_of_ne hother, Function.update_of_ne (hne b hb)]
      · simp only [List.map_cons, List.map_nil, Function.update_of_ne hlast.symm, Function.update_self,
          queueNode]
    · intro b hb
      rw [hleft.mem, hleft.live]
      obtain hb | hb := List.mem_append.mp hb
      · rw [Function.update_of_ne (hne b hb)]
        refine ⟨(hold b hb).1, ?_⟩
        by_cases hother : b = s.tail
        · subst hother
          simp only [Function.update_self]
          exact (hold _ hb).2
        · simp only [Function.update_of_ne hother, Function.update_of_ne (hne b hb)]
          exact (hold b hb).2
      · rw [List.mem_singleton.mp hb]
        simp only [Function.update_self, Function.update_of_ne hlast.symm, queueNode]
        exact ⟨trivial, trivial⟩

/-! ### `try_dequeue` -/

/-- `try_dequeue` of a queue without an element. -/
theorem Quiet.tryDequeueAlone_nil (h : Quiet s []) :
    ∃ f, s.tryDequeueAlone = some f ∧ (f.pc 0).answer = .empty ∧ Quiet f [] := by
  obtain ⟨l, hlist, hdata, hold⟩ := h.list
  have htail : s.tail = 0 := hlist.tail_eq_zero_iff.mpr (List.map_eq_nil_iff.mp hdata)
  rw [EvQueue.tryDequeueAlone, call_step h.running h.idle, Option.bind_some]
  refine finish_access h.running (EvQueue.goto_pc_self _ _ _) rfl rfl ?_
  have hpc : ∀ s₁ : EvQueue,
      ((s₁.goto 0 (if s.tail = 0 then .idle (some .null) else .loadHead .tryDequeue)).pc 0) =
        .idle (some .null) := by
    intro s₁
    rw [EvQueue.goto_pc_self, if_pos htail]
  refine finish_idle ?_ ⟨?_, h.running, ?_, h.mark, l, hlist, hdata, hold⟩
  · exact (congrArg QueuePc.isIdle (hpc _)).trans rfl
  · exact (congrArg QueuePc.answer (hpc _)).trans rfl
  · exact (congrArg QueuePc.isIdle (hpc _)).trans rfl

/-- From the new head to the end of the call. -/
theorem finish_swing {next : Addr} (hrun : s.aborted = none) (hpc : s.pc 0 = .swing .tryDequeue a next)
    (hhead : s.head = ⟨a, true⟩) :
    ∃ f, EvQueue.finish (n + 4) s = some f ∧ f.pc 0 = .idle (some (.data (s.mem a).data)) ∧
      Left ⟨next, false⟩ s.tail (Function.update s.live a false)
        (Function.update s.mem a Node.scrubbed) f := by
  refine finish_access hrun hpc rfl (congrArg some (if_pos hhead)) ?_
  refine finish_access hrun (EvQueue.goto_pc_self _ _ _) rfl rfl ?_
  refine finish_access hrun (EvQueue.goto_pc_self _ _ _) rfl rfl ?_
  refine finish_idle (goto_isIdle _ _ _) ⟨EvQueue.goto_pc_self _ _ _, ?_⟩
  exact ⟨hrun, goto_isIdle _ _ _, rfl, rfl, rfl, rfl⟩

/-- With no element behind it, the tail is cleared before the head. -/
theorem finish_testTail {next : Addr} (hrun : s.aborted = none) (hpc : s.pc 0 = .testTail .tryDequeue a next)
    (htail : s.tail ≠ 0) (hhead : s.head = ⟨a, true⟩) (hlast : next = 0 → s.tail = a) :
    ∃ f, EvQueue.finish (n + 6) s = some f ∧ f.pc 0 = .idle (some (.data (s.mem a).data)) ∧
      Left ⟨next, false⟩ (if next = 0 then 0 else s.tail) (Function.update s.live a false)
        (Function.update s.mem a Node.scrubbed) f := by
  refine finish_access hrun hpc rfl (congrArg some (if_neg htail)) ?_
  by_cases hnext : next = 0
  · subst hnext
    refine finish_access hrun (EvQueue.goto_pc_self _ _ _) rfl (congrArg some (if_pos (hlast rfl))) ?_
    exact finish_swing hrun (EvQueue.goto_pc_self _ _ _) hhead
  · simp only [if_neg hnext]
    exact finish_swing hrun (EvQueue.goto_pc_self _ _ _) hhead

/-- The words after a `try_dequeue` that takes off the head `a`. -/
theorem finish_claim (hrun : s.aborted = none) (hpc : s.pc 0 = .loadTail .tryDequeue) (htail : s.tail ≠ 0)
    (hhead : s.head = ⟨a, false⟩) (hnull : a ≠ 0) (hlast : (s.mem a).next = 0 → s.tail = a) :
    ∃ f, EvQueue.finish (n + 10) s = some f ∧ f.pc 0 = .idle (some (.data (s.mem a).data)) ∧
      Left ⟨(s.mem a).next, false⟩ (if (s.mem a).next = 0 then 0 else s.tail)
        (Function.update s.live a false) (Function.update s.mem a Node.scrubbed) f := by
  have haddr : s.head.addr ≠ 0 := by
    rw [hhead]
    exact hnull
  have hmark : ¬s.head.mark = true := by
    rw [hhead]
    exact Bool.false_ne_true
  have hloaded : (if s.head.addr = 0 then EvQueue.retry .null .tryDequeue
      else if s.head.mark = true then EvQueue.retry .again .tryDequeue
      else .markHead .tryDequeue s.head.addr) = .markHead .tryDequeue a := by
    rw [if_neg haddr, if_neg hmark, hhead]
  refine finish_access hrun hpc rfl rfl ?_
  refine finish_access hrun ((EvQueue.goto_pc_self _ _ _).trans (if_neg htail)) rfl rfl ?_
  refine finish_access hrun ((EvQueue.goto_pc_self _ _ _).trans hloaded) rfl
    (congrArg some (if_pos hhead)) ?_
  refine finish_access hrun (EvQueue.goto_pc_self _ _ _) rfl rfl ?_
  exact finish_testTail hrun (EvQueue.goto_pc_self _ _ _) htail rfl hlast

/-- `try_dequeue` takes off the first element. -/
theorem Quiet.tryDequeueAlone_cons (h : Quiet s (x :: xs)) :
    ∃ f, s.tryDequeueAlone = some f ∧ f.pc 0 = .idle (some (.data x)) ∧ Quiet f xs := by
  obtain ⟨l, hlist, hdata, hold⟩ := h.list
  cases l with
  | nil => cases hdata
  | cons a l =>
    obtain ⟨hhead, hnull, hrest⟩ := hlist.pop
    obtain ⟨hfirst, hxs⟩ := List.cons.inj hdata
    have htail : s.tail ≠ 0 := mt hlist.tail_eq_zero_iff.mp (List.cons_ne_nil a l)
    have hword : s.head = ⟨a, false⟩ := by
      rw [← hhead, ← h.mark]
    have hlast : (s.mem a).next = 0 → s.tail = a := by
      intro hzero
      obtain rfl := hrest.head_eq_zero_iff.mp hzero
      exact hlist.tail
    have hother : ∀ b ∈ l, b ≠ a := by
      rintro b hb rfl
      exact (List.nodup_cons.mp hlist.nodup).1 hb
    obtain ⟨f, hcall, hpc, hleft⟩ := finish_claim (n := 6) (s := s.goto 0 (.loadTail .tryDequeue)) h.running
      (EvQueue.goto_pc_self _ _ _) htail hword hnull hlast
    refine ⟨f, ?_, hpc.trans (by rw [← hfirst]; rfl), ?_⟩
    · rw [EvQueue.tryDequeueAlone, call_step h.running h.idle, Option.bind_some]
      exact hcall
    · refine ⟨hleft.running, hleft.idle, by rw [hleft.head], l, ?_, ?_, ?_⟩
      · rw [hleft.head, hleft.tail, hleft.mem]
        have hiff : (s.mem a).next = 0 ↔ l = [] := hrest.head_eq_zero_iff
        simp only [← hiff] at hrest
        refine hrest.congr fun b hb => ?_
        rw [Function.update_of_ne (hother b hb)]
        rfl
      · rw [hleft.mem, ← hxs]
        refine List.map_congr_left fun b hb => ?_
        rw [Function.update_of_ne (hother b hb)]
        rfl
      · intro b hb
        rw [hleft.mem, hleft.live, Function.update_of_ne (hother b hb), Function.update_of_ne (hother b hb)]
        exact hold b (List.mem_cons_of_mem _ hb)

end Efio.Proofs.Evds
