import Efio.Proofs.Evds.ChunkedStream

/-!
# `Efio.Proofs.Evds.BufferOwnership`: who frees a pushed buffer

In the model a `free` of something that is not the base address of an
allocated buffer ends in a `HeapFault`, so a run without one frees every
buffer at most once and by the address it was pushed with.

A node keeps its base address while its position moves on. `transfer`
gives the new node the position for a buffer, so the base address is lost
when part of the chunk had been consumed: `buffers_owned` is about the
runs in which this does not happen, `not_buffers_owned` is one in which it
does.
-/

set_option autoImplicit false

namespace Efio.Proofs.Evds

open Efio.Lib
open Efio.Evds
open Efio.Spec

variable {ι : Type} {s s' : Streams ι} {r : StreamResult} {op : StreamCall ι}
variable {h : Heap UInt8} {l : ChunkedMemoryStream} {n : BufferNode}

/-- The pushed buffers and the nodes between two calls. -/
structure OwnedInv (s : Streams ι) : Prop extends StreamsInv s where
  base : ∀ i, ∀ n ∈ s.list i, ∃ b ∈ s.pushed, n.buffer = some ⟨b, 0⟩
  known : ∀ b ∈ s.pushed, b < s.heap.fresh
  kept : ∀ b ∈ s.pushed, s.heap.blocks b ≠ none → ∃ i, b ∈ blocksOf (s.list i)

theorem ownedInv_create : OwnedInv (Streams.create ι) where
  toStreamsInv := streamsInv_create
  base := fun _ _ hn => absurd hn List.not_mem_nil
  known := fun _ hb => absurd hb List.not_mem_nil
  kept := fun _ hb => absurd hb List.not_mem_nil

/-! ### What the invariant says -/

theorem ListOk.map_blockOf (hl : ListOk h l) : l.map blockOf = (blocksOf l).map some := by
  induction l with
  | nil => rfl
  | cons n l ih =>
    obtain ⟨b, hb, -⟩ := hl.block
    rw [List.map_cons, blocksOf_cons hb, List.map_cons, ih hl.tail, hb]

/-- No two nodes of a stream have the same block. -/
theorem ListOk.index_eq (hl : ListOk h l) {k m : Nat} {n n' : BufferNode} (hn : l[k]? = some n)
    (hn' : l[m]? = some n') (hblock : blockOf n = blockOf n') : k = m := by
  have hnodup : (l.map blockOf).Nodup := by
    rw [hl.map_blockOf]
    exact List.pairwise_map.mpr (hl.nodup.imp fun hne heq => hne (Option.some.inj heq))
  obtain ⟨hlt, -⟩ := List.getElem?_eq_some_iff.mp hn
  have hlt : k < (l.map blockOf).length := by simpa using hlt
  refine (List.getElem?_inj hlt hnodup).mp ?_
  rw [List.getElem?_map, List.getElem?_map, hn, hn', Option.map_some, Option.map_some, hblock]

theorem OwnedInv.isBase (hs : OwnedInv s) {i : ι} (hn : n ∈ s.list i) : IsBase n := by
  intro p hp
  obtain ⟨b, -, hbuffer⟩ := hs.base i n hn
  cases hbuffer.symm.trans hp
  rfl

/-- The node of a block that is in a stream. -/
theorem OwnedInv.node_of_block (hs : OwnedInv s) {i : ι} {b : Nat} (hb : b ∈ blocksOf (s.list i)) :
    ∃ n ∈ s.list i, n.buffer = some ⟨b, 0⟩ := by
  obtain ⟨n, hn, hblock⟩ := List.mem_filterMap.mp hb
  obtain ⟨b', -, hbuffer⟩ := hs.base i n hn
  have hb' : some b' = some b := by
    rw [← hblock, blockOf, hbuffer]
    rfl
  cases hb'
  exact ⟨n, hn, hbuffer⟩

theorem OwnedInv.owned (hs : OwnedInv s) : Owned s where
  base := hs.base
  alone := by
    intro i j k m n n' hn hn' hbuffer
    have hblock : blockOf n = blockOf n' := congrArg (Option.map Ptr.block) hbuffer
    obtain ⟨b, -, hb⟩ := hs.base i n (List.mem_of_getElem? hn)
    have hb : blockOf n = some b := by rw [blockOf, hb]; rfl
    have hij : i = j := hs.apart i j b (mem_blocksOf (List.mem_of_getElem? hn) hb)
      (mem_blocksOf (List.mem_of_getElem? hn') (hblock ▸ hb))
    subst hij
    exact ⟨rfl, (hs.list i).index_eq hn hn' hblock⟩
  kept := by
    intro b hb hlive
    obtain ⟨i, hi⟩ := hs.kept b hb hlive
    exact ⟨i, hs.node_of_block hi⟩
  live := by
    intro i n hn p hp
    have hb : blockOf n = some p.block := by rw [blockOf, hp]; rfl
    obtain ⟨c, hc⟩ := (hs.list i).allocated (mem_blocksOf hn hb)
    rw [hc]
    exact Option.some_ne_none c

/-- All that a call consumes can be freed. -/
theorem OwnedInv.consumesBases (hs : OwnedInv s) (op : StreamCall ι) : ConsumesBases s op := by
  cases op with
  | read i n => exact fun m hm => hs.isBase (consumed_subset _ _ m hm)
  | erase i n => exact fun m hm => hs.isBase (consumed_subset _ _ m hm)
  | push i data => trivial
  | copy i start n => trivial
  | transfer dst src => trivial

/-! ### The calls -/

variable [DecidableEq ι]

/-- The nodes that `n` bytes consume are deleted. -/
theorem OwnedInv.consume (hs : OwnedInv s) {i : ι} {n : Nat} {h' : Heap UInt8}
    (hall : deleteAll s.heap (Spec.consumed (s.list i) n) = .ok h') :
    OwnedInv { s.setList i (remaining (s.list i) n) with heap := h' } := by
  have hl := hs.list i
  have hreleased := ((hl.consumed n).deleteAll_ok hall).2
  have hblocks := hl.blocksOf_consumed n
  refine ⟨(hs.toStreamsInv.consume hall).1, ?_, ?_, ?_⟩
  · intro j m hm
    by_cases hj : j = i
    · subst hj
      have hm : m ∈ remaining (s.list j) n := by simpa [Streams.setList] using hm
      obtain ⟨m', hm', hbuffer⟩ := buffer_remaining _ _ m hm
      obtain ⟨b, hb, hb'⟩ := hs.base j m' hm'
      exact ⟨b, hb, hbuffer.trans hb'⟩
    · have hm : m ∈ s.list j := by simpa [Streams.setList, hj] using hm
      exact hs.base j m hm
  · intro b hb
    rw [hreleased.fresh]
    exact hs.known b hb
  · intro b hb hlive
    -- A block that is still allocated was not among those consumed.
    have hnot : b ∉ blocksOf (Spec.consumed (s.list i) n) := fun hfreed => hlive (hreleased.freed b hfreed)
    have hlive : s.heap.blocks b ≠ none := fun hnone => hlive ((hreleased.kept b hnot).trans hnone)
    obtain ⟨j, hj⟩ := hs.kept b hb hlive
    refine ⟨j, ?_⟩
    by_cases hji : j = i
    · subst hji
      rw [← hblocks] at hj
      simpa [Streams.setList] using (List.mem_append.mp hj).resolve_left hnot
    · simpa [Streams.setList, hji] using hj

theorem OwnedInv.push (hs : OwnedInv s) {i : ι} {data : List UInt8}
    (hcall : Streams.call (.push i data) s = .ok (s', r)) : OwnedInv s' := by
  have hinv := call_inv hs.toStreamsInv hcall
  cases hcall
  have hlt : ∀ b ∈ s.pushed, b < s.heap.fresh + 1 := fun b hb => Nat.lt_succ_of_lt (hs.known b hb)
  -- A pushed buffer that was not freed before the call is where it was.
  have hkept : ∀ b ∈ s.pushed, (s.heap.alloc data).blocks b ≠ none → ∃ j, b ∈ blocksOf (s.list j) := by
    intro b hb hlive
    refine hs.kept b hb fun hnone => hlive ?_
    rw [← hnone]
    exact Function.update_of_ne (Nat.ne_of_lt (hs.known b hb)) _ _
  by_cases hdata : data.length = 0
  · simp only [hdata, ne_eq, not_true_eq_false, if_false] at hinv ⊢
    refine ⟨hinv, ?_, hlt, ?_⟩
    · intro j n hn
      exact hs.base j n (by simpa [Streams.setList] using hn)
    · intro b hb hlive
      obtain ⟨j, hj⟩ := hkept b hb hlive
      exact ⟨j, by simpa [Streams.setList] using hj⟩
  · simp only [hdata, ne_eq, not_false_eq_true, if_true] at hinv ⊢
    have hnew : blocksOf ((s.list i).addNode (some s.heap.newPtr) data.length) =
        blocksOf (s.list i) ++ [s.heap.fresh] := by
      rw [ChunkedMemoryStream.addNode, blocksOf_append, blocksOf_cons rfl, blocksOf_nil]
      rfl
    refine ⟨hinv, ?_, ?_, ?_⟩
    · intro j n hn
      have hold : n ∈ s.list j → ∃ b ∈ s.pushed ++ [s.heap.newPtr.block], n.buffer = some ⟨b, 0⟩ := by
        intro hn
        obtain ⟨b, hb, hbuffer⟩ := hs.base j n hn
        exact ⟨b, List.mem_append_left _ hb, hbuffer⟩
      by_cases hj : j = i
      · subst hj
        have hn : n ∈ s.list j ∨ n = .setBuffer (some s.heap.newPtr) data.length := by
          simpa [Streams.setList, ChunkedMemoryStream.addNode] using hn
        obtain hn | rfl := hn
        · exact hold hn
        · exact ⟨_, List.mem_append_right _ List.mem_cons_self, rfl⟩
      · exact hold (by simpa [Streams.setList, hj] using hn)
    · intro b hb
      obtain hb | hb := List.mem_append.mp hb
      · exact hlt b hb
      · rw [List.mem_singleton.mp hb]
        exact Nat.lt_succ_self _
    · intro b hb hlive
      obtain hb | hb := List.mem_append.mp hb
      · obtain ⟨j, hj⟩ := hkept b hb hlive
        refine ⟨j, ?_⟩
        by_cases hji : j = i
        · subst hji
          simp [Streams.setList, hnew, hj]
        · simpa [Streams.setList, hji] using hj
      · refine ⟨i, ?_⟩
        simp only [Streams.setList, Function.update_self]
        rw [hnew, List.mem_singleton.mp hb]
        exact List.mem_append_right _ List.mem_cons_self

/-- The new list of one of the streams of a `transfer`. -/
theorem call_transfer_ok {dst src : ι} (hne : dst ≠ src)
    (hcall : Streams.call (.transfer dst src) s = .ok (s', r)) :
    s'.heap = s.heap ∧ s'.pushed = s.pushed ∧ s'.list src = [] ∧
      s'.list dst = s.list dst ++ (s.list src).map moved ∧
      ∀ j, j ≠ dst → j ≠ src → s'.list j = s.list j := by
  simp only [Streams.call, if_neg hne, transfer_eq] at hcall
  cases hcall
  refine ⟨rfl, rfl, ?_, ?_, ?_⟩
  · simp [Streams.setList]
  · simp [Streams.setList, hne]
  · intro j hdst hsrc
    simp [Streams.setList, hdst, hsrc]

theorem OwnedInv.transfer (hs : OwnedInv s) {dst src : ι} (hwhole : MovesWhole s (.transfer dst src))
    (hcall : Streams.call (.transfer dst src) s = .ok (s', r)) : OwnedInv s' := by
  have hinv := call_inv hs.toStreamsInv hcall
  by_cases hne : dst = src
  · simp only [Streams.call, if_pos hne] at hcall
    split at hcall
    · cases hcall
      exact hs
    · cases hcall
  obtain ⟨hheap, hpushed, hsrc, hdst, hothers⟩ := call_transfer_ok hne hcall
  refine ⟨hinv, ?_, ?_, ?_⟩
  · intro j n hn
    rw [hpushed]
    by_cases hjsrc : j = src
    · rw [hjsrc, hsrc] at hn
      exact absurd hn List.not_mem_nil
    by_cases hjdst : j = dst
    · rw [hjdst, hdst] at hn
      obtain hn | hn := List.mem_append.mp hn
      · exact hs.base dst n hn
      · -- Nothing of the node was consumed: its position is its base.
        obtain ⟨m, hm, rfl⟩ := List.mem_map.mp hn
        obtain ⟨b, hb, hbuffer⟩ := hs.base src m hm
        exact ⟨b, hb, (hwhole m hm).trans hbuffer⟩
    · rw [hothers j hjdst hjsrc] at hn
      exact hs.base j n hn
  · rw [hpushed, hheap]
    exact hs.known
  · intro b hb hlive
    rw [hpushed] at hb
    rw [hheap] at hlive
    obtain ⟨j, hj⟩ := hs.kept b hb hlive
    by_cases hjsrc : j = src
    · refine ⟨dst, ?_⟩
      rw [hdst, blocksOf_append, (hs.list src).moved.2.1]
      exact List.mem_append_right _ (hjsrc ▸ hj)
    by_cases hjdst : j = dst
    · refine ⟨dst, ?_⟩
      rw [hdst, blocksOf_append]
      exact List.mem_append_left _ (hjdst ▸ hj)
    · exact ⟨j, by rw [hothers j hjdst hjsrc]; exact hj⟩

/-- Each call keeps the ownership. -/
theorem OwnedInv.call (hs : OwnedInv s) (hwhole : MovesWhole s op)
    (hcall : Streams.call op s = .ok (s', r)) : OwnedInv s' := by
  cases op with
  | push i data => exact hs.push hcall
  | read i n =>
    obtain ⟨h', hall, hstate⟩ := map_eq_ok ((call_read hs.toStreamsInv i n).symm.trans hcall)
    cases hstate
    exact hs.consume hall
  | copy i start n =>
    cases (call_copy hs.toStreamsInv i start n).symm.trans hcall
    exact hs
  | erase i n =>
    obtain ⟨h', hall, hstate⟩ := map_eq_ok ((call_erase hs.toStreamsInv i n).symm.trans hcall)
    cases hstate
    exact hs.consume hall
  | transfer dst src => exact hs.transfer hwhole hcall

/-- A call does not end the program: it returns, or transfers a stream to
itself. -/
theorem OwnedInv.no_fault (hs : OwnedInv s) {e : StreamFault}
    (hcall : Streams.call op s = .error e) : e = .loops := by
  by_cases hdistinct : Distinct op
  · obtain ⟨s₁, r₁, hcall₁, -⟩ := call_good hs.toStreamsInv hdistinct (hs.consumesBases op)
    cases hcall.symm.trans hcall₁
  · cases op with
    | transfer dst src =>
      simp only [Distinct, ne_eq, Decidable.not_not] at hdistinct
      simp only [Streams.call, if_pos hdistinct] at hcall
      split at hcall
      · cases hcall
      · cases hcall
        rfl
    | push i data => exact absurd trivial hdistinct
    | read i n => exact absurd trivial hdistinct
    | copy i start n => exact absurd trivial hdistinct
    | erase i n => exact absurd trivial hdistinct

/-- A chunk that is transferred without its first bytes loses its owner. -/
theorem OwnedInv.movesWhole_transfer (hs : OwnedInv s) {dst src : ι} (hne : dst ≠ src)
    (hcall : Streams.call (.transfer dst src) s = .ok (s', r)) (howned : Owned s') :
    MovesWhole s (.transfer dst src) := by
  obtain ⟨-, -, -, hdst, -⟩ := call_transfer_ok hne hcall
  intro n hn
  have hmem : moved n ∈ s'.list dst := by
    rw [hdst]
    exact List.mem_append_right _ (List.mem_map_of_mem hn)
  obtain ⟨b, -, hbuffer⟩ := howned.base dst (moved n) hmem
  have hposition : n.position = some ⟨b, 0⟩ := hbuffer
  cases (hs.list src).node n hn with
  | @mk b₀ off k m c hblock hfits hrest =>
    obtain ⟨-, hoff⟩ := Ptr.mk.inj (Option.some.inj hposition)
    have hk : off + k = off := by omega
    exact congrArg (fun off => some (Ptr.mk b₀ off)) hk

theorem OwnedInv.movesWhole (hs : OwnedInv s) (hdistinct : Distinct op)
    (hcall : Streams.call op s = .ok (s', r)) (howned : Owned s') : MovesWhole s op := by
  cases op with
  | transfer dst src => exact hs.movesWhole_transfer hdistinct hcall howned
  | push i data => trivial
  | read i n => trivial
  | copy i start n => trivial
  | erase i n => trivial

/-- **Pushed buffers have one owner and are freed once** as long as every
transfer moves chunks of which nothing has been consumed. Between different
streams this is also necessary. -/
theorem buffers_owned (ops : List (StreamCall ι)) :
    (Along Streams.call MovesWhole ops (.create ι) →
      (∀ s rs, runCalls Streams.call ops (.create ι) = .ok (s, rs) → Owned s) ∧
      ∀ e, runCalls Streams.call ops (.create ι) = .error e → e = .loops) ∧
    ((∀ op ∈ ops, Distinct op) →
      (∀ pre, pre <+: ops → ∃ s rs, runCalls Streams.call pre (.create ι) = .ok (s, rs) ∧ Owned s) →
      Along Streams.call MovesWhole ops (.create ι)) := by
  have hpres : ∀ (s : Streams ι) op s' r, OwnedInv s → MovesWhole s op →
      Streams.call op s = .ok (s', r) → OwnedInv s' := fun _ _ _ _ hs hwhole hcall => hs.call hwhole hcall
  refine ⟨fun halong => ⟨?_, ?_⟩, ?_⟩
  · intro s rs hrun
    exact (halong.invariant hpres ownedInv_create hrun).owned
  · intro e hrun
    exact halong.fault (F := (· = .loops)) hpres (fun _ _ _ hs _ hcall => hs.no_fault hcall)
      ownedInv_create hrun
  · intro hdistinct howned
    exact along_of_prefixes hpres (fun _ _ _ _ hs hne hcall ho => hs.movesWhole hne hcall ho)
      ownedInv_create hdistinct howned

/-- A chunk is transferred and then read in part. -/
theorem buffers_owned_sample : ∃ s rs,
    runCalls Streams.call [.push true [1, 2], .transfer false true, .read false 1] (.create Bool) =
      .ok (s, rs) ∧ Owned s := by
  have hwhole : ∀ n ∈ [(⟨some ⟨0, 0⟩, 2, some ⟨0, 0⟩, 2⟩ : BufferNode)], Whole n := by
    intro n hn
    rw [List.mem_singleton.mp hn]
    rfl
  have halong : Along Streams.call MovesWhole
      [.push true [1, 2], .transfer false true, .read false 1] (.create Bool) := by
    refine ⟨trivial, fun s r h => ?_⟩
    cases h
    exact ⟨hwhole, fun _ _ _ => ⟨trivial, fun _ _ _ => trivial⟩⟩
  exact ⟨_, _, rfl, ((buffers_owned _).1 halong).1 _ _ rfl⟩

/-- A chunk is transferred without its first byte: the base address of its
buffer is lost, and a `free` of the new one fails. -/
theorem not_buffers_owned : ¬∀ ops : List (StreamCall Bool),
    (∀ s rs, runCalls Streams.call ops (.create Bool) = .ok (s, rs) → Owned s) ∧
      ∀ e, runCalls Streams.call ops (.create Bool) = .error e → e = .loops := by
  intro h
  have hfault : runCalls Streams.call
      [.push true [1, 2], .read true 1, .transfer false true, .erase false 1] (.create Bool) =
      .error (.heap .notBase) := rfl
  cases (h _).2 _ hfault

end Efio.Proofs.Evds
