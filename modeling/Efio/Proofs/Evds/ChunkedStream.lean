import Efio.Spec.ByteQueue

/-!
# `Efio.Proofs.Evds.ChunkedStream`: the streams are byte queues

The three loops of `read`, `copy` and `erase` go over chunks of any sizes
with a partly consumed first one. Each has one lemma that says what it does
to the flat content (`readLoop_eq`, `copyLoop_eq`, `eraseLoop_eq`), and
`StreamsInv` is what the calls keep.

`transfer` hands on the position of a node as its new buffer. When part of
the chunk had been consumed, that is not an address `malloc` has returned,
and the `free` of the node that has it fails. `streams_agree` says that
this is the only thing that can go wrong; in `not_streams_agree` it does.
-/

set_option autoImplicit false

namespace Efio.Proofs.Evds

open Efio.Lib
open Efio.Evds
open Efio.Spec

variable {h h' : Heap UInt8} {n : BufferNode} {l : ChunkedMemoryStream}

/-! ### One node -/

/-- A node between two calls: its buffer lies in an allocated block, and
something of it is left. -/
inductive NodeOk (h : Heap UInt8) : BufferNode → Prop where
  | mk {b off k m : Nat} {c : List UInt8} (hblock : h.blocks b = some c)
      (hfits : off + (k + m) ≤ c.length) (hrest : 0 < m) :
      NodeOk h ⟨some ⟨b, off⟩, k + m, some ⟨b, off + k⟩, m⟩

/-- The block of a node. -/
def blockOf (n : BufferNode) : Option Nat := n.buffer.map Ptr.block

/-- The node after `bytes` more bytes have been consumed. -/
def shifted (n : BufferNode) (bytes : Nat) : BufferNode :=
  { n with
    position := n.position.map (·.add bytes)
    sizeAtPosition := n.sizeAtPosition - bytes }

/-- The node that `transfer` makes of `n`. -/
def moved (n : BufferNode) : BufferNode := .setBuffer n.getBuffer n.getBufferLen

theorem NodeOk.pos (hn : NodeOk h n) : 0 < n.sizeAtPosition := by
  cases hn
  assumption

theorem NodeOk.length (hn : NodeOk h n) : (nodeBytes h n).length = n.sizeAtPosition := by
  cases hn with
  | mk hblock hfits hrest =>
    simp only [nodeBytes, hblock, Option.getD_some, List.length_take, List.length_drop]
    omega

theorem NodeOk.memcpy (hn : NodeOk h n) {start m : Nat} (hm : start + m ≤ n.sizeAtPosition) :
    n.memcpy h start m = .ok (((nodeBytes h n).drop start).take m) := by
  cases hn with
  | @mk b off k r c hblock hfits hrest =>
    have hm' : start + m ≤ r := hm
    have hload : h.load ((⟨b, off + k⟩ : Ptr).add start) m =
        .ok ((c.drop (off + k + start)).take m) := by
      refine Heap.load_eq hblock ?_
      simp only [Ptr.add_off]
      omega
    simp only [BufferNode.memcpy, BufferNode.getBuffer, hload, nodeBytes, hblock, Option.getD_some,
      Except.mapError, List.drop_take, List.take_take, List.drop_drop]
    rw [Nat.min_eq_left (by omega)]

theorem NodeOk.shift (hn : NodeOk h n) {m : Nat} (hm : m < n.sizeAtPosition) :
    n.shiftBufferPosition m = .ok (shifted n m) ∧ NodeOk h (shifted n m) ∧
      nodeBytes h (shifted n m) = (nodeBytes h n).drop m := by
  cases hn with
  | @mk b off k r c hblock hfits hrest =>
    have hm' : m < r := hm
    have hnew : NodeOk h (shifted ⟨some ⟨b, off⟩, k + r, some ⟨b, off + k⟩, r⟩ m) := by
      have hnode : shifted ⟨some ⟨b, off⟩, k + r, some ⟨b, off + k⟩, r⟩ m =
          ⟨some ⟨b, off⟩, k + m + (r - m), some ⟨b, off + (k + m)⟩, r - m⟩ := by
        simp only [shifted, Option.map_some, Ptr.add, BufferNode.mk.injEq, true_and, Option.some.injEq,
          Ptr.mk.injEq, and_true]
        omega
      rw [hnode]
      exact .mk hblock (by omega) (by omega)
    refine ⟨?_, hnew, ?_⟩
    · simp only [BufferNode.shiftBufferPosition]
      rw [if_pos (by omega), if_pos (by omega)]
      rfl
    · simp only [shifted, nodeBytes, Option.map_some, Ptr.add, hblock, Option.getD_some, List.drop_take,
        List.drop_drop]

theorem mapError_eq_ok {ε ε' β : Type} {r : Except ε β} {g : ε → ε'} {v : β} :
    r.mapError g = .ok v ↔ r = .ok v := by
  cases r with
  | error e => simp [Except.mapError]
  | ok w => simp [Except.mapError]

/-- A node can be deleted if its buffer is a base address. -/
theorem NodeOk.delete_eq (hn : NodeOk h n) (hbase : IsBase n) : ∃ h', n.delete h = .ok h' := by
  cases hn with
  | @mk b off k m c hblock hfits hrest =>
    obtain ⟨h', hfree, -, -⟩ := Heap.free_eq (p := ⟨b, off⟩) hblock (hbase ⟨b, off⟩ rfl)
    exact ⟨h', mapError_eq_ok.mpr hfree⟩

/-- And only then. -/
theorem NodeOk.delete_ok (hn : NodeOk h n) (hdelete : n.delete h = .ok h') :
    ∃ b, n.buffer = some ⟨b, 0⟩ ∧ h'.fresh = h.fresh ∧
      h'.blocks = Function.update h.blocks b none := by
  cases hn with
  | @mk b off k m c hblock hfits hrest =>
    obtain ⟨hoff, -, hfresh, hblocks⟩ := Heap.free_ok (mapError_eq_ok.mp hdelete)
    have hoff : off = 0 := hoff
    subst hoff
    exact ⟨b, rfl, hfresh, hblocks⟩

theorem NodeOk.congr (hn : NodeOk h n) (hsame : ∀ b, blockOf n = some b → h'.blocks b = h.blocks b) :
    NodeOk h' n ∧ nodeBytes h' n = nodeBytes h n := by
  cases hn with
  | @mk b off k m c hblock hfits hrest =>
    have hb := hsame b rfl
    refine ⟨.mk (hb.trans hblock) hfits hrest, ?_⟩
    simp only [nodeBytes, hb]

theorem NodeOk.moved (hn : NodeOk h n) :
    NodeOk h (moved n) ∧ nodeBytes h (moved n) = nodeBytes h n ∧ blockOf (moved n) = blockOf n := by
  cases hn with
  | @mk b off k m c hblock hfits hrest =>
    refine ⟨?_, rfl, rfl⟩
    have hnode : Proofs.Evds.moved ⟨some ⟨b, off⟩, k + m, some ⟨b, off + k⟩, m⟩ =
        ⟨some ⟨b, off + k⟩, 0 + m, some ⟨b, off + k + 0⟩, m⟩ := by
      simp [Proofs.Evds.moved, BufferNode.setBuffer, BufferNode.getBuffer, BufferNode.getBufferLen]
    rw [hnode]
    exact .mk hblock (by omega) hrest

/-! ### Lists of nodes -/

/-- The blocks of the nodes. -/
def blocksOf (l : ChunkedMemoryStream) : List Nat := l.filterMap blockOf

/-- A stream between two calls. -/
structure ListOk (h : Heap UInt8) (l : ChunkedMemoryStream) : Prop where
  node : ∀ n ∈ l, NodeOk h n
  nodup : (blocksOf l).Nodup

/-- What is left of the nodes when `n` bytes are consumed. -/
def remaining : ChunkedMemoryStream → Nat → ChunkedMemoryStream
  | [], _ => []
  | m :: l, n =>
    if n ≠ 0 then
      if m.sizeAtPosition ≤ n then remaining l (n - m.sizeAtPosition) else shifted m n :: l
    else m :: l

/-- The blocks `bs` have been freed. -/
structure Released (h h' : Heap UInt8) (bs : List Nat) : Prop where
  fresh : h'.fresh = h.fresh
  freed : ∀ b ∈ bs, h'.blocks b = none
  kept : ∀ b, b ∉ bs → h'.blocks b = h.blocks b

theorem Released.nil (h : Heap UInt8) : Released h h [] where
  fresh := rfl
  freed := fun _ hb => absurd hb List.not_mem_nil
  kept := fun _ _ => rfl

theorem Released.cons {h'' : Heap UInt8} {b : Nat} {bs : List Nat} (hfresh : h'.fresh = h.fresh)
    (hblocks : h'.blocks = Function.update h.blocks b none) (hrest : Released h' h'' bs) :
    Released h h'' (b :: bs) where
  fresh := hrest.fresh.trans hfresh
  freed := by
    intro b' hb'
    by_cases hmem : b' ∈ bs
    · exact hrest.freed b' hmem
    · have hb' : b' = b := (List.mem_cons.mp hb').resolve_right hmem
      rw [hrest.kept b' hmem, hblocks, hb', Function.update_self]
  kept := by
    intro b' hb'
    obtain ⟨hne, hmem⟩ := not_or.mp (mt List.mem_cons.mpr hb')
    rw [hrest.kept b' hmem, hblocks, Function.update_of_ne hne]

@[simp] theorem content_nil (h : Heap UInt8) : content h [] = [] := rfl

theorem content_cons (h : Heap UInt8) (n : BufferNode) (l : ChunkedMemoryStream) :
    content h (n :: l) = nodeBytes h n ++ content h l := List.flatMap_cons

theorem content_append (h : Heap UInt8) (l l' : ChunkedMemoryStream) :
    content h (l ++ l') = content h l ++ content h l' := List.flatMap_append

@[simp] theorem blocksOf_nil : blocksOf [] = [] := rfl

theorem blocksOf_cons {b : Nat} (hb : blockOf n = some b) : blocksOf (n :: l) = b :: blocksOf l :=
  List.filterMap_cons_some hb

theorem mem_blocksOf {b : Nat} (hn : n ∈ l) (hb : blockOf n = some b) : b ∈ blocksOf l :=
  List.mem_filterMap.mpr ⟨n, hn, hb⟩

theorem listOk_nil (h : Heap UInt8) : ListOk h [] where
  node := fun _ hn => absurd hn List.not_mem_nil
  nodup := List.nodup_nil

theorem ListOk.head (hl : ListOk h (n :: l)) : NodeOk h n := hl.node n List.mem_cons_self

theorem ListOk.block (hl : ListOk h (n :: l)) : ∃ b, blockOf n = some b ∧ b ∉ blocksOf l := by
  have hnodup := hl.nodup
  obtain ⟨b, hb⟩ : ∃ b, blockOf n = some b := by
    cases hl.head
    exact ⟨_, rfl⟩
  rw [blocksOf_cons hb] at hnodup
  exact ⟨b, hb, (List.nodup_cons.mp hnodup).1⟩

theorem ListOk.tail (hl : ListOk h (n :: l)) : ListOk h l := by
  obtain ⟨b, hb, -⟩ := hl.block
  have hnodup := hl.nodup
  rw [blocksOf_cons hb] at hnodup
  exact ⟨fun m hm => hl.node m (List.mem_cons_of_mem _ hm), (List.nodup_cons.mp hnodup).2⟩

/-- Only the blocks of the nodes matter to a stream. -/
theorem ListOk.congr (hl : ListOk h l) (hsame : ∀ b ∈ blocksOf l, h'.blocks b = h.blocks b) :
    ListOk h' l ∧ content h' l = content h l := by
  have hnode : ∀ n ∈ l, NodeOk h' n ∧ nodeBytes h' n = nodeBytes h n := by
    intro n hn
    exact (hl.node n hn).congr fun b hb => hsame b (mem_blocksOf hn hb)
  exact ⟨⟨fun n hn => (hnode n hn).1, hl.nodup⟩, List.flatMap_congr fun n hn => (hnode n hn).2⟩

/-- The deletion of the first node leaves the others alone. -/
theorem ListOk.delete_head (hl : ListOk h (n :: l)) (hdelete : n.delete h = .ok h') :
    ∃ b, blockOf n = some b ∧ h'.fresh = h.fresh ∧ h'.blocks = Function.update h.blocks b none ∧
      ListOk h' l ∧ content h' l = content h l := by
  obtain ⟨b, hbuffer, hfresh, hblocks⟩ := hl.head.delete_ok hdelete
  obtain ⟨b', hb', hnotin⟩ := hl.block
  have hb : blockOf n = some b := by
    simp [blockOf, hbuffer]
  cases hb.symm.trans hb'
  refine ⟨b, hb, hfresh, hblocks, hl.tail.congr ?_⟩
  intro b' hb'
  have hne : b' ≠ b := fun heq => hnotin (heq ▸ hb')
  rw [hblocks, Function.update_of_ne hne]

/-- What is consumed and what remains have the blocks of the stream. -/
theorem ListOk.blocksOf_consumed (hl : ListOk h l) (m : Nat) :
    blocksOf (consumed l m) ++ blocksOf (remaining l m) = blocksOf l := by
  induction l generalizing m with
  | nil => rfl
  | cons n l ih =>
    obtain ⟨b, hb, -⟩ := hl.block
    by_cases hzero : m = 0
    · subst hzero
      rfl
    · simp only [consumed, remaining, hzero, ne_eq, not_false_eq_true, true_and, if_true]
      split
      · rw [blocksOf_cons hb, blocksOf_cons hb, List.cons_append, ih hl.tail]
      · have hshifted : blockOf (shifted n m) = some b := hb
        rw [blocksOf_cons hb, blocksOf_cons hshifted, blocksOf_nil, List.nil_append]

theorem consumed_subset (l : ChunkedMemoryStream) (m : Nat) : ∀ n ∈ consumed l m, n ∈ l := by
  induction l generalizing m with
  | nil => exact fun n hn => hn
  | cons n l ih =>
    intro n' hn'
    simp only [consumed] at hn'
    split at hn'
    · exact (List.mem_cons.mp hn').elim (fun h => h ▸ List.mem_cons_self)
        fun h => List.mem_cons_of_mem _ (ih _ n' h)
    · exact absurd hn' List.not_mem_nil

theorem ListOk.consumed (hl : ListOk h l) (m : Nat) : ListOk h (consumed l m) where
  node := fun n hn => hl.node n (consumed_subset l m n hn)
  nodup := by
    have hnodup := hl.nodup
    rw [← hl.blocksOf_consumed m] at hnodup
    exact (List.nodup_append.mp hnodup).1

/-- What remains is the content without the first bytes. -/
theorem ListOk.remaining (hl : ListOk h l) (m : Nat) :
    ListOk h (remaining l m) ∧ content h (remaining l m) = (content h l).drop m := by
  have hnodes : (∀ n ∈ Evds.remaining l m, NodeOk h n) ∧
      content h (Evds.remaining l m) = (content h l).drop m := by
    induction l generalizing m with
    | nil => exact ⟨(listOk_nil h).node, List.drop_nil.symm⟩
    | cons n l ih =>
      have hn := hl.head
      by_cases hzero : m = 0
      · subst hzero
        exact ⟨hl.node, rfl⟩
      · simp only [Evds.remaining, hzero, ne_eq, not_false_eq_true, if_true]
        split
        · rename_i hwhole
          obtain ⟨hok, hrest⟩ := ih hl.tail (m - n.sizeAtPosition)
          have hgone : (nodeBytes h n).drop m = [] :=
            List.drop_eq_nil_of_le (by rw [hn.length]; exact hwhole)
          refine ⟨hok, ?_⟩
          rw [hrest, content_cons, List.drop_append, hn.length, hgone, List.nil_append]
        · rename_i hpart
          obtain ⟨-, hshift, hbytes⟩ := hn.shift (Nat.lt_of_not_le hpart)
          refine ⟨?_, ?_⟩
          · intro n' hn'
            obtain rfl | hn' := List.mem_cons.mp hn'
            · exact hshift
            · exact hl.tail.node n' hn'
          · rw [content_cons, content_cons, hbytes, List.drop_append_of_le_length]
            rw [hn.length]
            exact Nat.le_of_not_le hpart
  have hnodup := hl.nodup
  rw [← hl.blocksOf_consumed m] at hnodup
  exact ⟨⟨hnodes.1, (List.nodup_append.mp hnodup).2.1⟩, hnodes.2⟩

/-! ### The deletion of nodes -/

/-- The nodes are deleted in order. -/
def deleteAll (h : Heap UInt8) : List BufferNode → Except StreamFault (Heap UInt8)
  | [] => .ok h
  | n :: l => do
    let h ← n.delete h
    deleteAll h l

theorem deleteAll_nil (h : Heap UInt8) : deleteAll h [] = .ok h := rfl

theorem deleteAll_cons (h : Heap UInt8) (n : BufferNode) (l : List BufferNode) :
    deleteAll h (n :: l) = (n.delete h >>= fun h => deleteAll h l) := rfl

/-- The nodes can be deleted if their buffers are base addresses. -/
theorem ListOk.deleteAll_eq (hl : ListOk h l) (hbase : ∀ n ∈ l, IsBase n) :
    ∃ h', deleteAll h l = .ok h' := by
  induction l generalizing h with
  | nil => exact ⟨h, rfl⟩
  | cons n l ih =>
    obtain ⟨h₁, hdelete⟩ := hl.head.delete_eq (hbase n List.mem_cons_self)
    obtain ⟨b, -, -, -, hrest, -⟩ := hl.delete_head hdelete
    obtain ⟨h', hall⟩ := ih hrest fun m hm => hbase m (List.mem_cons_of_mem _ hm)
    exact ⟨h', by rw [deleteAll_cons, hdelete]; exact hall⟩

/-- And only then. -/
theorem ListOk.deleteAll_ok (hl : ListOk h l) (hall : deleteAll h l = .ok h') :
    (∀ n ∈ l, IsBase n) ∧ Released h h' (blocksOf l) := by
  induction l generalizing h with
  | nil =>
    cases hall
    exact ⟨fun n hn => absurd hn List.not_mem_nil, .nil _⟩
  | cons n l ih =>
    rw [deleteAll_cons] at hall
    obtain ⟨h₁, hdelete, hall⟩ := bind_eq_ok.mp hall
    obtain ⟨b, hb, hfresh, hblocks, hrest, -⟩ := hl.delete_head hdelete
    obtain ⟨b', hbuffer, -, -⟩ := hl.head.delete_ok hdelete
    obtain ⟨hbase, hreleased⟩ := ih hrest hall
    refine ⟨?_, ?_⟩
    · intro m hm
      obtain rfl | hm := List.mem_cons.mp hm
      · intro p hp
        cases hbuffer.symm.trans hp
        rfl
      · exact hbase m hm
    · rw [blocksOf_cons hb]
      exact .cons hfresh hblocks hreleased

/-- What remains of a stream has the buffers it had. -/
theorem buffer_remaining (l : ChunkedMemoryStream) (m : Nat) :
    ∀ n ∈ remaining l m, ∃ n' ∈ l, n.buffer = n'.buffer := by
  induction l generalizing m with
  | nil => exact fun n hn => absurd hn List.not_mem_nil
  | cons n l ih =>
    intro n' hn'
    simp only [remaining] at hn'
    split at hn'
    · split at hn'
      · obtain ⟨n'', hn'', hbuffer⟩ := ih _ n' hn'
        exact ⟨n'', List.mem_cons_of_mem _ hn'', hbuffer⟩
      · obtain rfl | hn' := List.mem_cons.mp hn'
        · exact ⟨n, List.mem_cons_self, rfl⟩
        · exact ⟨n', List.mem_cons_of_mem _ hn', rfl⟩
    · exact ⟨n', hn', rfl⟩

/-- What is left when the nodes that `m` bytes consume have been deleted. -/
theorem ListOk.consume (hl : ListOk h l) {m : Nat} (hall : deleteAll h (Spec.consumed l m) = .ok h') :
    ListOk h' (Evds.remaining l m) ∧ content h' (Evds.remaining l m) = (content h l).drop m := by
  have hreleased := ((hl.consumed m).deleteAll_ok hall).2
  have hnodup := hl.nodup
  rw [← hl.blocksOf_consumed m] at hnodup
  obtain ⟨hrest, hdrop⟩ := hl.remaining m
  obtain ⟨hok, hcontent⟩ := hrest.congr fun b hb => hreleased.kept b fun hfreed =>
    (List.nodup_append.mp hnodup).2.2 b hfreed b hb rfl
  exact ⟨hok, hcontent.trans hdrop⟩

/-! ### The loops -/

/-- `erase` deletes the nodes it consumes. -/
theorem ListOk.eraseLoop_eq (hl : ListOk h l) (m erased : Nat) :
    ChunkedMemoryStream.eraseLoop h l m erased =
      (deleteAll h (Spec.consumed l m)).map fun h' =>
        (h', Evds.remaining l m, erased + min m (content h l).length) := by
  induction l generalizing h m erased with
  | nil =>
    simp [ChunkedMemoryStream.eraseLoop, Spec.consumed, Evds.remaining, deleteAll, Except.map]
  | cons n l ih =>
    have hlength := hl.head.length
    by_cases hzero : m = 0
    · subst hzero
      simp [ChunkedMemoryStream.eraseLoop, Spec.consumed, Evds.remaining, deleteAll, Except.map]
    · simp only [ChunkedMemoryStream.eraseLoop, Spec.consumed, Evds.remaining, hzero, ne_eq,
        not_false_eq_true, true_and, if_true, BufferNode.getBufferLen, ge_iff_le, content_cons,
        List.length_append, hlength]
      by_cases hwhole : n.sizeAtPosition ≤ m
      · simp only [if_pos hwhole, deleteAll_cons]
        cases hdelete : n.delete h with
        | error e => rfl
        | ok h₁ =>
          obtain ⟨b, -, -, -, hrest, hcontent⟩ := hl.delete_head hdelete
          have hcount : erased + n.sizeAtPosition + min (m - n.sizeAtPosition) (content h₁ l).length =
              erased + min m (n.sizeAtPosition + (content h l).length) := by
            rw [hcontent]
            omega
          have hloop := ih hrest (m - n.sizeAtPosition) (erased + n.sizeAtPosition)
          rw [hcount] at hloop
          exact hloop
      · have hpart : m < n.sizeAtPosition := Nat.lt_of_not_le hwhole
        simp only [if_neg hwhole, deleteAll_nil, (hl.head.shift hpart).1]
        rw [Nat.min_eq_left (by omega)]
        rfl

/-- `read` deletes the same nodes and delivers the bytes. -/
theorem ListOk.readLoop_eq (hl : ListOk h l) {bytes : Nat} (copied : List UInt8)
    (hcopied : copied.length ≤ bytes) :
    ChunkedMemoryStream.readLoop bytes h l copied =
      (deleteAll h (Spec.consumed l (bytes - copied.length))).map fun h' =>
        (h', Evds.remaining l (bytes - copied.length),
          copied ++ (content h l).take (bytes - copied.length)) := by
  induction l generalizing h copied with
  | nil =>
    simp [ChunkedMemoryStream.readLoop, Spec.consumed, Evds.remaining, deleteAll, Except.map]
  | cons n l ih =>
    have hlength := hl.head.length
    generalize hm : bytes - copied.length = m
    by_cases hzero : m = 0
    · have hdone : ¬copied.length < bytes := by omega
      subst hzero
      simp [ChunkedMemoryStream.readLoop, Spec.consumed, Evds.remaining, deleteAll, Except.map, hdone]
    · have hmore : copied.length < bytes := by omega
      simp only [ChunkedMemoryStream.readLoop, Spec.consumed, Evds.remaining, hzero, hmore, hm, ne_eq,
        not_false_eq_true, true_and, if_true, BufferNode.getBufferLen, ge_iff_le, content_cons]
      by_cases hwhole : n.sizeAtPosition ≤ m
      · have hdata : n.memcpy h 0 n.sizeAtPosition = .ok (nodeBytes h n) := by
          rw [hl.head.memcpy (by omega), List.drop_zero, List.take_of_length_le (by omega)]
        simp only [if_pos hwhole, if_true, deleteAll_cons, hdata]
        cases hdelete : n.delete h with
        | error e => rfl
        | ok h₁ =>
          obtain ⟨b, -, -, -, hrest, hcontent⟩ := hl.delete_head hdelete
          have hlen : (copied ++ nodeBytes h n).length = copied.length + n.sizeAtPosition := by
            rw [List.length_append, hlength]
          have hleft : bytes - (copied ++ nodeBytes h n).length = m - n.sizeAtPosition := by
            omega
          have htake : copied ++ (nodeBytes h n ++ content h l).take m =
              copied ++ nodeBytes h n ++ (content h₁ l).take (m - n.sizeAtPosition) := by
            rw [List.take_append, hlength, List.take_of_length_le (by omega), hcontent,
              List.append_assoc]
          have hloop := ih hrest (copied ++ nodeBytes h n) (by omega)
          rw [hleft, ← htake] at hloop
          exact hloop
      · have hpart : m < n.sizeAtPosition := Nat.lt_of_not_le hwhole
        have hdata : n.memcpy h 0 m = .ok ((nodeBytes h n).take m) := by
          rw [hl.head.memcpy (by omega), List.drop_zero]
        rw [List.take_append_of_le_length (by omega)]
        simp only [if_neg hwhole, if_neg (Nat.ne_of_lt hpart), if_neg (Nat.not_lt_of_gt hpart),
          deleteAll_nil, hdata, (hl.head.shift hpart).1]
        rfl

/-- The first loop of `copy` finds the position. -/
theorem copyFrom_eq (hl : ∀ n ∈ l, NodeOk h n) {startPos : Nat} (traversed : Nat)
    (hle : traversed ≤ startPos) :
    ∃ l' start, ChunkedMemoryStream.copyFrom startPos l traversed = (l', start) ∧
      (∀ n ∈ l', NodeOk h n) ∧ (∀ n ∈ l'.head?, start ≤ n.sizeAtPosition) ∧
      (content h l).drop (startPos - traversed) = (content h l').drop start := by
  induction l generalizing traversed with
  | nil => exact ⟨[], 0, rfl, hl, by simp, by simp⟩
  | cons n l ih =>
    have hlength := (hl n List.mem_cons_self).length
    by_cases hwhole : startPos - traversed ≥ n.getBufferLen
    · have hwhole' : n.sizeAtPosition ≤ startPos - traversed := hwhole
      obtain ⟨l', start, hfrom, hok, hstart, hdrop⟩ :=
        ih (fun m hm => hl m (List.mem_cons_of_mem _ hm)) (traversed + n.sizeAtPosition) (by omega)
      have hsub : startPos - (traversed + n.sizeAtPosition) =
          startPos - traversed - n.sizeAtPosition := by
        omega
      refine ⟨l', start, ?_, hok, hstart, ?_⟩
      · rw [ChunkedMemoryStream.copyFrom, if_pos hwhole]
        exact hfrom
      · rw [← hdrop, hsub, content_cons, List.drop_append, hlength,
          List.drop_eq_nil_of_le (by omega), List.nil_append]
    · refine ⟨n :: l, startPos - traversed, ?_, hl, ?_, rfl⟩
      · rw [ChunkedMemoryStream.copyFrom, if_neg hwhole]
      · intro m hm
        cases hm
        exact Nat.le_of_not_le hwhole

/-- The second loop of `copy` delivers the bytes from the position on. -/
theorem copyLoop_eq (hl : ∀ n ∈ l, NodeOk h n) {bytes : Nat} (start : Nat) (copied : List UInt8)
    (hstart : ∀ n ∈ l.head?, start ≤ n.sizeAtPosition) (hcopied : copied.length ≤ bytes) :
    ChunkedMemoryStream.copyLoop h bytes l start copied =
      .ok (copied ++ ((content h l).drop start).take (bytes - copied.length)) := by
  induction l generalizing start copied with
  | nil => simp [ChunkedMemoryStream.copyLoop]
  | cons n l ih =>
    have hn := hl n List.mem_cons_self
    have hlength := hn.length
    have hfits : start ≤ n.sizeAtPosition := hstart n rfl
    have hdrop : (nodeBytes h n).drop start ++ content h l = (content h (n :: l)).drop start := by
      rw [content_cons, List.drop_append_of_le_length (by omega)]
    by_cases hmore : copied.length < bytes
    · generalize hcount : (if bytes - copied.length ≥ n.getBufferLen - start then n.getBufferLen - start
        else bytes - copied.length) = count
      have hcount' : count = min (n.sizeAtPosition - start) (bytes - copied.length) := by
        rw [← hcount]
        exact Nat.min_def.symm
      have hfitsCount : start + count ≤ n.sizeAtPosition := by omega
      have hdata := hn.memcpy hfitsCount
      have hlen : (((nodeBytes h n).drop start).take count).length = count := by
        rw [List.length_take, List.length_drop]
        omega
      have hloop := ih (fun m hm => hl m (List.mem_cons_of_mem _ hm)) 0
        (copied ++ ((nodeBytes h n).drop start).take count)
        (fun m _ => Nat.zero_le _) (by rw [List.length_append, hlen]; omega)
      simp only [ChunkedMemoryStream.copyLoop, if_pos hmore, hcount, hdata]
      refine hloop.trans (congrArg Except.ok ?_)
      have htake : ((nodeBytes h n).drop start).take count =
          ((nodeBytes h n).drop start).take (bytes - copied.length) := by
        rw [List.take_eq_take_iff, List.length_drop]
        omega
      have hleft : bytes - (copied.length + count) =
          bytes - copied.length - (n.sizeAtPosition - start) := by
        omega
      rw [← hdrop, List.drop_zero, List.length_append, hlen, htake, hleft, List.take_append,
        List.length_drop, hlength, List.append_assoc]
    · have hzero : bytes - copied.length = 0 := by omega
      simp [ChunkedMemoryStream.copyLoop, hmore, hzero]

/-- `copy` delivers the bytes and changes nothing. -/
theorem ListOk.copy_eq (hl : ListOk h l) (startPos bytes : Nat) :
    ChunkedMemoryStream.copy h l startPos bytes = .ok (((content h l).drop startPos).take bytes) := by
  obtain ⟨l', start, hfrom, hok, hstart, hdrop⟩ := copyFrom_eq hl.node 0 (Nat.zero_le startPos)
  have hloop := copyLoop_eq hok start [] hstart (Nat.zero_le bytes)
  rw [Nat.sub_zero] at hdrop
  rw [← hdrop] at hloop
  rw [ChunkedMemoryStream.copy, hfrom]
  exact hloop

/-- `transfer` appends the nodes it makes of the others. -/
theorem transfer_eq (h : Heap UInt8) (src dst : ChunkedMemoryStream) :
    ChunkedMemoryStream.transfer h src dst = .ok (h, dst ++ src.map moved) := by
  induction src generalizing dst with
  | nil => simp [ChunkedMemoryStream.transfer]
  | cons n src ih =>
    have hrest := ih (dst.addNode n.getBuffer n.getBufferLen)
    rw [ChunkedMemoryStream.transfer]
    refine hrest.trans ?_
    simp [ChunkedMemoryStream.addNode, moved]

/-! ### Pushed and transferred nodes -/

/-- A node whose buffer is an allocated block. -/
theorem nodeOk_setBuffer {b len : Nat} {c : List UInt8} (hblock : h.blocks b = some c) (hpos : 0 < len)
    (hle : len ≤ c.length) :
    NodeOk h (.setBuffer (some ⟨b, 0⟩) len) ∧ nodeBytes h (.setBuffer (some ⟨b, 0⟩) len) = c.take len := by
  have hnode : BufferNode.setBuffer (some ⟨b, 0⟩) len = ⟨some ⟨b, 0⟩, 0 + len, some ⟨b, 0 + 0⟩, len⟩ := by
    simp [BufferNode.setBuffer]
  refine ⟨?_, ?_⟩
  · rw [hnode]
    exact .mk hblock (by omega) hpos
  · simp [nodeBytes, BufferNode.setBuffer, hblock]

theorem listOk_singleton (hn : NodeOk h n) : ListOk h [n] := by
  obtain ⟨b, hb⟩ : ∃ b, blockOf n = some b := by
    cases hn
    exact ⟨_, rfl⟩
  refine ⟨?_, ?_⟩
  · intro m hm
    rw [List.mem_singleton.mp hm]
    exact hn
  · rw [blocksOf_cons hb]
    exact List.nodup_cons.mpr ⟨List.not_mem_nil, List.nodup_nil⟩

theorem ListOk.allocated (hl : ListOk h l) {b : Nat} (hb : b ∈ blocksOf l) :
    ∃ c, h.blocks b = some c := by
  obtain ⟨n, hn, hblock⟩ := List.mem_filterMap.mp hb
  cases hl.node n hn with
  | mk hc hfits hrest =>
    cases hblock
    exact ⟨_, hc⟩

theorem ListOk.alloc (hl : ListOk h l) (c : List UInt8) : ListOk (h.alloc c) l ∧
    content (h.alloc c) l = content h l := by
  refine hl.congr ?_
  intro b hb
  obtain ⟨c', hc'⟩ := hl.allocated hb
  rw [hc', Heap.alloc_of_some hc']

theorem ListOk.not_fresh (hl : ListOk h l) : h.fresh ∉ blocksOf l := by
  intro hb
  obtain ⟨c, hc⟩ := hl.allocated hb
  exact Nat.lt_irrefl _ (h.lt_fresh hc)

theorem blocksOf_append (l l' : ChunkedMemoryStream) : blocksOf (l ++ l') = blocksOf l ++ blocksOf l' :=
  List.filterMap_append

/-- Two lists of nodes with no block in common. -/
theorem ListOk.append {l' : ChunkedMemoryStream} (hl : ListOk h l) (hl' : ListOk h l')
    (hapart : ∀ b ∈ blocksOf l, b ∉ blocksOf l') : ListOk h (l ++ l') where
  node := by
    intro n hn
    exact (List.mem_append.mp hn).elim (hl.node n) (hl'.node n)
  nodup := by
    rw [blocksOf_append]
    exact List.nodup_append.mpr ⟨hl.nodup, hl'.nodup, fun b hb b' hb' heq => hapart b hb (heq ▸ hb')⟩

/-- The list after a `push` of a buffer that has just been allocated. -/
theorem ListOk.push (hl : ListOk h l) (data : List UInt8) :
    ListOk (h.alloc data) (ChunkedMemoryStream.push l h.newPtr data.length).1 ∧
      content (h.alloc data) (ChunkedMemoryStream.push l h.newPtr data.length).1 = content h l ++ data ∧
      ∀ b ∈ blocksOf (ChunkedMemoryStream.push l h.newPtr data.length).1,
        b ∈ blocksOf l ∨ b = h.fresh := by
  obtain ⟨hold, hcontent⟩ := hl.alloc data
  by_cases hdata : data.length = 0
  · obtain rfl : data = [] := List.length_eq_zero_iff.mp hdata
    refine ⟨hold, ?_, fun b hb => .inl hb⟩
    rw [List.append_nil]
    exact hcontent
  · have hblock : (h.alloc data).blocks h.newPtr.block = some data := Heap.alloc_newPtr data
    obtain ⟨hnode, hbytes⟩ := nodeOk_setBuffer hblock (Nat.pos_of_ne_zero hdata) (Nat.le_refl _)
    rw [List.take_length] at hbytes
    have hnew : ListOk (h.alloc data) [.setBuffer (some h.newPtr) data.length] := listOk_singleton hnode
    have hfresh : blockOf (.setBuffer (some h.newPtr) data.length) = some h.fresh := rfl
    have hpush : (ChunkedMemoryStream.push l h.newPtr data.length).1 =
        l ++ [.setBuffer (some h.newPtr) data.length] := by
      simp only [ChunkedMemoryStream.push, ne_eq, hdata, not_false_eq_true, if_true,
        ChunkedMemoryStream.addNode]
    rw [hpush]
    refine ⟨hold.append hnew ?_, ?_, ?_⟩
    · intro b hb hb'
      rw [blocksOf_cons hfresh, blocksOf_nil, List.mem_singleton] at hb'
      exact hl.not_fresh (hb' ▸ hb)
    · rw [content_append, content_cons, content_nil, List.append_nil, hcontent]
      exact congrArg _ hbytes
    · intro b hb
      rw [blocksOf_append, blocksOf_cons hfresh, blocksOf_nil] at hb
      exact (List.mem_append.mp hb).imp id List.mem_singleton.mp

/-- The nodes that `transfer` makes. -/
theorem ListOk.moved (hl : ListOk h l) : ListOk h (l.map moved) ∧
    blocksOf (l.map Evds.moved) = blocksOf l ∧ content h (l.map Evds.moved) = content h l := by
  have hblocks : blocksOf (l.map Evds.moved) = blocksOf l := by
    rw [blocksOf, List.filterMap_map]
    exact List.filterMap_congr fun n hn => (hl.node n hn).moved.2.2
  refine ⟨⟨?_, ?_⟩, hblocks, ?_⟩
  · intro n hn
    obtain ⟨m, hm, rfl⟩ := List.mem_map.mp hn
    exact (hl.node m hm).moved.1
  · rw [hblocks]
    exact hl.nodup
  · rw [content, List.flatMap_map]
    exact List.flatMap_congr fun n hn => (hl.node n hn).moved.2.1

/-! ### All streams -/

section Streams

variable {ι : Type} [DecidableEq ι] {s s' : Streams ι} {r : StreamResult} {op : StreamCall ι}

/-- The streams between two calls: no block is in two of them. -/
structure StreamsInv (s : Streams ι) : Prop where
  list : ∀ i, ListOk s.heap (s.list i)
  apart : ∀ i j b, b ∈ blocksOf (s.list i) → b ∈ blocksOf (s.list j) → i = j

omit [DecidableEq ι] in
theorem streamsInv_create : StreamsInv (Streams.create ι) where
  list := fun _ => listOk_nil _
  apart := fun _ _ _ hb => absurd hb List.not_mem_nil

/-- Another list for one stream, of its own blocks and of new ones. -/
theorem StreamsInv.replace (hs : StreamsInv s) {i : ι} {h' : Heap UInt8} {l : ChunkedMemoryStream}
    (pushed : List Nat) (hl : ListOk h' l)
    (hkept : ∀ j b, j ≠ i → b ∈ blocksOf (s.list j) → h'.blocks b = s.heap.blocks b)
    (hblocks : ∀ j b, b ∈ blocksOf l → b ∈ blocksOf (s.list j) → i = j) :
    StreamsInv { s.setList i l with heap := h', pushed := pushed } ∧
      contents { s.setList i l with heap := h', pushed := pushed } =
        Function.update (contents s) i (content h' l) := by
  have hlist : ∀ j, j ≠ i → ListOk h' (s.list j) ∧ content h' (s.list j) = contents s j := by
    intro j hj
    exact (hs.list j).congr fun b hb => hkept j b hj hb
  refine ⟨⟨?_, ?_⟩, ?_⟩
  · intro j
    by_cases hj : j = i
    · subst hj
      simpa [Streams.setList] using hl
    · simpa [Streams.setList, hj] using (hlist j hj).1
  · intro j k b hb hb'
    simp only [Streams.setList] at hb hb'
    by_cases hj : j = i
    · by_cases hk : k = i
      · rw [hj, hk]
      · rw [hj, Function.update_self] at hb
        rw [Function.update_of_ne hk] at hb'
        exact hj.trans (hblocks k b hb hb')
    · rw [Function.update_of_ne hj] at hb
      by_cases hk : k = i
      · rw [hk, Function.update_self] at hb'
        exact ((hblocks j b hb' hb).symm).trans hk.symm
      · rw [Function.update_of_ne hk] at hb'
        exact hs.apart j k b hb hb'
  · funext j
    by_cases hj : j = i
    · subst hj
      simp [contents, Streams.setList]
    · simpa [contents, Streams.setList, hj] using (hlist j hj).2

/-- The nodes of a stream that `n` bytes consume are deleted. -/
theorem StreamsInv.consume (hs : StreamsInv s) {i : ι} {n : Nat} {h' : Heap UInt8}
    (hall : deleteAll s.heap (Spec.consumed (s.list i) n) = .ok h') :
    StreamsInv { s.setList i (remaining (s.list i) n) with heap := h' } ∧
      contents { s.setList i (remaining (s.list i) n) with heap := h' } =
        Function.update (contents s) i ((contents s i).drop n) := by
  have hl := hs.list i
  have hreleased := ((hl.consumed n).deleteAll_ok hall).2
  have hblocks := hl.blocksOf_consumed n
  obtain ⟨hok, hcontent⟩ := hl.consume hall
  have hkept : ∀ j b, j ≠ i → b ∈ blocksOf (s.list j) → h'.blocks b = s.heap.blocks b := by
    intro j b hj hb
    refine hreleased.kept b fun hfreed => hj ?_
    exact hs.apart j i b hb (hblocks ▸ List.mem_append_left _ hfreed)
  have hown : ∀ j b, b ∈ blocksOf (Evds.remaining (s.list i) n) → b ∈ blocksOf (s.list j) → i = j := by
    intro j b hb hb'
    exact hs.apart i j b (hblocks ▸ List.mem_append_right _ hb) hb'
  obtain ⟨hinv, hupdate⟩ := hs.replace s.pushed hok hkept hown
  refine ⟨hinv, hupdate.trans ?_⟩
  rw [hcontent]
  rfl

theorem call_read (hs : StreamsInv s) (i : ι) (n : Nat) :
    Streams.call (.read i n) s = (deleteAll s.heap (Spec.consumed (s.list i) n)).map fun h' =>
      ({ s.setList i (remaining (s.list i) n) with heap := h' },
        ⟨((contents s i).take n).length, (contents s i).take n⟩) := by
  have hread := (hs.list i).readLoop_eq [] (Nat.zero_le n)
  simp only [Streams.call, ChunkedMemoryStream.read, hread, List.length_nil, Nat.sub_zero,
    List.nil_append]
  cases deleteAll s.heap (Spec.consumed (s.list i) n) with
  | error e => rfl
  | ok h' => rfl

theorem call_erase (hs : StreamsInv s) (i : ι) (n : Nat) :
    Streams.call (.erase i n) s = (deleteAll s.heap (Spec.consumed (s.list i) n)).map fun h' =>
      ({ s.setList i (remaining (s.list i) n) with heap := h' }, ⟨min n (contents s i).length, []⟩) := by
  have herase := (hs.list i).eraseLoop_eq n 0
  simp only [Streams.call, ChunkedMemoryStream.erase, herase, Nat.zero_add]
  cases deleteAll s.heap (Spec.consumed (s.list i) n) with
  | error e => rfl
  | ok h' => rfl

theorem call_copy (hs : StreamsInv s) (i : ι) (start n : Nat) :
    Streams.call (.copy i start n) s =
      .ok (s, ⟨(((contents s i).drop start).take n).length, ((contents s i).drop start).take n⟩) := by
  simp only [Streams.call, (hs.list i).copy_eq start n]
  rfl

theorem call_push (hs : StreamsInv s) (i : ι) (data : List UInt8) :
    ∃ s', Streams.call (.push i data) s = .ok (s', ⟨data.length, []⟩) ∧ StreamsInv s' ∧
      contents s' = Function.update (contents s) i (contents s i ++ data) := by
  obtain ⟨hl, hcontent, hblocks⟩ := (hs.list i).push data
  have hkept : ∀ j b, j ≠ i → b ∈ blocksOf (s.list j) →
      (s.heap.alloc data).blocks b = s.heap.blocks b := by
    intro j b hj hb
    obtain ⟨c, hc⟩ := (hs.list j).allocated hb
    rw [hc, Heap.alloc_of_some hc]
  have hown : ∀ j b, b ∈ blocksOf (ChunkedMemoryStream.push (s.list i) s.heap.newPtr data.length).1 →
      b ∈ blocksOf (s.list j) → i = j := by
    intro j b hb hb'
    obtain hb | rfl := hblocks b hb
    · exact hs.apart i j b hb hb'
    · exact absurd hb' (hs.list j).not_fresh
  refine ⟨_, rfl, ?_⟩
  obtain ⟨hinv, hupdate⟩ := hs.replace _ hl hkept hown
  refine ⟨hinv, hupdate.trans ?_⟩
  rw [hcontent]
  rfl

theorem call_transfer (hs : StreamsInv s) {dst src : ι} (hne : dst ≠ src) :
    ∃ s', Streams.call (.transfer dst src) s = .ok (s', ⟨0, []⟩) ∧ StreamsInv s' ∧
      contents s' = Function.update (Function.update (contents s) dst (contents s dst ++ contents s src))
        src [] := by
  obtain ⟨hmoved, hblocks, hcontent⟩ := (hs.list src).moved
  -- The two lists change one after the other: first the source is emptied.
  have hempty : ∀ j b, b ∈ blocksOf [] → b ∈ blocksOf (s.list j) → src = j :=
    fun _ _ hb => absurd hb List.not_mem_nil
  obtain ⟨hinv₁, hcontents₁⟩ :=
    hs.replace s.pushed (listOk_nil s.heap) (fun _ _ _ _ => rfl) hempty
  have hapart : ∀ b ∈ blocksOf (s.list dst), b ∉ blocksOf ((s.list src).map moved) := by
    intro b hb hb'
    exact hne (hs.apart dst src b hb (hblocks ▸ hb'))
  have hall : ListOk s.heap (s.list dst ++ (s.list src).map moved) := (hs.list dst).append hmoved hapart
  have hown : ∀ j b, b ∈ blocksOf (s.list dst ++ (s.list src).map moved) →
      b ∈ blocksOf ((s.setList src []).list j) → dst = j := by
    intro j b hb hb'
    by_cases hj : j = src
    · simp [Streams.setList, hj] at hb'
    · have hb' : b ∈ blocksOf (s.list j) := by simpa [Streams.setList, hj] using hb'
      rw [blocksOf_append, hblocks] at hb
      exact (List.mem_append.mp hb).elim (fun hb => hs.apart dst j b hb hb')
        fun hb => absurd (hs.apart src j b hb hb').symm hj
  obtain ⟨hinv, hcontents⟩ := hinv₁.replace s.pushed hall (fun _ _ _ _ => rfl) hown
  have hstate : (s.setList dst (s.list dst ++ (s.list src).map moved)).setList src [] =
      (s.setList src []).setList dst (s.list dst ++ (s.list src).map moved) := by
    simp only [Streams.setList, Function.update_comm hne]
  refine ⟨(s.setList dst (s.list dst ++ (s.list src).map moved)).setList src [], ?_, ?_, ?_⟩
  · simp only [Streams.call, if_neg hne, transfer_eq]
    rfl
  · rw [hstate]
    exact hinv
  · rw [hstate, Function.update_comm hne]
    refine hcontents.trans ?_
    rw [content_append, hcontent]
    exact congrArg (Function.update · dst _) hcontents₁

/-! ### The calls -/

/-- A call that consumes only base addresses does what it does on flat
byte strings. -/
theorem call_good (hs : StreamsInv s) (hdistinct : Distinct op) (hbase : ConsumesBases s op) :
    ∃ s' r, Streams.call op s = .ok (s', r) ∧ StreamsInv s' ∧ flatCall op (contents s) = (contents s', r) := by
  cases op with
  | push i data =>
    obtain ⟨s', hcall, hinv, hcontents⟩ := call_push hs i data
    exact ⟨s', _, hcall, hinv, by rw [flatCall, hcontents]⟩
  | read i n =>
    obtain ⟨h', hall⟩ := ((hs.list i).consumed n).deleteAll_eq hbase
    obtain ⟨hinv, hcontents⟩ := hs.consume hall
    refine ⟨_, _, (call_read hs i n).trans (by rw [hall]; rfl), hinv, ?_⟩
    rw [flatCall, hcontents, List.length_take]
  | copy i start n =>
    refine ⟨s, _, call_copy hs i start n, hs, ?_⟩
    rw [flatCall, List.length_take, List.length_drop]
  | erase i n =>
    obtain ⟨h', hall⟩ := ((hs.list i).consumed n).deleteAll_eq hbase
    obtain ⟨hinv, hcontents⟩ := hs.consume hall
    refine ⟨_, _, (call_erase hs i n).trans (by rw [hall]; rfl), hinv, ?_⟩
    rw [flatCall, hcontents]
  | transfer dst src =>
    obtain ⟨s', hcall, hinv, hcontents⟩ := call_transfer hs hdistinct
    exact ⟨s', _, hcall, hinv, by rw [flatCall, hcontents]⟩

theorem map_eq_ok {ε β γ : Type} {x : Except ε β} {f : β → γ} {v : γ} (h : x.map f = .ok v) :
    ∃ b, x = .ok b ∧ f b = v := by
  cases x with
  | error e => cases h
  | ok b => exact ⟨b, rfl, Except.ok.inj h⟩

/-- A call that consumes a node with another address does not return. -/
theorem call_bad (hs : StreamsInv s) (hcall : Streams.call op s = .ok (s', r)) : ConsumesBases s op := by
  cases op with
  | push i data => trivial
  | copy i start n => trivial
  | transfer dst src => trivial
  | read i n =>
    obtain ⟨h', hall, -⟩ := map_eq_ok ((call_read hs i n).symm.trans hcall)
    exact (((hs.list i).consumed n).deleteAll_ok hall).1
  | erase i n =>
    obtain ⟨h', hall, -⟩ := map_eq_ok ((call_erase hs i n).symm.trans hcall)
    exact (((hs.list i).consumed n).deleteAll_ok hall).1

theorem call_inv (hs : StreamsInv s) (hcall : Streams.call op s = .ok (s', r)) : StreamsInv s' := by
  by_cases hdistinct : Distinct op
  · obtain ⟨s₁, r₁, hcall₁, hinv, -⟩ := call_good hs hdistinct (call_bad hs hcall)
    cases hcall.symm.trans hcall₁
    exact hinv
  · cases op with
    | transfer dst src =>
      -- A stream that is transferred to itself and returns is empty.
      simp only [Distinct, ne_eq, Decidable.not_not] at hdistinct
      simp only [Streams.call, if_pos hdistinct] at hcall
      split at hcall
      · cases hcall
        exact hs
      · cases hcall
    | push i data => exact absurd trivial hdistinct
    | read i n => exact absurd trivial hdistinct
    | copy i start n => exact absurd trivial hdistinct
    | erase i n => exact absurd trivial hdistinct

/-- `read` is `copy` from the start followed by `erase`. -/
theorem call_read_eq (hs : StreamsInv s) (i : ι) (n : Nat) :
    Streams.call (.read i n) s = (do
      let (s, copied) ← Streams.call (.copy i 0 n) s
      let (s, erased) ← Streams.call (.erase i n) s
      return (s, ⟨erased.count, copied.bytes⟩)) := by
  rw [call_read hs, call_copy hs, List.drop_zero]
  show _ = (Streams.call (.erase i n) s >>= fun x =>
    Except.ok (x.1, (⟨x.2.count, (contents s i).take n⟩ : StreamResult)))
  rw [call_erase hs, List.length_take]
  cases deleteAll s.heap (Spec.consumed (s.list i) n) with
  | error e => rfl
  | ok h' => rfl

/-- **The streams are byte queues** as long as no `read` or `erase` comes
to the end of a node that has not the address its buffer was allocated
with. In every state that is reached, `read` is `copy` and `erase`. -/
theorem streams_agree (ops : List (StreamCall ι)) (hdistinct : ∀ op ∈ ops, Distinct op) :
    ((∀ pre, pre <+: ops → ∃ s rs, runCalls Streams.call pre (.create ι) = .ok (s, rs) ∧
        specCalls flatCall pre (fun _ => []) = (contents s, rs)) ↔
      Along Streams.call ConsumesBases ops (.create ι)) ∧
    (∀ pre s rs, pre <+: ops → runCalls Streams.call pre (.create ι) = .ok (s, rs) → ∀ i n,
      Streams.call (.read i n) s = (do
        let (s, copied) ← Streams.call (.copy i 0 n) s
        let (s, erased) ← Streams.call (.erase i n) s
        return (s, ⟨erased.count, copied.bytes⟩))) := by
  have hrefine : ∀ pre, pre <+: ops →
      ((∃ s rs, runCalls Streams.call pre (.create ι) = .ok (s, rs) ∧
        specCalls flatCall pre (fun _ => []) = (contents s, rs)) ↔
      Along Streams.call ConsumesBases pre (.create ι)) := by
    intro pre hpre
    have hD : Along Streams.call (fun _ op => Distinct op) pre (.create ι) :=
      along_of_forall fun op hop => hdistinct op (hpre.subset hop)
    have hgood : ∀ (s : Streams ι) op, StreamsInv s → Distinct op → ConsumesBases s op →
        ∃ s' r, Streams.call op s = .ok (s', r) ∧ StreamsInv s' ∧
          flatCall op (contents s) = (contents s', r) :=
      fun _ _ hs hne hbase => call_good hs hne hbase
    have hbad : ∀ (s : Streams ι) op s' r, StreamsInv s → Distinct op →
        Streams.call op s = .ok (s', r) → r = (flatCall op (contents s)).2 → ConsumesBases s op :=
      fun _ _ _ _ hs _ hcall _ => call_bad hs hcall
    exact calls_refine hgood hbad streamsInv_create hD
  refine ⟨⟨?_, ?_⟩, ?_⟩
  · intro hall
    exact (hrefine ops List.prefix_rfl).mp (hall ops List.prefix_rfl)
  · intro halong pre hpre
    exact (hrefine pre hpre).mpr (halong.initial hpre)
  · intro pre s rs hpre hrun i n
    have hs : StreamsInv s := runCalls_invariant (fun _ _ _ _ hs hcall => call_inv hs hcall)
      streamsInv_create hrun
    exact call_read_eq hs i n

end Streams

/-- A chunk is transferred whole and then read in two parts. -/
theorem streams_agree_sample :
    ∃ s, runCalls Streams.call [.push true [1, 2, 3], .transfer false true, .read false 1, .read false 2]
        (.create Bool) = .ok (s, [⟨3, []⟩, ⟨0, []⟩, ⟨1, [1]⟩, ⟨2, [2, 3]⟩]) ∧
      contents s = fun _ => [] := by
  have hbase : ∀ n ∈ consumed [(⟨some ⟨0, 0⟩, 3, some ⟨0, 1⟩, 2⟩ : BufferNode)] 2, IsBase n := by
    intro n hn p hp
    obtain rfl : n = ⟨some ⟨0, 0⟩, 3, some ⟨0, 1⟩, 2⟩ := by simpa [consumed] using hn
    cases hp
    rfl
  have halong : Along Streams.call ConsumesBases
      [.push true [1, 2, 3], .transfer false true, .read false 1, .read false 2] (.create Bool) := by
    refine ⟨trivial, fun s r h => ?_⟩
    cases h
    refine ⟨trivial, fun s r h => ?_⟩
    cases h
    refine ⟨fun n hn => absurd hn List.not_mem_nil, fun s r h => ?_⟩
    cases h
    exact ⟨hbase, fun _ _ _ => trivial⟩
  obtain ⟨s, rs, hrun, hflat⟩ :=
    ((streams_agree _ (by simp [Distinct])).1.mpr halong) _ List.prefix_rfl
  obtain ⟨hcontents, hrs⟩ := Prod.mk.inj hflat
  refine ⟨s, hrun.trans ?_, hcontents.symm.trans ?_⟩
  · rw [← hrs]
    rfl
  · funext i
    cases i
    · rfl
    · rfl

/-- The call that frees the middle of a buffer. -/
theorem not_streams_agree : ¬∀ ops : List (StreamCall Bool), (∀ op ∈ ops, Distinct op) →
    ∃ s rs, runCalls Streams.call ops (.create Bool) = .ok (s, rs) ∧
      specCalls flatCall ops (fun _ => []) = (contents s, rs) := by
  intro h
  obtain ⟨s, rs, hrun, -⟩ := h [.push true [1, 2, 3, 4], .read true 2, .transfer false true, .read false 2]
    (by simp [Distinct])
  have hfault : runCalls Streams.call
      [.push true [1, 2, 3, 4], .read true 2, .transfer false true, .read false 2] (.create Bool) =
      .error (.heap .notBase) := rfl
  cases hfault.symm.trans hrun

end Efio.Proofs.Evds
