import Efio.Spec.Compression

/-!
# `Efio.Proofs.CoreUtils.OutputBlock`: the block behind `*out_ptr`

`Begins t xs ys` says that `xs` and `ys` have the first `t` bytes in common.
What has been written so far is kept by a `realloc` to at least that size
(`Begins.resized`), and a write directly behind it that stays inside the
block adds to it (`Begins.written`).

`compressRound_unplaced` is what happens when the first `realloc` fails.
-/

set_option autoImplicit false

namespace Efio.Proofs.CoreUtils

open Efio.Lib Efio.CoreUtils Efio.Spec

variable {mem : Allocator} {k size t : Nat} {xs ys : List UInt8}

theorem uInt_lt (n : Nat) : uInt n < 2 ^ 32 := Nat.mod_lt n (Nat.two_pow_pos 32)

theorem uInt_of_lt {n : Nat} (h : n < 2 ^ 32) : uInt n = n := Nat.mod_eq_of_lt h

theorem toSize_of_lt {n : Nat} (h : n < 2 ^ 64) : toSize n = n := Nat.mod_eq_of_lt h

theorem toSize_add (a b : Nat) : toSize (toSize a + b) = toSize (a + b) := Nat.mod_add_mod a _ b

/-! ### `realloc` -/

theorem realloc_failed (h : mem.place k = .failed) (old : Option Block) : mem.realloc k old size = none := by
  simp only [Allocator.realloc, h]

theorem exists_realloc (h : mem.place k ≠ .failed) (old : Option Block) (size : Nat) :
    ∃ b, mem.realloc k old size = some b := by
  unfold Allocator.realloc
  split
  · next hplace => exact absurd hplace h
  all_goals exact ⟨_, rfl⟩

/-- A first block. -/
theorem realloc_none {b : Block} (h : mem.realloc k none size = some b) :
    b = ⟨k, resized (mem.fresh k) [] size⟩ := by
  cases hplace : mem.place k <;> simp only [Allocator.realloc, hplace] at h <;> cases h
  all_goals rfl

/-- A block that has not moved has its old number. -/
theorem realloc_some {b b' : Block} (h : mem.realloc k (some b) size = some b') :
    b'.bytes = resized (mem.fresh k) b.bytes size ∧
      (mem.place k = .inPlace ∧ b'.id = b.id ∨ mem.place k = .moved ∧ b'.id = k) := by
  cases hplace : mem.place k with
  | failed =>
    rw [realloc_failed hplace] at h
    cases h
  | inPlace =>
    simp only [Allocator.realloc, hplace] at h
    cases h
    exact ⟨rfl, .inl ⟨rfl, rfl⟩⟩
  | moved =>
    simp only [Allocator.realloc, hplace] at h
    cases h
    exact ⟨rfl, .inr ⟨rfl, rfl⟩⟩

theorem length_resized (fresh : Nat → UInt8) (old : List UInt8) (size : Nat) :
    (resized fresh old size).length = size := by
  rw [resized, List.length_append, List.length_take, List.length_map, List.length_drop, List.length_range]
  omega

theorem length_realloc {old : Option Block} {b : Block} (h : mem.realloc k old size = some b) :
    b.bytes.length = size := by
  cases old with
  | none => rw [realloc_none h, length_resized]
  | some old => rw [(realloc_some h).1, length_resized]

theorem take_resized {fresh : Nat → UInt8} {old : List UInt8} (hsize : t ≤ size) (hold : t ≤ old.length) :
    (resized fresh old size).take t = old.take t := by
  have htake : t ≤ (old.take size).length := by
    rw [List.length_take]
    omega
  rw [resized, List.take_append_of_le_length htake, List.take_take, Nat.min_eq_left hsize]

/-! ### No first block -/

section Unplaced

variable {z : Engine} {c : Compressor z}

theorem grow_unplaced (hplace : mem.place 1 = .failed) (hi : c.i = 0) (n : Nat) : (c.grow mem n).out = none := by
  show mem.realloc (c.i + 1) c.out _ = none
  rw [hi]
  exact realloc_failed hplace c.out

/-- Then the first call of `deflate` has no output buffer. -/
theorem strm_unplaced (hplace : mem.place 1 = .failed) (hi : c.i = 0) (n : Nat) :
    (c.grow mem n).strm n = ⟨c.unread, none, uInt n⟩ := by
  have hout := grow_unplaced hplace hi n
  show ZStream.mk c.unread (if c.i + 1 = 1 then (c.grow mem n).out.map Block.start else c.nextOut) _ = _
  rw [hout, hi]
  rfl

/-- The assertion behind the call fails. -/
theorem compressRound_unplaced (hnull : ∀ s x room, (z.call s ⟨x, none, room⟩).2.ret = .streamError)
    (hplace : mem.place 1 = .failed) (hi : c.i = 0) (n : Nat) : compressRound true mem n c = .done .aborted := by
  show (if (true && (z.call c.state ((c.grow mem n).strm n)).2.ret == .streamError) = true then _ else _) = _
  rw [strm_unplaced hplace hi n, hnull]
  rfl

end Unplaced

/-! ### What has been written -/

/-- The first `t` bytes are the same. -/
structure Begins (t : Nat) (xs ys : List UInt8) : Prop where
  le : t ≤ xs.length
  eq : xs.take t = ys.take t

theorem begins_zero (xs ys : List UInt8) : Begins 0 xs ys := ⟨Nat.zero_le _, rfl⟩

/-- A `realloc` keeps what fits. -/
theorem Begins.resized (h : Begins t xs ys) (fresh : Nat → UInt8) (size : Nat) :
    Begins (min t size) (resized fresh xs size) ys where
  le := by
    rw [length_resized]
    exact Nat.min_le_right t size
  eq := by
    rw [take_resized (Nat.min_le_right t size) (Nat.le_trans (Nat.min_le_left t size) h.le), Nat.min_comm t size,
      ← List.take_take, ← List.take_take, h.eq]

/-- A write of the next bytes, inside the block. -/
theorem Begins.written (h : Begins t xs ys) {m : Nat}
    (hroom : t + ((ys.drop t).take m).length ≤ xs.length) :
    Begins (t + ((ys.drop t).take m).length)
      ((writeAt xs t ((ys.drop t).take m)).take xs.length) ys where
  le := by
    rw [List.length_take (l := writeAt _ _ _), length_writeAt]
    omega
  eq := by
    have hnext : (ys.drop t).take m = (ys.drop t).take ((ys.drop t).take m).length := by
      rw [List.take_eq_take_iff, List.length_take]
      omega
    rw [List.take_take, Nat.min_eq_left hroom, take_writeAt _ h.le, h.eq, List.take_add, ← hnext]

/-! ### Writes -/

/-- All writes go into the block that is current. -/
def AllInside (ws : List Write) : Prop := ∀ w ∈ ws, Inside w

theorem allInside_snoc {ws : List Write} {w : Write} : AllInside (ws ++ [w]) ↔ AllInside ws ∧ Inside w :=
  List.forall_mem_append.trans (and_congr_right' List.forall_mem_singleton)

theorem after_none {w : Write} (h : w.current = none) : w.after = none := by
  simp only [Write.after, h]

/-- A write does not change the size of the block. -/
theorem exists_after {w : Write} {b : Block} (h : w.current = some b) :
    ∃ b', w.after = some b' ∧ b'.bytes.length = b.bytes.length := by
  rw [Write.after, h]
  split
  · next b₁ p hb hp =>
    cases hb
    split
    · refine ⟨_, rfl, ?_⟩
      rw [List.length_take, length_writeAt, Nat.min_eq_left (Nat.le_max_left _ _)]
    · exact ⟨b, rfl, rfl⟩
  · exact ⟨b, rfl, rfl⟩

/-- A write of no bytes. -/
theorem after_nil {w : Write} (h : w.bytes = []) : w.after = w.current := by
  rw [Write.after]
  split
  · next b p hb hp =>
    split
    · rw [hb, h, writeAt, List.append_nil, List.length_nil, Nat.add_zero, resize]
      rcases Nat.le_total p.off b.bytes.length with hle | hge
      · rw [Nat.sub_eq_zero_of_le hle, List.replicate_zero, List.append_nil, List.take_append_drop, List.take_length]
      · rw [List.drop_eq_nil_of_le hge, List.append_nil, List.take_of_length_le hge, List.take_left' rfl]
    · exact hb.symm
  · rfl

/-- A write into the block, at the position `t`. -/
theorem after_at (b : Block) (t : Nat) (bytes : List UInt8) :
    (Write.mk (some b) (some ⟨b.id, t⟩) bytes).after =
      some ⟨b.id, (writeAt b.bytes t bytes).take b.bytes.length⟩ :=
  if_pos rfl

end Efio.Proofs.CoreUtils
