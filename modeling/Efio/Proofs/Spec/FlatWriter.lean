import Efio.Lib.Calls
import Efio.Proofs.Evds.ByteValues
import Efio.Spec.FlatWriter

/-!
# `Efio.Proofs.Spec.FlatWriter`: frames, and a limit on them

Without a limit a `FlatWriter` pushes the frames of the payloads that it
flushes (`Framed`). With a limit it does the same until a frame does not
fit; from then on what it has pushed is what the writer without the limit
has pushed, cut at the limit (`Cut`).
-/

set_option autoImplicit false

namespace Efio.Proofs.Spec

open Efio.Lib
open Efio.Evds
open Efio.Spec
open Efio.Proofs.Evds

variable {f : Frame} {x y : FlatWriter}

/-! ### One call -/

theorem ofInt_toIntType (c : UInt8) : UInt8.ofInt (toIntType c) = c := by
  have hlt : (c.toNat : Int) < 2 ^ 8 := Int.ofNat_lt.mpr c.toNat_lt
  have hmod : toIntType c % 2 ^ 8 = c.toNat := Int.emod_eq_of_lt (Int.natCast_nonneg _) hlt
  rw [UInt8.ofInt, hmod, Int.toNat_natCast, UInt8.ofNat_toNat]

theorem flush_nil (hnil : x.pending = []) : x.flush f = (x, -1) := if_pos hnil

/-- The pushed bytes and the room for more change only by the flush. -/
theorem overflow_pushed (f : Frame) (x : FlatWriter) (c : Int) :
    (x.overflow f c).1.pushed = (x.flush f).1.pushed ∧ (x.overflow f c).1.left = (x.flush f).1.left := by
  unfold FlatWriter.overflow
  dsimp only
  split
  · exact ⟨rfl, rfl⟩
  · split <;> exact ⟨rfl, rfl⟩

/-- A call flushes or changes only the pending payload. -/
theorem call_pushed (f : Frame) (x : FlatWriter) (op : WriteCall) :
    ((x.call f op).1.pushed = x.pushed ∧ (x.call f op).1.left = x.left) ∨
      ((x.call f op).1.pushed = (x.flush f).1.pushed ∧ (x.call f op).1.left = (x.flush f).1.left) := by
  cases op with
  | sputc c =>
    by_cases hroom : x.pending.length < f.room
    · refine .inl ?_
      simp only [FlatWriter.call, if_pos hroom, and_self]
    · refine .inr ?_
      simp only [FlatWriter.call, if_neg hroom]
      exact overflow_pushed f x _
  | overflow c => exact .inr (overflow_pushed f x c)
  | sync =>
    by_cases hnil : x.pending = []
    · refine .inl ?_
      simp only [FlatWriter.call, if_pos hnil, and_self]
    · refine .inr ?_
      simp only [FlatWriter.call, if_neg hnil, and_self]

/-! ### Without a limit -/

/-- The bytes `start` and the frames of these payloads have been pushed,
and the characters are those of the payloads and the pending ones. -/
structure Framed (f : Frame) (start : List UInt8) (x : FlatWriter) (payloads : List (List UInt8))
    (chars : List UInt8) : Prop where
  unlimited : x.left = none
  pushed : x.pushed = start ++ f.frames payloads
  writes : x.writes = payloads.length
  nonempty : [] ∉ payloads
  chars : chars = payloads.flatten ++ x.pending

variable {start chars : List UInt8} {payloads : List (List UInt8)}

theorem frames_concat (f : Frame) (payloads : List (List UInt8)) (payload : List UInt8) :
    f.frames (payloads ++ [payload]) = f.frames payloads ++ f.bytes payloads.length payload := by
  rw [Frame.frames, List.mapIdx_concat, List.flatten_concat, Frame.frames]

/-- A character is put behind the pending ones. -/
theorem Framed.put (h : Framed f start x payloads chars) (c : UInt8) :
    Framed f start { x with pending := x.pending ++ [c] } payloads (chars ++ [c]) where
  unlimited := h.unlimited
  pushed := h.pushed
  writes := h.writes
  nonempty := h.nonempty
  chars := by rw [h.chars, List.append_assoc]

/-- A flush makes one more frame. -/
theorem Framed.flush (h : Framed f start x payloads chars) :
    (x.pending = [] ∧ x.flush f = (x, -1)) ∨
      ∃ y, ∃ n : Nat, x.flush f = (y, (n : Int)) ∧ y.pending = [] ∧
        Framed f start y (payloads ++ [x.pending]) chars := by
  by_cases hnil : x.pending = []
  · exact .inl ⟨hnil, flush_nil hnil⟩
  · refine .inr ⟨{ x with
        writes := x.writes + 1, pushed := x.pushed ++ f.bytes x.writes x.pending, pending := [] },
      x.pending.length, ?_, rfl, ⟨h.unlimited, ?_, ?_, ?_, ?_⟩⟩
    · rw [FlatWriter.flush, if_neg hnil, h.unlimited]
      rfl
    · rw [frames_concat, ← List.append_assoc, ← h.pushed, h.writes]
    · rw [List.length_append, List.length_singleton, ← h.writes]
    · intro hmem
      obtain hmem | hmem := List.mem_append.mp hmem
      · exact h.nonempty hmem
      · exact hnil (List.mem_singleton.mp hmem).symm
    · rw [List.flatten_concat, List.append_nil, h.chars]

theorem accepted_cons (op : WriteCall) (ops : List WriteCall) (r : Int) (rs : List Int) :
    accepted (op :: ops) (r :: rs) = accepted [op] [r] ++ accepted ops rs := by
  simp only [accepted, List.zip_cons_cons, List.flatMap_cons, List.zip_nil_left, List.flatMap_nil,
    List.append_nil]

theorem Framed.overflow (h : Framed f start x payloads chars) (c : Int) :
    ∃ payloads', Framed f start (x.overflow f c).1 payloads'
      (chars ++ accepted [.overflow c] [(x.overflow f c).2]) := by
  obtain ⟨-, hflush⟩ | ⟨y, n, hflush, hnil, hy⟩ := h.flush
  · have hoverflow : x.overflow f c = (x, EOF) := by
      simp only [FlatWriter.overflow, hflush, if_true]
    rw [hoverflow]
    exact ⟨payloads, (List.append_nil chars).symm ▸ h⟩
  · have hne : (n : Int) ≠ -1 := by omega
    by_cases hc : c = EOF
    · have hoverflow : x.overflow f c = (y, EOF) := by
        simp only [FlatWriter.overflow, hflush, if_neg hne, hc, ne_eq, not_true_eq_false, if_false]
      rw [hoverflow]
      exact ⟨_, (List.append_nil chars).symm ▸ hy⟩
    · have hoverflow : x.overflow f c = ({ y with pending := y.pending ++ [UInt8.ofInt c] }, c) := by
        simp only [FlatWriter.overflow, hflush, if_neg hne, ne_eq, hc, not_false_eq_true, if_true]
      have haccepted : accepted [.overflow c] [c] = [UInt8.ofInt c] := by
        simp only [accepted, List.zip_cons_cons, List.zip_nil_left, List.flatMap_cons, List.flatMap_nil,
          if_neg hc, List.append_nil]
      rw [hoverflow, haccepted]
      exact ⟨_, hy.put _⟩

/-- `sputc` that finds no room is `overflow` with the same character. -/
theorem accepted_sputc (c : UInt8) (r : Int) :
    accepted [.sputc c] [r] = accepted [.overflow (toIntType c)] [r] := by
  simp only [accepted, List.zip_cons_cons, List.zip_nil_left, List.flatMap_cons, List.flatMap_nil,
    ofInt_toIntType]

theorem Framed.call (h : Framed f start x payloads chars) (op : WriteCall) :
    ∃ payloads', Framed f start (x.call f op).1 payloads' (chars ++ accepted [op] [(x.call f op).2]) := by
  cases op with
  | sputc c =>
    by_cases hroom : x.pending.length < f.room
    · have hcall : x.call f (.sputc c) = ({ x with pending := x.pending ++ [c] }, toIntType c) :=
        if_pos hroom
      have haccepted : accepted [.sputc c] [toIntType c] = [c] := by
        simp only [accepted, List.zip_cons_cons, List.zip_nil_left, List.flatMap_cons, List.flatMap_nil,
          if_neg (toIntType_ne_eof c), List.append_nil]
      rw [hcall, haccepted]
      exact ⟨payloads, h.put c⟩
    · have hcall : x.call f (.sputc c) = x.overflow f (toIntType c) := if_neg hroom
      rw [hcall, accepted_sputc]
      exact h.overflow _
  | overflow c => exact h.overflow c
  | sync =>
    have haccepted : ∀ r, chars ++ accepted [.sync] [r] = chars := fun r => List.append_nil chars
    rw [haccepted]
    obtain ⟨hnil, -⟩ | ⟨y, n, hflush, -, hy⟩ := h.flush
    · have hcall : x.call f .sync = (x, 0) := if_pos hnil
      rw [hcall]
      exact ⟨payloads, h⟩
    · by_cases hnil : x.pending = []
      · have hcall : x.call f .sync = (x, 0) := if_pos hnil
        rw [hcall]
        exact ⟨payloads, h⟩
      · have hcall : (x.call f .sync).1 = y := by
          simp only [FlatWriter.call, if_neg hnil, hflush]
        rw [hcall]
        exact ⟨_, hy⟩

/-- Without a limit, the accepted characters are in the frames that have
been pushed and in the pending payload. -/
theorem Framed.run (h : Framed f start x payloads chars) (ops : List WriteCall) :
    ∃ payloads', Framed f start (specCalls (FlatWriter.call f) ops x).1 payloads'
      (chars ++ accepted ops (specCalls (FlatWriter.call f) ops x).2) := by
  induction ops generalizing x payloads chars with
  | nil => exact ⟨payloads, (List.append_nil chars).symm ▸ h⟩
  | cons op ops ih =>
    obtain ⟨payloads₁, h₁⟩ := h.call op
    obtain ⟨payloads₂, h₂⟩ := ih h₁
    refine ⟨payloads₂, ?_⟩
    simp only [specCalls]
    rw [accepted_cons, ← List.append_assoc]
    exact h₂

/-! ### With a limit -/

/-- `x` has pushed what `y` has, without a limit, but not more than `total`
bytes. -/
inductive Cut (total : Nat) : FlatWriter → FlatWriter → Prop where
  | below {y : FlatWriter} {n : Nat} (hleft : y.pushed.length + n = total) (hnone : y.left = none) :
      Cut total { y with left := some n } y
  | reached {x y : FlatWriter} (hleft : x.left = some 0) (hnone : y.left = none)
      (hpushed : x.pushed = y.pushed.take total) (hle : total ≤ y.pushed.length) : Cut total x y

variable {total : Nat}

theorem Cut.unlimited (h : Cut total x y) : y.left = none := by
  cases h with
  | below _ hnone => exact hnone
  | reached _ hnone => exact hnone

theorem Cut.pushed (h : Cut total x y) : x.pushed = y.pushed.take total := by
  cases h with
  | @below y n hleft =>
    have hle : y.pushed.length ≤ total := by omega
    exact (List.take_of_length_le hle).symm
  | reached _ _ hpushed => exact hpushed

/-- Without a limit a flush pushes more. -/
theorem flush_extends (hnone : y.left = none) :
    (y.flush f).1.left = none ∧ y.pushed <+: (y.flush f).1.pushed := by
  by_cases hnil : y.pending = []
  · rw [flush_nil hnil]
    exact ⟨hnone, List.prefix_refl _⟩
  · rw [FlatWriter.flush, if_neg hnil, hnone]
    exact ⟨rfl, List.prefix_append _ _⟩

theorem call_extends (hnone : y.left = none) (op : WriteCall) :
    (y.call f op).1.left = none ∧ y.pushed <+: (y.call f op).1.pushed := by
  obtain ⟨hpushed, hleft⟩ | ⟨hpushed, hleft⟩ := call_pushed f y op <;> rw [hpushed, hleft]
  · exact ⟨hnone, List.prefix_refl _⟩
  · exact flush_extends hnone

/-- At the limit nothing more is pushed. -/
theorem flush_full (hfull : x.left = some 0) :
    (x.flush f).1.left = some 0 ∧ (x.flush f).1.pushed = x.pushed := by
  by_cases hnil : x.pending = []
  · rw [flush_nil hnil]
    exact ⟨hfull, rfl⟩
  · rw [FlatWriter.flush, if_neg hnil, hfull]
    refine ⟨?_, rfl⟩
    show some (0 - _) = some 0
    rw [Nat.zero_sub]

theorem call_full (hfull : x.left = some 0) (op : WriteCall) :
    (x.call f op).1.left = some 0 ∧ (x.call f op).1.pushed = x.pushed := by
  obtain ⟨hpushed, hleft⟩ | ⟨hpushed, hleft⟩ := call_pushed f x op <;> rw [hpushed, hleft]
  · exact ⟨hfull, rfl⟩
  · exact flush_full hfull

theorem Cut.reached_call (hleft : x.left = some 0) (hnone : y.left = none)
    (hpushed : x.pushed = y.pushed.take total) (hle : total ≤ y.pushed.length) (op : WriteCall) :
    Cut total (x.call f op).1 (y.call f op).1 := by
  obtain ⟨hleft', hpushed'⟩ := call_full (f := f) hleft op
  obtain ⟨hnone', rest, hrest⟩ := call_extends (f := f) hnone op
  refine .reached hleft' hnone' ?_ ?_
  · rw [hpushed', ← hrest, List.take_append_of_le_length hle, hpushed]
  · rw [← hrest, List.length_append]
    omega

/-- A flush below the limit is that of the writer without it, or reaches
the limit. -/
theorem Cut.flush {n : Nat} (hleft : y.pushed.length + (n + 1) = total) (hnone : y.left = none) :
    (∃ m, FlatWriter.flush f { y with left := some (n + 1) } =
        ({ (y.flush f).1 with left := some m }, (y.flush f).2) ∧
        (y.flush f).1.pushed.length + m = total) ∨
      ((FlatWriter.flush f { y with left := some (n + 1) }).1.left = some 0 ∧
        (FlatWriter.flush f { y with left := some (n + 1) }).1.pushed =
          (y.flush f).1.pushed.take total ∧ total ≤ (y.flush f).1.pushed.length) := by
  by_cases hnil : y.pending = []
  · refine .inl ⟨n + 1, ?_, ?_⟩
    · rw [flush_nil (x := { y with left := some (n + 1) }) hnil, flush_nil hnil]
    · rw [flush_nil hnil]
      exact hleft
  · obtain ⟨bytes, hbytes⟩ : ∃ bytes, bytes = f.bytes y.writes y.pending := ⟨_, rfl⟩
    have hflush : y.flush f = ({ y with
        writes := y.writes + 1, pushed := y.pushed ++ bytes, pending := [] }, (y.pending.length : Int)) := by
      rw [FlatWriter.flush, if_neg hnil, hnone, hbytes]
      rfl
    have hlimited : FlatWriter.flush f { y with left := some (n + 1) } =
        if min (n + 1) bytes.length ≥ y.pending.length then
          ({ y with
            writes := y.writes + 1, left := some (n + 1 - bytes.length)
            pushed := y.pushed ++ bytes.take (n + 1), pending := [] }, (y.pending.length : Int))
        else ({ y with
            writes := y.writes + 1, left := some (n + 1 - bytes.length)
            pushed := y.pushed ++ bytes.take (n + 1) }, -1) := by
      unfold FlatWriter.flush
      rw [if_neg hnil, hbytes]
      rfl
    have hlength : y.pending.length ≤ bytes.length := by
      rw [hbytes, Frame.bytes, List.length_append, List.length_append]
      omega
    rw [hlimited, hflush]
    by_cases hfits : bytes.length ≤ n + 1
    · refine .inl ⟨n + 1 - bytes.length, ?_, ?_⟩
      · rw [if_pos (by omega), List.take_of_length_le hfits]
      · rw [List.length_append]
        omega
    · refine .inr ⟨?_, ?_, ?_⟩
      · have hzero : n + 1 - bytes.length = 0 := by omega
        split <;> rw [hzero]
      · have htake : (y.pushed ++ bytes).take total = y.pushed ++ bytes.take (n + 1) := by
          rw [← hleft, List.take_length_add_append]
        rw [htake]
        split <;> rfl
      · rw [List.length_append]
        omega

theorem Cut.overflow {n : Nat} (hleft : y.pushed.length + (n + 1) = total) (hnone : y.left = none)
    (c : Int) :
    Cut total (FlatWriter.overflow f c { y with left := some (n + 1) }).1 (y.overflow f c).1 := by
  obtain ⟨hnone', -⟩ := flush_extends (f := f) hnone
  obtain ⟨m, hflush, hleft'⟩ | ⟨hfull, hpushed, hle⟩ := Cut.flush (f := f) hleft hnone
  · unfold FlatWriter.overflow
    rw [hflush]
    dsimp only
    split
    · exact .below hleft' hnone'
    · split
      · exact .below (y := { (y.flush f).1 with pending := (y.flush f).1.pending ++ [UInt8.ofInt c] })
          hleft' hnone'
      · exact .below hleft' hnone'
  · obtain ⟨hpushedX, hleftX⟩ := overflow_pushed f { y with left := some (n + 1) } c
    obtain ⟨hpushedY, hleftY⟩ := overflow_pushed f y c
    refine .reached (hleftX.trans hfull) (hleftY.trans hnone') ?_ ?_
    · rw [hpushedX, hpushedY, hpushed]
    · rw [hpushedY]
      exact hle

/-- A call keeps the two together. -/
theorem Cut.call (h : Cut total x y) (op : WriteCall) : Cut total (x.call f op).1 (y.call f op).1 := by
  cases h with
  | reached hleft hnone hpushed hle => exact Cut.reached_call hleft hnone hpushed hle op
  | @below _ n hleft hnone =>
    cases n with
    | zero =>
      have hle : y.pushed.length ≤ total := Nat.le_of_eq hleft
      exact Cut.reached_call (x := { y with left := some 0 }) rfl hnone (List.take_of_length_le hle).symm
        (Nat.le_of_eq hleft.symm) op
    | succ n =>
      cases op with
      | sputc c =>
        by_cases hroom : y.pending.length < f.room
        · simp only [FlatWriter.call, if_pos hroom]
          exact .below (y := { y with pending := y.pending ++ [c] }) hleft hnone
        · simp only [FlatWriter.call, if_neg hroom]
          exact Cut.overflow hleft hnone _
      | overflow c => exact Cut.overflow hleft hnone c
      | sync =>
        by_cases hnil : y.pending = []
        · simp only [FlatWriter.call, if_pos hnil]
          exact .below hleft hnone
        · simp only [FlatWriter.call, if_neg hnil]
          obtain ⟨hnone', -⟩ := flush_extends (f := f) hnone
          obtain ⟨m, hflush, hleft'⟩ | ⟨hfull, hpushed, hle⟩ := Cut.flush (f := f) hleft hnone
          · rw [hflush]
            exact .below hleft' hnone'
          · exact .reached hfull hnone' hpushed hle

/-- And so do all calls. -/
theorem Cut.run (h : Cut total x y) (ops : List WriteCall) :
    Cut total (specCalls (FlatWriter.call f) ops x).1 (specCalls (FlatWriter.call f) ops y).1 := by
  induction ops generalizing x y with
  | nil => exact h
  | cons op ops ih =>
    simp only [specCalls]
    exact ih (h.call op)

end Efio.Proofs.Spec
