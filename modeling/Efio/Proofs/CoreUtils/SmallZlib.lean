import Efio.Spec.Compression

/-!
# `Efio.Proofs.CoreUtils.SmallZlib`: the contracts of zlib can be met

`emitter f` is an engine that decides with the first call, from the input,
what it is going to write, and then writes it piece by piece. It meets the
contracts of both directions, whatever `f` is.

`smallZlib` compresses `hello` to the bytes that zlib itself gives for it.
For any other input it puts a one before each byte and a zero behind the
last (`mark`). `small_deflates` and `small_inflates` say that these streams
satisfy `Deflates` and `Inflates`.
-/

set_option autoImplicit false

namespace Efio.Proofs.CoreUtils

open Efio.Lib Efio.CoreUtils Efio.Spec

/-! ### An engine that writes what is fixed by its input -/

/-- The state is what is still to be written, once that is decided: nothing
at all when the input is no good. -/
def emitter (f : List UInt8 → Option (List UInt8)) : Engine where
  State := Option (Option (List UInt8))
  init := (.ok, none)
  call s strm :=
    match strm.nextOut with
    | none => (s, ⟨0, [], .streamError⟩)
    | some _ =>
      if strm.availOut = 0 then (s, ⟨0, [], .bufError⟩)
      else
        match s.getD (f strm.unread) with
        | none => (some none, ⟨strm.unread.length, [], .bufError⟩)
        | some left =>
          (some (some (left.drop strm.availOut)), ⟨strm.unread.length, left.take strm.availOut,
            if left.length < strm.availOut then .streamEnd else .ok⟩)

variable {f : List UInt8 → Option (List UInt8)}

/-- The bytes that are still to be written. -/
def emitterOwes (f : List UInt8 → Option (List UInt8)) (s : Option (Option (List UInt8)))
    (x left : List UInt8) : Prop := s.getD (f x) = some left

/-- The input is no good. -/
def emitterStarved (f : List UInt8 → Option (List UInt8)) (s : Option (Option (List UInt8)))
    (x : List UInt8) : Prop := s.getD (f x) = none

theorem emitter_call {s : Option (Option (List UInt8))} {x left : List UInt8} (h : emitterOwes f s x left)
    (p : Ptr) {room : Nat} (hroom : 0 < room) :
    (emitter f).call s ⟨x, some p, room⟩ = (some (some (left.drop room)), ⟨x.length, left.take room,
      if left.length < room then .streamEnd else .ok⟩) := by
  have h : s.getD (f x) = some left := h
  simp only [emitter, Nat.ne_of_gt hroom, if_false, h]

theorem emitter_deflates {stream : List UInt8 → List UInt8} (hf : ∀ x, f x = some (stream x)) :
    Deflates (emitter f) stream (emitterOwes f) where
  start _ x _ := hf x
  null _ _ _ := ⟨rfl, rfl⟩
  writes s x left h p room hroom _ := by
    rw [emitter_call h p hroom]
    exact ⟨rfl, rfl⟩
  returns s x left h p room hroom _ := by
    rw [emitter_call h p hroom]
    dsimp only
    split
    · next hlt => exact ⟨by decide, fun _ => ⟨rfl, List.drop_length⟩⟩
    · next hge => exact ⟨by decide, fun hlt => absurd hlt hge⟩

theorem emitter_inflates {stream : List UInt8 → List UInt8}
    (hdelimits : ∀ x y, stream x <+: stream y → x = y) (hf : ∀ x, f (stream x) = some x)
    (hshort : ∀ x y, y <+: stream x → y ≠ stream x → f y = none) :
    Inflates (emitter f) stream (emitterOwes f) (emitterStarved f) where
  delimits := hdelimits
  init := rfl
  start x _ := hf x
  writes s y left h p room hroom _ := by
    rw [emitter_call h p hroom]
    exact ⟨rfl, rfl⟩
  returns s y left h p room hroom _ := by
    rw [emitter_call h p hroom]
    dsimp only
    split
    · exact .inl rfl
    · next hge => exact .inr ⟨Nat.le_of_not_lt hge, rfl⟩
  short x y _ hprefix hne := hshort x y hprefix hne
  starves s y h p room := by
    have h : s.getD (f y) = none := h
    cases p with
    | none =>
      refine ⟨?_, h⟩
      show Ret.streamError ≠ .streamEnd
      decide
    | some p =>
      by_cases hroom : room = 0
      · simp only [emitter, hroom, if_true]
        exact ⟨by decide, h⟩
      · simp only [emitter, hroom, if_false, h]
        exact ⟨by decide, rfl⟩

/-- All calls together write no more than was decided. -/
theorem outputs_emitter (calls : List (Option Ptr × Nat)) (s : Option (Option (List UInt8))) (x : List UInt8) :
    outputs (emitter f) s x calls ≤ ((s.getD (f x)).getD []).length := by
  induction calls generalizing s x with
  | nil => exact Nat.zero_le _
  | cons c calls ih =>
    obtain ⟨p, room⟩ := c
    show ((emitter f).call s ⟨x, p, room⟩).2.output.length + outputs (emitter f) _ _ calls ≤ _
    cases p with
    | none => exact Nat.le_trans (Nat.le_of_eq (Nat.zero_add _)) (ih s x)
    | some p =>
      by_cases hroom : room = 0
      · simp only [emitter, hroom, if_true]
        exact Nat.le_trans (Nat.le_of_eq (Nat.zero_add _)) (ih s x)
      · cases h : s.getD (f x) with
        | none =>
          simp only [emitter, hroom, if_false, h]
          exact Nat.le_trans (Nat.le_of_eq (Nat.zero_add _)) (ih (some none) _)
        | some left =>
          rw [emitter_call h p (Nat.pos_of_ne_zero hroom)]
          have hrest := ih (some (some (left.drop room))) (x.drop x.length)
          simp only [Option.getD_some, List.length_drop, List.length_take] at hrest ⊢
          omega

theorem emitter_bounded : Bounded (emitter f) where
  fits s x p room := by
    cases p with
    | none => exact Nat.zero_le _
    | some p =>
      by_cases hroom : room = 0
      · simp only [emitter, hroom, if_true]
        exact Nat.le_refl 0
      · cases h : s.getD (f x) with
        | none =>
          simp only [emitter, hroom, if_false, h]
          exact Nat.zero_le _
        | some left =>
          rw [emitter_call h p (Nat.pos_of_ne_zero hroom)]
          exact List.length_take_le _ _
  finite x := ⟨_, fun calls => outputs_emitter calls none x⟩

theorem emitter_answers : Answers (emitter f) (· = none) where
  null _ _ _ := rfl
  start := rfl
  noRoom _ h _ := ⟨rfl, h⟩

/-! ### Streams that mark their end -/

/-- A one before each byte, and a zero behind the last. -/
def mark : List UInt8 → List UInt8
  | [] => [0]
  | b :: x => 1 :: b :: mark x

/-- The bytes up to the mark of the end, if there is one. -/
def unmark : List UInt8 → Option (List UInt8)
  | [] => none
  | [c] => if c = 0 then some [] else none
  | c :: b :: y => if c = 0 then some [] else if c = 1 then (unmark y).map (b :: ·) else none

theorem unmark_mark (x junk : List UInt8) : unmark (mark x ++ junk) = some x := by
  induction x with
  | nil => cases junk <;> rfl
  | cons b x ih =>
    show (unmark (mark x ++ junk)).map (b :: ·) = _
    rw [ih]
    rfl

/-- A stream that breaks off has no end. -/
theorem unmark_short {x y : List UInt8} (h : y <+: mark x) (hne : y ≠ mark x) : unmark y = none := by
  induction x generalizing y with
  | nil =>
    cases y with
    | nil => rfl
    | cons c y =>
      obtain ⟨rfl, hy⟩ := List.cons_prefix_cons.mp h
      rw [List.prefix_nil.mp hy] at hne
      exact absurd rfl hne
  | cons b x ih =>
    match y with
    | [] => rfl
    | [c] =>
      obtain ⟨rfl, -⟩ := List.cons_prefix_cons.mp h
      rfl
    | c :: b' :: y =>
      obtain ⟨rfl, hb⟩ := List.cons_prefix_cons.mp h
      obtain ⟨rfl, hx⟩ := List.cons_prefix_cons.mp hb
      have hy : y ≠ mark x := fun hy => hne (by rw [hy]; rfl)
      show (unmark y).map (b' :: ·) = none
      rw [ih hx hy]
      rfl

/-! ### A small zlib -/

def hello : List UInt8 := [104, 101, 108, 108, 111]

/-- What zlib gives for `hello`. -/
def helloStream : List UInt8 := [120, 156, 203, 72, 205, 201, 201, 7, 0, 6, 44, 2, 21]

def smallStream (x : List UInt8) : List UInt8 := if x = hello then helloStream else mark x

/-- The input of the stream that `y` begins with. -/
def smallInput (y : List UInt8) : Option (List UInt8) :=
  if helloStream <+: y then some hello else unmark y

def smallZlib : Zlib := ⟨emitter fun x => some (smallStream x), emitter smallInput⟩

theorem not_helloStream_le (x junk : List UInt8) : ¬helloStream <+: mark x ++ junk := by
  intro h
  cases x with
  | nil => exact absurd (List.cons_prefix_cons.mp h).1 (by decide)
  | cons b x => exact absurd (List.cons_prefix_cons.mp h).1 (by decide)

theorem smallInput_smallStream (x junk : List UInt8) : smallInput (smallStream x ++ junk) = some x := by
  rw [smallInput, smallStream]
  split
  · next hx => rw [if_pos (List.prefix_append _ _), hx]
  · rw [if_neg (not_helloStream_le x junk), unmark_mark]

theorem smallStream_delimits (x y : List UInt8) (h : smallStream x <+: smallStream y) : x = y := by
  obtain ⟨junk, hjunk⟩ := h
  have hx := smallInput_smallStream x junk
  have hy := smallInput_smallStream y []
  rw [List.append_nil, ← hjunk, hx] at hy
  exact Option.some.inj hy

theorem smallInput_short {x y : List UInt8} (h : y <+: smallStream x) (hne : y ≠ smallStream x) :
    smallInput y = none := by
  rw [smallStream] at h hne
  rw [smallInput]
  split at h
  · next hx =>
    rw [if_pos hx] at hne
    rw [if_neg fun hle => hne (h.eq_of_length_le hle.length_le)]
    match y with
    | [] => rfl
    | [c] =>
      obtain ⟨rfl, -⟩ := List.cons_prefix_cons.mp h
      rfl
    | c :: b :: y =>
      obtain ⟨rfl, -⟩ := List.cons_prefix_cons.mp h
      rfl
  · next hx =>
    rw [if_neg hx] at hne
    have hhello : ¬helloStream <+: y := by
      intro hle
      have hmark := not_helloStream_le x []
      rw [List.append_nil] at hmark
      exact hmark (hle.trans h)
    rw [if_neg hhello, unmark_short h hne]

theorem small_deflates : Deflates smallZlib.deflate smallStream (emitterOwes fun x => some (smallStream x)) :=
  emitter_deflates fun _ => rfl

theorem small_inflates :
    Inflates smallZlib.inflate smallStream (emitterOwes smallInput) (emitterStarved smallInput) := by
  apply emitter_inflates smallStream_delimits
  · intro x
    have hx := smallInput_smallStream x []
    rwa [List.append_nil] at hx
  · intro x y
    exact smallInput_short

theorem small_bounded : Bounded smallZlib.deflate ∧ Bounded smallZlib.inflate :=
  ⟨@emitter_bounded fun x => some (smallStream x), @emitter_bounded smallInput⟩

end Efio.Proofs.CoreUtils
