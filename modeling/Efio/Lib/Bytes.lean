import Mathlib.Data.List.Basic

/-!
# `Efio.Lib.Bytes`: cutting and overlaying a list by position

A flat file is a list, and two operations change it by position:

* `resize xs n` cuts `xs` to `n` entries, or fills it up to `n` with
  `default` (`ftruncate`);
* `writeAt xs off ys` lays `ys` over `xs` from position `off`, filling a
  gap before `off` the same way (`pwrite`, `memcpy` into a page).

`length_resize` and `length_writeAt` give the lengths, `getElem?_resize`
and `getElem?_writeAt` the entries. `List.ext_getElem?` turns each
equation between such lists into a case split on the position.
`writeAt_writeAt_append` is the rule the sequential writer uses: two
adjacent overlays are one overlay of the concatenation.
-/

set_option autoImplicit false

namespace Efio.Lib

variable {α : Type} [Inhabited α]

/-- `xs` cut to `n` entries, or filled up to `n` entries with `default`. -/
def resize (xs : List α) (n : Nat) : List α :=
  xs.take n ++ List.replicate (n - xs.length) default

/-- `ys` laid over `xs` from position `off`. A gap between the end of
`xs` and `off` is filled with `default`. -/
def writeAt (xs : List α) (off : Nat) (ys : List α) : List α :=
  resize xs off ++ ys ++ xs.drop (off + ys.length)

@[simp] theorem length_resize (xs : List α) (n : Nat) : (resize xs n).length = n := by
  simp only [resize, List.length_append, List.length_take, List.length_replicate]
  omega

theorem getElem?_resize_of_lt {xs : List α} {n i : Nat} (hn : i < n) (hx : i < xs.length) :
    (resize xs n)[i]? = xs[i]? := by
  have htake : i < (xs.take n).length := by
    rw [List.length_take]
    omega
  rw [resize, List.getElem?_append_left htake, List.getElem?_take_of_lt hn]

theorem getElem?_resize_of_le {xs : List α} {n i : Nat} (hn : n ≤ i) :
    (resize xs n)[i]? = none :=
  List.getElem?_eq_none (by rw [length_resize]; exact hn)

theorem resize_eq_take {xs : List α} {n : Nat} (h : n ≤ xs.length) : resize xs n = xs.take n := by
  simp [resize, Nat.sub_eq_zero_of_le h]

@[simp] theorem resize_length (xs : List α) : resize xs xs.length = xs := by
  rw [resize_eq_take (Nat.le_refl _), List.take_length]

theorem length_writeAt (xs : List α) (off : Nat) (ys : List α) :
    (writeAt xs off ys).length = max xs.length (off + ys.length) := by
  simp only [writeAt, List.length_append, length_resize, List.length_drop]
  omega

/-- Before the overlay nothing changes. -/
theorem getElem?_writeAt_of_lt {xs : List α} {off i : Nat} (ys : List α)
    (hi : i < off) (hx : i < xs.length) : (writeAt xs off ys)[i]? = xs[i]? := by
  have hlen : i < (resize xs off).length := by rwa [length_resize]
  rw [writeAt, List.append_assoc, List.getElem?_append_left hlen, getElem?_resize_of_lt hi hx]

/-- Inside the overlay stand the entries of `ys`. -/
theorem getElem?_writeAt_mid {off i : Nat} (xs : List α) {ys : List α}
    (h₁ : off ≤ i) (h₂ : i < off + ys.length) : (writeAt xs off ys)[i]? = ys[i - off]? := by
  rw [writeAt, List.append_assoc, List.getElem?_append_right (by rwa [length_resize]), length_resize,
    List.getElem?_append_left (by omega)]

/-- After the overlay nothing changes. -/
theorem getElem?_writeAt_of_ge {off i : Nat} (xs : List α) {ys : List α}
    (h : off + ys.length ≤ i) : (writeAt xs off ys)[i]? = xs[i]? := by
  have hlen : (resize xs off ++ ys).length ≤ i := by
    rw [List.length_append, length_resize]
    exact h
  rw [writeAt, List.getElem?_append_right hlen, List.getElem?_drop, List.length_append, length_resize]
  congr 1
  omega

/-- Up to the end of the overlay. -/
theorem take_writeAt {xs : List α} {off : Nat} (ys : List α) (h : off ≤ xs.length) :
    (writeAt xs off ys).take (off + ys.length) = xs.take off ++ ys := by
  have htake : (xs.take off).length = off := List.length_take_of_le h
  rw [writeAt, resize_eq_take h, List.take_append_of_le_length (by simp [htake]),
    List.take_of_length_le (by simp [htake])]

theorem writeAt_nil_of_le {xs : List α} {off : Nat} (h : off ≤ xs.length) :
    writeAt xs off [] = xs := by
  rw [writeAt, resize_eq_take h, List.append_nil, List.length_nil, Nat.add_zero, List.take_append_drop]

/-- An overlay of the second part of a list. -/
theorem writeAt_append (xs ys zs : List α) :
    writeAt (xs ++ ys) xs.length zs = xs ++ (zs ++ ys.drop zs.length) := by
  have htake : resize (xs ++ ys) xs.length = xs := by
    rw [resize_eq_take (by rw [List.length_append]; omega), List.take_left' rfl]
  rw [writeAt, htake, List.drop_append, List.drop_eq_nil_of_le (Nat.le_add_right _ _), List.nil_append,
    Nat.add_sub_cancel_left, List.append_assoc]

/-- Two adjacent overlays are one overlay of the concatenation. -/
theorem writeAt_writeAt_append {xs : List α} {off : Nat} (ys zs : List α) (h : off ≤ xs.length) :
    writeAt (writeAt xs off ys) (off + ys.length) zs = writeAt xs off (ys ++ zs) := by
  apply List.ext_getElem?
  intro i
  have hlen := length_writeAt xs off ys
  rcases Nat.lt_or_ge i off with hlt | hge
  · rw [getElem?_writeAt_of_lt zs (by omega) (by omega),
      getElem?_writeAt_of_lt ys hlt (by omega), getElem?_writeAt_of_lt (ys ++ zs) hlt (by omega)]
  · rcases Nat.lt_or_ge i (off + ys.length) with hlt' | hge'
    · rw [getElem?_writeAt_of_lt zs hlt' (by omega), getElem?_writeAt_mid xs hge hlt',
        getElem?_writeAt_mid xs hge (by rw [List.length_append]; omega),
        List.getElem?_append_left (by omega)]
    · rcases Nat.lt_or_ge i (off + ys.length + zs.length) with hlt'' | hge''
      · rw [getElem?_writeAt_mid _ hge' hlt'',
          getElem?_writeAt_mid xs hge (by rw [List.length_append]; omega),
          List.getElem?_append_right (by omega)]
        congr 1
        omega
      · rw [getElem?_writeAt_of_ge _ hge'', getElem?_writeAt_of_ge xs hge',
          getElem?_writeAt_of_ge xs (by rw [List.length_append]; omega)]

end Efio.Lib
