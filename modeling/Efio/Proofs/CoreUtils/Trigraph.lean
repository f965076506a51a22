import Efio.Spec.Trigrams
import Mathlib.Algebra.BigOperators.Ring.Finset
import Mathlib.Algebra.Order.BigOperators.Group.Finset
import Mathlib.Algebra.Order.Ring.Int
import Mathlib.Data.List.Find
import Mathlib.Data.List.TakeWhile

/-!
# `Efio.Proofs.CoreUtils.Trigraph`: the table of trigrams

`trigrams_correct` says exactly when the tables of two strings are right and
`dot_product` is the sum over the common windows.

`Extracted` is the invariant of the loop: the entries tally the windows that
have been read, and the indices that have been written are those of the
entries. So a write is outside of the array when there are too many distinct
windows (`Extracted.inBounds_iff`), and the numbers add up to the number of
the rounds, which is less than it should be when `strlen` does not fit into
an `int` (`rounds_eq_iff`).

A product of two numbers that overflows becomes less, and the sum with it.
The sum of at most 1000 `int`s is exact in a `double`.
-/

set_option autoImplicit false

namespace Efio.Proofs.CoreUtils

open Efio.Lib Efio.CoreUtils Efio.Spec

variable {s t : CString} {ws vs : List (List UInt8)} {ts us : List (List UInt8 × Nat)} {u v w : List UInt8}

/-! ### Strings -/

theorem strcmp_cons_ne {c c' : UInt8} (h : c ≠ c') (s1 s2 : List UInt8) : strcmp (c :: s1) (c' :: s2) ≠ 0 := by
  rw [strcmp, if_pos h]
  intro heq
  exact h (UInt8.toNat_inj.mp (by omega))

theorem strcmp_cons_self {c : UInt8} (h : c ≠ 0) (s1 s2 : List UInt8) :
    strcmp (c :: s1) (c :: s2) = strcmp s1 s2 := by
  rw [strcmp, if_neg (not_not_intro rfl), if_neg h]

theorem strcmp_eq_zero (hu : 0 ∉ u) (hv : 0 ∉ v) : strcmp (u ++ [0]) (v ++ [0]) = 0 ↔ u = v := by
  induction u generalizing v with
  | nil =>
    cases v with
    | nil => decide
    | cons b v => exact iff_of_false (strcmp_cons_ne (List.ne_of_not_mem_cons hv) _ _) (List.cons_ne_nil b v).symm
  | cons a u ih =>
    have ha : (0 : UInt8) ≠ a := List.ne_of_not_mem_cons hu
    cases v with
    | nil => exact iff_of_false (strcmp_cons_ne ha.symm _ _) (List.cons_ne_nil a u)
    | cons b v =>
      by_cases hab : a = b
      · rw [← hab, List.cons_append, List.cons_append, strcmp_cons_self ha.symm,
          ih (List.not_mem_of_not_mem_cons hu) (List.not_mem_of_not_mem_cons hv), List.cons.injEq]
        exact (and_iff_right rfl).symm
      · exact iff_of_false (strcmp_cons_ne hab _ _) fun h => hab (List.cons.inj h).1

theorem strncpy_eq_take {src : List UInt8} {n : Nat} (hsrc : 0 ∉ src) (hn : n ≤ src.length) :
    strncpy src n = src.take n := by
  have hall : src.takeWhile (· ≠ 0) = src := by
    rw [List.takeWhile_eq_self_iff]
    intro b hb
    exact decide_eq_true fun h => hsrc (h ▸ hb)
  rw [strncpy, hall, resize_eq_take (by rw [List.length_take]; omega), List.take_take, Nat.min_self]

theorem not_mem_window (s : CString) (i : Nat) : 0 ∉ window s i :=
  fun h => s.nulFree (List.mem_of_mem_drop (List.mem_of_mem_take h))

theorem trigramAt_eq {i : Nat} (hi : i + 3 ≤ s.bytes.length) : trigramAt s i = window s i ++ [0] := by
  have hnul : 0 ∉ s.bytes.drop i := fun h => s.nulFree (List.mem_of_mem_drop h)
  rw [trigramAt, strncpy_eq_take hnul (by rw [List.length_drop]; omega), window]

/-! ### Numbers -/

theorem cInt_eq {n : Int} (h0 : 0 ≤ n) (hlt : n < 2 ^ 31) : cInt n = n :=
  Int.bmod_eq_of_le (by omega) (by omega)

theorem cInt_lt (n : Int) : cInt n < 2 ^ 31 := by
  have h := Int.bmod_lt (x := n) (Nat.two_pow_pos 32)
  exact h

theorem le_cInt (n : Int) : -2 ^ 31 ≤ cInt n := by
  have h := Int.le_bmod (x := n) (Nat.two_pow_pos 32)
  exact h

/-- Only an `int` that overflows changes, and becomes less. -/
theorem cInt_le {n : Int} (h0 : 0 ≤ n) : cInt n ≤ n := by
  by_cases hlt : n < 2 ^ 31
  · exact Int.le_of_eq (cInt_eq h0 hlt)
  · have h := cInt_lt n
    omega

theorem cInt_eq_iff {n : Int} (h0 : 0 ≤ n) : cInt n = n ↔ n < 2 ^ 31 :=
  ⟨fun h => h ▸ cInt_lt n, cInt_eq h0⟩

/-- A number with at most 53 digits is not rounded. -/
theorem roundEven_eq {n : Nat} (h : n < 2 ^ 53) : roundEven n = n := by
  have hulp : n.log2 + 1 - 53 = 0 := by
    by_cases hn : n = 0
    · rw [hn]
      decide
    · have hlog := (Nat.log2_lt hn).mpr h
      omega
  simp only [roundEven, hulp, pow_zero, Nat.mod_one, Nat.div_one, Nat.mul_one]
  exact if_pos (.inl (by decide))

theorem toDouble_eq {n : Int} (h : n.natAbs < 2 ^ 53) : toDouble n = n := by
  rw [toDouble, roundEven_eq h, Int.sign_mul_natAbs]

/-! ### One window -/

/-- The table for the windows `ws`. -/
structure Extracted (ws : List (List UInt8)) (trigrams : TrigramTable) : Prop where
  lists : ∃ ts, Tallies ws ts ∧ trigrams.entries = ts.map entryOf
  written : ∀ i, i ∈ trigrams.writes ↔ i < trigrams.entries.length

variable {trigrams : TrigramTable}

theorem Extracted.start : Extracted [] ⟨[], []⟩ where
  lists := ⟨[], Tallies.nil, rfl⟩
  written i := iff_of_false (List.not_mem_nil) (Nat.not_lt_zero i)

/-- The search ends at the entry of `w`, or finds that there is none. -/
theorem search_window (h : Tallies ws ts) (hws : ∀ v ∈ ws, 0 ∉ v) (hw : 0 ∉ w) {j : Nat}
    (hj : (ts.map entryOf).findIdx (fun e => strcmp e.trigram (w ++ [0]) = 0) = j) :
    (∃ n, ts[j]? = some (w, n)) ∨ ts[j]? = none ∧ w ∉ ws := by
  have hsame : ∀ p ∈ ts, (strcmp (entryOf p).trigram (w ++ [0]) = 0 ↔ p.1 = w) := fun p hp =>
    strcmp_eq_zero (hws p.1 ((h.listed p.1).mp (List.mem_map_of_mem hp))) hw
  subst hj
  by_cases hlt : (ts.map entryOf).findIdx (fun e => strcmp e.trigram (w ++ [0]) = 0) < (ts.map entryOf).length
  · left
    have hfound := of_decide_eq_true (List.findIdx_getElem (w := hlt))
    rw [List.length_map] at hlt
    rw [List.getElem_map, hsame _ (List.getElem_mem hlt)] at hfound
    rw [List.getElem?_eq_getElem hlt]
    exact ⟨_, congrArg some (Prod.ext hfound rfl)⟩
  · right
    have hnone := List.findIdx_eq_length.mp (Nat.le_antisymm List.findIdx_le_length (Nat.le_of_not_lt hlt))
    rw [List.length_map] at hlt
    refine ⟨List.getElem?_eq_none (Nat.le_of_not_lt hlt), ?_⟩
    intro hmem
    obtain ⟨p, hp, hpw⟩ := List.mem_map.mp ((h.listed w).mpr hmem)
    exact of_decide_eq_false (hnone (entryOf p) (List.mem_map_of_mem hp)) ((hsame p hp).mpr hpw)

/-- The next round of the loop. -/
theorem Extracted.add (h : Extracted ws trigrams) (hws : ∀ v ∈ ws, 0 ∉ v) (hw : 0 ∉ w)
    (hlen : ws.length + 1 < 2 ^ 31) : Extracted (ws ++ [w]) (trigrams.add (w ++ [0])) := by
  obtain ⟨ts, hts, hentries⟩ := h.lists
  obtain ⟨entries, writes⟩ := trigrams
  cases hentries
  have hwritten : ∀ i, i ∈ writes ↔ i < (ts.map entryOf).length := h.written
  simp only [TrigramTable.add]
  generalize hj : (ts.map entryOf).findIdx (fun e => strcmp e.trigram (w ++ [0]) = 0) = j
  rcases search_window hts hws hw hj with ⟨n, hn⟩ | ⟨hnone, hfresh⟩
  · -- The number of the entry is at most the number of the rounds.
    have hcount : n = ws.count w := hts.counted (w, n) (List.mem_of_getElem? hn)
    have hle : ws.count w ≤ ws.length := List.count_le_length
    have hnext : cInt ((n : Int) + 1) = (n + 1 : Nat) := cInt_eq (by omega) (by omega)
    have hlt : j < ts.length := (List.getElem?_eq_some_iff.mp hn).1
    rw [List.getElem?_map, hn]
    constructor
    · refine ⟨_, hts.again hn, ?_⟩
      show (ts.map entryOf).set j ⟨w ++ [0], cInt ((n : Int) + 1)⟩ = _
      rw [hnext, List.map_set]
      rfl
    · intro i
      show i ∈ writes ++ [j] ↔ i < ((ts.map entryOf).set j _).length
      rw [List.length_set, List.mem_append, hwritten, List.mem_singleton, List.length_map]
      omega
  · rw [List.getElem?_map, hnone]
    constructor
    · refine ⟨_, hts.fresh hfresh, ?_⟩
      rw [List.map_append]
      rfl
    · intro i
      show i ∈ writes ++ [_] ↔ i < (ts.map entryOf ++ [_]).length
      rw [List.mem_append, hwritten, List.mem_singleton, List.length_append, List.length_singleton]
      omega

/-! ### The loop -/

/-- The number of the rounds. -/
def rounds (s : CString) : Nat := (cInt s.bytes.length - 2).toNat

theorem rounds_lt (s : CString) : rounds s < 2 ^ 31 - 2 := by
  have h := cInt_lt s.bytes.length
  rw [rounds]
  omega

theorem rounds_le (s : CString) : rounds s ≤ s.bytes.length - 2 := by
  have h := cInt_le (Int.natCast_nonneg s.bytes.length)
  rw [rounds]
  omega

/-- A longer string is not read to its end. -/
theorem rounds_eq_iff (s : CString) : rounds s = s.bytes.length - 2 ↔ s.bytes.length < 2 ^ 31 := by
  constructor
  · intro h
    have hlt := rounds_lt s
    omega
  · intro h
    rw [rounds, cInt_eq (by omega) (by omega)]
    omega

/-- The loop is not entered when there is no round to make. -/
theorem extractTrigrams_eq (s : CString) : extractTrigrams s =
    (List.range (rounds s)).foldl (fun trigrams i => trigrams.add (trigramAt s i)) ⟨[], []⟩ := by
  simp only [extractTrigrams]
  split
  · have hnone : rounds s = 0 := by
      rw [rounds]
      omega
    rw [hnone]
    rfl
  · have hsome : (cInt s.bytes.length - 3 + 1).toNat = rounds s := by
      rw [rounds]
      omega
    rw [hsome]

theorem extracted_rounds {k : Nat} (hk : k ≤ rounds s) : Extracted ((List.range k).map (window s))
    ((List.range k).foldl (fun trigrams i => trigrams.add (trigramAt s i)) ⟨[], []⟩) := by
  induction k with
  | zero => exact Extracted.start
  | succ k ih =>
    have hle := rounds_le s
    have hlt := rounds_lt s
    rw [List.range_succ, List.map_append, List.foldl_append]
    show Extracted _ (TrigramTable.add (trigramAt s k) _)
    rw [trigramAt_eq (by omega)]
    apply (ih (by omega)).add
    · intro v hv
      obtain ⟨i, -, rfl⟩ := List.mem_map.mp hv
      exact not_mem_window s i
    · exact not_mem_window s k
    · rw [List.length_map, List.length_range]
      omega

theorem extracted (s : CString) : Extracted ((List.range (rounds s)).map (window s)) (extractTrigrams s) := by
  rw [extractTrigrams_eq]
  exact extracted_rounds (Nat.le_refl _)

/-! ### The table -/

theorem Extracted.length (h : Extracted ws trigrams) : trigrams.entries.length = ws.toFinset.card := by
  obtain ⟨ts, hts, hentries⟩ := h.lists
  rw [hentries, List.length_map, hts.length]

theorem Extracted.total (h : Extracted ws trigrams) :
    (trigrams.entries.map TrigramSType.count).sum = ws.length := by
  obtain ⟨ts, hts, hentries⟩ := h.lists
  rw [hentries, List.map_map, ← hts.total, Nat.cast_list_sum, List.map_map]
  rfl

/-- The writes are inside as long as the entries are. -/
theorem Extracted.inBounds_iff (h : Extracted ws trigrams) (n : Nat) :
    (∀ i ∈ trigrams.writes, i < n) ↔ ws.toFinset.card ≤ n := by
  rw [← h.length]
  constructor
  · intro hin
    by_contra hlt
    exact absurd (hin n ((h.written n).mpr (by omega))) (Nat.lt_irrefl n)
  · intro hle i hi
    have hlt := (h.written i).mp hi
    omega

theorem extracted_windows (hlt : s.bytes.length < 2 ^ 31) : Extracted (windows s) (extractTrigrams s) := by
  have h := extracted s
  rwa [(rounds_eq_iff s).mpr hlt] at h

/-- **The exact condition for the table.** -/
theorem buildsTable_iff (s : CString) : BuildsTable s ↔ FitsTable s := by
  constructor
  · intro h
    -- The numbers add up to the number of the rounds.
    have htotal := h.total
    rw [(extracted s).total, List.length_map, List.length_range] at htotal
    have hlt : s.bytes.length < 2 ^ 31 := (rounds_eq_iff s).mp (Int.ofNat_inj.mp htotal)
    exact ⟨hlt, ((extracted_windows hlt).inBounds_iff maxTrigrams).mp h.inBounds⟩
  · rintro ⟨hlt, hcard⟩
    have h := extracted_windows hlt
    have htotal := h.total
    rw [windows, List.length_map, List.length_range] at htotal
    exact ⟨(h.inBounds_iff maxTrigrams).mpr hcard, h.lists, htotal⟩

/-! ### The product -/

/-- What `dot_product` adds up. -/
def products (ts us : List (List UInt8 × Nat)) : List Int :=
  ts.filterMap fun p => (us.find? fun q => p.1 = q.1).map fun q => cInt ((p.2 : Int) * q.2)

theorem dotProduct_entries (hts : ∀ p ∈ ts, 0 ∉ p.1) (hus : ∀ q ∈ us, 0 ∉ q.1) :
    Efio.CoreUtils.dotProduct (ts.map entryOf) (us.map entryOf) =
      (products ts us).foldl (fun dot n => toDouble (dot + n)) 0 := by
  rw [Efio.CoreUtils.dotProduct, List.foldl_map, products, List.foldl_filterMap]
  apply List.foldl_ext
  intro dot p hp
  have hsame : us.find? ((fun e2 => decide (strcmp (entryOf p).trigram e2.trigram = 0)) ∘ entryOf) =
      us.find? fun q => p.1 = q.1 := by
    apply List.find?_congr
    intro q hq
    exact decide_eq_decide.mpr (strcmp_eq_zero (hts p hp) (hus q hq))
  rw [List.find?_map, hsame]
  cases us.find? fun q => p.1 = q.1 <;> rfl

/-- No rounding takes place. -/
theorem foldl_toDouble {ns : List Int} (hns : ∀ n ∈ ns, -2 ^ 31 ≤ n ∧ n < 2 ^ 31) {dot : Int}
    (hdot : dot.natAbs + ns.length * 2 ^ 31 < 2 ^ 53) :
    ns.foldl (fun dot n => toDouble (dot + n)) dot = dot + ns.sum := by
  induction ns generalizing dot with
  | nil => exact (Int.add_zero dot).symm
  | cons n ns ih =>
    have hn := hns n List.mem_cons_self
    rw [List.length_cons] at hdot
    rw [List.foldl_cons, toDouble_eq (by omega), ih (fun m hm => hns m (List.mem_cons_of_mem n hm)) (by omega),
      List.sum_cons, Int.add_assoc]

theorem not_mem_windows (hw : w ∈ windows s) : 0 ∉ w := by
  obtain ⟨i, -, rfl⟩ := List.mem_map.mp hw
  exact not_mem_window s i

theorem dotOf_eq (hs : FitsTable s) (ht : FitsTable t) : dotOf s t =
    ∑ w ∈ common s t, cInt (((windows s).count w : Int) * (windows t).count w) := by
  obtain ⟨ts, hts, hsEntries⟩ := (extracted_windows hs.1).lists
  obtain ⟨us, hus, htEntries⟩ := (extracted_windows ht.1).lists
  have htsNul : ∀ p ∈ ts, 0 ∉ p.1 := fun p hp =>
    not_mem_windows ((hts.listed p.1).mp (List.mem_map_of_mem hp))
  have husNul : ∀ q ∈ us, 0 ∉ q.1 := fun q hq =>
    not_mem_windows ((hus.listed q.1).mp (List.mem_map_of_mem hq))
  -- There are at most 1000 summands, each of them an `int`.
  have hlen : (products ts us).length ≤ 1000 := by
    have hle : (products ts us).length ≤ ts.length := List.length_filterMap_le _ _
    have hcard : ts.length ≤ 1000 := hts.length ▸ hs.2
    omega
  have hint : ∀ n ∈ products ts us, -2 ^ 31 ≤ n ∧ n < 2 ^ 31 := by
    intro n hn
    obtain ⟨p, -, hp⟩ := List.mem_filterMap.mp hn
    obtain ⟨q, -, rfl⟩ := Option.map_eq_some_iff.mp hp
    exact ⟨le_cInt _, cInt_lt _⟩
  rw [dotOf, hsEntries, htEntries, dotProduct_entries htsNul husNul,
    foldl_toDouble hint (by rw [Int.natAbs_zero]; omega), Int.zero_add]
  exact hts.sum_matches hus fun m n => cInt ((m : Int) * n)

/-- **The exact condition for the product.** -/
theorem dotAgrees_iff (hs : FitsTable s) (ht : FitsTable t) : DotAgrees s t ↔ ProductsFit s t := by
  have hsymm : dotOf t s = dotOf s t := by
    rw [dotOf_eq ht hs, dotOf_eq hs ht, common, common, Finset.inter_comm]
    apply Finset.sum_congr rfl
    intro w _
    rw [Int.mul_comm]
  have hpos : ∀ w, 0 ≤ ((windows s).count w : Int) * (windows t).count w := fun w =>
    Int.mul_nonneg (Int.natCast_nonneg _) (Int.natCast_nonneg _)
  -- A product that overflows makes the sum less.
  rw [DotAgrees, and_iff_right hsymm, dotOf_eq hs ht, Finset.sum_eq_sum_iff_of_le fun w _ => cInt_le (hpos w)]
  apply forall₂_congr
  intro w _
  rw [cInt_eq_iff (hpos w)]
  exact_mod_cast Iff.rfl

/-- **The exact condition for the tables and their product.** -/
theorem trigrams_correct (s t : CString) :
    BuildsTable s ∧ BuildsTable t ∧ DotAgrees s t ↔ FitsTable s ∧ FitsTable t ∧ ProductsFit s t := by
  rw [buildsTable_iff, buildsTable_iff]
  exact and_congr_right fun hs => and_congr_right fun ht => dotAgrees_iff hs ht

/-! ### A string with too many windows -/

/-- Two printable characters that are not letters, and an `a`. -/
def triple (k : Nat) : List UInt8 := [UInt8.ofNat (33 + k / 32), UInt8.ofNat (33 + k % 32), 97]

theorem triple_injective {k m : Nat} (hk : k < 1024) (hm : m < 1024) (h : triple k = triple m) : k = m := by
  have hdiv := congrArg UInt8.toNat (List.cons.inj h).1
  have hmod := congrArg UInt8.toNat (List.cons.inj (List.cons.inj h).2).1
  rw [UInt8.toNat_ofNat', UInt8.toNat_ofNat'] at hdiv hmod
  omega

theorem ofNat_ne_zero {n : Nat} (h0 : 0 < n) (hlt : n < 256) : 0 ≠ UInt8.ofNat n := by
  intro h
  have h : 0 = (UInt8.ofNat n).toNat := congrArg UInt8.toNat h
  rw [UInt8.toNat_ofNat'] at h
  omega

theorem not_mem_triple {k : Nat} (hk : k < 1024) : 0 ∉ triple k :=
  List.not_mem_cons_of_ne_of_not_mem (ofNat_ne_zero (by omega) (by omega))
    (List.not_mem_cons_of_ne_of_not_mem (ofNat_ne_zero (by omega) (by omega)) (by decide))

/-- The triples of the numbers, one after the other. -/
def triples (ks : List Nat) (hks : ∀ k ∈ ks, k < 1024) : CString where
  bytes := ks.flatMap triple
  nulFree := by
    intro h
    obtain ⟨k, hk, hmem⟩ := List.mem_flatMap.mp h
    exact not_mem_triple (hks k hk) hmem

theorem length_flatMap_triple (ks : List Nat) : (ks.flatMap triple).length = 3 * ks.length := by
  induction ks with
  | nil => rfl
  | cons k ks ih =>
    rw [List.flatMap_cons, List.length_append, ih, List.length_cons]
    show 3 + _ = _
    omega

theorem take_drop_triple {ks : List Nat} {i k : Nat} (hi : ks[i]? = some k) :
    ((ks.flatMap triple).drop (3 * i)).take 3 = triple k := by
  induction ks generalizing i with
  | nil => cases hi
  | cons m ks ih =>
    cases i with
    | zero =>
      cases hi
      rfl
    | succ i =>
      rw [List.flatMap_cons, Nat.mul_succ, Nat.add_comm, ← List.drop_drop]
      exact ih hi

/-- Each triple is a window. -/
theorem card_windows_triples {ks : List Nat} (hks : ∀ k ∈ ks, k < 1024) (hnodup : ks.Nodup) :
    ks.length ≤ (windows (triples ks hks)).toFinset.card := by
  have hdistinct : (ks.map triple).Nodup :=
    hnodup.map_on fun k hk m hm => triple_injective (hks k hk) (hks m hm)
  rw [← List.length_map triple, ← List.toFinset_card_of_nodup hdistinct]
  apply Finset.card_le_card
  intro w hw
  obtain ⟨k, hk, rfl⟩ := List.mem_map.mp (List.mem_toFinset.mp hw)
  obtain ⟨i, hi, hget⟩ := List.mem_iff_getElem.mp hk
  have hwindow : window (triples ks hks) (3 * i) = triple k :=
    take_drop_triple (List.getElem?_eq_some_iff.mpr ⟨hi, hget⟩)
  rw [List.mem_toFinset, ← hwindow]
  apply List.mem_map_of_mem
  rw [List.mem_range]
  show 3 * i < (ks.flatMap triple).length - 2
  rw [length_flatMap_triple]
  omega

/-- For 1001 triples, there is a write at the index 1000. -/
theorem not_trigrams_correct : ¬∀ s t : CString, BuildsTable s ∧ BuildsTable t ∧ DotAgrees s t := by
  intro h
  have hks : ∀ k ∈ List.range 1001, k < 1024 := by
    intro k hk
    rw [List.mem_range] at hk
    omega
  have hbuilds := (h (triples _ hks) (triples _ hks)).1
  have hle : (windows (triples _ hks)).toFinset.card ≤ 1000 := ((buildsTable_iff _).mp hbuilds).2
  have hge := card_windows_triples hks List.nodup_range
  rw [List.length_range] at hge
  omega

end Efio.Proofs.CoreUtils
