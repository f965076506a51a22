import Efio.Spec.LaneScan

/-!
# `Efio.Proofs.Evds.LaneScan`: scans that return `NULL`

`NullScan` are the scans that end with `i = N`, try by try. Of these the
count `i` says how many lanes have answered empty since it was last set:

* `dequeue_ev_piqueue` increments it also at a busy lane, so that after
  this only `N - 1` lanes are looked at, and not the busy one
  (`piqueue_seenEmpty`);
* `dequeue_ev_mpiqueue` does not set it back, and so counts a lane again
  that has answered empty before a round (`mpiqueue_seenEmpty`);
* `dequeue_ev_spiqueue` sets it to 0 and goes on with the next lane, and a
  whole round follows (`spiqueue_seenEmpty`).
-/

set_option autoImplicit false

namespace Efio.Proofs.Evds

open Efio.Lib
open Efio.Evds
open Efio.Spec

variable {σ : Type} {afterBusy : Int → Int} {N index i : Int} {visits : List (Int × TryAnswer)}

/-- The tries of a scan that returns `NULL`. -/
inductive NullScan (afterBusy : Int → Int) (N : Int) : Int → Int → List (Int × TryAnswer) → Prop where
  | done (index : Int) : NullScan afterBusy N index N []
  | busy {index i : Int} {rest : List (Int × TryAnswer)} (hindex : InRange N index)
      (hrest : NullScan afterBusy N (nextIndex N index) (afterBusy i) rest) :
      NullScan afterBusy N index i ((index, .busy) :: rest)
  | empty {index i : Int} {rest : List (Int × TryAnswer)} (hindex : InRange N index)
      (hrest : NullScan afterBusy N (nextIndex N index) (i + 1) rest) :
      NullScan afterBusy N index i ((index, .empty) :: rest)

theorem nullScan_of_null {tryDequeue : Int → σ → TryAnswer × σ} {fuel : Nat} {lanes : σ}
    (hnull : (scan afterBusy tryDequeue N fuel index i lanes).last = .null) :
    NullScan afterBusy N index i (scan afterBusy tryDequeue N fuel index i lanes).visits := by
  induction fuel generalizing index i lanes with
  | zero => cases hnull
  | succ fuel ih =>
    unfold scan at hnull ⊢
    by_cases hend : i = N
    · subst hend
      rw [if_pos rfl]
      exact .done index
    · rw [if_neg hend] at hnull ⊢
      by_cases hindex : InRange N index
      · rw [if_neg (not_not.mpr hindex)] at hnull ⊢
        split at hnull
        · cases hnull
        · exact .busy hindex (ih hnull)
        · exact .empty hindex (ih hnull)
      · rw [if_pos hindex] at hnull
        cases hnull

namespace NullScan

theorem inRange (h : NullScan afterBusy N index i visits) : ∀ v ∈ visits, InRange N v.1 := by
  induction h with
  | done => exact fun v hv => absurd hv List.not_mem_nil
  | busy hindex _ ih | empty hindex _ ih => exact List.forall_mem_cons.mpr ⟨hindex, ih⟩

/-- Without a busy lane the lanes follow one another, and `i` counts them. -/
theorem round (h : NullScan afterBusy N index i visits) (hquiet : ∀ v ∈ visits, v.2 ≠ .busy) :
    i + visits.length = N ∧ ∀ k : Nat, k < visits.length → (around N index k, .empty) ∈ visits := by
  induction h with
  | done => exact ⟨Int.add_zero _, fun k hk => absurd hk (Nat.not_lt_zero k)⟩
  | busy => exact absurd rfl (hquiet _ List.mem_cons_self)
  | @empty index i rest hindex hrest ih =>
    obtain ⟨hcount, hlanes⟩ := ih fun v hv => hquiet v (List.mem_cons_of_mem _ hv)
    refine ⟨?_, ?_⟩
    · rw [List.length_cons]
      omega
    · intro k hk
      cases k with
      | zero =>
        rw [around_zero hindex]
        exact List.mem_cons_self
      | succ k =>
        rw [← around_succ hindex]
        exact List.mem_cons_of_mem _ (hlanes k (Nat.lt_of_succ_lt_succ hk))

/-- Without a busy lane a scan from 0 has seen all lanes empty. -/
theorem seenEmpty_of_round (h : NullScan afterBusy N index 0 visits) (hquiet : ∀ v ∈ visits, v.2 ≠ .busy) :
    (visits.length : Int) = N ∧ SeenEmpty N visits := by
  obtain ⟨hcount, hlanes⟩ := h.round hquiet
  refine ⟨by omega, ?_⟩
  intro lane hlane
  obtain ⟨k, hk, rfl⟩ := exists_around hlane index
  exact hlanes k (by omega)

/-- Behind the last busy lane, the scan went on as one that starts there
with the count that the busy lane has set. -/
theorem last_busy {c : Int} (h : NullScan (fun _ => c) N index i visits)
    (hbusy : ∃ v ∈ visits, v.2 = .busy) :
    ∃ before lane after next, visits = before ++ (lane, .busy) :: after ∧ (∀ v ∈ after, v.2 ≠ .busy) ∧
      NullScan (fun _ => c) N next c after := by
  induction h with
  | done =>
    obtain ⟨v, hv, -⟩ := hbusy
    exact absurd hv List.not_mem_nil
  | @busy index i rest _ hrest ih =>
    by_cases hlater : ∃ v ∈ rest, v.2 = .busy
    · obtain ⟨before, lane, after, next, rfl, hafter⟩ := ih hlater
      exact ⟨(index, .busy) :: before, lane, after, next, rfl, hafter⟩
    · exact ⟨[], index, rest, _, rfl, fun v hv heq => hlater ⟨v, hv, heq⟩, hrest⟩
  | @empty index i rest _ _ ih =>
    obtain ⟨v, hv, heq⟩ := hbusy
    have hlater : v ∈ rest := by
      refine (List.mem_cons.mp hv).resolve_left fun hfirst => ?_
      rw [hfirst] at heq
      cases heq
    obtain ⟨before, lane, after, next, rfl, hafter⟩ := ih ⟨v, hlater, heq⟩
    exact ⟨(index, .empty) :: before, lane, after, next, rfl, hafter⟩

/-- When busy lanes do not change the count, it counts all that answered
empty. -/
theorem count_empty (h : NullScan id N index i visits) : i + (emptyLanes visits).length = N := by
  induction h with
  | done => exact Int.add_zero _
  | busy _ _ ih => exact ih
  | @empty index i rest _ _ ih =>
    have hcons : emptyLanes ((index, .empty) :: rest) = index :: emptyLanes rest := rfl
    rw [hcons, List.length_cons]
    omega

end NullScan

theorem mem_emptyLanes {lane : Int} : lane ∈ emptyLanes visits ↔ (lane, TryAnswer.empty) ∈ visits := by
  simp [emptyLanes]

/-! ### Scans of lanes that nobody else uses -/

/-- A scan ends at a lane that gives an element. -/
theorem scan_data {tryDequeue : Int → σ → TryAnswer × σ} {fuel : Nat} {lanes lanes' : σ} {d : Nat}
    (hi : i ≠ N) (hindex : InRange N index) (htry : tryDequeue index lanes = (.data d, lanes')) :
    scan afterBusy tryDequeue N (fuel + 1) index i lanes = ⟨.data d, lanes', [(index, .data d)]⟩ := by
  rw [scan, if_neg hi, if_neg (not_not.mpr hindex), htry]

/-- And goes on at a lane that is empty. -/
theorem scan_empty {tryDequeue : Int → σ → TryAnswer × σ} {fuel : Nat} {lanes lanes' : σ}
    (hi : i ≠ N) (hindex : InRange N index) (htry : tryDequeue index lanes = (.empty, lanes')) :
    scan afterBusy tryDequeue N (fuel + 1) index i lanes =
      (scan afterBusy tryDequeue N fuel (nextIndex N index) (i + 1) lanes').after index .empty := by
  rw [scan, if_neg hi, if_neg (not_not.mpr hindex), htry]

/-- Lanes of which each is empty (`E`) or gives an element: the scan ends at
the first element, or has found all lanes empty. -/
theorem scan_lanes {tryDequeue : Int → σ → TryAnswer × σ} {I : σ → Prop} {E : Int → Prop}
    {R : Nat → σ → Prop}
    (htry : ∀ lane lanes, InRange N lane → I lanes →
      (E lane ∧ ∃ lanes', tryDequeue lane lanes = (.empty, lanes') ∧ I lanes') ∨
        ∃ d lanes', tryDequeue lane lanes = (.data d, lanes') ∧ R d lanes')
    {fuel : Nat} {lanes : σ} (hlanes : I lanes) (hindex : InRange N index) (hi : i ≤ N)
    (hfuel : N < i + fuel) :
    ((scan afterBusy tryDequeue N fuel index i lanes).last = .null ∧
        I (scan afterBusy tryDequeue N fuel index i lanes).lanes ∧
        ∀ k : Nat, i + k < N → E (around N index k)) ∨
      ∃ d, (scan afterBusy tryDequeue N fuel index i lanes).last = .data d ∧
        R d (scan afterBusy tryDequeue N fuel index i lanes).lanes := by
  induction fuel generalizing index i lanes with
  | zero => omega
  | succ fuel ih =>
    by_cases hend : i = N
    · rw [scan, if_pos hend]
      exact .inl ⟨rfl, hlanes, fun k hk => by omega⟩
    · obtain ⟨hempty, lanes', hanswer, hlanes'⟩ | ⟨d, lanes', hanswer, hdata⟩ := htry index lanes hindex hlanes
      · rw [scan_empty hend hindex hanswer]
        obtain ⟨hnull, hrest, hall⟩ | hdata :=
          ih hlanes' (nextIndex_inRange hindex) (i := i + 1) (by omega) (by omega)
        · refine .inl ⟨hnull, hrest, ?_⟩
          intro k hk
          cases k with
          | zero =>
            rw [around_zero hindex]
            exact hempty
          | succ k =>
            rw [← around_succ hindex]
            exact hall k (by omega)
        · exact .inr hdata
      · rw [scan_data hend hindex hanswer]
        exact .inr ⟨d, rfl, hdata⟩

/-- All lanes are empty. -/
theorem scan_all_empty {tryDequeue : Int → σ → TryAnswer × σ} {fuel : Nat} {lanes : σ}
    (hempty : ∀ lane, InRange N lane → tryDequeue lane lanes = (.empty, lanes)) (hindex : InRange N index)
    (hi : i ≤ N) (hfuel : N < i + fuel) :
    (scan afterBusy tryDequeue N fuel index i lanes).last = .null ∧
      (scan afterBusy tryDequeue N fuel index i lanes).lanes = lanes := by
  have htry : ∀ lane lanes₁, InRange N lane → lanes₁ = lanes →
      (True ∧ ∃ lanes', tryDequeue lane lanes₁ = (.empty, lanes') ∧ lanes' = lanes) ∨
        ∃ d lanes', tryDequeue lane lanes₁ = (.data d, lanes') ∧ False := by
    rintro lane _ hlane rfl
    exact .inl ⟨trivial, _, hempty lane hlane, rfl⟩
  obtain ⟨hnull, hrest, -⟩ | ⟨_, -, hnone⟩ := scan_lanes htry rfl hindex hi hfuel
  · exact ⟨hnull, hrest⟩
  · exact hnone.elim

/-- A scan that starts inside of the array stays there. -/
theorem scan_inRange {tryDequeue : Int → σ → TryAnswer × σ} {fuel : Nat} {lanes : σ}
    (hindex : InRange N index) :
    ∀ v ∈ (scan afterBusy tryDequeue N fuel index i lanes).visits, InRange N v.1 := by
  induction fuel generalizing index i lanes with
  | zero => exact fun v hv => absurd hv List.not_mem_nil
  | succ fuel ih =>
    rw [scan]
    split
    · exact fun v hv => absurd hv List.not_mem_nil
    · have hnext := nextIndex_inRange hindex
      split
      · exact List.forall_mem_singleton.mpr hindex
      · exact List.forall_mem_cons.mpr ⟨hindex, ih hnext⟩
      · exact List.forall_mem_cons.mpr ⟨hindex, ih hnext⟩

/-! ### `dequeue_ev_piqueue` -/

/-- A round cannot begin before a busy lane, and behind the last one there
are less than `N` tries. -/
theorem not_seenEmptySinceBusy {before after : List (Int × TryAnswer)} {lane : Int}
    (hshort : (after.length : Int) < N) :
    ¬SeenEmptySinceBusy N (before ++ (lane, .busy) :: after) := by
  rintro ⟨before', round, after', heq, hquiet, hlength, -⟩
  have hsuffix : (lane, TryAnswer.busy) :: after <:+ round ++ after' := by
    refine List.suffix_of_suffix_length_le (List.suffix_append before _) ?_ ?_
    · rw [heq]
      exact List.suffix_append _ _
    · rw [List.length_cons, List.length_append]
      omega
  exact hquiet _ (hsuffix.subset List.mem_cons_self) rfl

/-- **`dequeue_ev_piqueue` has seen all lanes empty** since the last busy
one if and only if it has met no busy lane. -/
theorem piqueue_seenEmpty (tryDequeue : Int → σ → TryAnswer × σ) (fuel : Nat) (N stDindex : Int) (lanes : σ)
    (hnull : (dequeueEvPiqueue tryDequeue fuel N stDindex lanes).1.last = .null) :
    SeenEmptySinceBusy N (dequeueEvPiqueue tryDequeue fuel N stDindex lanes).1.visits ↔
      ∀ v ∈ (dequeueEvPiqueue tryDequeue fuel N stDindex lanes).1.visits, v.2 ≠ .busy := by
  simp only [dequeueEvPiqueue] at hnull ⊢
  split at hnull
  · cases hnull
  · have hscan := nullScan_of_null hnull
    rename_i hN
    rw [if_neg hN]
    generalize (scan _ tryDequeue N fuel _ 0 lanes).visits = visits at hscan
    constructor
    · intro hseen v hv hbusy
      obtain ⟨before, lane, after, next, rfl, hafter, hrest⟩ := hscan.last_busy ⟨v, hv, hbusy⟩
      have hcount := (hrest.round hafter).1
      exact not_seenEmptySinceBusy (by omega) hseen
    · intro hquiet
      obtain ⟨hlength, hempty⟩ := hscan.seenEmpty_of_round hquiet
      exact ⟨[], visits, [], (List.append_nil visits).symm, by rwa [List.append_nil], hlength, hempty⟩

/-- Tries that give the answers of a list, and then `empty`. -/
def replay (_ : Int) : List TryAnswer → TryAnswer × List TryAnswer
  | [] => (.empty, [])
  | answer :: rest => (answer, rest)

/-- Two empty lanes, from the second one on. -/
theorem piqueue_seenEmpty_sample :
    SeenEmptySinceBusy 2 (dequeueEvPiqueue replay 3 2 1 []).1.visits ↔
      ∀ v ∈ (dequeueEvPiqueue replay 3 2 1 []).1.visits, v.2 ≠ .busy :=
  piqueue_seenEmpty replay 3 2 1 [] (by decide)

/-- The first of two lanes is busy and the second one is empty: the scan
ends without another look at the first one. -/
theorem not_piqueue_seenEmpty :
    (dequeueEvPiqueue replay 3 2 0 [.busy, .empty]).1.last = .null ∧
      ¬SeenEmptySinceBusy 2 (dequeueEvPiqueue replay 3 2 0 [.busy, .empty]).1.visits := by
  refine ⟨by decide, ?_⟩
  show ¬SeenEmptySinceBusy 2 ([] ++ (0, .busy) :: [(1, .empty)])
  exact not_seenEmptySinceBusy (by decide)

/-! ### `dequeue_ev_spiqueue` -/

/-- `dequeue_ev_spiqueue` sees all lanes empty after the last busy one. -/
theorem spiqueue_seenEmpty (tryDequeue : Int → σ → TryAnswer × σ) (fuel : Nat) (N : Int) (lanes : σ)
    (hnull : (dequeueEvSpiqueue tryDequeue fuel N lanes).last = .null) :
    SeenEmptySinceBusy N (dequeueEvSpiqueue tryDequeue fuel N lanes).visits := by
  have hscan := nullScan_of_null hnull
  rw [dequeueEvSpiqueue]
  generalize (scan _ tryDequeue N fuel _ 0 lanes).visits = visits at hscan
  by_cases hbusy : ∃ v ∈ visits, v.2 = .busy
  · obtain ⟨before, lane, after, next, rfl, hafter, hrest⟩ := hscan.last_busy hbusy
    obtain ⟨hlength, hempty⟩ := hrest.seenEmpty_of_round hafter
    refine ⟨before ++ [(lane, .busy)], after, [], ?_, by rwa [List.append_nil], hlength, hempty⟩
    rw [List.append_nil, List.append_assoc, List.singleton_append]
  · have hquiet : ∀ v ∈ visits, v.2 ≠ .busy := fun v hv heq => hbusy ⟨v, hv, heq⟩
    obtain ⟨hlength, hempty⟩ := hscan.seenEmpty_of_round hquiet
    exact ⟨[], visits, [], (List.append_nil visits).symm, by rwa [List.append_nil], hlength, hempty⟩

/-! ### `dequeue_ev_mpiqueue` -/

/-- **`dequeue_ev_mpiqueue` has found each lane empty** if and only if it
has found none empty twice. -/
theorem mpiqueue_seenEmpty (tryDequeue : Int → σ → TryAnswer × σ) (fuel : Nat) (N : Int) (lanes : σ)
    (hnull : (dequeueEvMpiqueue tryDequeue fuel N lanes).last = .null) :
    SeenEmpty N (dequeueEvMpiqueue tryDequeue fuel N lanes).visits ↔
      (emptyLanes (dequeueEvMpiqueue tryDequeue fuel N lanes).visits).Nodup := by
  have hscan := nullScan_of_null hnull
  rw [dequeueEvMpiqueue]
  generalize (scan _ tryDequeue N fuel _ 0 lanes).visits = visits at hscan
  have hrange : ∀ lane ∈ emptyLanes visits, InRange N lane := by
    intro lane hlane
    exact hscan.inRange _ (mem_emptyLanes.mp hlane)
  have hcount := hscan.count_empty
  rw [nodup_iff_covers hrange (by omega)]
  exact forall₂_congr fun lane _ => mem_emptyLanes.symm

/-- The first of two lanes is busy in the first round. -/
theorem mpiqueue_seenEmpty_sample :
    SeenEmpty 2 (dequeueEvMpiqueue replay 4 2 [.busy]).visits ↔
      (emptyLanes (dequeueEvMpiqueue replay 4 2 [.busy]).visits).Nodup :=
  mpiqueue_seenEmpty replay 4 2 [.busy] (by decide)

/-- The second of two lanes is busy: the first one is counted twice. -/
theorem not_mpiqueue_seenEmpty :
    (dequeueEvMpiqueue replay 4 2 [.empty, .busy, .empty]).last = .null ∧
      ¬SeenEmpty 2 (dequeueEvMpiqueue replay 4 2 [.empty, .busy, .empty]).visits := by
  refine ⟨by decide, fun hseen => ?_⟩
  have hlane := hseen 1 (by decide)
  revert hlane
  decide

end Efio.Proofs.Evds
