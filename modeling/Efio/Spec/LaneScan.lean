import Efio.Evds.LaneScan

/-!
# `Efio.Spec.LaneScan`: when a scan may say that there is nothing

A scan that returns `NULL` should have seen each lane empty. With
`SeenEmpty` some time during the call is enough; `SeenEmptySinceBusy` asks
for a round of all lanes after the last one that was busy.
-/

set_option autoImplicit false

namespace Efio.Spec

open Efio.Lib
open Efio.Evds

/-- Each of the `N` lanes has been found empty. -/
def SeenEmpty (N : Int) (visits : List (Int × TryAnswer)) : Prop :=
  ∀ lane, InRange N lane → (lane, TryAnswer.empty) ∈ visits

/-- `N` tries in a row went to all lanes and found them empty, and from the
first of these on no lane was busy. -/
def SeenEmptySinceBusy (N : Int) (visits : List (Int × TryAnswer)) : Prop :=
  ∃ before round after, visits = before ++ (round ++ after) ∧ (∀ v ∈ round ++ after, v.2 ≠ .busy) ∧
    (round.length : Int) = N ∧ SeenEmpty N round

/-- The lanes that have been found empty, in the order of the tries. -/
def emptyLanes (visits : List (Int × TryAnswer)) : List Int :=
  (visits.filter fun v => v.2 = .empty).map Prod.fst

end Efio.Spec
