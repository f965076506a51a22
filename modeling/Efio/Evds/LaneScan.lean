import Efio.Evds.PQueue
import Efio.Lib.RoundRobin

/-!
# `Efio.Evds.LaneScan`: how the multi-lane queues look for an element

`dequeue_ev_piqueue`, `dequeue_ev_mpiqueue` and `dequeue_ev_spiqueue` try
one lane after the other. They count in `i` and end when `i` is `N`. A
lane that answers empty is counted by all three; they differ in what they
do with the count at a lane that is busy. `scan` is their loop, with this
as a parameter.

What is on the lanes is of any type `σ`, and `tryDequeue` may be any
function: what other threads do between two tries is part of it. An access
to `gl_array` at an index it does not have ends the loop. `visits` records
the lanes that have been tried, with their answers.

`EV_YIELD` changes nothing here.
-/

set_option autoImplicit false

namespace Efio.Evds

open Efio.Lib

/-- What `try_dequeue` or `basic_try_dequeue` answers: `-1`, or 0 with
`NULL`, or 0 with an element that is not `NULL`. -/
inductive TryAnswer where
  | busy
  | empty
  | data (d : Nat)
  deriving DecidableEq, Repr

/-- How a scan ends: it returns `NULL` or an element, leaves the array,
divides by 0, or still goes on. -/
inductive ScanEnd where
  | null
  | data (d : Nat)
  | outOfBounds (index : Int)
  | divByZero
  | running
  deriving DecidableEq, Repr

/-- A scan: its end, the lanes that it leaves, and the tries. -/
structure Scan (σ : Type) where
  last : ScanEnd
  lanes : σ
  visits : List (Int × TryAnswer)

variable {σ : Type}

/-- The scan that goes on after this try. -/
def Scan.after (index : Int) (answer : TryAnswer) (s : Scan σ) : Scan σ :=
  { s with visits := (index, answer) :: s.visits }

/-- The loop, with the number of rounds it may make. `afterBusy i` is the
count after a lane that was busy. -/
def scan (afterBusy : Int → Int) (tryDequeue : Int → σ → TryAnswer × σ) (N : Int) :
    Nat → Int → Int → σ → Scan σ
  | 0, _, _, lanes => ⟨.running, lanes, []⟩
  | fuel + 1, index, i, lanes =>
    if i = N then ⟨.null, lanes, []⟩
    else if ¬InRange N index then ⟨.outOfBounds index, lanes, []⟩
    else
      match tryDequeue index lanes with
      | (.data d, lanes) => ⟨.data d, lanes, [(index, .data d)]⟩
      | (.busy, lanes) =>
        (scan afterBusy tryDequeue N fuel (nextIndex N index) (afterBusy i) lanes).after index .busy
      | (.empty, lanes) =>
        (scan afterBusy tryDequeue N fuel (nextIndex N index) (i + 1) lanes).after index .empty

/-- `dequeue_ev_piqueue`, with `st_dindex` and what it becomes. A busy lane
sets `i` to 0, and then `i` is incremented all the same. -/
def dequeueEvPiqueue (tryDequeue : Int → σ → TryAnswer × σ) (fuel : Nat) (N stDindex : Int) (lanes : σ) :
    Scan σ × Int :=
  (if N = 0 then ⟨.divByZero, lanes, []⟩
    else scan (fun _ => 0 + 1) tryDequeue N fuel (stDindex.tmod N) 0 lanes,
    atomicInt (stDindex + 1))

/-- `dequeue_ev_mpiqueue`. A busy lane leaves `i` as it is. -/
def dequeueEvMpiqueue (tryDequeue : Int → σ → TryAnswer × σ) (fuel : Nat) (N : Int) (lanes : σ) : Scan σ :=
  scan id tryDequeue N fuel 0 0 lanes

/-- `dequeue_ev_spiqueue`. A busy lane sets `i` to 0. -/
def dequeueEvSpiqueue (tryDequeue : Int → σ → TryAnswer × σ) (fuel : Nat) (N : Int) (lanes : σ) : Scan σ :=
  scan (fun _ => 0) tryDequeue N fuel 0 0 lanes

end Efio.Evds
