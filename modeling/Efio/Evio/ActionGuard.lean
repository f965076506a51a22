import Efio.Evio.Internals
import Mathlib.Logic.Function.Basic

/-!
# `Efio.Evio.ActionGuard`: the guard around `_action`

`_prevent_action_mutation` is taken in three places: by
`free_file_action` and `alloc_file_action` around the change of `_action`,
and by `sync_file_writes` around its whole work, inside
`sg_handle_to_file_action` and outside `_write_suspended`. `GuardState` is
what these functions share on one file; a thread `t` stands at `pc t`.

Each compare-exchange is one step. The loops of `free_file_action` and
`alloc_file_action` keep the `expected` value a failed attempt left them,
those of `sync_file_writes` reset it.

What the functions do to the action beside allocating and freeing it is
not needed here. The label says how the tests on the record and on the
status of the action come out. A free without an action follows a `NULL`
pointer; it has no step.
-/

set_option autoImplicit false

namespace Efio.Evio

/-- The change of `_action` under the guard. -/
inductive Mutation where
  | alloc (oper : FileOper)
  | free
  deriving DecidableEq, Repr

/-- Where a thread stands. The names say what it does next. -/
inductive GuardPc where
  | idle
  -- `alloc_file_action` and `free_file_action`
  | acquire (m : Mutation) (expected : Int)
  | mutate (m : Mutation)
  | release
  -- `sync_file_writes`
  | lockHandle
  | checkFile
  | syncAcquire
  | suspendWrites
  | awaitAction
  | syncWrites
  | resumeWrites
  | syncRelease
  | unlockHandle
  deriving DecidableEq, Repr

/-- The guard words and the action of one file, and its threads. -/
structure GuardState (T : Type) where
  preventActionMutation : Int
  writeSuspended : Int
  handleToFileAction : Int
  action : Option (Nat × FileOper)
  nextId : Nat
  pc : T → GuardPc

/-- One step of a thread, or `ef_write` and `ef_sync` taking and giving
back `_write_suspended` under their `tag`. `yes` is the outcome of the test at `checkFile`
or of the test for `ACTION_COMPLETE` at `awaitAction`. -/
inductive GuardLabel (T : Type) where
  | callAlloc (t : T) (oper : FileOper)
  | callFree (t : T)
  | callSync (t : T)
  | advance (t : T) (yes : Bool)
  | writeEnter (tag : Int)
  | writeLeave (tag : Int)

/-- The thread that takes the step. -/
def GuardLabel.thread {T : Type} : GuardLabel T → Option T
  | .callAlloc t _ | .callFree t | .callSync t | .advance t _ => some t
  | .writeEnter _ | .writeLeave _ => none

namespace GuardState

variable {T : Type} [DecidableEq T]

/-- Thread `t` goes to `p`. -/
def goto (s : GuardState T) (t : T) (p : GuardPc) : GuardState T :=
  { s with pc := Function.update s.pc t p }

/-- `EF_FILE_ACTION_CLEANUP` or `eio_cmd_init`. -/
def applyMutation (s : GuardState T) : Mutation → Option (GuardState T)
  | .free => s.action.map fun _ => { s with action := none }
  | .alloc oper => some { s with action := some (s.nextId, oper), nextId := s.nextId + 1 }

/-- The next step of thread `t`. -/
def advance (s : GuardState T) (t : T) (yes : Bool) : Option (GuardState T) :=
  match s.pc t with
  | .idle => none
  | .acquire m expected =>
    let c := atomicCompareExchangeStrong s.preventActionMutation expected 1
    let s := { s with preventActionMutation := c.word }
    some (s.goto t (if c.ok then .mutate m else .acquire m c.expected))
  | .mutate m => (s.applyMutation m).map fun s => s.goto t .release
  | .release =>
    let c := atomicCompareExchangeStrong s.preventActionMutation 1 0
    some ({ s with preventActionMutation := c.word }.goto t .idle)
  | .lockHandle =>
    let c := atomicCompareExchangeStrong s.handleToFileAction 0 1
    some ({ s with handleToFileAction := c.word }.goto t (if c.ok then .checkFile else .lockHandle))
  | .checkFile => some (s.goto t (if yes then .syncAcquire else .unlockHandle))
  | .syncAcquire =>
    let c := atomicCompareExchangeStrong s.preventActionMutation 0 1
    some ({ s with preventActionMutation := c.word }.goto t
      (if c.ok then .suspendWrites else .syncAcquire))
  | .suspendWrites =>
    let c := atomicCompareExchangeStrong s.writeSuspended 0 1
    some ({ s with writeSuspended := c.word }.goto t (if c.ok then .awaitAction else .suspendWrites))
  | .awaitAction =>
    match s.action with
    | some (_, oper) =>
      if oper ≠ .operWrite ∧ yes = false then some s else some (s.goto t .syncWrites)
    | none => some (s.goto t .syncWrites)
  | .syncWrites => some (s.goto t .resumeWrites)
  | .resumeWrites =>
    let c := atomicCompareExchangeStrong s.writeSuspended 1 0
    some ({ s with writeSuspended := c.word }.goto t .syncRelease)
  | .syncRelease =>
    let c := atomicCompareExchangeStrong s.preventActionMutation 1 0
    some ({ s with preventActionMutation := c.word }.goto t .unlockHandle)
  | .unlockHandle =>
    let c := atomicCompareExchangeStrong s.handleToFileAction 1 0
    some ({ s with handleToFileAction := c.word }.goto t .idle)

/-- A thread between two calls enters a function. -/
def enter (s : GuardState T) (t : T) (p : GuardPc) : Option (GuardState T) :=
  if s.pc t = .idle then some (s.goto t p) else none

/-- The steps of the whole system. -/
def step (l : GuardLabel T) (s : GuardState T) : Option (GuardState T) :=
  match l with
  | .callAlloc t oper => s.enter t (.acquire (.alloc oper) 0)
  | .callFree t => s.enter t (.acquire .free 0)
  | .callSync t => s.enter t .lockHandle
  | .advance t yes => s.advance t yes
  | .writeEnter tag =>
    if s.writeSuspended = 0 then some { s with writeSuspended := tag } else none
  | .writeLeave tag =>
    if s.writeSuspended = tag then some { s with writeSuspended := 0 } else none

/-- A file with no thread in any of the functions: `EF_FILE_INIT` and what
came before the first concurrent call. -/
def initial (action : Option (Nat × FileOper)) (nextId : Nat) : GuardState T :=
  { preventActionMutation := 0
    writeSuspended := 0
    handleToFileAction := 0
    action := action
    nextId := nextId
    pc := fun _ => .idle }

end GuardState

end Efio.Evio
