import Efio.Lib.Bytes
import Mathlib.Logic.Basic

/-!
# `Efio.Evio.Internals`: the data types of the file module

The enumerations and records of `evio/ef_internals.h`, under the source's
words. An enumeration of `#define`s is an inductive type, and a pointer
that may be `NULL` is an `Option`.

`EfFile` holds the fields of `EF_FILE` that the page engine reads and
writes; `_fd` is replaced by the open file description behind it
(`Efio.Evio.Host`). `_outstanding_writes` and `_orig_file_size_on_disk`
are read by nothing. The read-ahead fields are left out as well:
`_r_a_started` is `0` from `EF_FILE_INIT` on, and its only increment
(`ef_fire_file_read_ahead`) is reached only when it is already positive,
since the other call of that function is commented out.

File offsets, sizes and page indices are `Nat`: a file has fewer than
`2 ^ 31` pages, so `int _buffer_index` holds its page indices.
-/

set_option autoImplicit false

namespace Efio.Evio

/-- `errno` values the module sets itself. `eio` stands for whatever a
failing system call leaves. -/
inductive Errno where
  | eagain | ebusy | einval | ebadf | emfile | efault | eio
  deriving DecidableEq, Repr

/-- How a function of the module can fail to return: `EV_ABORT` with its
text, a `NULL` pointer or a pointer to freed memory that is followed, a
member of the union `_inp` that is not the one in use, an access outside
of a buffer, or a loop that does not end. -/
inductive Fault where
  | evAbort (text : String)
  | nullDeref
  | useAfterFree
  | wrongMember
  | outOfBounds
  | diverge
  deriving DecidableEq, Repr

/-- `FILE_NOT_OPEN`, `FILE_OPEN_ATTEMPTED`, `FILE_OPEN`. -/
inductive FileStatus where
  | fileNotOpen | fileOpenAttempted | fileOpen
  deriving DecidableEq, Repr

/-- `ACTION_INITIATED` ... `ACTION_COMPLETE`. -/
inductive ActionStatus where
  | actionInitiated | actionInProgress | actionReadaheadComplete | actionComplete
  deriving DecidableEq, Repr

/-- `file_oper_type`. -/
inductive FileOper where
  | operOpen | operRead | operReadahead | operWrite | operClose
  deriving DecidableEq, Repr

/-- The outcome of `atomic_compare_exchange_strong`: its result, and what
it leaves in the word and in `expected`. -/
structure Cas where
  ok : Bool
  word : Int
  expected : Int
  deriving DecidableEq, Repr

/-- `atomic_compare_exchange_strong(&word, &expected, desired)`. A failed
exchange overwrites `expected` with the value of the word. -/
def atomicCompareExchangeStrong (word expected desired : Int) : Cas :=
  if word = expected then ⟨true, desired, expected⟩ else ⟨false, word, word⟩

theorem cas_of_eq {w e d : Int} (h : w = e) :
    atomicCompareExchangeStrong w e d = ⟨true, d, e⟩ := if_pos h

theorem cas_of_ne {w e d : Int} (h : w ≠ e) :
    atomicCompareExchangeStrong w e d = ⟨false, w, w⟩ := if_neg h

theorem cas_word_of_eq {w e d : Int} (h : w = e) :
    (atomicCompareExchangeStrong w e d).word = d := by rw [cas_of_eq h]

/-! ### Open flags (`int`, the Linux values) -/

abbrev OFlag := BitVec 32

def O_RDONLY : OFlag := 0
def O_WRONLY : OFlag := 1
def O_RDWR : OFlag := 2
def O_CREAT : OFlag := 0x40
def O_TRUNC : OFlag := 0x200
def O_APPEND : OFlag := 0x400
def O_DIRECT : OFlag := 0x4000

/-- The C test `bits & oflag`. -/
def OFlag.has (oflag bits : OFlag) : Prop := oflag &&& bits ≠ 0#32

instance (oflag bits : OFlag) : Decidable (OFlag.has oflag bits) :=
  inferInstanceAs (Decidable (oflag &&& bits ≠ 0#32))

theorem OFlag.has_or {oflag a b : OFlag} :
    OFlag.has oflag (a ||| b) ↔ OFlag.has oflag a ∨ OFlag.has oflag b := by
  unfold OFlag.has
  rw [BitVec.and_or_distrib_left, ne_eq, BitVec.or_eq_zero_iff]
  exact not_and_or

/-! ### Write requests -/

/-- `write_task_evt_type`. -/
inductive WriteTaskEvt where
  | fileWriteEvt | fileFsyncEvt
  deriving DecidableEq, Repr

/-- `struct write_task_s`. `buf` is the first `_nbyte` bytes at `_buf`. -/
structure WriteTask where
  cmd : WriteTaskEvt
  buf : List UInt8
  deriving DecidableEq, Repr

/-- `_nbyte`. -/
def WriteTask.nbyte (w : WriteTask) : Nat := w.buf.length

/-- `struct eio_write_oper_s`. `wAccum` is the first `_bytes` bytes of the
accumulator page; the page is allocated exactly while it holds a byte. -/
structure WriteOper where
  wQueue : List WriteTask
  bWList : List WriteTask
  wAccum : List UInt8
  writeTotreqCount : Nat
  writeReqCount : Nat
  writeCmplCount : Nat
  deriving DecidableEq, Repr

/-- `eio_write_oper_init`. -/
def WriteOper.init : WriteOper :=
  { wQueue := []
    bWList := []
    wAccum := []
    writeTotreqCount := 0
    writeReqCount := 0
    writeCmplCount := 0 }

/-! ### Actions -/

/-- `struct eio_file_cmd`. `writeInp` is `_inp._write_inp` while that is the
member of the union in use; nothing reads the other members here. -/
structure FileCmd where
  cmd : FileOper
  actionStatus : ActionStatus
  returnValue : Int
  err : Option Errno
  writeInp : Option WriteOper
  deriving DecidableEq, Repr

/-- `eio_cmd_init` without the assignment to `_action`. -/
def eioCmdInit (oper : FileOper) : FileCmd :=
  { cmd := oper
    actionStatus := .actionInitiated
    returnValue := -100
    err := none
    writeInp := if oper = .operWrite then some WriteOper.init else none }

/-- `low_eio_cmd_init(a, oper_write)`. -/
def lowEioCmdInit (a : FileCmd) : FileCmd :=
  { a with cmd := .operWrite, actionStatus := .actionInitiated, returnValue := -100, err := none }

/-- The pointer `_action` and what it points to. `id` numbers the actions
in the order of their allocation. -/
inductive ActionPtr where
  | null
  | live (id : Nat) (a : FileCmd)
  | freed
  deriving DecidableEq, Repr

end Efio.Evio
