import Efio.Evio.Internals

/-!
# `Efio.Evio.Host`: the system calls under the file module

`Env` fixes what the module does not control: the page size, what a
freshly allocated page contains, and how each system call ends. A
`Descriptor` is the open file description behind `_fd`: the bytes of the
file, the two status flags the module looks at, and the number of calls
and page allocations made so far, which index the answers of `Env`.

`pread`, `pwrite` and `ftruncate` follow the Linux manual pages. On a
descriptor with `O_APPEND`, `pwrite` appends whatever its offset is.
`Env.Reliable` says that every call succeeds in full.
-/

set_option autoImplicit false

namespace Efio.Evio

open Efio.Lib

/-- How one system call ends: with `-1`, after at most `n` bytes, or in
full. -/
inductive Outcome where
  | fail
  | short (n : Nat)
  | full
  deriving DecidableEq, Repr

/-- The number of bytes moved out of the `n` that could be, `none` for a
failed call. -/
def Outcome.moved (o : Outcome) (n : Nat) : Option Nat :=
  match o with
  | .fail => none
  | .short k => some (min k n)
  | .full => some n

/-- `pageSize` is `sg_page_size`. `fresh k i` is byte `i` of the `k`-th
page allocated; `outcome k` ends the `k`-th system call. -/
structure Env where
  pageSize : Nat
  pageSize_pos : 0 < pageSize
  fresh : Nat → Nat → UInt8
  outcome : Nat → Outcome

/-- Every system call succeeds in full. -/
def Env.Reliable (E : Env) : Prop := ∀ k, E.outcome k = .full

/-- The content of the `k`-th page allocated. -/
def Env.freshPage (E : Env) (k : Nat) : List UInt8 := (List.range E.pageSize).map (E.fresh k)

/-- The open file description behind `_fd`. -/
structure Descriptor where
  data : List UInt8
  append : Bool
  direct : Bool
  errno : Option Errno
  calls : Nat
  pages : Nat
  deriving DecidableEq, Repr

namespace Descriptor

variable (E : Env) (fd : Descriptor)

/-- `errno = 0`. -/
def clearErrno : Descriptor := { fd with errno := none }

/-- The file after `bs` was written at `offset`. -/
def store (bs : List UInt8) (offset : Nat) : List UInt8 :=
  if bs = [] then fd.data
  else if fd.append then fd.data ++ bs
  else writeAt fd.data offset bs

/-- `pwrite(fd, buf, |buf|, offset)`: the new description and the result. -/
def pwrite (buf : List UInt8) (offset : Nat) : Descriptor × Int :=
  match (E.outcome fd.calls).moved buf.length with
  | none => ({ fd with calls := fd.calls + 1, errno := some .eio }, -1)
  | some k => ({ fd with calls := fd.calls + 1, data := fd.store (buf.take k) offset }, k)

/-- `pread(fd, buf, nbyte, offset)`: the new description, the result and
the bytes stored at `buf`. -/
def pread (nbyte offset : Nat) : Descriptor × Int × List UInt8 :=
  let avail := (fd.data.drop offset).take nbyte
  match (E.outcome fd.calls).moved avail.length with
  | none => ({ fd with calls := fd.calls + 1, errno := some .eio }, -1, [])
  | some k => ({ fd with calls := fd.calls + 1 }, k, avail.take k)

/-- `ftruncate(fd, length)`. -/
def ftruncate (length : Nat) : Descriptor × Int :=
  match E.outcome fd.calls with
  | .fail => ({ fd with calls := fd.calls + 1, errno := some .eio }, -1)
  | _ => ({ fd with calls := fd.calls + 1, data := resize fd.data length }, 0)

/-- `lseek(fd, 0, SEEK_END)`: the size of the file. -/
def lseekEnd : Nat := fd.data.length

/-- `open` on a file with content `data` succeeded with flags `oflag`. -/
def ofOpen (oflag : OFlag) (data : List UInt8) : Descriptor :=
  { data := if oflag.has O_TRUNC then [] else data
    append := decide (oflag.has O_APPEND)
    direct := decide (oflag.has O_DIRECT)
    errno := none
    calls := 0
    pages := 0 }

end Descriptor

end Efio.Evio
