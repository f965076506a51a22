import Efio.Evio.Host

/-!
# `Efio.Evio.Open`: the file record and how it is opened

`EfFile` is the part of `EF_FILE` the page engine works on. `efFileInit`
is `EF_FILE_INIT`, `efOpenAccepts` the flag checks of `ef_open`, and
`efFileOpen` the body of the background task `ef_file_open` from a
successful `open` on.
-/

set_option autoImplicit false

namespace Efio.Evio

/-- `struct buf_s` without the read-ahead fields. `buffer` is the page
memory at `_buffer`. -/
structure PageBuf where
  buffer : Option (List UInt8)
  bufferIndex : Nat
  isDirty : Bool
  deriving DecidableEq, Repr

/-- `EF_FILE`: the fields the page engine works on. -/
structure EfFile where
  oflag : OFlag
  currFileSizeOnDisk : Nat
  runningFileSize : Nat
  blockWriteUnaligned : Bool
  fileOffset : Nat
  buf : PageBuf
  fd : Descriptor
  deriving DecidableEq, Repr

/-- `EF_FILE_INIT`, with the description `fd` that `open` returns. -/
def efFileInit (fd : Descriptor) : EfFile :=
  { oflag := 0
    currFileSizeOnDisk := 0
    runningFileSize := 0
    blockWriteUnaligned := false
    fileOffset := 0
    buf := { buffer := none, bufferIndex := 0, isDirty := false }
    fd := fd }

/-- The checks `ef_open` makes on `oflag`. -/
def efOpenAccepts (oflag : OFlag) : Prop :=
  oflag ≠ O_APPEND ∧ (oflag = O_RDONLY ∨ oflag.has (O_RDWR ||| O_APPEND ||| O_CREAT))

instance (oflag : OFlag) : Decidable (efOpenAccepts oflag) :=
  inferInstanceAs (Decidable (_ ∧ _))

/-- The flags `ef_file_open` passes to `open`: both its branches (with and
without `O_CREAT`) add `O_DIRECT` when none of `O_APPEND`, `O_WRONLY` and
`O_RDWR` is set. -/
def openOflag (oflag : OFlag) : OFlag :=
  if oflag.has (O_APPEND ||| O_WRONLY ||| O_RDWR) then oflag else oflag ||| O_DIRECT

/-- The start position for an append file (`if (O_APPEND&file_ptr->_oflag)`
in `ef_file_open`). -/
def openAppend (E : Env) (f : EfFile) : EfFile :=
  if f.oflag.has O_WRONLY then
    let f := { f with fileOffset := f.fd.lseekEnd }
    if f.fileOffset % E.pageSize ≠ 0 then { f with blockWriteUnaligned := true }
    else { f with fd := { f.fd with direct := true } }
  else if f.oflag.has O_RDWR then
    if f.runningFileSize % E.pageSize ≠ 0 then { f with blockWriteUnaligned := true }
    else { f with fd := { f.fd with direct := true } }
  else f

/-- `ef_file_open` on a file with content `data`, when `open` succeeds. -/
def efFileOpen (E : Env) (oflag : OFlag) (data : List UInt8) : EfFile :=
  let oflag := openOflag oflag
  let fd := Descriptor.ofOpen oflag data
  let size := fd.data.length
  let f := { efFileInit fd with
    currFileSizeOnDisk := size
    runningFileSize := size
    oflag := oflag }
  let f := if f.oflag.has O_APPEND then openAppend E f else f
  { f with buf := { f.buf with bufferIndex := f.fileOffset / E.pageSize } }

end Efio.Evio
