import Efio.Evio.PageEngine

/-!
# `Efio.Spec.Payload`: what a sequence of write requests asks for

`efFileWrites` runs the batches that `file_writer` hands to the disk pool
one after the other. `payload` is what all their tasks together ask to be
written, and `EndsWithFsync` says that the last task of all is an fsync.
-/

set_option autoImplicit false

namespace Efio.Spec

open Efio.Evio

/-- The bytes one task adds to the file. -/
def taskPayload (w : WriteTask) : List UInt8 :=
  match w.cmd with
  | .fileWriteEvt => w.buf
  | .fileFsyncEvt => []

/-- The concatenated payload of a sequence of tasks. -/
def payload (ws : List WriteTask) : List UInt8 := ws.flatMap taskPayload

/-- The last task of the last batch is an fsync. -/
def EndsWithFsync (batches : List (List WriteTask)) : Prop :=
  ∃ ws w, batches.flatten = ws ++ [w] ∧ w.cmd = .fileFsyncEvt

/-- The calls of `ef_file_write` on one file, one for each batch. -/
def efFileWrites (E : Env) (f : EfFile) (batches : List (List WriteTask)) : Except Fault EfFile :=
  batches.foldlM (fun f wList => do return (← efFileWrite E f wList).1) f

end Efio.Spec
