import Efio.Evds.ChunkedMemoryStream

/-!
# `Efio.Spec.ByteQueue`: streams as flat byte strings

What the calls on a set of streams do when each stream is just the string
of its remaining bytes, and which buffers a program owns.
-/

set_option autoImplicit false

namespace Efio.Spec

open Efio.Lib
open Efio.Evds

variable {ι : Type}

/-- The calls on flat strings. -/
def flatCall [DecidableEq ι] : StreamCall ι → (ι → List UInt8) → (ι → List UInt8) × StreamResult
  | .push i data, q => (Function.update q i (q i ++ data), ⟨data.length, []⟩)
  | .read i n, q => (Function.update q i ((q i).drop n), ⟨min n (q i).length, (q i).take n⟩)
  | .copy i start n, q => (q, ⟨min n ((q i).length - start), ((q i).drop start).take n⟩)
  | .erase i n, q => (Function.update q i ((q i).drop n), ⟨min n (q i).length, []⟩)
  | .transfer dst src, q => (Function.update (Function.update q dst (q dst ++ q src)) src [], ⟨0, []⟩)

/-- A transfer is between two different streams. -/
def Distinct : StreamCall ι → Prop
  | .transfer dst src => dst ≠ src
  | _ => True

/-! ### What the streams hold -/

/-- The bytes of a node that have not been consumed. -/
def nodeBytes (h : Heap UInt8) (n : BufferNode) : List UInt8 :=
  match n.position with
  | none => []
  | some p => (((h.blocks p.block).getD []).drop p.off).take n.sizeAtPosition

/-- The bytes of a stream. -/
def content (h : Heap UInt8) (l : ChunkedMemoryStream) : List UInt8 := l.flatMap (nodeBytes h)

/-- The bytes of all streams. -/
def contents (s : Streams ι) (i : ι) : List UInt8 := content s.heap (s.list i)

/-- The nodes that `n` bytes consume to their ends. -/
def consumed : ChunkedMemoryStream → Nat → ChunkedMemoryStream
  | [], _ => []
  | m :: l, n => if n ≠ 0 ∧ m.sizeAtPosition ≤ n then m :: consumed l (n - m.sizeAtPosition) else []

/-- The buffer of the node is the address it was allocated with. -/
def IsBase (n : BufferNode) : Prop := ∀ p, n.buffer = some p → p.off = 0

/-- A `read` or `erase` consumes to their ends only nodes that have the
address their buffer was allocated with. -/
def ConsumesBases (s : Streams ι) : StreamCall ι → Prop
  | .read i n | .erase i n => ∀ m ∈ consumed (s.list i) n, IsBase m
  | _ => True

/-- Nothing of the node has been consumed. -/
def Whole (n : BufferNode) : Prop := n.position = n.buffer

/-- A `transfer` moves only chunks of which nothing has been consumed. -/
def MovesWhole (s : Streams ι) : StreamCall ι → Prop
  | .transfer _ src => ∀ m ∈ s.list src, Whole m
  | _ => True

/-- Every node has the base address of a buffer that was pushed, no two
nodes have the same, and a pushed buffer is some node's until it is
freed. -/
structure Owned (s : Streams ι) : Prop where
  base : ∀ i, ∀ n ∈ s.list i, ∃ b ∈ s.pushed, n.buffer = some ⟨b, 0⟩
  alone : ∀ (i j : ι) (k m : Nat) (n n' : BufferNode), (s.list i)[k]? = some n →
    (s.list j)[m]? = some n' → n.buffer = n'.buffer → i = j ∧ k = m
  kept : ∀ b ∈ s.pushed, s.heap.blocks b ≠ none → ∃ i, ∃ n ∈ s.list i, n.buffer = some ⟨b, 0⟩
  live : ∀ i, ∀ n ∈ s.list i, ∀ p, n.buffer = some p → s.heap.blocks p.block ≠ none

end Efio.Spec
