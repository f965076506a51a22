import Efio.Evio.Threads

/-!
# `Efio.Spec.SequentialRead`: what a reader of a fixed file is told

`Delivers data history n`: in `history` every call of `ef_read` got what a
reader of `data` may get, and `n` bytes were handed out in all. A call
gets the next bytes, `0` at the end of the file and only there, or `-1`
with `EAGAIN`.
-/

set_option autoImplicit false

namespace Efio.Spec

open Efio.Evio

/-- The results of a sequence of reads of `data`. -/
inductive Delivers (data : List UInt8) : List Observed → Nat → Prop where
  | start : Delivers data [] 0
  | bytes {history : List Observed} {n : Nat} (h : Delivers data history n) (nbyte size : Nat)
      (hpos : 0 < size) (hle : size ≤ nbyte) (hend : n + size ≤ data.length) :
      Delivers data
        (history ++ [.readReturned nbyte size none ((data.drop n).take size)]) (n + size)
  | endOfFile {history : List Observed} {n : Nat} (h : Delivers data history n) (nbyte : Nat)
      (hend : n = data.length) :
      Delivers data (history ++ [.readReturned nbyte 0 none []]) n
  | again {history : List Observed} {n : Nat} (h : Delivers data history n) (nbyte : Nat)
      (hmore : n < data.length) :
      Delivers data (history ++ [.readReturned nbyte (-1) (some .eagain) []]) n

/-- The bytes of the calls with positive results, one after the other. -/
def delivered (history : List Observed) : List UInt8 :=
  history.flatMap fun
    | .readReturned _ ret _ bytes => if 0 < ret then bytes else []
    | .accepted _ => []

theorem delivered_append (history : List Observed) (o : Observed) :
    delivered (history ++ [o]) = delivered history ++ delivered [o] :=
  List.flatMap_append

/-- What was handed out is a prefix of the file. -/
theorem Delivers.delivered_eq {data : List UInt8} {history : List Observed} {n : Nat}
    (h : Delivers data history n) : delivered history = data.take n ∧ n ≤ data.length := by
  induction h with
  | start => exact ⟨rfl, Nat.zero_le _⟩
  | bytes h nbyte size hpos hle hend ih =>
    rename_i history n
    have hone : delivered [.readReturned nbyte size none ((data.drop n).take size)]
        = (data.drop n).take size := by
      have hsize : (0 : Int) < size := by omega
      simp only [delivered, List.flatMap_cons, List.flatMap_nil, List.append_nil, if_pos hsize]
    refine ⟨?_, hend⟩
    rw [delivered_append, ih.1, hone, List.take_add]
  | endOfFile h nbyte hend ih =>
    refine ⟨?_, ih.2⟩
    rw [delivered_append, ih.1]
    exact List.append_nil _
  | again h nbyte hmore ih =>
    refine ⟨?_, ih.2⟩
    rw [delivered_append, ih.1]
    exact List.append_nil _

end Efio.Spec
