import Efio.CoreUtils.Base64Access
import Efio.Spec.Base64

/-!
# `Efio.Spec.DecodeBounds`: the buffers of the decoder

An access of `base64_decode` is in bounds when it stays in the input or in
the buffer that was allocated for the output.
-/

set_option autoImplicit false

namespace Efio.Spec

open Efio.CoreUtils

/-- The access stays in its buffer, for an input of `n` characters. -/
def InBounds (n : Nat) : Access → Prop
  | .data k => k < n
  | .decodedData j => j < n / 4 * 3

instance (n : Nat) : DecidablePred (InBounds n)
  | .data k => inferInstanceAs (Decidable (k < n))
  | .decodedData j => inferInstanceAs (Decidable (j < n / 4 * 3))

/-- The first `=` is the last character of the input. Before it stand
symbols, two in the last group, and some white space. -/
def BarePad (data : List UInt8) : Prop :=
  ∃ text, data = text ++ [base64Pad] ∧ (∀ c ∈ text, isSpace c = true ∨ ∃ v < 64, c = symbol v) ∧
    (∃ c ∈ text, isSpace c = true) ∧ (unspaced text).length % 4 = 2

end Efio.Spec
