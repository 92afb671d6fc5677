import Cashpack.Codec.Static

/-!
# Validation of names and values (`hpack_val.c`)
-/

namespace Cashpack

open Prog

/-- `IS_VCHAR`. -/
def isVchar (c : UInt8) : Bool := 0x20 < c && c < 0x7f

/-- `IS_FIELD_VALUE`. -/
def isFieldValue (c : UInt8) : Bool :=
  c == 0x20 || c == 0x09 || (isVchar c || c &&& 0x80 != 0)

/-- The characters `HPV_token` refuses, upper-case letters apart. -/
def hpvDelims : Octets := ascii "()<>@,;:\\\"/[]?=\x7b\x7d "

/-- The loop of `HPV_token` accepts this character. -/
def isTokenChar (c : UInt8) : Bool :=
  (isVchar c && !hpvDelims.contains c) && (c < 0x41 || 0x5a < c)

/-- The loop of `HPV_value` accepts this character. -/
def isValueChar (c : UInt8) : Bool := c == 0x09 || (0x20 ≤ c && c != 0x7f)

/-- `HPV_value`. -/
def hpvValue (str : Ptr) (len : ℕ) : Cp Unit := do
  assert (str ≠ .null)
  let (s, c) ← readStr str len
  expect .chr (s.all isValueChar = true)
  assert (s.all isFieldValue = true)
  assert (c = 0)

/-- `HPV_token`. -/
def hpvToken (str : Ptr) (len : ℕ) : Cp Unit := do
  assert (str ≠ .null)
  assert (0 < len)
  let hp ← get
  if hp.magic = .decoder ∧ str = .unknownName then assert (hp.mon = true)
  else do
    let (s, c) ← readStr str len
    if s.head? = some 0x3a then
      if hpphTable.contains s then pure () else failWith .hdr
    else do
      expect .chr (s.all isTokenChar = true)
      assert (c = 0)

end Cashpack
