import Cashpack.Codec.Types

/-!
# Integers (`hpack_int.c`)

Decoding of prefixed integers, with the 16-bit value and the 8-bit shift and octet counters of
`struct hpack_int_state`.  Encoding is in `Cashpack.Codec.Enc`, with the buffer it fills.
-/

namespace Cashpack

open Prog

/-- `enum hpi_prefix_e` and `enum hpi_pattern_e`: a representation, with the number of bits of
its prefix and the pattern above them. -/
inductive Hpp
  | str | huf | idx | dyn | lit | nvr | upd
deriving DecidableEq, Repr

/-- `HPACK_PFX_*`. -/
def Hpp.pfx : Hpp → ℕ
  | .str => 7 | .huf => 7 | .idx => 7 | .dyn => 6 | .lit => 4 | .nvr => 4 | .upd => 5

theorem Hpp.pfx_le (p : Hpp) : 4 ≤ p.pfx ∧ p.pfx ≤ 7 := by
  cases p <;> decide

/-- `HPACK_PAT_*`. -/
def Hpp.pat : Hpp → UInt8
  | .str => 0x00 | .huf => 0x80 | .idx => 0x80 | .dyn => 0x40 | .lit => 0x00 | .nvr => 0x10
  | .upd => 0x20

/-- `(typ & HPACK_PAT_x) == HPACK_PAT_x`. -/
def Hpp.matches (p : Hpp) (typ : UInt8) : Bool := typ &&& p.pat == p.pat

/-- The bits of a prefix of `pfx` bits. -/
def hpiMask (pfx : ℕ) : ℕ := 2 ^ pfx - 1

/-- The `do` loop of `HPI_decode`, on the octets left and the integer state. -/
def hpiDecodeLoop : Octets → IntState → Cp ℕ
  | [], i => fun hp =>
    .err { hp with state.hpi := i, ctx.blk := [], ctx.res := .buf }
  | b :: blk, i => fun hp =>
    -- `n` and `hs->stt.hpi.v` are 16 bits wide, the two counters are 8 bits wide
    let n := if i.m ≤ 16 then (i.v + (b &&& 0x7f).toNat <<< i.m) % 65536 else i.v
    if (16 < i.m ∧ b &&& 0x7f ≠ 0) ∨ n < i.v then
      .err { hp with state.hpi := i, ctx.blk := b :: blk, ctx.res := .int }
    else
      let i' : IntState := ⟨n, (i.m + 7) % 256, (i.l + 1) % 256⟩
      if b &&& 0x80 ≠ 0 then hpiDecodeLoop blk i' hp
      else .ok n { hp with state.hpi := i', state.bsy := false, ctx.blk := blk }

/-- `HPI_decode`. -/
def hpiDecode (pfx : ℕ) : Cp ℕ := do
  assert (4 ≤ pfx ∧ pfx ≤ 7)
  let hp ← get
  if hp.state.bsy then do
    assert (hp.state.magic = .int)
    assert (hp.ctx.blk ≠ [])
    hpiDecodeLoop hp.ctx.blk { hp.state.hpi with l := 0 }
  else match hp.ctx.blk with
    | [] => halt .abort
    | b :: blk => do
      let v := b.toNat &&& hpiMask pfx
      modify fun hp => { hp with
        state.magic := .int, state.hpi.v := v, state.hpi.l := 1, ctx.blk := blk }
      if v < hpiMask pfx then pure v
      else do
        modify fun hp => { hp with state.bsy := true, state.hpi.m := 0 }
        hpiDecodeLoop blk ⟨v, 0, 1⟩

end Cashpack
