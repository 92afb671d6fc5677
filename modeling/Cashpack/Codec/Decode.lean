import Cashpack.Codec.Int
import Cashpack.Codec.Val
import Cashpack.Codec.Entry
import Cashpack.Huffman.Code

/-!
# The decoder (`hpack.c`)

`hpack_decode` and what it calls.  A representation is decoded in steps, so that a block can be
cut anywhere: `State.stp` tells which step comes next, and each step falls through to the
following one.
-/

namespace Cashpack

open Prog

/-- The two events a string can be decoded or encoded for. -/
inductive StrEvt
  | name | value
deriving DecidableEq, Repr

/-! ### Strings -/

/-- `hpack_decode_raw_string`. -/
def hpackDecodeRawString (len : ℕ) : Cp Unit := do
  let hp ← get
  let n := min len hp.ctx.blk.length
  hpdCat (hp.ctx.blk.take n)
  when (len ≤ hp.ctx.blk.length) (hpdPutc 0)
  modify fun hp => { hp with
    ctx.blk := hp.ctx.blk.drop n, state.str.len := hp.state.str.len - n }
  let hp ← get
  expect .buf (hp.state.str.len = 0)

/-- `hs->stp++`, from the length of a string to its octets. -/
def Step.next : Step → Step
  | .fldInt => .namLen
  | .namLen => .namStr
  | .namStr => .valLen
  | _ => .valStr

/-- The cases `HPACK_STP_NAM_LEN` and `HPACK_STP_VAL_LEN` of `hpack_decode_string`. -/
def hpackDecodeStringLen (evt : StrEvt) : Cp Unit := do
  let hp ← get
  -- the octet looked at is the one found now, even when the integer started before it
  let huf := hp.ctx.blk.headD 0 &&& Hpp.huf.pat ≠ 0
  let len ← hpiDecode Hpp.str.pfx
  modify fun hp => { hp with
    state.magic := if huf then .huf else .str
    state.str.len := len
    state.stp := hp.state.stp.next }
  when huf <| modify fun hp => { hp with
    state.str.dec := none, state.str.blen := 0, state.str.bits := 0 }
  when (evt = .name) (expect .len (0 < len))
  when (0 < len) do
    let hp ← get
    expect .buf (hp.ctx.blk ≠ [])

/-- `hpack_decode_string`. -/
def hpackDecodeString (evt : StrEvt) : Cp Unit := do
  let hp ← get
  expect .buf (hp.ctx.blk ≠ [])
  assert (hp.state.stp ≠ .fldInt)
  when (hp.state.stp = .namLen ∨ hp.state.stp = .valLen) (hpackDecodeStringLen evt)
  let hp ← get
  assert (0 < hp.state.str.len ∨ evt ≠ .name)
  if hp.state.magic = .huf then hphDecode hp.state.str.len
  else do
    assert (hp.state.magic = .str)
    hpackDecodeRawString hp.state.str.len

/-- The distance from a pointer into the working buffer to `ctx->buf`. -/
def bufDiff (p : Ptr) : Cp ℕ := do
  let hp ← get
  match p with
  | .out off => do
    assert (off < hp.ctx.out.length)
    pure (hp.ctx.out.length - off)
  | _ => halt .fault

/-! ### Fields -/

/-- Decode a name that is not in a table. -/
def hpackDecodeNewName : Cp Unit := do
  hpackDecodeString .name
  let hp ← get
  let d ← bufDiff hp.ctx.fld.nam
  modify fun hp => { hp with ctx.fld.namSz := d - 1 }

/-- The cases `HPACK_STP_NAM_LEN` and `HPACK_STP_NAM_STR` of `hpack_decode_field`. -/
def hpackDecodeFieldName : Cp Unit := do
  let hp ← get
  (if hp.state.idx = 0 then hpackDecodeNewName else hptDecodeName)
  let hp ← get
  hpvToken hp.ctx.fld.nam hp.ctx.fld.namSz
  modify fun hp => { hp with
    ctx.fld.val := .out hp.ctx.out.length, state.stp := .valLen }

/-- The cases `HPACK_STP_VAL_LEN` and `HPACK_STP_VAL_STR` of `hpack_decode_field`. -/
def hpackDecodeFieldValue : Cp Unit := do
  hpackDecodeString .value
  let hp ← get
  let d ← bufDiff hp.ctx.fld.val
  modify fun hp => { hp with ctx.fld.valSz := d - 1 }
  let hp ← get
  hpvValue hp.ctx.fld.val hp.ctx.fld.valSz
  hpdNotify
  modify fun hp => { hp with state.stp := .fldInt }

/-- `hpack_decode_field`. -/
def hpackDecodeField : Cp Unit := do
  let hp ← get
  when (hp.state.stp = .fldInt) <| modify fun hp => { hp with
    state.stp := .namLen, ctx.fld.nam := .out hp.ctx.out.length }
  let hp ← get
  when (hp.state.stp = .namLen ∨ hp.state.stp = .namStr) hpackDecodeFieldName
  hpackDecodeFieldValue

/-- `hpack_decoder_field`. -/
def hpackDecoderField (idx : ℕ) : Cp Unit := do
  let hp ← get
  let off := hp.state.hpi.l
  assert (0 < off)
  hpcNotify (.field (some ((hp.ctx.arg.blkLen : ℤ) - hp.ctx.blk.length - off)) idx)

/-! ### Representations -/

/-- `hpack_decode_indexed`. -/
def hpackDecodeIndexed : Cp Unit := do
  let idx ← hpiDecode Hpp.idx.pfx
  hpackDecoderField idx
  hptDecode idx

/-- The start of a literal, with the name index on the prefix of `p`. -/
def hpackDecodeLiteralIdx (p : Hpp) : Cp Unit := do
  let idx ← hpiDecode p.pfx
  modify fun hp => { hp with state.idx := idx }
  hpackDecoderField 0

/-- `hpack_decode_dynamic`. -/
def hpackDecodeDynamic : Cp Unit := do
  let hp ← get
  when (hp.state.stp = .fldInt) (hpackDecodeLiteralIdx .dyn)
  hpackDecodeField
  hptIndex

/-- `hpack_decode_literal`. -/
def hpackDecodeLiteral : Cp Unit := do
  let hp ← get
  when (hp.state.stp = .fldInt) (hpackDecodeLiteralIdx .lit)
  hpackDecodeField

/-- `hpack_decode_never`. -/
def hpackDecodeNever : Cp Unit := do
  let hp ← get
  when (hp.state.stp = .fldInt) do
    hpackDecodeLiteralIdx .nvr
    hpcNotify .never
  hpackDecodeField

/-- The part of `hpack_decode_update` that takes part in a resize. -/
def hpackDecodeResize (sz : ℕ) : Cp Unit := do
  let hp ← get
  if 0 ≤ hp.sz.min then do
    assert (hp.sz.min ≤ hp.sz.nxt)
    if hp.sz.min < hp.sz.nxt then do
      expect .upd ((sz : ℤ) = hp.sz.min)
      modify fun hp => { hp with sz.min := hp.sz.nxt }
    else do
      expect .upd ((sz : ℤ) = hp.sz.nxt ∨ (sz : ℤ) < hp.sz.nxt)
      assert (0 ≤ hp.sz.nxt)
      modify fun hp => { hp with
        sz.max := hp.sz.nxt.toNat
        sz.lim := sz
        sz.min := -1
        sz.nxt := -1
        ctx.canUpd := false }
  else modify fun hp => { hp with ctx.canUpd := false }

/-- The part of `hpack_decode_update` that applies the new size. -/
def hpackDecodeLimit (sz : ℕ) : Cp Unit := do
  let hp ← get
  expect .len (sz ≤ hp.sz.max)
  modify fun hp => { hp with sz.lim := sz }
  hpackAdjust hp.sz.len
  hpcNotify (.table sz)

/-- `hpack_decode_update`. -/
def hpackDecodeUpdate : Cp Unit := do
  let hp ← get
  expect .upd (hp.ctx.canUpd = true)
  let sz ← hpiDecode Hpp.upd.pfx
  hpackDecodeResize sz
  hpackDecodeLimit sz

/-- The choice made on the saved first octet. -/
def hpackDecodeAny (typ : UInt8) : Cp Unit :=
  if Hpp.idx.matches typ then hpackDecodeIndexed
  else if Hpp.dyn.matches typ then hpackDecodeDynamic
  else if Hpp.upd.matches typ then hpackDecodeUpdate
  else if Hpp.nvr.matches typ then hpackDecodeNever
  else hpackDecodeLiteral

/-! ### Blocks -/

/-- `memset(&ctx->fld, 0, sizeof ctx->fld)`. -/
def Fld.zero : Fld := ⟨.null, .null, 0, 0⟩

/-- Save the first octet of the representation that starts here, if one does. -/
def hpackDecodeTyp : Cp Unit := do
  let hp ← get
  when (hp.state.bsy = false ∧ hp.state.stp = .fldInt) <|
    match hp.ctx.blk with
    | [] => halt .fault
    | b :: _ => modify fun hp => { hp with state.typ := b }

/-- Decode a representation, or what is left of it, in a turn of the loop of `hpack_decode`. -/
def hpackDecodeRep (cut : Bool) (typ : UInt8) : Cp (Option Res) := do
  match ← attempt (hpackDecodeAny typ) with
  | some () => do
    modify fun hp => { hp with ctx.fld := Fld.zero }
    pure none
  | none => do
    let hp ← get
    assert (hp.ctx.res ≠ .ok)
    if cut = true ∧ hp.ctx.res = .buf then do
      modify fun hp => { hp with ctx.res := .blk }
      pure (some .blk)
    else do
      modify fun hp => { hp with magic := .defunct }
      pure (some hp.ctx.res)

/-- One turn of the loop of `hpack_decode`, which ends it with a result or not. -/
def hpackDecodeTurn (cut : Bool) : Cp (Option Res) := do
  hpackDecodeTyp
  let hp ← get
  let field := Hpp.upd.matches hp.state.typ = false
  if field ∧ 0 ≤ hp.sz.nxt then do
    modify fun hp => { hp with magic := .defunct }
    pure (some .rsz)
  else do
    when field do
      assert (hp.sz.min < 0)
      modify fun hp => { hp with ctx.canUpd := false }
    hpackDecodeRep cut hp.state.typ

/-- The result of `hpack_decode` at the end of the block. -/
def hpackDecodeEnd : Cp Res := do
  let hp ← get
  assert (hp.ctx.res = .ok ∨ hp.ctx.res = .blk)
  pure (if hp.ctx.tooBig = true ∧ hp.ctx.res = .ok then .skp else hp.ctx.res)

/-- The loop of `hpack_decode`. -/
def hpackDecodeLoop (cut : Bool) : ℕ → Cp Res
  | 0 => halt .spin
  | fuel + 1 => do
    let hp ← get
    if hp.ctx.blk = [] then hpackDecodeEnd
    else do
      let r ← hpackDecodeTurn cut
      match r with
      | some r => pure r
      | none => hpackDecodeLoop cut fuel

/-- The checks `hpack_decode` makes on a block that starts or resumes. -/
def hpackDecodeBegin (dec : Decoding) : Cp Unit := do
  let hp ← get
  assert (hp.ctx.hp = hp.addr)
  if hp.ctx.res = .blk then do
    let buf := hp.ctx.org + hp.ctx.out.length
    assert (buf ≠ 0)
    expect .arg (dec.buf + dec.bufLen = buf + hp.ctx.bufLen)
  else do
    assert (hp.ctx.res = .ok)
    expect .arg (hp.ctx.tooBig = false)
    modify fun hp => { hp with
      ctx.org := dec.buf
      ctx.out := []
      ctx.bufLen := dec.bufLen
      ctx.canUpd := true
      state.stp := .fldInt }

/-- What `hpack_decode` then takes from its argument. -/
def hpackDecodeArg (dec : Decoding) (hp : Hpack) : Hpack :=
  { hp with
    ctx.arg := ⟨dec.buf, dec.bufLen, dec.blk.length⟩
    ctx.blk := dec.blk
    ctx.res := if dec.cut then .blk else .ok }

/-- `hpack_decode`. -/
def hpackDecode (dec : Decoding) : Cp Res := do
  let hp ← get
  if hp.magic ≠ .decoder ∨ dec.blk = [] ∨ dec.buf = 0 ∨ dec.bufLen = 0 ∨ dec.cb = false then
    pure .arg
  else do
    let r ← attempt (hpackDecodeBegin dec)
    match r with
    | none => pure .arg
    | some () => do
      modify (hpackDecodeArg dec)
      hpackDecodeLoop dec.cut (dec.blk.length + 1)

/-- `hpack_assert_cb`: whether an event passes its assertions. -/
def hpackAssertCb : Event → Bool
  | .field buf _ => buf.isSome
  | .evict len => 0 < len
  | .index len => hpackOverhead < len
  | .never | .table _ => true
  | .value s | .name s => !s.contains 0
  | .data _ => false

/-- The null-terminated string at this address of the working buffer. -/
def readBuf (p : ℕ) : Cp Octets := fun hp =>
  let m := hp.ctx.out.drop (p - hp.ctx.org)
  if hp.ctx.org ≤ p ∧ 0 ∈ m then .ok (m.takeWhile (· ≠ 0)) hp else .stop .fault

/-- Where `hpack_decode_fields` finds the next name. -/
def hpackDecodeFieldsNam (dec : Decoding) (cur : Option (ℕ × ℕ)) : Cp ℕ := do
  match cur with
  | none => pure dec.buf
  | some (_, val) => do
    let s ← readBuf val
    let hp ← get
    assert (dec.buf + dec.bufLen = hp.ctx.org + hp.ctx.out.length + hp.ctx.bufLen)
    pure (val + s.length + 1)

/-- The part of `hpack_decode_fields` that follows the decoding: the next name and value, by
their addresses. -/
def hpackDecodeFieldsNext (dec : Decoding) (cur : Option (ℕ × ℕ)) :
    Cp (Res × Option (ℕ × ℕ)) := do
  let hp ← get
  assert (hp.ctx.res = .fld)
  let nam ← hpackDecodeFieldsNam dec cur
  if nam = hp.ctx.org + hp.ctx.out.length then do
    modify fun hp => { hp with ctx.res := .ok }
    pure (.ok, none)
  else do
    let s ← readBuf nam
    let val := nam + s.length + 1
    assert (nam < hp.ctx.org + hp.ctx.out.length)
    assert (val < hp.ctx.org + hp.ctx.out.length)
    pure (hp.ctx.res, some (nam, val))

/-- `hpack_decode_fields`: `cur` is `*pnam` and `*pval`, given back with the result. -/
def hpackDecodeFields (dec : Decoding) (cur : Option (ℕ × ℕ)) :
    Cp (Res × Option (ℕ × ℕ)) := do
  let hp ← get
  if hp.magic ≠ .decoder then pure (.arg, cur)
  else do
    assert (hp.ctx.hp = hp.addr)
    if cur = none then
      if hp.ctx.res ≠ .ok ∧ hp.ctx.res ≠ .blk then do
        modify fun hp => { hp with magic := .defunct }
        pure (.arg, cur)
      else do
        let r ← hpackDecode { dec with cb := true }
        let hp' ← get
        assert ((hp'.ctx.log.drop hp.ctx.log.length).all hpackAssertCb = true)
        if r ≠ .ok then pure (r, cur)
        else do
          modify fun hp => { hp with ctx.res := .fld }
          hpackDecodeFieldsNext dec cur
    else hpackDecodeFieldsNext dec cur

/-- `hpack_skip`. -/
def hpackSkip : Cp Res := do
  let hp ← get
  if hp.magic ≠ .decoder ∨ hp.ctx.tooBig = false then pure .arg
  else do
    modify fun hp => { hp with ctx.tooBig := false }
    pure .ok

end Cashpack
