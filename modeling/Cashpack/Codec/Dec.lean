import Cashpack.Codec.Types

/-!
# The working buffer of a decoder (`hpack_dec.c`)

Decoded strings are written one after the other in the working buffer.  When a field does not
fit, `hpd_skip` moves what is already there of it to the beginning of the buffer, over the
previous fields.
-/

namespace Cashpack

open Prog

/-- The address is not past the first `n` octets of the working buffer. -/
def Ptr.within (n : ℕ) : Ptr → Bool
  | .out off => off ≤ n
  | _ => true

/-- `hpd_skip`: make room for `len` octets. -/
def hpdSkip (len : ℕ) : Cp Unit := do
  let hp ← get
  if len ≤ hp.ctx.bufLen then pure ()
  else do
    modify fun hp => { hp with ctx.tooBig := true }
    match hp.ctx.fld.nam with
    | .out nam =>
      expect .big (hp.ctx.org + nam ≠ hp.ctx.arg.buf)
      assert (nam ≤ hp.ctx.out.length)
      assert (hp.ctx.fld.val.within hp.ctx.out.length = true)
      let fldLen := hp.ctx.out.length - nam
      expect .big (len + fldLen ≤ hp.ctx.arg.bufLen)
      modify fun hp => { hp with
        ctx.org := hp.ctx.arg.buf
        ctx.out := hp.ctx.out.drop nam
        ctx.bufLen := hp.ctx.arg.bufLen - fldLen
        ctx.fld.nam := .out 0
        ctx.fld.val := if hp.ctx.fld.val = .null then .null else .out (hp.ctx.fld.namSz + 1) }
    | .null => halt .abort
    -- another address cannot be compared with `ctx->buf`
    | _ => halt .fault

/-- Write octets at `ctx->buf`, which must stay inside the buffer of this call. -/
def hpdWrite (s : Octets) : Cp Unit := fun hp =>
  if hp.ctx.arg.buf ≤ hp.ctx.org + hp.ctx.out.length ∧
      hp.ctx.org + hp.ctx.out.length + s.length ≤ hp.ctx.arg.buf + hp.ctx.arg.bufLen then
    .ok () { hp with
      ctx.out := hp.ctx.out ++ s, ctx.bufLen := hp.ctx.bufLen - s.length }
  else .stop .fault

/-- `HPD_putc`. -/
def hpdPutc (c : UInt8) : Cp Unit := do
  hpdSkip 1
  hpdWrite [c]

/-- `HPD_cat`. -/
def hpdCat (s : Octets) : Cp Unit := do
  hpdSkip s.length
  hpdWrite s

/-- `HPD_puts`. -/
def hpdPuts (str : Ptr) (len : ℕ) : Cp Unit := do
  let hp ← get
  -- the two cases of `HPD_UNKNOWN`
  if str = .unknownName then do
    assert (hp.magic = .decoder)
    assert (hp.mon = true)
    assert (hp.ctx.fld.nam = .out hp.ctx.out.length)
    assert (hp.ctx.fld.namSz = len)
    modify fun hp => { hp with ctx.fld.nam := str }
  else if str = .unknownValue then do
    assert (hp.magic = .decoder)
    assert (hp.mon = true)
    assert (hp.ctx.fld.val = .out hp.ctx.out.length)
    assert (hp.ctx.fld.valSz = len)
    modify fun hp => { hp with ctx.fld.val := str }
  else do
    let (s, c) ← readStr str len
    assert (c = 0)
    hpdCat (s ++ [0])

/-- `HPD_notify`. -/
def hpdNotify : Cp Unit := do
  let hp ← get
  assert (hp.ctx.fld.nam ≠ .null)
  assert (hp.ctx.fld.val ≠ .null)
  assert (0 < hp.ctx.fld.namSz)
  let (nam, c) ← readStr hp.ctx.fld.nam hp.ctx.fld.namSz
  assert (c = 0)
  let (val, c) ← readStr hp.ctx.fld.val hp.ctx.fld.valSz
  assert (c = 0)
  hpcNotify (.name nam)
  hpcNotify (.value val)

end Cashpack
