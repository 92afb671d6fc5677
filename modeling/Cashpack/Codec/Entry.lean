import Cashpack.Codec.Static
import Cashpack.Codec.Dec
import Cashpack.Table.Ops

/-!
# The codec and its tables (`hpack_tbl.c`)

The functions of `hpack_tbl.c` that the decoder and the encoder call: they find an entry in the
static or the dynamic table, copy it to the working buffer, insert the field being processed,
and notify what happened to the table.
-/

namespace Cashpack

open Prog

/-- Follow `ctx->hp`, which dangles once `hpack_trim` moved the codec. -/
def ctxHp : Cp Unit := do
  let hp ← get
  when (hp.ctx.hp ≠ hp.addr) (halt .fault)

theorem ctxHp_eq {hp : Hpack} (h : hp.ctx.hp = hp.addr) : ctxHp hp = .ok () hp := by
  rw [ctxHp, bind_apply, get_apply, Out.bind_ok, when_apply, if_neg (not_not.2 h)]

theorem ctxHp_fault {hp : Hpack} (h : hp.ctx.hp ≠ hp.addr) : ctxHp hp = .stop .fault := by
  rw [ctxHp, bind_apply, get_apply, Out.bind_ok, when_apply, if_pos h, halt_apply]

/-- `hpt_unknown_field`. -/
def hptUnknownField : HptField := ⟨.unknownName, .unknownValue, 14, 15, 0⟩

/-- `HPT_field`. -/
def hptField (idx : ℕ) : Cp HptField := do
  assert (idx ≠ 0)
  if idx ≤ hpackStatic then
    match hptStatic[idx - 1]? with
    | some e => pure ⟨.str e.nam, .str e.val, e.nam.length, e.val.length, e.idx⟩
    | none => halt .fault
  else do
    let idx := idx - hpackStatic
    ctxHp
    let hp ← get
    if hp.mon = true ∧ hp.cnt < idx then pure hptUnknownField
    else do
      expect .idx (idx ≤ hp.cnt)
      let he ← onTable (hptDynamic idx)
      let tmp ← onTable (readEntry he)
      pure ⟨.tbl (he + hptHeaderSz), .tbl (he + hptHeaderSz + (tmp.namSz + 1)),
        tmp.namSz, tmp.valSz, idx % 65536⟩

/-- `HPT_adjust`. -/
def hpackAdjust (len : ℕ) : Cp Unit := do
  let evts ← onTable (hptAdjust len)
  hpcNotifyAll evts

/-- The name of the field to insert: its octets, or where they are in the table. -/
def Hpack.src (nam : Ptr) (s : Octets) : Src :=
  match nam with
  | .tbl off => .tbl off
  | _ => .ext s

/-- The address is not in the first `len` octets of the table. -/
def Ptr.outside (len : ℕ) : Ptr → Bool
  | .tbl off => len ≤ off
  | _ => true

/-- `HPT_index`: insert the field `ctx->fld`. -/
def hptIndex : Cp Unit := do
  let hp ← get
  let fld := hp.ctx.fld
  assert (fld.nam ≠ .null)
  assert (fld.val ≠ .null)
  assert (0 < fld.namSz)
  assert (fld.namSz ≤ uint16Max)
  assert (fld.valSz ≤ uint16Max)
  let (nam, c) ← readStr fld.nam fld.namSz
  assert (c = 0)
  let (val, c) ← readStr fld.val fld.valSz
  assert (c = 0)
  assert (fld.val.outside hp.sz.len = true)
  let evts ← onTable (hptInsert (hp.magic = .encoder) (Hpack.src fld.nam nam) fld.namSz val)
  hpcNotifyAll evts

/-- `HPT_decode`: copy the entry at `idx` to the working buffer. -/
def hptDecode (idx : ℕ) : Cp Unit := do
  expect .idx (0 < idx)
  let hf ← hptField idx
  assert (hf.nam ≠ .null)
  assert (hf.val ≠ .null)
  assert (0 < hf.namSz)
  modify fun hp => { hp with
    ctx.fld.nam := .out hp.ctx.out.length, ctx.fld.namSz := hf.namSz }
  hpdPuts hf.nam hf.namSz
  modify fun hp => { hp with
    ctx.fld.val := .out hp.ctx.out.length, ctx.fld.valSz := hf.valSz }
  hpdPuts hf.val hf.valSz
  hpdNotify

/-- `HPT_decode_name`: copy the name of the entry at `hp->state.idx` to the working buffer. -/
def hptDecodeName : Cp Unit := do
  let hp ← get
  assert (hp.ctx.fld.nam = .out hp.ctx.out.length)
  assert (hp.state.idx ≠ 0)
  let hf ← hptField hp.state.idx
  assert (hf.nam ≠ .null)
  assert (0 < hf.namSz)
  modify fun hp => { hp with ctx.fld.namSz := hf.namSz }
  hpdPuts hf.nam hf.namSz

end Cashpack
