import Cashpack.Codec.Decode

/-!
# The encoder (`hpack_enc.c`, `hpack.c`)

`hpack_encode` and what it calls, from the buffer that is flushed with DATA events to the size
updates and the representations.  The functions that emit a sequence of octets computed
beforehand (`HPI_encode`, `HPH_encode`) put them one by one with `HPE_putb`.
-/

namespace Cashpack

open Prog

/-! ### The working buffer -/

/-- `HPE_send`. -/
def hpeSend : Cp Unit := do
  let hp ← get
  when (hp.ctx.cur ≠ []) do
    hpcNotify (.data hp.ctx.cur)
    modify fun hp => { hp with ctx.cur := [] }

/-- Flush the buffer when it is full. -/
def hpeFlush : Cp Unit := do
  let hp ← get
  when (hp.ctx.cur.length = hp.ctx.arg.bufLen) hpeSend

/-- `HPE_putb`. -/
def hpePutb (b : UInt8) : Cp Unit := do
  let hp ← get
  assert (hp.ctx.cur.length < hp.ctx.arg.bufLen)
  modify fun hp => { hp with ctx.cur := hp.ctx.cur ++ [b] }
  hpeFlush

/-- Several `HPE_putb` in a row. -/
def hpePuts : Octets → Cp Unit
  | [] => pure ()
  | b :: bs => do hpePutb b; hpePuts bs

/-- The loop of `HPE_bcat`: `len` octets are left, and every `memcpy` is from `buf`. -/
def hpeBcatLoop (buf : Octets) : ℕ → ℕ → Cp Unit
  | _, 0 => pure ()
  | 0, _ => halt .spin
  | fuel + 1, len => do
    let hp ← get
    assert (hp.ctx.cur.length < hp.ctx.arg.bufLen)
    let sz := min (hp.ctx.arg.bufLen - hp.ctx.cur.length) len
    modify fun hp => { hp with ctx.cur := hp.ctx.cur ++ buf.take sz }
    hpeFlush
    hpeBcatLoop buf fuel (len - sz)

/-- `HPE_bcat`, for a buffer of which all the octets are to be sent. -/
def hpeBcat (buf : Octets) : Cp Unit := hpeBcatLoop buf buf.length buf.length

/-! ### Integers -/

/-- The octets of `HPI_encode` after the first one. -/
def hpiOctetsLoop : ℕ → ℕ → Octets
  | 0, _ => []
  | fuel + 1, val =>
    if 0x80 ≤ val then UInt8.ofNat (0x80 ||| (val &&& 0x7f)) :: hpiOctetsLoop fuel (val >>> 7)
    else [UInt8.ofNat val]

/-- The octets of `HPI_encode`; `val` has 16 bits. -/
def hpiOctets (p : Hpp) (val : ℕ) : Octets :=
  if val < hpiMask p.pfx then [p.pat ||| UInt8.ofNat val]
  else (p.pat ||| UInt8.ofNat (hpiMask p.pfx)) :: hpiOctetsLoop 4 (val - hpiMask p.pfx)

/-- `HPI_encode`. -/
def hpiEncode (p : Hpp) (val : ℕ) : Cp Unit := do
  let hp ← get
  assert (hp.ctx.cur.length < hp.ctx.arg.bufLen)
  hpePuts (hpiOctets p (val % 65536))

/-! ### Tables probing -/

/-- `hpt_cmp`, with the index it leaves in the key. -/
def hptCmp (nam val : Octets) (idx : ℕ) (tbl : HdrEntry) : ℤ × ℕ :=
  let namSz := nam.length % 65536
  let valSz := val.length % 65536
  if namSz ≠ tbl.nam.length then ((namSz : ℤ) - tbl.nam.length, idx)
  else if strcmp nam tbl.nam ≠ 0 then (strcmp nam tbl.nam, idx)
  else if valSz ≠ tbl.val.length then ((valSz : ℤ) - tbl.val.length, tbl.idx)
  else (strcmp val tbl.val, tbl.idx)

/-- The loop of `hpt_bsearch` between `min` and `max`. -/
def hptBsearchLoop (nam val : Octets) : ℕ → ℤ → ℤ → ℕ → Prog Table (Res × ℕ)
  | 0, _, _, _ => halt .spin
  | fuel + 1, min, max, idx =>
    if min ≤ max then do
      let pos := (min + max) / 2
      assert (pos < hpackStatic)
      match hpackStaticHdr[pos.toNat]? with
      | none => halt .fault
      | some e =>
        let (cmp, idx) := hptCmp nam val idx e
        if cmp = 0 then pure (.ok, idx)
        else if cmp < 0 then hptBsearchLoop nam val fuel min (pos - 1) idx
        else hptBsearchLoop nam val fuel (pos + 1) max idx
    else pure (if idx = 0 then (.idx, idx) else (.nam, idx))

/-- `hpt_bsearch`. -/
def hptBsearch (nam val : Octets) : Prog Table (Res × ℕ) :=
  hptBsearchLoop nam val (hpackStatic + 1) 0 (hpackStatic - 1) 0

/-- The part of `HPT_search` over the dynamic table, `idx` being found in the static one. -/
def hptSearchDynamic (nam val : Octets) (idx : ℕ) : Prog Table (Res × ℕ) := do
  let hp ← get
  let (idx, exact) ← hptSearchLoop nam val hp.cnt 0 idx 0 0
  pure (if exact then .ok else if 0 < idx then .nam else .idx, idx)

/-- `HPT_search`, with the index it leaves in `hf`. -/
def hptSearch (nam val : Octets) : Cp (Res × ℕ) := do
  let (r, idx) ← onTable (hptBsearch nam val)
  if r = .ok then pure (.ok, idx)
  else do
    assert (r = .nam → 0 < idx ∧ idx ≤ hpackStatic)
    ctxHp
    onTable (hptSearchDynamic nam val idx)

/-- `hpack_search`, with the value of `*idx`. -/
def hpackSearch (nam val : Option CStr) : Cp (Res × ℕ) := do
  let hp ← get
  match nam with
  | none => pure (.arg, 0)
  | some nam =>
    if hp.magic ≠ .decoder ∧ hp.magic ≠ .encoder then pure (.arg, 0)
    else do
      let (r, idx) ← hptSearch nam.bytes ((val.map CStr.bytes).getD [])
      pure (if r = .ok ∧ val = none then .nam else r, idx)

/-! ### Fields -/

/-- The null-terminated string given by the caller. -/
def userStr : Option CStr → Cp Octets
  | some s => pure s.bytes
  | none => halt .fault

/-- `hpack_encode_string`. -/
def hpackEncodeString (fld : Field) (evt : StrEvt) : Cp Unit := do
  when (evt = .name) (assert (fld.namIdxF = false))
  let str ← userStr (if evt = .name then fld.nam else fld.val)
  let huf := if evt = .name then fld.namHuf else fld.valHuf
  let len := str.length
  expect .int (len ≤ uint16Max)
  (if evt = .name then hpvToken (.str str) len else hpvValue (.str str) len)
  if huf then do
    hpiEncode .huf (hphSize str)
    hpePuts (hphEncode str)
  else do
    hpiEncode .str len
    hpeBcat str

/-- `hpack_encode_field`. -/
def hpackEncodeField (fld : Field) (p : Hpp) : Cp Unit := do
  let hp ← get
  when (fld.namIdxF = true)
    (expect .idx (0 < fld.namIdx.toNat ∧ fld.namIdx.toNat ≤ hp.cnt + hpackStatic))
  let idx := if fld.namIdxF then fld.namIdx.toNat else 0
  hpiEncode p idx
  when (idx = 0) (hpackEncodeString fld .name)
  hpackEncodeString fld .value

/-- `hpack_encode_indexed`. -/
def hpackEncodeIndexed (fld : Field) : Cp Unit := do
  let hp ← get
  expect .idx (0 < fld.idx.toNat ∧ fld.idx.toNat ≤ hp.cnt + hpackStatic)
  hpiEncode .idx fld.idx.toNat

/-- The name of the entry to insert, when it is the one of an entry of the tables. -/
def hpackEncodeNamIdx (fld : Field) : Cp Unit := do
  let hf ← attempt (hptField fld.namIdx.toNat)
  let hp ← get
  assert (hp.ctx.res = .blk)
  match hf with
  | none => halt .fault
  | some hf => modify fun hp => { hp with ctx.fld.nam := hf.nam, ctx.fld.namSz := hf.namSz }

/-- The name of the entry to insert, when it is a string of the caller. -/
def hpackEncodeNam (fld : Field) : Cp Unit := do
  let nam ← userStr fld.nam
  modify fun hp => { hp with ctx.fld.nam := .str nam, ctx.fld.namSz := nam.length }

/-- `hpack_encode_dynamic`. -/
def hpackEncodeDynamic (fld : Field) : Cp Unit := do
  hpackEncodeField fld .dyn
  (if fld.namIdxF then hpackEncodeNamIdx fld else hpackEncodeNam fld)
  let val ← userStr fld.val
  modify fun hp => { hp with ctx.fld.val := .str val, ctx.fld.valSz := val.length }
  hptIndex

/-- `hpack_encode_literal`. -/
def hpackEncodeLiteral (fld : Field) : Cp Unit := hpackEncodeField fld .lit

/-- `hpack_encode_never`. -/
def hpackEncodeNever (fld : Field) : Cp Unit := hpackEncodeField fld .nvr

/-! ### Size updates -/

/-- `hpack_cap`. -/
def hpackCap (lim max : ℤ) : Cp ℤ := do
  assert (0 ≤ lim)
  let hp ← get
  if hp.sz.cap < 0 then pure lim
  else if max < hp.sz.cap then do
    modify fun hp => { hp with sz.lim := -1 }
    pure lim
  else do
    modify fun hp => { hp with sz.lim := hp.sz.cap }
    pure hp.sz.cap

/-- The first part of `hpack_encode_update`: settle the limit to signal. -/
def hpackEncodeSettle (lim : ℤ) : Cp ℤ := do
  let hp ← get
  if 0 ≤ hp.sz.min then do
    assert (hp.sz.min ≤ hp.sz.nxt)
    modify fun hp => { hp with sz.max := lim.toNat }
    if hp.sz.min < hp.sz.nxt then do
      assert (lim = hp.sz.min)
      pure lim
    else hpackCap lim hp.sz.nxt
  else do
    let lim ← hpackCap lim hp.sz.max
    let hp ← get
    assert (lim = hp.sz.lim)
    pure lim

/-- The last part of `hpack_encode_update`: what is left to signal. -/
def hpackEncodeUpdated : Cp Unit := do
  let hp ← get
  if hp.sz.min < hp.sz.nxt then do
    assert (0 ≤ hp.sz.min)
    modify fun hp => { hp with sz.min := hp.sz.nxt }
  else when (0 ≤ hp.sz.min) do
    assert (hp.sz.min = hp.sz.nxt)
    modify fun hp => { hp with sz.min := -1, sz.nxt := -1, ctx.canUpd := false }

/-- `hpack_encode_update`. -/
def hpackEncodeUpdate (lim : ℤ) : Cp Unit := do
  let hp ← get
  assert (hp.ctx.canUpd = true)
  assert (0 ≤ lim)
  assert (lim ≤ uint16Max)
  let lim ← hpackEncodeSettle lim
  assert (0 ≤ lim)
  let hp ← get
  hpackAdjust hp.sz.len
  hpiEncode .upd lim.toNat
  hpcNotify (.table lim.toNat)
  hpackEncodeUpdated
  let hp ← get
  assert (lim.toNat ≤ hp.sz.max)

/-- The updates that signal a resize at the start of a block. -/
def hpackEncodeResize : Cp Unit := do
  let hp ← get
  when (hp.ctx.canUpd = true ∧ 0 ≤ hp.sz.min) do
    assert (hp.sz.min ≤ hp.sz.nxt)
    hpackEncodeUpdate hp.sz.min
    let hp ← get
    assert (hp.sz.min = hp.sz.nxt)
    when (0 ≤ hp.sz.nxt) (hpackEncodeUpdate hp.sz.nxt)
    let hp ← get
    assert (hp.ctx.canUpd = false)

/-- The update that signals a limit at the start of a block. -/
def hpackEncodeLimit : Cp Unit := do
  let hp ← get
  when (hp.ctx.canUpd = true ∧ 0 ≤ hp.sz.cap) do
    assert (hp.sz.lim = -1)
    when (hp.sz.cap.toNat < hp.sz.max) do
      hpackEncodeUpdate hp.sz.cap
      modify fun hp => { hp with sz.cap := -1 }

/-! ### Blocks -/

/-- `hpack_auto_index`: the field it rewrites, and whether it returned `HPACK_RES_ARG`. -/
def hpackAutoIndex (fld : Field) : Cp (Field × Bool) := do
  if fld.typIdx = true ∨ fld.namIdxF = true then pure (fld, false)
  else do
    let val := if fld.typNvr then none else fld.val
    let fld := { fld with idx := 0, namIdx := 0 }
    let (res, idx) ← hpackSearch fld.nam val
    match res with
    | .arg => pure (fld, true)
    | .nam => pure ({ fld with namIdxF := true, namIdx := UInt16.ofNat idx }, false)
    | .ok => do
      assert (fld.typNvr = false)
      pure ({ fld with
        typIdx := true, typDyn := false, typLit := false, typNvr := false
        idx := UInt16.ofNat idx }, false)
    | .idx => pure (fld, false)
    | _ => halt .abort

/-- The choice made on `fld->flg & HPACK_FLG_TYP_MSK`; `none` when it is not one type. -/
def hpackEncodeAny (fld : Field) : Option (Cp Unit) :=
  match fld.typIdx, fld.typDyn, fld.typLit, fld.typNvr with
  | true, false, false, false => some (hpackEncodeIndexed fld)
  | false, true, false, false => some (hpackEncodeDynamic fld)
  | false, false, false, true => some (hpackEncodeNever fld)
  | false, false, true, false => some (hpackEncodeLiteral fld)
  | _, _, _, _ => none

/-- One turn of the loop of `hpack_encode`: the field as it is rewritten, and the result when
it ends the loop. -/
def hpackEncodeTurn (fld : Field) : Cp (Field × Option Res) := do
  let (fld, arg) ← (if fld.autIdx then hpackAutoIndex fld else pure (fld, false))
  if arg then pure (fld, some .arg)
  else do
    hpcNotify (.field none 0)
    match hpackEncodeAny fld with
    | none => do
      modify fun hp => { hp with magic := .defunct }
      pure (fld, some .arg)
    | some enc => do
      match ← attempt enc with
      | some () => pure (fld, none)
      | none => do
        let hp ← get
        assert (hp.ctx.res ≠ .ok)
        assert (hp.ctx.res ≠ .blk)
        modify fun hp => { hp with magic := .defunct }
        pure (fld, some hp.ctx.res)

/-- The loop of `hpack_encode`. -/
def hpackEncodeLoop : List Field → Cp (List Field × Option Res)
  | [] => pure ([], none)
  | fld :: flds => do
    let (fld, r) ← hpackEncodeTurn fld
    match r with
    | some r => pure (fld :: flds, some r)
    | none => do
      let (flds, r) ← hpackEncodeLoop flds
      pure (fld :: flds, r)

/-- The start of `hpack_encode`, up to the size updates. -/
def hpackEncodeBegin (enc : Encoding) : Cp Unit := do
  let hp ← get
  assert (hp.ctx.hp = hp.addr)
  when (hp.ctx.res ≠ .blk) do
    assert (hp.ctx.res = .ok)
    modify fun hp => { hp with ctx.canUpd := true, ctx.tooBig := false, ctx.res := .blk }
  modify fun hp => { hp with ctx.arg := ⟨enc.buf, enc.bufLen, 0⟩, ctx.cur := [] }

/-- `hpack_encode`: the result, and the fields as they are rewritten. -/
def hpackEncode (enc : Encoding) : Cp (Res × List Field) := do
  let hp ← get
  if hp.magic ≠ .encoder ∨ enc.fld = [] ∨ enc.buf = 0 ∨ enc.bufLen = 0 ∨ enc.cb = false then
    pure (.arg, enc.fld)
  else do
    hpackEncodeBegin enc
    hpackEncodeResize
    hpackEncodeLimit
    modify fun hp => { hp with ctx.canUpd := false }
    let (flds, r) ← hpackEncodeLoop enc.fld
    match r with
    | some r => pure (r, flds)
    | none => do
      hpeSend
      let hp ← get
      assert (hp.ctx.res = .blk)
      let res : Res := if enc.cut then .blk else .ok
      modify fun hp => { hp with ctx.res := res }
      pure (res, flds)

/-- `hpack_clean_field`: the field as it is rewritten, and the result. -/
def hpackCleanField (fld : Field) : Prog Unit (Res × Field) := do
  let typ := (fld.typIdx, fld.typDyn, fld.typLit, fld.typNvr)
  if typ = (true, false, false, false) ∨ typ = (false, true, false, false) ∨
      typ = (false, false, true, false) ∨ typ = (false, false, false, true) then do
    let fld : Field :=
      if fld.typIdx then { fld with idx := 0 }
      else
        let fld : Field :=
          if fld.namIdxF then { fld with namIdx := 0, namIdxF := false }
          else { fld with nam := none }
        { fld with val := none, namHuf := false, valHuf := false }
    let fld : Field :=
      { fld with typIdx := false, typDyn := false, typLit := false, typNvr := false }
    let fld : Field :=
      if fld.autIdx then { fld with nam := none, val := none, autIdx := false } else fld
    if fld.nam ≠ none ∨ fld.val ≠ none ∨ fld.namIdxF = true ∨ fld.namHuf = true ∨
        fld.valHuf = true ∨ fld.ext ≠ 0 then pure (.arg, fld)
    else do
      assert (fld.idx = 0)
      assert (fld.namIdx = 0)
      pure (.ok, fld)
  else pure (.arg, fld)

end Cashpack
