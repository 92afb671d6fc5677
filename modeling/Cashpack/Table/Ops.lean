import Cashpack.Codec.Types

/-!
# The dynamic table (`hpack_tbl.c`)

The functions of `hpack_tbl.c` that work on the memory of the dynamic table.  An entry is a
header of 30 octets (`struct hpt_entry` less its unused last member), the name, a null octet,
the value and a null octet; entries are stored one after the other, the newest first, and the
header of each one holds the size of the entry before it.

Positions in the table are offsets from its first octet.  Reading or writing outside of the
allocated memory stops the program (`Stop.overrun`), and pointer arithmetic wraps around.
-/

namespace Cashpack

open Prog

/-- `HPT_HEADERSZ`. -/
def hptHeaderSz : ℕ := 30

/-- `HPT_ENTRY_MAGIC`. -/
def hptEntryMagic : ℕ := 0xe4582b39

/-- The members of `struct hpt_entry` the code reads. -/
structure HptEntry where
  magic : ℕ
  preSz : ℕ
  namSz : ℕ
  valSz : ℕ
deriving DecidableEq, Repr

/-- The header stored in these octets: `magic` at offset 0, `pre_sz` at 8, `nam_sz` at 16 and
`val_sz` at 18. -/
def HptEntry.parse (m : Octets) : HptEntry where
  magic := Octets.ofLe (Octets.read 0 4 m)
  preSz := Octets.ofLe (Octets.read 8 8 m)
  namSz := Octets.ofLe (Octets.read 16 2 m)
  valSz := Octets.ofLe (Octets.read 18 2 m)

/-- The size of the entry, overhead included. -/
def HptEntry.size (he : HptEntry) : ℕ := hpackOverhead + he.namSz + he.valSz

/-- `memcpy(&tmp, he, HPT_HEADERSZ)`. -/
def readEntry (he : ℕ) : Prog Table HptEntry := fun t =>
  if he + hptHeaderSz ≤ t.tbl.length then .ok (.parse (t.tbl.drop he)) t else .stop .overrun

/-- The octets at an offset of the table. -/
def readTbl (off n : ℕ) : Prog Table Octets := fun t =>
  if off + n ≤ t.tbl.length then .ok (Octets.read off n t.tbl) t else .stop .overrun

/-- `memcpy` to an offset of the table. -/
def writeTbl (off : ℕ) (bs : Octets) : Prog Table Unit := fun t =>
  if off + bs.length ≤ t.tbl.length then .ok () { t with tbl := Octets.write off bs t.tbl }
  else .stop .overrun

/-- `memmove` inside the table. -/
def moveTbl (dst src n : ℕ) : Prog Table Unit := fun t =>
  if dst + n ≤ t.tbl.length ∧ src + n ≤ t.tbl.length then
    .ok () { t with tbl := Octets.move dst src n t.tbl }
  else .stop .overrun

/-! ### Tables lookups -/

/-- The loop of `hpt_dynamic`: `he` is the offset of an entry and `off` the size of the one
before it. -/
def hptDynamicLoop : ℕ → ℕ → ℕ → Prog Table ℕ
  | 0, _, _ => halt .spin
  | idx + 1, off, he => do
    let tmp ← readEntry he
    assert (tmp.magic = hptEntryMagic)
    assert (tmp.preSz = off)
    assert (0 < tmp.namSz)
    if idx = 0 then pure he
    else hptDynamicLoop idx tmp.size (he + tmp.size)

/-- `hpt_dynamic`: the offset of the entry at position `idx`, counted from 1. -/
def hptDynamic (idx : ℕ) : Prog Table ℕ := do
  let hp ← get
  assert (0 < idx)
  assert (idx ≤ hp.cnt)
  hptDynamicLoop idx 0 0

/-- The loop of `HPT_foreach` over the dynamic table, `i` entries being left. -/
def hptForeachLoop : ℕ → ℕ → ℕ → Prog Table (List Event)
  | 0, _, he => do
    let hp ← get
    assert (he = hp.sz.len)
    pure []
  | i + 1, off, he => do
    let hp ← get
    assert (he < hp.sz.len)
    let tmp ← readEntry he
    assert (tmp.magic = hptEntryMagic)
    assert (tmp.preSz = off)
    assert (0 < tmp.namSz)
    let nam ← readTbl (he + hptHeaderSz) tmp.namSz
    let val ← readTbl (he + hptHeaderSz + tmp.namSz + 1) tmp.valSz
    let evts ← hptForeachLoop i tmp.size (he + tmp.size)
    pure (.field none tmp.size :: .name nam :: .value val :: evts)

/-- `HPT_foreach` with `HPT_FLG_DYNAMIC`: the events for the entries of the table. -/
def hptForeach : Prog Table (List Event) := do
  let hp ← get
  hptForeachLoop hp.cnt 0 0

/-- The null-terminated string at an offset of the table. -/
def readCStr (off : ℕ) : Prog Table Octets := fun t =>
  if 0 ∈ t.tbl.drop off then .ok ((t.tbl.drop off).takeWhile (· ≠ 0)) t else .stop .overrun

/-- The loop of `HPT_search` over the dynamic table: `i` entries were compared and `cnt` are
left, `namIdx` is the last index whose name matches.  The result tells whether the value of
that entry matches too. -/
def hptSearchLoop (nam val : Octets) : ℕ → ℕ → ℕ → ℕ → ℕ → Prog Table (ℕ × Bool)
  | 0, _, namIdx, _, he => do
    let hp ← get
    assert (he = hp.sz.len)
    pure (namIdx, false)
  | cnt + 1, i, namIdx, off, he => do
    let hp ← get
    assert (he < hp.sz.len)
    let tmp ← readEntry he
    assert (tmp.magic = hptEntryMagic)
    assert (tmp.preSz = off)
    assert (0 < tmp.namSz)
    let n ← readCStr (he + hptHeaderSz)
    if nam = n then do
      let namIdx := (i + hpackStatic + 1) % 65536
      let v ← readCStr (he + hptHeaderSz + tmp.namSz + 1)
      if val = v then pure (namIdx, true)
      else hptSearchLoop nam val cnt (i + 1) namIdx tmp.size (he + tmp.size)
    else hptSearchLoop nam val cnt (i + 1) namIdx tmp.size (he + tmp.size)

/-! ### Resize -/

/-- The loop of `HPT_adjust`: `len` is the length to bring down to `lim`, `he` the offset of
the last entry and `n` the number of entries evicted. -/
def hptAdjustLoop (lim : ℕ) : ℕ → ℕ → ℕ → ℕ → Prog Table ℕ
  | 0, _, _, n => pure n
  | cnt + 1, len, he, n => do
    if lim < len then do
      let tmp ← readEntry he
      assert (tmp.magic = hptEntryMagic)
      assert (0 < tmp.namSz)
      modify fun hp =>
        { hp with sz := { hp.sz with len := subSize hp.sz.len tmp.size }, cnt := cnt }
      hptAdjustLoop lim cnt (subSize len tmp.size) (subSize he tmp.preSz) (n + 1)
    else pure n

/-- `HPT_adjust`, with the events it notifies. -/
def hptAdjust (len : ℕ) : Prog Table (List Event) := do
  let hp ← get
  assert (hp.sz.lim ≤ hp.sz.max ∨ hp.sz.max < hp.sz.nxt)
  if hp.cnt = 0 then pure []
  else do
    let he ← hptDynamic hp.cnt
    let n ← hptAdjustLoop hp.sz.limit hp.cnt len he 0
    let hp ← get
    assert (if hp.cnt = 0 then hp.sz.len = 0 else 0 < hp.sz.len)
    pure (if 0 < n then [.evict n] else [])

/-! ### Insert -/

/-- Where the name of a new entry is: outside of the table, or at an offset of it. -/
inductive Src
  | ext (nam : Octets)
  | tbl (off : ℕ)
deriving DecidableEq

/-- `hpt_fit`: whether an entry of size `len` fits, once others were evicted. -/
def hptFit (len : ℕ) : Prog Table (Bool × List Event) := do
  let hp ← get
  assert (hp.sz.lim ≤ hp.sz.max)
  let evts ← hptAdjust (hp.sz.len + len)
  let hp ← get
  if hp.sz.limit < len then do
    assert (hp.sz.len = 0)
    assert (hp.cnt = 0)
    pure (false, evts)
  else pure (true, evts)

/-- `hpt_overlap` for a string of length `len`. -/
def hptOverlap (src : Src) (len : ℕ) : Prog Table Bool := do
  let hp ← get
  match src with
  | .ext _ => pure false
  | .tbl pos =>
    if pos < hp.sz.len then do
      assert (pos + len < hp.sz.len)
      pure true
    else pure false

/-- The loop of `hpt_move_evicted`, which moves the name 64 octets at a time: `namSz` octets
are left at offset `nam`.  It returns where the table has moved to, and what is left of
`len`. -/
def hptMoveEvictedLoop : ℕ → ℕ → ℕ → ℕ → ℕ → Prog Table (ℕ × ℕ)
  | 0, _, _, _, _ => halt .spin
  | fuel + 1, nam, namSz, len, tblPtr =>
    if namSz = 0 then pure (tblPtr, len)
    else do
      let hp ← get
      let sz := min namSz 64
      let tmp ← readTbl nam sz
      moveTbl (tblPtr + sz) tblPtr hp.sz.len
      writeTbl hptHeaderSz tmp
      hptMoveEvictedLoop fuel (nam + sz) (namSz - sz) (subSize len sz) (tblPtr + sz)

/-- `hpt_move_evicted`. -/
def hptMoveEvicted (nam namSz len : ℕ) : Prog Table Unit := do
  let (tblPtr, len) ← hptMoveEvictedLoop (namSz + 2) nam (namSz + 1) len 0
  assert (hptHeaderSz < len)
  let hp ← get
  moveTbl (tblPtr + len) tblPtr hp.sz.len

/-- Move the table away from the first `len` octets. -/
def hptShift (len : ℕ) : Prog Table Unit := do
  let hp ← get
  when (0 < hp.cnt) (moveTbl len 0 hp.sz.len)

/-- The last writes of `HPT_index`, for a name that is already in place: the value, then the
header. -/
def hptFill (namSz : ℕ) (val : Octets) : Prog Table Unit := do
  writeTbl (hptHeaderSz + namSz + 1) (val ++ [0])
  writeTbl 0 (Octets.toLe 4 hptEntryMagic)
  writeTbl 8 (Octets.toLe 8 0)
  writeTbl 16 (Octets.toLe 2 namSz)
  writeTbl 18 (Octets.toLe 2 val.length)

/-- The part of `HPT_index` that follows its checks: insert an entry whose name is `namSz`
octets at `src` and whose value is `val`.  `enc` tells whether the codec is an encoder. -/
def hptInsert (enc : Bool) (src : Src) (namSz : ℕ) (val : Octets) : Prog Table (List Event) := do
  let ovl ← hptOverlap src namSz
  let len := hpackOverhead + namSz + val.length
  let (fits, evts) ← hptFit len
  if fits then do
    writeTbl 8 (Octets.toLe 8 len)
    match src, ovl with
    | .tbl nam, true => do
      assert (enc = true)
      hptMoveEvicted nam namSz len
    | .tbl nam, false => do
      hptShift len
      moveTbl hptHeaderSz nam (namSz + 1)
    | .ext nam, _ => do
      hptShift len
      writeTbl hptHeaderSz (nam ++ [0])
    hptFill namSz val
    modify fun hp => { hp with sz := { hp.sz with len := hp.sz.len + len }, cnt := hp.cnt + 1 }
    pure (evts ++ [.index len])
  else pure evts

end Cashpack
