import Cashpack.Codec.Enc

/-!
# Codecs and their memory (`hpack.c`)

Creation, resizing, trimming and probing of a codec.  The allocator is given by what it hands
back: `none` for `NULL`, or a block whose octets are only known where something was copied.
-/

namespace Cashpack

open Prog

/-! ### Creation -/

/-- `struct hpack_alloc`, with what its `malloc` hands back. -/
structure Alloc where
  malloc : Option Block
  realloc : Bool

/-- The state of a codec whose memory is zero. -/
def State.zero : State :=
  ⟨.none, .fldInt, false, 0, 0, ⟨0, 0, 0⟩, ⟨none, 0, 0, 0⟩⟩

/-- The context of a codec whose memory is zero. -/
def Ctx.zero : Ctx :=
  ⟨0, ⟨0, 0, 0⟩, [], [], 0, [], 0, Fld.zero, .ok, false, false, []⟩

/-- Octets nobody wrote, from this position of a block on. -/
def Block.octets (blk : Block) (off n : ℕ) : Octets :=
  (List.range n).map fun i => blk.junk (off + i)

@[simp] theorem Block.length_octets (blk : Block) (off n : ℕ) :
    (blk.octets off n).length = n := by
  simp [Block.octets]

/-- Memory from an allocator that always gives zeros, at one address. -/
def zeroBlock : Block := ⟨1, fun _ => 0⟩

/-- A new codec in a block of memory. -/
def Hpack.init (magic : Magic) (mem max : ℕ) (realloc : Bool) (blk : Block) : Hpack where
  sz := ⟨mem, max, -1, -1, 0, -1, -1⟩
  cnt := 0
  tbl := blk.octets 0 mem
  addr := blk.addr
  magic := magic
  mon := false
  realloc := realloc
  state := State.zero
  ctx := { Ctx.zero with hp := blk.addr }

/-- `hpack_new`. -/
def hpackNew (magic : Magic) (mem max : ℕ) (ha : Alloc) : Prog Unit (Option Hpack) := do
  if uint16Max < max ∨ uint16Max < mem then pure none
  else do
    assert (max ≤ mem ∨ magic = .encoder)
    pure (ha.malloc.map (Hpack.init magic mem max ha.realloc))

theorem hpackNew_some {magic : Magic} {mem max : ℕ} {ha : Alloc} {hp : Hpack}
    (h : hpackNew magic mem max ha () = .ok (some hp) ()) :
    max ≤ uint16Max ∧ mem ≤ uint16Max ∧ (max ≤ mem ∨ magic = .encoder) ∧
      ∃ blk, hp = Hpack.init magic mem max ha.realloc blk := by
  unfold hpackNew at h
  rw [ite_run] at h
  split at h
  · cases h
  rename_i hle
  rw [bind_apply, assert_apply] at h
  split at h
  · rename_i hmax
    simp only [Out.bind_ok, pure_apply, Out.ok.injEq, Option.map_eq_some_iff, and_true] at h
    obtain ⟨blk, -, rfl⟩ := h
    exact ⟨by omega, by omega, hmax, blk, rfl⟩
  · cases h

/-! ### Memory management -/

/-- `realloc`: the codec in its new block. -/
def Hpack.move (hp : Hpack) (mem : ℕ) (blk : Block) : Hpack :=
  { hp with
    addr := blk.addr
    tbl := hp.tbl.take mem ++ blk.octets hp.tbl.length (mem - hp.tbl.length) }

/-- `hpack_realloc`; `re` is what `realloc` hands back. -/
def hpackRealloc (mem : ℕ) (re : Option Block) : Cp Res := do
  let hp ← get
  if mem ≤ hp.sz.mem then pure .ok
  else do
    assert (hp.sz.len ≤ mem)
    if hp.realloc = false then pure .rea
    else match re with
      | none => pure .oom
      | some blk => do
        modify fun hp => { hp.move mem blk with ctx.hp := blk.addr, sz.mem := mem }
        pure .ok

/-- The memory `hpack_resize` wants for the size `len`. -/
def hpackResizeMem (len max : ℕ) : Cp ℕ := do
  let hp ← get
  if hp.magic = .encoder then
    if 0 ≤ hp.sz.lim then do
      assert (hp.sz.lim = hp.sz.cap)
      assert (hp.sz.lim.toNat ≤ hp.sz.mem)
      assert (hp.sz.len ≤ hp.sz.lim.toNat)
      pure hp.sz.lim.toNat
    else if 0 ≤ hp.sz.cap then do
      assert (hp.sz.cap.toNat ≤ max)
      pure hp.sz.cap.toNat
    else pure len
  else pure len

/-- The resize that is recorded until it is signalled. -/
def hpackResizeRecord (len : ℕ) : Cp Unit := do
  let hp ← get
  if hp.sz.min < 0 then do
    assert (hp.sz.nxt < 0)
    modify fun hp => { hp with sz.nxt := toSsize len, sz.min := toSsize len }
  else do
    assert (hp.sz.min ≤ hp.sz.nxt)
    modify fun hp => { hp with
      sz.nxt := toSsize len
      sz.min := if toSsize len < hp.sz.min then toSsize len else hp.sz.min }

/-- `hpack_resize`. -/
def hpackResize (len : ℕ) (re : Option Block) : Cp Res := do
  let hp ← get
  if hp.magic ≠ .decoder ∧ hp.magic ≠ .encoder then pure .arg
  else if hp.ctx.res ≠ .ok then do
    assert (hp.ctx.res = .blk)
    pure .bsy
  else do
    let max := if hp.realloc = false then hp.sz.mem else uint16Max
    let mem ← hpackResizeMem len max
    if max < mem then do
      modify fun hp => { hp with magic := .defunct }
      pure .len
    else do
      let res ← hpackRealloc mem re
      if res ≠ .ok then do
        modify fun hp => { hp with magic := .defunct }
        pure res
      else do
        hpackResizeRecord len
        pure .ok

/-- `hpack_limit`. -/
def hpackLimit (len : ℕ) (re : Option Block) : Cp Res := do
  let hp ← get
  if hp.magic ≠ .encoder then pure .arg
  else if hp.ctx.res ≠ .ok then do
    assert (hp.ctx.res = .blk)
    pure .bsy
  else if uint16Max < len then pure .len
  else do
    let mem := if hp.sz.max ≤ len ∧ hp.sz.mem < hp.sz.max then hp.sz.max else hp.sz.mem
    let res ← hpackRealloc mem re
    if res.val < 0 then do
      when (res ≠ .rea) (modify fun hp => { hp with magic := .defunct })
      pure res
    else do
      modify fun hp => { hp with sz.cap := len }
      pure .ok

/-- `hpack_trim`. -/
def hpackTrim (re : Option Block) : Cp Res := do
  let hp ← get
  if hp.realloc = false then pure .arg
  else if hp.magic ≠ .decoder ∧ hp.magic ≠ .encoder then pure .arg
  else if hp.ctx.res ≠ .ok then do
    assert (hp.ctx.res = .blk)
    pure .bsy
  else do
    assert (hp.sz.lim ≤ hp.sz.max)
    let max := if hp.magic = .encoder then hp.sz.limit else hp.sz.max
    if max < hp.sz.mem then
      match re with
      | none => pure .oom
      | some blk => do
        -- `hp->ctx.hp` keeps the old address
        modify fun hp => { hp.move max blk with sz.mem := max }
        pure .ok
    else pure .ok

/-- `hpack_encoder`. -/
def hpackEncoder (max : ℕ) (lim : ℤ) (ha : Alloc) : Prog Unit (Option Hpack) := do
  let mem := if 0 ≤ lim then lim.toNat else max
  let hp ← hpackNew .encoder mem max ha
  match hp with
  | none => pure none
  | some hp =>
    if 0 ≤ lim then
      match hpackLimit lim.toNat none hp with
      | .ok res hp' => do
        assert (res = .ok)
        assert (hp'.addr = hp.addr)
        assert (lim = hp'.sz.cap)
        pure (some hp')
      | .err _ => halt .abort
      | .stop w => halt w
    else pure (some hp)

/-- `hpack_decoder`. -/
def hpackDecoder (max : ℕ) (rsz : ℤ) (ha : Alloc) : Prog Unit (Option Hpack) :=
  let mem := if 0 ≤ rsz then rsz.toNat else max
  let mem := if mem < max then max else mem
  hpackNew .decoder mem max ha

/-- `hpack_monitor`. -/
def hpackMonitor (max : ℕ) (rsz : ℤ) (ha : Alloc) : Prog Unit (Option Hpack) := do
  let hp ← hpackDecoder max rsz ha
  pure (hp.map fun hp => { hp with mon := true })

/-! ### Tables probing -/

/-- The events of `HPT_foreach` with `HPT_FLG_STATIC`. -/
def hptStaticEvents : List Event :=
  hptStatic.flatMap fun e => [.field none 0, .name e.nam, .value e.val]

/-- `hpack_foreach`; the flags are given one by one. -/
def hpackForeach (static dynamic : Bool) : Cp Res := do
  let hp ← get
  if hp.magic ≠ .decoder ∧ hp.magic ≠ .encoder then pure .arg
  else do
    modify fun hp => { hp with ctx := { Ctx.zero with hp := hp.addr, log := hp.ctx.log } }
    when (static = true) (hpcNotifyAll hptStaticEvents)
    when (dynamic = true) do
      let evts ← onTable hptForeach
      hpcNotifyAll evts
    pure .ok

/-- `hpack_dynamic`. -/
def hpackDynamic : Cp Res := hpackForeach false true

/-- `hpack_tables`. -/
def hpackTables : Cp Res := hpackForeach true true

/-- `hpack_entry`: the name and value are only there when the result is `HPACK_RES_OK`. -/
def hpackEntry (idx : ℕ) : Cp (Res × Ptr × Ptr) := do
  let hp ← get
  if hp.magic ≠ .decoder ∧ hp.magic ≠ .encoder then pure (.arg, .null, .null)
  else if idx = 0 ∨ hpackStatic + hp.cnt < idx then pure (.idx, .null, .null)
  else do
    match ← attempt (hptField idx) with
    | none => halt .abort
    | some hf => pure (.ok, hf.nam, hf.val)

end Cashpack
