import Cashpack.Prog.Basic
import Cashpack.Octets.Basic
import Mathlib.Data.Int.Notation

/-!
# Data structures of the codec

The structures of `hpack_priv.h` and `hpack.h`, under the names the C code gives them.

* A `size_t` is a natural number and an `ssize_t` an integer; the places where the code relies
  on the width of a type say so explicitly.
* A pointer is a `Ptr`: into the working buffer of a decoder, into the memory of the dynamic
  table, or to a string of the caller or of the library.
* The callback of the user is not run: `Ctx.log` records the events it would be given.
* Allocated memory is the list of its octets, `Table.tbl`, so its length is the number of
  octets really allocated for the dynamic table, which `Size.mem` only claims.
-/

namespace Cashpack

/-! ### Results, events and fields -/

/-- `enum hpack_result_e`. -/
inductive Res
  | nam | fld | blk | ok
  | arg | buf | int | idx | len | huf | chr | upd | rsz | oom | bsy | skp | hdr | rea | big
deriving DecidableEq, Repr

/-- The value of a result in C. -/
def Res.val : Res → ℤ
  | .nam => 3 | .fld => 2 | .blk => 1 | .ok => 0
  | .arg => -1 | .buf => -2 | .int => -3 | .idx => -4 | .len => -5 | .huf => -6 | .chr => -7
  | .upd => -8 | .rsz => -9 | .oom => -10 | .bsy => -11 | .skp => -12 | .hdr => -13
  | .rea => -14 | .big => -15

/-- The events given to the callback, each with the arguments that are not constant.
`field buf len`: `buf` is the position in the block of the address passed by a decoder, `none`
for `NULL`.  `name`, `value` and `data` carry the octets their two arguments describe. -/
inductive Event
  | field (buf : Option ℤ) (len : ℕ)
  | never
  | index (len : ℕ)
  | name (s : Octets)
  | value (s : Octets)
  | data (s : Octets)
  | evict (len : ℕ)
  | table (len : ℕ)
deriving DecidableEq, Repr

/-- A null-terminated string, without its terminator. -/
structure CStr where
  bytes : Octets
  /-- The first null octet is the terminator. -/
  noNul : 0 ∉ bytes
deriving DecidableEq

/-- `struct hpack_field`: `flg` is kept bit by bit, `ext` being the bits no flag names. -/
structure Field where
  typIdx : Bool
  typDyn : Bool
  typLit : Bool
  typNvr : Bool
  namIdxF : Bool
  namHuf : Bool
  valHuf : Bool
  autIdx : Bool
  ext : ℕ
  idx : UInt16
  namIdx : UInt16
  nam : Option CStr
  val : Option CStr
deriving DecidableEq

/-! ### Memory -/

/-- What `malloc` or `realloc` hands back: an address, and the octets found there where
nothing was copied. -/
structure Block where
  addr : ℕ
  junk : ℕ → UInt8

/-- Pointers to characters. -/
inductive Ptr
  | null
  /-- Into the working buffer of a decoder, at this offset from `Ctx.org`. -/
  | out (off : ℕ)
  /-- Into the memory of the dynamic table. -/
  | tbl (off : ℕ)
  /-- To a string outside the codec. -/
  | str (s : Octets)
  /-- `hpack_unknown_name`. -/
  | unknownName
  /-- `hpack_unknown_value`. -/
  | unknownValue
deriving DecidableEq

/-- `struct hpt_field`. -/
structure HptField where
  nam : Ptr
  val : Ptr
  namSz : ℕ
  valSz : ℕ
  idx : ℕ
deriving DecidableEq

/-! ### The codec -/

/-- `struct hpack_size`. -/
structure Size where
  /-- The table size currently allocated. -/
  mem : ℕ
  /-- The maximum decided by the decoder. -/
  max : ℕ
  /-- The soft limit chosen by the encoder. -/
  lim : ℤ
  /-- A limit to be applied when the next block is encoded. -/
  cap : ℤ
  /-- The current length of the table. -/
  len : ℕ
  /-- The last resize not signalled yet. -/
  nxt : ℤ
  /-- The smallest resize not signalled yet. -/
  min : ℤ
deriving DecidableEq, Repr

/-- `HPACK_LIMIT`. -/
def Size.limit (sz : Size) : ℕ := if 0 ≤ sz.lim then sz.lim.toNat else sz.max

/-- The part of `struct hpack` that makes up the dynamic table. -/
structure Table where
  sz : Size
  /-- Number of entries in the table. -/
  cnt : ℕ
  /-- The memory of the table. -/
  tbl : Octets
deriving DecidableEq

/-- `enum hpack_step_e`. -/
inductive Step
  | fldInt | namLen | namStr | valLen | valStr
deriving DecidableEq, Repr

/-- The `magic` of `struct hpack_state`: which member of the union is in use. -/
inductive StMagic
  | none | int | str | huf
deriving DecidableEq, Repr

/-- `struct hpack_int_state`. -/
structure IntState where
  v : ℕ
  m : ℕ
  l : ℕ
deriving DecidableEq, Repr

/-- The name of a generated Huffman decoding table: the bits of the `pfx` in its identifier,
with the number of octets that lead to it. -/
abbrev DecName := ℕ × List Bool

/-- `struct hpack_str_state`; `oct` is always the table of `dec` and is not kept apart. -/
structure StrState where
  dec : Option DecName
  len : ℕ
  bits : ℕ
  blen : ℕ
deriving DecidableEq, Repr

/-- `struct hpack_state`.  The members of the union are kept apart: each is set before it is
read, every time `magic` changes. -/
structure State where
  magic : StMagic
  stp : Step
  bsy : Bool
  idx : ℕ
  typ : UInt8
  hpi : IntState
  str : StrState
deriving DecidableEq

/-- The name and value being assembled: the member `fld` of `struct hpack_ctx`. -/
structure Fld where
  nam : Ptr
  val : Ptr
  namSz : ℕ
  valSz : ℕ
deriving DecidableEq

/-- What the codec reads of `struct hpack_decoding` or `struct hpack_encoding` through
`ctx->arg`. -/
structure Arg where
  buf : ℕ
  bufLen : ℕ
  blkLen : ℕ
deriving DecidableEq, Repr

/-- `struct hpack_ctx`.  The octets left to decode are `blk` (`ptr.blk` and `ptr_len`), those
waiting in the buffer of an encoder are `cur` (`ptr.cur` and `ptr_len`).  The working buffer
of a decoder holds `out` from the address `org` on, so that `ctx->buf` is `org + out.length`;
`bufLen` octets are left after it. -/
structure Ctx where
  /-- The codec this context belongs to. -/
  hp : ℕ
  arg : Arg
  blk : Octets
  cur : Octets
  org : ℕ
  out : Octets
  bufLen : ℕ
  fld : Fld
  res : Res
  /-- `HPACK_CTX_CAN_UPD`. -/
  canUpd : Bool
  /-- `HPACK_CTX_TOO_BIG`. -/
  tooBig : Bool
  /-- The events notified so far. -/
  log : List Event
deriving DecidableEq

/-- The `magic` of `struct hpack`. -/
inductive Magic
  | encoder | decoder | defunct
deriving DecidableEq, Repr

/-- `struct hpack`, with the address it lives at. -/
structure Hpack extends Table where
  addr : ℕ
  magic : Magic
  /-- `HPD_FLG_MON`. -/
  mon : Bool
  /-- Whether the allocator has a `realloc` function. -/
  realloc : Bool
  state : State
  ctx : Ctx
deriving DecidableEq

/-- `struct hpack_decoding`.  A `NULL` or empty block is `[]`, a `NULL` buffer is at address
`0`, and `cb` tells whether there is a callback. -/
structure Decoding where
  blk : Octets
  buf : ℕ
  bufLen : ℕ
  cb : Bool
  cut : Bool
deriving DecidableEq

/-- `struct hpack_encoding`, with the same conventions. -/
structure Encoding where
  fld : List Field
  buf : ℕ
  bufLen : ℕ
  cb : Bool
  cut : Bool
deriving DecidableEq

/-! ### Constants -/

/-- `HPACK_STATIC`: the number of entries of the static table. -/
def hpackStatic : ℕ := 61

/-- `HPACK_OVERHEAD`: the size of an entry besides its strings. -/
def hpackOverhead : ℕ := 32

/-- `UINT16_MAX`. -/
def uint16Max : ℕ := 65535

/-- A `size_t` read as an `ssize_t`. -/
def toSsize (n : ℕ) : ℤ := if n < 2 ^ 63 then n else n - 2 ^ 64

/-- Subtraction of two `size_t`, which wraps around. -/
def subSize (a b : ℕ) : ℕ := if b ≤ a then a - b else a + 2 ^ 64 - b

theorem subSize_eq {a b : ℕ} (h : b ≤ a) : subSize a b = a - b := if_pos h

/-- The ASCII octets of a literal. -/
def ascii (s : String) : Octets := s.toList.map fun c => UInt8.ofNat c.toNat

/-! ### Running a codec -/

/-- A function of the library that reads and writes the codec. -/
abbrev Cp := Prog Hpack

/-- Set `ctx->res` and return an error. -/
def failWith {α : Type} (r : Res) : Cp α := fun hp => .err { hp with ctx.res := r }

/-- `EXPECT(ctx, err, cond)`. -/
def expect (r : Res) (c : Prop) [Decidable c] : Cp Unit :=
  fun hp => if c then .ok () hp else .err { hp with ctx.res := r }

theorem expect_apply (r : Res) (c : Prop) [Decidable c] (hp : Hpack) :
    expect r c hp = if c then .ok () hp else .err { hp with ctx.res := r } := rfl

theorem expect_eq_ok {r : Res} {c : Prop} [Decidable c] {hp hp' : Hpack}
    (h : expect r c hp = .ok () hp') : c ∧ hp' = hp := by
  rw [expect_apply] at h
  by_cases hc : c
  · rw [if_pos hc] at h
    cases h
    exact ⟨hc, rfl⟩
  · rw [if_neg hc] at h
    cases h

theorem expect_bind_eq_ok {α : Type} {r : Res} {c : Prop} [Decidable c] {f : Unit → Cp α}
    {hp hp' : Hpack} {a : α} (h : (expect r c >>= f) hp = .ok a hp') : c ∧ f () hp = .ok a hp' := by
  obtain ⟨_, hp₁, h₁, h⟩ := Prog.bind_eq_ok h
  obtain ⟨hc, hs⟩ := expect_eq_ok h₁
  exact ⟨hc, hs ▸ h⟩

theorem when_expect (c : Prop) [Decidable c] (r : Res) (d : Prop) [Decidable d] :
    Prog.when c (expect r d) = expect r (c → d) := by
  funext hp
  by_cases hc : c <;> simp [Prog.when_apply, expect_apply, hc]

@[simp] theorem failWith_apply {α : Type} (r : Res) (hp : Hpack) :
    (failWith r : Cp α) hp = .err { hp with ctx.res := r } := rfl

/-- `HPC_notify`. -/
def hpcNotify (e : Event) : Cp Unit := fun hp =>
  if hp.ctx.tooBig then
    if hp.magic = .decoder then .ok () hp else .stop .abort
  else .ok () { hp with ctx.log := hp.ctx.log ++ [e] }

/-- Several notifications in a row. -/
def hpcNotifyAll : List Event → Cp Unit
  | [] => pure ()
  | e :: es => do hpcNotify e; hpcNotifyAll es

/-- The codec with another table. -/
def Hpack.withTable (hp : Hpack) (t : Table) : Hpack := { hp with toTable := t }

@[simp] theorem Hpack.withTable_self (hp : Hpack) : hp.withTable hp.toTable = hp := rfl

@[simp] theorem Hpack.withTable_withTable (hp : Hpack) (t t' : Table) :
    (hp.withTable t).withTable t' = hp.withTable t' := rfl

/-- Run a function of the dynamic table on the table of the codec. -/
def onTable {α : Type} (f : Prog Table α) : Cp α := fun hp =>
  match f hp.toTable with
  | .ok a t => .ok a (hp.withTable t)
  | .err t => .err (hp.withTable t)
  | .stop w => .stop w

/-- The octets found at an address, up to the end of the memory it points into. -/
def Hpack.at (hp : Hpack) : Ptr → Option Octets
  | .null => none
  | .out off => some (hp.ctx.out.drop off)
  | .tbl off => some (hp.tbl.drop off)
  | .str s => some (s ++ [0])
  | .unknownName => some (ascii "<unknown name>" ++ [0])
  | .unknownValue => some (ascii "<unknown value>" ++ [0])

/-- The `n` octets at an address, and the octet after them: a string of length `n` and what
should be its terminator. -/
def Hpack.str (hp : Hpack) (p : Ptr) (n : ℕ) : Option (Octets × UInt8) :=
  match hp.at p with
  | none => none
  | some m => match m.drop n with
    | [] => none
    | c :: _ => some (m.take n, c)

/-- Read a string of length `n` and the octet after it. -/
def readStr (p : Ptr) (n : ℕ) : Cp (Octets × UInt8) := fun hp =>
  match hp.str p n with
  | some r => .ok r hp
  | none => .stop .fault

end Cashpack
