import Cashpack.Codec.Dec
import Cashpack.Huffman.Tables

/-!
# Huffman strings (`hpack_huf.c`)

Decoding walks the generated tables with a 16-bit window of `blen` bits, aligned left; encoding
gives the octets of a string and their number.
-/

namespace Cashpack

open Prog

/-- The end of a turn of `hph_decode_lookup` at the entry `oct`: write the character if one is
complete.  It returns the value given to `*eos`. -/
def hphDecodeChr (oct : HphOct) : Cp Bool :=
  match oct.nxt with
  | none => do
    hpdPutc (UInt8.ofNat oct.chr)
    modify fun hp => { hp with state.str.dec := some hphDec0 }
    pure false
  | some _ => pure true

/-- The loop of `hph_decode_lookup`.  It returns the last value given to `*eos`. -/
def hphDecodeLookupLoop : ℕ → Bool → Cp Bool
  | 0, _ => halt .spin
  | fuel + 1, eos => do
    let hp ← get
    let hs := hp.state.str
    match hs.dec with
    | none => halt .fault
    | some name =>
      let dec := hphDec name
      if (dec.oct.headD ⟨0, 0, none⟩).len ≤ hs.blen then do
        let cod := hs.bits >>> (16 - dec.len) &&& 0xff
        match dec.oct[cod]? with
        | none => halt .fault
        | some oct =>
          -- premature EOS
          expect .huf (0 < oct.len)
          if hs.blen < oct.len then pure eos
          else do
            modify fun hp => { hp with state.str.dec := oct.nxt }
            let eos ← hphDecodeChr oct
            modify fun hp => { hp with
              state.str.blen := hs.blen - oct.len
              state.str.bits := hs.bits <<< oct.len % 65536 }
            hphDecodeLookupLoop fuel eos
      else pure eos

/-- `hph_decode_lookup`. -/
def hphDecodeLookup (eos : Bool) : Cp Bool := do
  let hp ← get
  assert (8 ≤ hp.state.str.blen)
  hphDecodeLookupLoop 17 eos

/-- The loop of `HPH_decode`: the first argument is `hs->stt.str.len`, the second the number of
its octets that are in the block. -/
def hphDecodeLoop : ℕ → ℕ → Bool → Cp Bool
  | 0, _, eos => pure eos
  | strLen + 1, len, eos => do
    expect .buf (0 < len)
    let hp ← get
    assert (hp.state.str.blen < 8)
    match hp.ctx.blk with
    | [] => halt .fault
    | b :: blk => do
      modify fun hp => { hp with
        state.str.bits := hp.state.str.bits ||| b.toNat <<< (8 - hp.state.str.blen)
        state.str.blen := hp.state.str.blen + 8
        state.str.len := strLen
        ctx.blk := blk }
      let eos ← hphDecodeLookup eos
      hphDecodeLoop strLen (len - 1) eos

/-- The check of `HPH_decode` on the bits that are left. -/
def hphDecodePad : Cp Unit := do
  let hp ← get
  if 0 < hp.state.str.blen then do
    assert (hp.state.str.blen < 8)
    expect .huf (hp.state.str.bits = 0xffff <<< (16 - hp.state.str.blen) % 65536)
  else assert (hp.state.str.bits = 0)

/-- `HPH_decode`. -/
def hphDecode (len : ℕ) : Cp Unit := do
  let hp ← get
  when (hp.state.str.dec = none) (modify fun hp => { hp with state.str.dec := some hphDec0 })
  let eos ← hphDecodeLoop hp.state.str.len (min len hp.ctx.blk.length) false
  -- spurious EOS
  expect .huf (eos = false)
  hphDecodePad
  hpdPutc 0

/-- The inner loop of `HPH_encode`: write the octets that are complete.  It returns them with
the number of bits left. -/
def hphEncodeOctets (bits : ℕ) : ℕ → ℕ → Octets × ℕ
  | 0, sz => ([], sz)
  | fuel + 1, sz =>
    if 8 ≤ sz then
      let (os, sz') := hphEncodeOctets bits fuel (sz - 8)
      (UInt8.ofNat (bits >>> (sz - 8) % 256) :: os, sz')
    else ([], sz)

/-- The outer loop of `HPH_encode`, with its 64-bit accumulator. -/
def hphEncodeLoop : Octets → ℕ → ℕ → Octets
  | [], bits, sz =>
    if 0 < sz then
      let pad := 8 - sz
      [UInt8.ofNat ((bits <<< pad ||| 1 <<< pad - 1) % 256)]
    else []
  | c :: str, bits, sz =>
    let e := hphEnc c
    let bits := bits <<< e.len % 2 ^ 64 ||| e.cod
    let (os, sz) := hphEncodeOctets bits 8 (sz + e.len)
    os ++ hphEncodeLoop str bits sz

/-- `HPH_encode`: the octets written for a string. -/
def hphEncode (str : Octets) : Octets := hphEncodeLoop str 0 0

/-- `HPH_size`. -/
def hphSize (str : Octets) : ℕ := (str.foldl (fun sz c => sz + (hphEnc c).len) 7) >>> 3

end Cashpack
