import Cashpack.Decoder.Strings
import Cashpack.Huffman.Decode

/-!
# The wire format

What a block of octets means, apart from the functions that write it and read it: `Rep.Wire` gives
the octets of a representation, with any coding of its integers and strings, and `Peer.Step` what
the representation does to someone who has a dynamic table.

## Main definitions

* `IntWire`, `StrWire`, `Rep.Wire` : the octets of integers, strings and representations.
* `Peer` : the tables and the sizes of one end.
* `Peer.Step` : the events and the header field of a representation, and what becomes of the
  tables.
* `Peer.Block` : the meaning of octets that are representations, one after the other.
-/

namespace Cashpack

open Fifo Bits

variable {os os' : Octets} {off : ℕ}

/-! ### Octets -/

/-- The octet is the pattern, with some prefix. -/
def Hpp.Leads (p : Hpp) (b : UInt8) : Prop := b.toNat = p.pat.toNat + b.toNat % 2 ^ p.pfx

instance (p : Hpp) (b : UInt8) : Decidable (p.Leads b) := inferInstanceAs (Decidable (_ = _))

/-- These octets are the integer `n`, after the pattern of `p`. -/
structure IntWire (p : Hpp) (n : ℕ) (os : Octets) : Prop where
  value : PrefixInt.read p.pfx os = some (n, [])
  pattern : ∀ b ∈ os.head?, p.Leads b
  small : n ≤ uint16Max
  /-- The octets are counted on 8 bits. -/
  short : os.length < 256

/-- These octets are the string `s`. -/
inductive StrWire (s : Octets) : Octets → Prop
  | raw {len : Octets} (hlen : IntWire .str s.length len) : StrWire s (len ++ s)
  | huf {len x : Octets} (hlen : IntWire .huf x.length len) (hx : Spells (ofOctets x) s) :
    StrWire s (len ++ x)

/-- What a literal field does to the dynamic table. -/
inductive Lit
  | dyn | lit | nvr
deriving DecidableEq, Repr

/-- Its pattern and prefix. -/
def Lit.hpp : Lit → Hpp
  | .dyn => .dyn
  | .lit => .lit
  | .nvr => .nvr

/-- The name of a literal field. -/
inductive NameRef
  | index (i : ℕ)
  | literal (s : Octets)
deriving DecidableEq, Repr

/-- A representation. -/
inductive Rep
  | indexed (i : ℕ)
  | literal (t : Lit) (nam : NameRef) (val : Octets)
  | update (n : ℕ)
deriving DecidableEq, Repr

/-- The index that stands for the name, `0` for a name that is spelled out. -/
def NameRef.idx : NameRef → ℕ
  | .index i => i
  | .literal _ => 0

/-- These octets are the name, after its index. -/
inductive NameRef.Spelled : NameRef → Octets → Prop
  | index {i : ℕ} (hi : i ≠ 0) : Spelled (.index i) []
  | literal {nam ns : Octets} (h : StrWire nam ns) : Spelled (.literal nam) ns

/-- These octets are the representation. -/
inductive Rep.Wire : Rep → Octets → Prop
  | indexed {i : ℕ} {os : Octets} (h : IntWire .idx i os) : Wire (.indexed i) os
  | literal {t : Lit} {nam : NameRef} {val os ns vs : Octets} (h : IntWire t.hpp nam.idx os)
    (hn : nam.Spelled ns) (hv : StrWire val vs) : Wire (.literal t nam val) (os ++ (ns ++ vs))
  | update {n : ℕ} {os : Octets} (h : IntWire .upd n os) : Wire (.update n) os

/-- The pattern of a representation. -/
def Rep.hpp : Rep → Hpp
  | .indexed _ => .idx
  | .literal t _ _ => t.hpp
  | .update _ => .upd

variable {p : Hpp} {n : ℕ} {r : Rep} {rest : Octets}

theorem IntWire.ne_nil (h : IntWire p n os) : os ≠ [] := by
  rintro rfl
  cases h.value

/-- The first octet of the integer, followed by anything. -/
theorem IntWire.leads (h : IntWire p n os) (rest : Octets) : p.Leads ((os ++ rest).headD 0) := by
  cases os with
  | nil => exact absurd rfl h.ne_nil
  | cons b cs => exact h.pattern b rfl

theorem Rep.Wire.ne_nil (h : r.Wire os) : os ≠ [] := by
  cases h with
  | indexed h => exact h.ne_nil
  | literal h _ _ => exact fun hc => h.ne_nil (List.append_eq_nil_iff.1 hc).1
  | update h => exact h.ne_nil

/-- The first octet of a representation tells which one it is. -/
theorem Rep.Wire.leads (h : r.Wire os) (rest : Octets) : r.hpp.Leads ((os ++ rest).headD 0) := by
  cases h with
  | indexed h => exact h.leads rest
  | literal h _ _ =>
    rw [List.append_assoc]
    exact h.leads _
  | update h => exact h.leads rest

/-! ### Meaning -/

/-- A header field. -/
structure Header where
  nam : Octets
  val : Octets
deriving DecidableEq

/-- The field in the working buffer of a decoder. -/
def Header.octets (h : Header) : Octets := h.nam ++ [0] ++ (h.val ++ [0])

/-- The fields in the working buffer of a decoder, one after the other. -/
def headerOctets (hs : List Header) : Octets := hs.flatMap Header.octets

/-- The field of an entry. -/
def Entry.field (e : Entry) : Header := ⟨e.nam, e.val⟩

/-- One end of a connection. -/
structure Peer where
  /-- The dynamic table, the newest entry first. -/
  entries : List Entry
  /-- The largest limit that may be chosen. -/
  max : ℕ
  /-- The limit of the dynamic table. -/
  limit : ℕ
  /-- The smallest and the last of the maxima chosen since the last block, not signalled yet. -/
  resize : Option (ℕ × ℕ)
  /-- A size update may come next. -/
  canUpd : Bool

namespace Peer

/-- The field at this index of the tables. -/
def lookup (p : Peer) (i : ℕ) : Option Header :=
  if i = 0 then none
  else if i ≤ hpackStatic then hptStatic[i - 1]?.map fun e => ⟨e.nam, e.val⟩
  else p.entries[i - hpackStatic - 1]?.map Entry.field

/-- The name of a literal field. -/
def name (p : Peer) : NameRef → Option Octets
  | .index i => (p.lookup i).map Header.nam
  | .literal s => some s

/-- No update may follow. -/
def started (p : Peer) : Peer := { p with canUpd := false }

/-- A block may start with an update. -/
def opened (p : Peer) : Peer := { p with canUpd := true }

/-- The dynamic table once the entry is inserted. -/
def insert (p : Peer) (e : Entry) : Peer :=
  { p with entries := fit Entry.size p.limit (e :: p.entries) }

/-- The dynamic table under another limit. -/
def limitTo (p : Peer) (n : ℕ) : Peer :=
  { p with entries := fit Entry.size n p.entries, limit := n }

/-- What an update does, if it is acceptable. -/
inductive Update (p : Peer) (n : ℕ) : Peer → Prop
  /-- No resize has to be signalled. -/
  | limit (h : p.resize = none) (hn : n ≤ p.max) : Update p n (p.limitTo n).started
  /-- The smallest size comes first. -/
  | smallest {last : ℕ} (h : p.resize = some (n, last)) (hlt : n < last) (hn : n ≤ p.max) :
    Update p n { p.limitTo n with resize := some (last, last) }
  /-- The last size, or less, ends the resize. -/
  | last {last : ℕ} (h : p.resize = some (last, last)) (hn : n ≤ last) :
    Update p n { (p.limitTo n).started with max := last, resize := none }

/-- What a representation that starts at offset `off` of its block means: the events of the
codec, the header field if it is one, and the tables after it. -/
inductive Step (off : ℕ) (p : Peer) : Rep → List Event → List Header → Peer → Prop
  | indexed {i : ℕ} {h : Header} (settled : p.resize = none) (found : p.lookup i = some h) :
    Step off p (.indexed i) [.field (some off) i, .name h.nam, .value h.val] [h] p.started
  | literal {nam : NameRef} {h : Header} (settled : p.resize = none)
    (name : p.name nam = some h.nam) (valid : ValidName h.nam ∧ ValidValue h.val) :
    Step off p (.literal .lit nam h.val) [.field (some off) 0, .name h.nam, .value h.val] [h]
      p.started
  | never {nam : NameRef} {h : Header} (settled : p.resize = none)
    (name : p.name nam = some h.nam) (valid : ValidName h.nam ∧ ValidValue h.val) :
    Step off p (.literal .nvr nam h.val)
      [.field (some off) 0, .never, .name h.nam, .value h.val] [h] p.started
  | dynamic {nam : NameRef} {e : Entry} (settled : p.resize = none)
    (name : p.name nam = some e.nam) (valid : e.Valid) :
    Step off p (.literal .dyn nam e.val)
      ([.field (some off) 0, .name e.nam, .value e.val] ++ insertEvents p.limit p.entries e)
      [e.field] (p.insert e).started
  | update {n : ℕ} {p' : Peer} (allowed : p.canUpd = true) (h : p.Update n p') :
    Step off p (.update n)
      (evictEvents (p.entries.length - (fit Entry.size n p.entries).length) ++ [.table n]) [] p'

/-- The meaning of octets that are representations: their events, their header fields and the
tables after them. -/
inductive Block : ℕ → Peer → Octets → List Event → List Header → Peer → Prop
  | nil (off : ℕ) (p : Peer) : Block off p [] [] [] p
  | cons {off : ℕ} {p p' p'' : Peer} {r : Rep} {os os' : Octets} {evts evts' : List Event}
    {hs hs' : List Header} (wire : r.Wire os) (step : p.Step off r evts hs p')
    (tail : Block (off + os.length) p' os' evts' hs' p'') :
    Block off p (os ++ os') (evts ++ evts') (hs ++ hs') p''

variable {p p' p'' : Peer} {evts evts' : List Event} {hs hs' : List Header}

theorem Block.append (h : p.Block off os evts hs p')
    (h' : p'.Block (off + os.length) os' evts' hs' p'') :
    p.Block off (os ++ os') (evts ++ evts') (hs ++ hs') p'' := by
  induction h with
  | nil => exact h'
  | cons wire step _ ih =>
    rw [List.length_append, ← Nat.add_assoc] at h'
    simp only [List.append_assoc]
    exact .cons wire step (ih h')

end Peer

end Cashpack
