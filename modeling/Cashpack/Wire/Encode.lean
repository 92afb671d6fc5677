import Cashpack.Encoder.Page
import Cashpack.Encoder.Length
import Cashpack.Search.Dynamic
import Cashpack.Wire.Lookup

/-!
# Encoding fields

What the encoder writes is a representation of the field it is given: `Field.octets` gives its
octets and `Field.rep` its meaning.  The octets come out as they are when the end of the working
buffer cuts no string of the field, which is what `Field.Whole` says.

## Main results

* `hpackAutoIndex_wire` : the field that is looked up keeps its meaning.
* `hpackEncodeTurn_wire` : a field that is encoded is represented, and the tables of the encoder
  become those of whoever reads the representation.
-/

namespace Cashpack

open Prog Fifo Bits

variable {hp hp' : Hpack} {fld fld' : Field} {evt : StrEvt} {p p' : Peer} {n : ℕ} {s os : Octets}
  {huf : Bool} {h : Header}

/-! ### Integers and strings -/

theorem Hpp.leads_or (p : Hpp) : ∀ k < 2 ^ p.pfx, p.Leads (p.pat ||| UInt8.ofNat k) := by
  cases p <;> decide +kernel

theorem hpiMask_lt (p : Hpp) : hpiMask p.pfx < 2 ^ p.pfx := by
  cases p <;> decide

theorem length_hpiOctetsLoop (fuel val : ℕ) : (hpiOctetsLoop fuel val).length ≤ fuel := by
  induction fuel generalizing val with
  | zero => exact Nat.le_refl 0
  | succ fuel ih =>
    rw [hpiOctetsLoop]
    split
    · exact Nat.succ_le_succ (ih _)
    · exact Nat.succ_le_succ (Nat.zero_le _)

/-- The encoder writes an integer as it has to be read. -/
theorem intWire_hpiOctets (p : Hpp) (hn : n ≤ uint16Max) : IntWire p n (hpiOctets p n) where
  value := by
    have h := read_hpiOctets p hn []
    rwa [List.append_nil] at h
  pattern b hb := by
    have hmask := hpiMask_lt p
    unfold hpiOctets at hb
    split at hb
    · obtain rfl : p.pat ||| UInt8.ofNat n = b := Option.some.inj hb
      exact p.leads_or n (by omega)
    · obtain rfl : p.pat ||| UInt8.ofNat (hpiMask p.pfx) = b := Option.some.inj hb
      exact p.leads_or _ hmask
  small := hn
  short := by
    unfold hpiOctets
    split
    · exact Nat.lt_of_sub_eq_succ rfl
    · have h := length_hpiOctetsLoop 4 (n - hpiMask p.pfx)
      rw [List.length_cons]
      omega

/-- The octets `hpack_encode_string` writes. -/
def strOctets (huf : Bool) (s : Octets) : Octets :=
  if huf then hpiOctets .huf (hphSize s) ++ hphEncode s else hpiOctets .str s.length ++ s

/-- The length of a string once it is coded. -/
def codedLength (huf : Bool) (s : Octets) : ℕ := if huf then hphSize s else s.length

theorem strWire_strOctets (hlen : codedLength huf s ≤ uint16Max) :
    StrWire s (strOctets huf s) := by
  cases huf with
  | false => exact .raw (intWire_hpiOctets .str hlen)
  | true =>
    have hint := intWire_hpiOctets .huf hlen
    rw [codedLength, if_pos rfl, ← length_hphEncode] at hint
    have hw : StrWire s (hpiOctets .huf (hphEncode s).length ++ hphEncode s) :=
      .huf hint (hphEncode_bits s)
    rwa [length_hphEncode] at hw

/-- The end of a working buffer does not cut the string written `n` octets after its start. -/
def Uncut (bufLen n : ℕ) (huf : Bool) (s : Octets) : Prop :=
  huf = true ∨ s.length ≤ bufLen - (n + (hpiOctets .str s.length).length) % bufLen

theorem buffered_putString (ho : hp.Open) (hlen : codedLength huf s ≤ uint16Max)
    (hcut : Uncut hp.ctx.arg.bufLen hp.ctx.cur.length huf s) :
    ∃ hp', putString huf s hp = .ok () hp' ∧ Buffered hp (strOctets huf s) hp' := by
  cases huf with
  | true => exact ((pages_hpiEncode .huf hlen).bind (pages_hpePuts (hphEncode s))) hp ho
  | false =>
    have hle : s.length ≤ uint16Max := hlen
    obtain ⟨hp₁, hrun, hput⟩ := pages_hpiEncode .str hle hp ho
    have hle : s.length ≤ hp₁.ctx.arg.bufLen - hp₁.ctx.cur.length := by
      rw [hput.arg, hput.page]
      exact hcut.resolve_left Bool.false_ne_true
    obtain ⟨hp₂, hrun', hput'⟩ := buffered_hpeBcat (hput.keeps_open ho) hle
    refine ⟨hp₂, ?_, hput.trans hput'⟩
    show (do hpiEncode .str s.length; hpeBcat s : Cp Unit) hp = _
    rw [bind_apply, hrun, Out.bind_ok, hrun']

/-! ### The octets of a field -/

/-- The string of the field, when it has one. -/
def Field.bytes (fld : Field) (evt : StrEvt) : Octets := ((fld.str evt).map CStr.bytes).getD []

/-- How the name of the field is given. -/
def Field.nameRef (fld : Field) : NameRef :=
  if fld.namIdxF then .index fld.namIdx.toNat else .literal (fld.bytes .name)

/-- What the field does to the dynamic table, when it is a literal one. -/
def Field.lit (fld : Field) : Lit :=
  if fld.typDyn then .dyn else if fld.typNvr then .nvr else .lit

/-- The representation the field asks for. -/
def Field.rep (fld : Field) : Rep :=
  if fld.typIdx then .indexed fld.idx.toNat
  else .literal fld.lit fld.nameRef (fld.bytes .value)

/-- The octets of the name, after its index. -/
def Field.nameOctets (fld : Field) : Octets :=
  if fld.namIdxF then [] else strOctets fld.namHuf (fld.bytes .name)

/-- The octets of a literal field. -/
def Field.litOctets (fld : Field) (t : Lit) : Octets :=
  hpiOctets t.hpp fld.nameIndex ++
    (fld.nameOctets ++ strOctets fld.valHuf (fld.bytes .value))

/-- The octets of the field. -/
def Field.octets (fld : Field) : Octets :=
  if fld.typIdx then hpiOctets .idx fld.idx.toNat else fld.litOctets fld.lit

/-- The end of the working buffer does not cut a string of the field, written `n` octets after
its start. -/
structure Field.WholeLit (fld : Field) (t : Lit) (bufLen n : ℕ) : Prop where
  name : fld.namIdxF = false →
    Uncut bufLen (n + (hpiOctets t.hpp fld.nameIndex).length) fld.namHuf (fld.bytes .name)
  value : Uncut bufLen (n + (hpiOctets t.hpp fld.nameIndex).length + fld.nameOctets.length)
    fld.valHuf (fld.bytes .value)

/-- No string of the field is cut. -/
def Field.Whole (fld : Field) (bufLen n : ℕ) : Prop :=
  fld.typIdx = false → fld.WholeLit fld.lit bufLen n

/-- The header field that the field stands for, with these tables. -/
def Field.denotes (fld : Field) (p : Peer) : Option Header :=
  if fld.typIdx then p.lookup fld.idx.toNat
  else (p.name fld.nameRef).map fun nam => ⟨nam, fld.bytes .value⟩

/-! ### Strings -/

/-- The string of a name, or of a value, is valid. -/
def StrEvt.Valid : StrEvt → Octets → Prop
  | .name => ValidName
  | .value => ValidValue

/-- A string that is encoded is valid. -/
theorem hpackEncodeString_valid (hmon : hp.mon = false)
    (h : hpackEncodeString fld evt hp = .ok () hp') : evt.Valid (fld.bytes evt) := by
  obtain ⟨_, hp₁, h₁, h⟩ := bind_eq_ok h
  obtain ⟨str, hp₂, h₂, h⟩ := bind_eq_ok h
  obtain ⟨_, hp₃, h₃, h⟩ := bind_eq_ok h
  obtain ⟨_, hp₄, h₄, -⟩ := bind_eq_ok h
  have hs₁ : hp₁ = hp := by
    rw [when_apply] at h₁
    by_cases hc : evt = .name
    · rw [if_pos hc] at h₁
      exact (assert_eq_ok h₁).2
    · rw [if_neg hc] at h₁
      cases h₁
      rfl
  obtain ⟨t, ht, rfl, rfl⟩ : ∃ t, fld.str evt = some t ∧ str = t.bytes ∧ hp₂ = hp₁ := by
    unfold Field.str
    revert h₂
    cases (if evt = .name then fld.nam else fld.val) with
    | none => intro h₂; cases h₂
    | some t => intro h₂; cases h₂; exact ⟨t, rfl, rfl, rfl⟩
  have hs₃ := expect_same .int (t.bytes.length ≤ uint16Max) hp₂
  rw [h₃] at hs₃
  have hbytes : fld.bytes evt = t.bytes := by rw [Field.bytes, ht]; rfl
  have hmon₃ : hp₃.mon = false := by rw [hs₃.1, hs₁]; exact hmon
  rw [hbytes]
  cases evt with
  | name =>
    have hv := hpvToken_holds (.str t.bytes) t.bytes.length hmon₃
    have h₄' : hpvToken (.str t.bytes) t.bytes.length hp₃ = .ok () hp₄ := h₄
    rw [h₄'] at hv
    obtain ⟨-, s, c, hs, hvalid⟩ := hv
    rw [Hpack.str_str] at hs
    cases hs
    exact hvalid
  | value =>
    have hv := hpvValue_holds (.str t.bytes) t.bytes.length hp₃
    have h₄' : hpvValue (.str t.bytes) t.bytes.length hp₃ = .ok () hp₄ := h₄
    rw [h₄'] at hv
    obtain ⟨-, s, hs, hvalid⟩ := hv
    rw [Hpack.str_str] at hs
    cases hs
    exact hvalid

/-- The coded length of a string that can be described has 16 bits. -/
theorem codedLength_le (hd : fld.Describable evt) {t : CStr} (ht : fld.str evt = some t)
    (hlen : t.bytes.length ≤ uint16Max) : codedLength (fld.huf evt) t.bytes ≤ uint16Max := by
  unfold codedLength
  split
  · rename_i hhuf
    have hbits := hd hhuf t ht
    rw [hphSize_eq]
    show _ ≤ 65535
    omega
  · exact hlen

/-- A string that is encoded is written, if the end of the buffer does not cut it. -/
theorem hpackEncodeString_wire (hmon : hp.mon = false) (ho : hp.Open) (hd : fld.Describable evt)
    (hcut : Uncut hp.ctx.arg.bufLen hp.ctx.cur.length (fld.huf evt) (fld.bytes evt))
    (h : hpackEncodeString fld evt hp = .ok () hp') :
    evt.Valid (fld.bytes evt) ∧ (fld.bytes evt).length ≤ uint16Max ∧
      StrWire (fld.bytes evt) (strOctets (fld.huf evt) (fld.bytes evt)) ∧
      Buffered hp (strOctets (fld.huf evt) (fld.bytes evt)) hp' := by
  have hvalid := hpackEncodeString_valid hmon h
  obtain ⟨t, ht, hlen, hput⟩ := hpackEncodeString_ok h
  have hcoded := codedLength_le hd ht hlen
  have hbytes : t.bytes = fld.bytes evt := by rw [Field.bytes, ht]; rfl
  rw [hbytes] at hlen hput hcoded
  obtain ⟨hp₁, hrun, hputs⟩ := buffered_putString ho hcoded hcut
  obtain rfl : hp₁ = hp' := by
    rw [hrun] at hput
    cases hput
    rfl
  exact ⟨hvalid, hlen, strWire_strOctets hcoded, hputs⟩

theorem Uncut.of_mod {bufLen : ℕ} (h : Uncut bufLen n huf s) : Uncut bufLen (n % bufLen) huf s := by
  unfold Uncut at h ⊢
  rwa [Nat.mod_add_mod]

/-! ### Fields -/

/-- The encoder has the tables of the peer that reads what it sends. -/
structure Hpack.Drives (hp : Hpack) (p : Peer) : Prop extends hp.Mirrors p where
  encoder : hp.magic = .encoder
  plain : hp.mon = false
  small : hp.tbl.length ≤ uint16Max

theorem Hpack.Drives.puts (hd : hp.Drives p) (h : Buffered hp os hp') : hp'.Drives p := by
  rw [h.frame]
  exact ⟨hd.toMirrors.congr rfl hd.own, hd.encoder, hd.plain, hd.small⟩

/-- Only the tables of the peer matter. -/
theorem Hpack.Drives.peer (hd : hp.Drives p) (hent : p'.entries = p.entries)
    (hlim : p'.limit = p.limit) : hp.Drives p' where
  rep := hent ▸ hd.rep
  valid := hent ▸ hd.valid
  own := hd.own
  limit := hlim ▸ hd.limit
  lim_le := hd.lim_le
  encoder := hd.encoder
  plain := hd.plain
  small := hd.small

theorem Hpack.Drives.started (hd : hp.Drives p) : hp.Drives p.started := hd.peer rfl rfl

/-- An index that is not out of range. -/
theorem exists_lookup {i : ℕ} (h0 : 0 < i) (hi : i ≤ p.entries.length + hpackStatic) :
    ∃ h, p.lookup i = some h := by
  unfold Peer.lookup
  rw [if_neg (by omega)]
  split
  · rename_i hs
    have hlen : i - 1 < hptStatic.length := by rw [length_hptStatic]; omega
    exact ⟨_, by rw [List.getElem?_eq_getElem hlen]; rfl⟩
  · have hlen : i - hpackStatic - 1 < p.entries.length := by omega
    exact ⟨_, by rw [List.getElem?_eq_getElem hlen]; rfl⟩

theorem lookup_length {i : ℕ} (found : p.lookup i = some h) :
    h.nam.length ≤ uint16Max ∧ h.val.length ≤ uint16Max := by
  obtain ⟨j, hj, -, e, he, rfl⟩ | ⟨j, hj, -, rfl⟩ := lookup_cases found
  · have hlen := static_length (List.mem_of_getElem? he)
    exact ⟨Nat.le_of_lt_succ hlen.1, Nat.le_of_lt_succ hlen.2.1⟩
  · exact ⟨Entry.nam_le _, Entry.val_le _⟩

theorem Field.nameIndex_le (fld : Field) : fld.nameIndex ≤ uint16Max :=
  Nat.le_of_lt_succ fld.nameIndex_lt

/-- A literal field is written, with its name or the index of its name. -/
theorem hpackEncodeField_wire {t : Lit} (hd : hp.Drives p) (ho : hp.Open)
    (hdesc : ∀ evt, fld.Describable evt)
    (hw : fld.WholeLit t hp.ctx.arg.bufLen hp.ctx.cur.length)
    (h : hpackEncodeField fld t.hpp hp = .ok () hp') :
    ∃ nam, p.name fld.nameRef = some nam ∧ (ValidName nam ∧ nam.length ≤ uint16Max) ∧
      (ValidValue (fld.bytes .value) ∧ (fld.bytes .value).length ≤ uint16Max) ∧
      (Rep.literal t fld.nameRef (fld.bytes .value)).Wire (fld.litOctets t) ∧
      Buffered hp (fld.litOctets t) hp' := by
  have hint := intWire_hpiOctets t.hpp fld.nameIndex_le
  obtain ⟨hp₁, hrun₁, hput₁⟩ := pages_hpiEncode t.hpp fld.nameIndex_le hp ho
  have ho₁ := hput₁.keeps_open ho
  have hd₁ := hd.puts hput₁
  rw [hpackEncodeField, bind_apply, get_apply, Out.bind_ok, when_expect] at h
  obtain ⟨hrange, h⟩ := expect_bind_eq_ok h
  obtain ⟨_, _, hrun, h⟩ := bind_eq_ok h
  rw [show hpiEncode t.hpp (if fld.namIdxF then fld.namIdx.toNat else 0) hp = _ from hrun₁] at hrun
  cases hrun
  obtain ⟨_, hp₂, h₂, h₃⟩ := bind_eq_ok h
  rw [when_apply] at h₂
  -- the value comes after the name, wherever the name is
  have hvalue : ∀ hput₂ : Buffered hp (hpiOctets t.hpp fld.nameIndex ++ fld.nameOctets) hp₂,
      (ValidValue (fld.bytes .value) ∧ (fld.bytes .value).length ≤ uint16Max) ∧
        StrWire (fld.bytes .value) (strOctets fld.valHuf (fld.bytes .value)) ∧
        Buffered hp (fld.litOctets t) hp' := by
    intro hput₂
    have hcut := hw.value.of_mod
    rw [Nat.add_assoc, ← List.length_append, ← hput₂.page, ← hput₂.arg] at hcut
    obtain ⟨hv, hlen, hwire, hput₃⟩ := hpackEncodeString_wire (hd.puts hput₂).plain
      (hput₂.keeps_open ho) (hdesc .value) hcut h₃
    have hput := hput₂.trans hput₃
    rw [List.append_assoc] at hput
    exact ⟨⟨hv, hlen⟩, hwire, hput⟩
  cases hidx : fld.namIdxF with
  | true =>
    have hne : ¬ (if fld.namIdxF = true then fld.namIdx.toNat else 0) = 0 := by
      rw [if_pos hidx]
      exact (hrange hidx).1.ne'
    rw [if_neg hne] at h₂
    cases h₂
    have hnil : fld.nameOctets = [] := by rw [Field.nameOctets, if_pos hidx]
    obtain ⟨hval, hwire, hput⟩ := hvalue (by rw [hnil, List.append_nil]; exact hput₁)
    have href : fld.nameRef = .index fld.namIdx.toNat := by rw [Field.nameRef, if_pos hidx]
    have hname : fld.nameIndex = fld.nameRef.idx := by rw [Field.nameIndex, if_pos hidx, href]; rfl
    obtain ⟨hdr, found⟩ := exists_lookup (p := p) (hrange hidx).1
      (by rw [← hd.rep.cnt]; exact (hrange hidx).2)
    refine ⟨hdr.nam, ?_, ⟨(lookup_valid hd.valid found).1, (lookup_length found).1⟩, hval, ?_, hput⟩
    · rw [href]
      show (p.lookup _).map Header.nam = _
      rw [found]
      rfl
    · unfold Field.litOctets
      rw [hname] at hint ⊢
      refine .literal hint ?_ hwire
      rw [href, hnil]
      exact .index (hrange hidx).1.ne'
  | false =>
    have hzero : (if fld.namIdxF = true then fld.namIdx.toNat else 0) = 0 :=
      if_neg (by rw [hidx]; exact Bool.false_ne_true)
    rw [if_pos hzero] at h₂
    have hcut := (hw.name hidx).of_mod
    rw [← hput₁.page, ← hput₁.arg] at hcut
    obtain ⟨hv, hlen, hwire, hput₂⟩ :=
      hpackEncodeString_wire hd₁.plain ho₁ (hdesc .name) hcut h₂
    have hoct : fld.nameOctets = strOctets fld.namHuf (fld.bytes .name) := by
      rw [Field.nameOctets, if_neg (by rw [hidx]; exact Bool.false_ne_true)]
    obtain ⟨hval, hwire', hput⟩ := hvalue (by rw [hoct]; exact hput₁.trans hput₂)
    have href : fld.nameRef = .literal (fld.bytes .name) := by
      rw [Field.nameRef, if_neg (by rw [hidx]; exact Bool.false_ne_true)]
    have hname : fld.nameIndex = fld.nameRef.idx := by
      rw [href]
      exact hzero
    refine ⟨fld.bytes .name, by rw [href]; rfl, ⟨hv, hlen⟩, hval, ?_, hput⟩
    unfold Field.litOctets
    rw [hname] at hint ⊢
    refine .literal hint ?_ hwire'
    rw [href, hoct]
    exact .literal hwire

/-- An indexed field is written. -/
theorem hpackEncodeIndexed_wire (hd : hp.Drives p) (ho : hp.Open)
    (h : hpackEncodeIndexed fld hp = .ok () hp') :
    ∃ h, p.lookup fld.idx.toNat = some h ∧
      (Rep.indexed fld.idx.toNat).Wire (hpiOctets .idx fld.idx.toNat) ∧
      Buffered hp (hpiOctets .idx fld.idx.toNat) hp' := by
  have hle : fld.idx.toNat ≤ uint16Max := Nat.le_of_lt_succ fld.idx.toNat_lt
  obtain ⟨hp₁, hrun, hput⟩ := pages_hpiEncode .idx hle hp ho
  rw [hpackEncodeIndexed, bind_apply, get_apply, Out.bind_ok] at h
  obtain ⟨hrange, h⟩ := expect_bind_eq_ok h
  rw [hrun] at h
  cases h
  obtain ⟨hdr, found⟩ := exists_lookup (p := p) hrange.1 (by rw [← hd.rep.cnt]; exact hrange.2)
  exact ⟨hdr, found, .indexed (intWire_hpiOctets .idx hle), hput⟩

/-- These octets were sent, and what was done besides was done to the tables. -/
structure Hpack.Emitted (hp : Hpack) (os : Octets) (hp' : Hpack) : Prop where
  frame : hp' = { hp with
    toTable := hp'.toTable, ctx.fld := hp'.ctx.fld, ctx.log := hp'.ctx.log,
    ctx.cur := hp'.ctx.cur, ctx.canUpd := hp'.ctx.canUpd }
  sent : hp'.sent = hp.sent ++ os
  page : hp'.ctx.cur.length = (hp.ctx.cur.length + os.length) % hp.ctx.arg.bufLen

theorem Buffered.emitted (h : Buffered hp os hp') : hp.Emitted os hp' where
  frame := by
    rw [h.frame]
  sent := h.sent
  page := h.page

theorem Hpack.Emitted.refl (ho : hp.Open) : hp.Emitted [] hp := (Buffered.refl ho).emitted

theorem Hpack.Emitted.arg (h : hp.Emitted os hp') : hp'.ctx.arg = hp.ctx.arg := by rw [h.frame]

theorem Hpack.Emitted.trans {os' : Octets} {hp'' : Hpack} (h : hp.Emitted os hp')
    (h' : hp'.Emitted os' hp'') : hp.Emitted (os ++ os') hp'' where
  frame := by
    rw [h'.frame, h.frame]
  sent := by rw [h'.sent, h.sent, List.append_assoc]
  page := by rw [h'.page, h.page, h.arg, Nat.mod_add_mod, List.length_append, Nat.add_assoc]

theorem Hpack.Emitted.keeps_open (h : hp.Emitted os hp') (ho : hp.Open) : hp'.Open where
  room := by
    rw [h.page, h.arg]
    exact Nat.mod_lt _ (Nat.zero_lt_of_lt ho.room)
  fits := by
    rw [h.frame]
    exact ho.fits

/-- Only the entries of the table have changed, not what has to be signalled. -/
structure Hpack.SameSizes (hp hp' : Hpack) : Prop where
  sz : hp'.sz = { hp.sz with len := hp'.sz.len }
  mem : hp'.tbl.length = hp.tbl.length
  canUpd : hp'.ctx.canUpd = hp.ctx.canUpd

theorem Hpack.SameSizes.trans {hp'' : Hpack} (h : hp.SameSizes hp') (h' : hp'.SameSizes hp'') :
    hp.SameSizes hp'' where
  sz := by rw [h'.sz, h.sz]
  mem := h'.mem.trans h.mem
  canUpd := h'.canUpd.trans h.canUpd

theorem Buffered.sameSizes (h : Buffered hp os hp') : hp.SameSizes hp' where
  sz := by rw [h.table]
  mem := by rw [h.table]
  canUpd := by rw [h.frame]

theorem quiet_insertEvents (limit : ℕ) (l : List Entry) (e : Entry) :
    Quiet (insertEvents limit l e) := by
  intro evt hevt
  unfold insertEvents evictEvents at hevt
  rcases List.mem_append.1 hevt with h | h
  · split at h
    · rw [List.mem_singleton.1 h]
      rfl
    · exact absurd h List.not_mem_nil
  · split at h
    · rw [List.mem_singleton.1 h]
      rfl
    · exact absurd h List.not_mem_nil

/-- The name of the entry to insert is a string of the caller or of the library. -/
theorem hpackEncodeDynamicName_eq (hname : p.name fld.nameRef = some s)
    (hstat : fld.namIdxF = true → fld.namIdx.toNat ≤ hpackStatic)
    (h : (if fld.namIdxF then hpackEncodeNamIdx fld else hpackEncodeNam fld) hp = .ok () hp') :
    hp' = { hp with ctx.fld.nam := .str s, ctx.fld.namSz := s.length } := by
  rw [ite_run] at h
  cases hidx : fld.namIdxF with
  | true =>
    rw [Field.nameRef, if_pos hidx] at hname
    obtain ⟨hdr, found, rfl⟩ := Option.map_eq_some_iff.1 hname
    rw [if_pos hidx] at h
    obtain ⟨j, hj, hi, e, he, rfl⟩ | ⟨j, -, hi, -⟩ := lookup_cases found
    · obtain ⟨e', he', hrun⟩ := hptField_static hp hj
      obtain rfl : e = e' := Option.some.inj (he.symm.trans he')
      rw [hpackEncodeNamIdx, bind_apply, attempt_apply, hi, hrun] at h
      exact (Out.ok.inj (assert_bind_eq_ok h).2).2.symm
    · exact absurd (hstat hidx) (by omega)
  | false =>
    have hne : ¬ fld.namIdxF = true := by rw [hidx]; exact Bool.false_ne_true
    rw [Field.nameRef, if_neg hne] at hname
    rw [if_neg hne] at h
    obtain ⟨nam, hp₁, huser, hmod⟩ := bind_eq_ok h
    have hstr : fld.str .name = fld.nam := rfl
    revert huser hname
    unfold Field.bytes
    rw [hstr]
    cases fld.nam with
    | none => exact fun _ huser => by cases huser
    | some t =>
      intro hname huser
      cases huser
      cases hname
      exact (Out.ok.inj hmod).2.symm

/-- A dynamic field is written and inserted, if its name is not the one of an entry that may have
to be evicted. -/
theorem hpackEncodeDynamic_wire (hd : hp.Drives p) (ho : hp.Open)
    (hdesc : ∀ evt, fld.Describable evt)
    (hw : fld.WholeLit .dyn hp.ctx.arg.bufLen hp.ctx.cur.length)
    (hstat : fld.namIdxF = true → fld.namIdx.toNat ≤ hpackStatic)
    (halloc : p.limit ≤ hp.tbl.length) (h : hpackEncodeDynamic fld hp = .ok () hp') :
    ∃ e : Entry, p.name fld.nameRef = some e.nam ∧ e.val = fld.bytes .value ∧ e.Valid ∧
      (Rep.literal .dyn fld.nameRef (fld.bytes .value)).Wire (fld.litOctets .dyn) ∧
      hp.Emitted (fld.litOctets .dyn) hp' ∧ hp.SameSizes hp' ∧ hp'.Drives (p.insert e) := by
  obtain ⟨_, hp₁, h₁, hrest⟩ := bind_eq_ok h
  obtain ⟨_, hp₂, h₂, hrest⟩ := bind_eq_ok hrest
  obtain ⟨val, hp₃, h₃, hins⟩ := bind_eq_ok hrest
  obtain ⟨nam, hname, ⟨hvn, hnle⟩, ⟨hvv, hvle⟩, hwire, hput⟩ :=
    hpackEncodeField_wire (t := .dyn) hd ho hdesc hw h₁
  have hd₁ := hd.puts hput
  obtain ⟨rfl, rfl⟩ : val = fld.bytes .value ∧ hp₃ = hp₂ := by
    have hstr : fld.str .value = fld.val := rfl
    unfold Field.bytes
    rw [hstr]
    revert h₃
    cases fld.val with
    | none => intro h₃; cases h₃
    | some t => intro h₃; cases h₃; exact ⟨rfl, rfl⟩
  rw [hpackEncodeDynamicName_eq hname hstat h₂, bind_apply, modify_apply, Out.bind_ok] at hins
  -- the entry, and the encoder that is about to insert it
  let e : Entry := ⟨nam, fld.bytes .value, hvn.pos, hnle, hvle⟩
  let hp₄ : Hpack := { hp₁ with
    ctx.fld := ⟨.str e.nam, .str e.val, e.nam.length, e.val.length⟩ }
  have hfits : hp₄.ctx.tooBig = false := (hput.keeps_open ho).fits
  have hf : hp₄.FldIs e := ⟨fun _ => Ptr.noConfusion, fun _ => Ptr.noConfusion, rfl, rfl,
    Hpack.str_str _ _, Hpack.str_str _ _⟩
  have hmir : hp₄.Mirrors p := hd₁.toMirrors.congr rfl hd₁.own
  have halloc₄ : p.limit ≤ hp₄.tbl.length := halloc.trans_eq hput.sameSizes.mem.symm
  obtain ⟨t, hrun, hmir', hlen, hsz⟩ := hptIndex_wire hmir hf ⟨hvn, hvv⟩ (Or.inl hfits) halloc₄
  have hrun' : hptIndex hp₄ = .ok () hp' := hins
  rw [hrun] at hrun'
  cases hrun'
  -- the events of the insertion send no octet
  have ho₄ : (hp₄.withTable t).Open := ⟨(hput.keeps_open ho).room, hfits⟩
  have hnot := Buffered.notify ho₄ _ (quiet_insertEvents p.limit p.entries e)
  refine ⟨e, hname, rfl, ⟨hvn, hvv⟩, hwire, ⟨?_, ?_, hput.page⟩, ⟨?_, ?_, ?_⟩,
    ⟨?_, hd₁.encoder, hd₁.plain, ?_⟩⟩
  · show (hp₄.withTable t).notify _ = _
    unfold Hpack.notify Hpack.withTable
    rw [show hp₄ = { hp₁ with ctx.fld := hp₄.ctx.fld } from rfl, hput.frame]
  · rw [hnot.sent, List.append_nil]
    exact hput.sent
  · have hsame : hp₄.sz = hp.sz := congrArg Table.sz hput.table
    rw [hsame] at hsz
    exact hsz
  · exact hlen.trans hput.sameSizes.mem
  · exact hput.sameSizes.canUpd
  · exact hmir'.congr rfl hmir'.own
  · show t.tbl.length ≤ _
    rw [hlen]
    exact hd₁.small

/-! ### Automatic indexing -/

theorem valid_noNul {e : Entry} (h : e.Valid) : e.NoNul := ⟨h.1.noBreak.1, h.2.noBreak.1⟩

theorem lookup_entryAt (p : Peer) (i : ℕ) :
    p.lookup i = (entryAt p.entries i).map fun e => ⟨e.1, e.2⟩ := by
  unfold Peer.lookup entryAt
  by_cases h0 : i = 0
  · rw [if_pos h0, if_pos h0]
    rfl
  rw [if_neg h0, if_neg h0]
  by_cases hi : i ≤ hpackStatic
  · rw [if_pos hi, if_pos hi, Option.map_map]
    rfl
  · rw [if_neg hi, if_neg hi, Option.map_map]
    rfl

/-- The search finds what the peer has at the index. -/
theorem hpackSearch_wire (hd : hp.Drives p) (nam : CStr) (val : Option CStr) :
    ∃ r, hpackSearch (some nam) val hp = .ok r hp ∧
      SearchFound p.entries nam.bytes (val.map CStr.bytes) r := by
  have hnul : ∀ e ∈ p.entries, e.NoNul := fun e he => valid_noNul (hd.valid e he)
  have hsearch : Searchable hp nam.bytes ((val.map CStr.bytes).getD []) := Or.inl hd.own
  obtain ⟨⟨r, idx⟩, hrun, hfound, -⟩ := hptSearch_found hd.rep hnul hd.small hsearch
  refine ⟨(if r = .ok ∧ val = none then .nam else r, idx), ?_, ?_⟩
  · rw [hpackSearch_eq (Or.inr hd.encoder), hrun]
    rfl
  cases val with
  | some v =>
    rw [if_neg fun h => Option.some_ne_none v h.2]
    exact hfound
  | none =>
    have hno : ∀ v, none = some v → ∀ idx, entryAt p.entries idx ≠ some (nam.bytes, v) :=
      fun v hv => absurd hv.symm (Option.some_ne_none v)
    cases hfound with
    | ok _ hat =>
      rw [if_pos ⟨rfl, rfl⟩]
      exact .nam hat hno
    | nam hat _ => exact .nam hat hno
    | idx hno => exact .idx hno

/-- An index that was found has 16 bits. -/
theorem toNat_found (hd : hp.Drives p) {i : ℕ} (found : p.lookup i = some h) :
    (UInt16.ofNat i).toNat = i := by
  have hle := hd.rep.length_le hd.small
  have hi : i < 65536 := by
    obtain ⟨j, hj, rfl, -⟩ | ⟨j, hj, rfl, -⟩ := lookup_cases found
    · have : hpackStatic = 61 := rfl
      omega
    · omega
  rw [UInt16.toNat_ofNat']
  exact Nat.mod_eq_of_lt hi

/-- The field is only rewritten in a way that keeps its meaning. -/
structure Field.Alike (fld fld' : Field) (p : Peer) : Prop where
  denotes : fld'.denotes p = fld.denotes p
  never : fld'.typNvr = fld.typNvr
  str : ∀ evt, fld'.str evt = fld.str evt
  huf : ∀ evt, fld'.huf evt = fld.huf evt

/-- The automatic indexing of a field keeps its meaning. -/
theorem hpackAutoIndex_wire (hd : hp.Drives p)
    (h : hpackAutoIndex fld hp = .ok (fld', false) hp') : hp' = hp ∧ fld.Alike fld' p := by
  rw [hpackAutoIndex, ite_run] at h
  by_cases hgiven : fld.typIdx = true ∨ fld.namIdxF = true
  · rw [if_pos hgiven] at h
    cases h
    exact ⟨rfl, rfl, rfl, fun _ => rfl, fun _ => rfl⟩
  rw [if_neg hgiven] at h
  obtain ⟨htyp, hidx⟩ : fld.typIdx = false ∧ fld.namIdxF = false := by simpa using hgiven
  have hmean : fld.denotes p = some ⟨fld.bytes .name, fld.bytes .value⟩ := by
    rw [Field.denotes, Field.nameRef, htyp, hidx]
    rfl
  obtain ⟨⟨res, idx⟩, hp₁, hs, hres⟩ := bind_eq_ok h
  cases hnam : fld.nam with
  | none =>
    rw [hnam] at hs
    cases hs
    cases hres
  | some nam =>
    have hname : fld.bytes .name = nam.bytes := by
      rw [Field.bytes, show fld.str .name = fld.nam from rfl, hnam]
      rfl
    obtain ⟨r, hrun, hfound⟩ := hpackSearch_wire hd nam (if fld.typNvr then none else fld.val)
    have hs' : hpackSearch (some nam) (if fld.typNvr then none else fld.val) hp
        = .ok (res, idx) hp₁ := hnam ▸ hs
    rw [hrun] at hs'
    cases hs'
    have hlook : ∀ v, entryAt p.entries idx = some (nam.bytes, v) →
        p.lookup (UInt16.ofNat idx).toNat = some ⟨nam.bytes, v⟩ := by
      intro v hat
      have found : p.lookup idx = some ⟨nam.bytes, v⟩ := by rw [lookup_entryAt, hat]; rfl
      rw [toNat_found hd found, found]
    cases hfound with
    | @ok v _ hval hat =>
      obtain ⟨hnvr, hres⟩ := assert_bind_eq_ok hres
      cases hres
      refine ⟨rfl, ?_, hnvr.symm, fun _ => rfl, fun _ => rfl⟩
      have hv : fld.bytes .value = v := by
        rw [Field.bytes, show fld.str .value = (if fld.typNvr then none else fld.val) from
          (if_neg (by rw [show fld.typNvr = false from hnvr]; exact Bool.false_ne_true)).symm, hval]
        rfl
      rw [hmean, hname, hv, ← hlook _ hat]
      rfl
    | nam hat _ =>
      cases hres
      refine ⟨rfl, ?_, rfl, fun _ => rfl, fun _ => rfl⟩
      rw [hmean, hname, Field.denotes, Field.nameRef,
        if_neg (by rw [htyp]; exact Bool.false_ne_true), if_pos rfl]
      show ((p.lookup _).map Header.nam).map _ = _
      rw [hlook _ hat]
      rfl
    | idx _ =>
      cases hres
      refine ⟨rfl, ?_, rfl, fun _ => rfl, fun _ => rfl⟩
      rw [hmean, Field.denotes, Field.nameRef, if_neg (by rw [htyp]; exact Bool.false_ne_true),
        if_neg (by rw [hidx]; exact Bool.false_ne_true)]
      rfl

/-! ### A turn of the loop -/

/-- The events that tell what a header field is. -/
def Event.tells : Event → Bool
  | .never | .name _ | .value _ => true
  | _ => false

/-- What is told of a header field. -/
def Header.told (never : Bool) (h : Header) : List Event :=
  (if never then [.never] else []) ++ [.name h.nam, .value h.val]

/-- What these octets mean to the peer that reads them: each field denotes its header, for the
tables as they are when the field is encoded, and no event tells anything else. -/
inductive Peer.Encodes : ℕ → Peer → List Field → Octets → List Event → List Header → Peer → Prop
  | nil (off : ℕ) (p : Peer) : Encodes off p [] [] [] [] p
  | update {off n : ℕ} {p p' p'' : Peer} {flds : List Field} {os os' : Octets}
    {evts evts' : List Event} {hs : List Header} (wire : (Rep.update n).Wire os)
    (step : p.Step off (.update n) evts [] p')
    (tail : Encodes (off + os.length) p' flds os' evts' hs p'') :
    Encodes off p flds (os ++ os') (evts ++ evts') hs p''
  | field {off : ℕ} {p p' p'' : Peer} {fld : Field} {r : Rep} {h : Header} {flds : List Field}
    {os os' : Octets} {evts evts' : List Event} {hs : List Header} (wire : r.Wire os)
    (denotes : fld.denotes p = some h) (step : p.Step off r evts [h] p')
    (told : evts.filter Event.tells = h.told fld.typNvr)
    (tail : Encodes (off + os.length) p' flds os' evts' hs p'') :
    Encodes off p (fld :: flds) (os ++ os') (evts ++ evts') (h :: hs) p''

namespace Peer.Encodes

variable {off : ℕ} {p'' : Peer} {flds flds' : List Field} {os' : Octets} {evts evts' : List Event}
  {hs hs' : List Header}

theorem append (h : p.Encodes off flds os evts hs p')
    (h' : p'.Encodes (off + os.length) flds' os' evts' hs' p'') :
    p.Encodes off (flds ++ flds') (os ++ os') (evts ++ evts') (hs ++ hs') p'' := by
  induction h with
  | nil => exact h'
  | update wire step _ ih =>
    rw [List.length_append, ← Nat.add_assoc] at h'
    simp only [List.append_assoc]
    exact .update wire step (ih h')
  | field wire denotes step told _ ih =>
    rw [List.length_append, ← Nat.add_assoc] at h'
    simp only [List.append_assoc]
    exact .field wire denotes step told (ih h')

/-- Such octets are a block of the format. -/
theorem block (h : p.Encodes off flds os evts hs p') : p.Block off os evts hs p' := by
  induction h with
  | nil off p => exact .nil off p
  | update wire step _ ih => exact .cons wire step ih
  | field wire _ step _ _ ih => exact .cons wire step ih

/-- What is told of the fields, in their order. -/
theorem told (h : p.Encodes off flds os evts hs p') : flds.length = hs.length ∧
    evts.filter Event.tells = (flds.zip hs).flatMap fun x => x.2.told x.1.typNvr := by
  induction h with
  | nil => exact ⟨rfl, rfl⟩
  | update _ step _ ih =>
    refine ⟨ih.1, ?_⟩
    cases step with
    | update _ _ =>
      rw [List.filter_append, ih.2, List.filter_append]
      unfold evictEvents
      split <;> rfl
  | field _ _ _ told _ ih =>
    refine ⟨congrArg Nat.succ ih.1, ?_⟩
    rw [List.filter_append, ih.2, told]
    rfl

/-- Fields whose strings are given denote these. -/
theorem literal (h : p.Encodes off flds os evts hs p')
    (hlit : ∀ fld ∈ flds, fld.typIdx = false ∧ fld.namIdxF = false) :
    hs = flds.map fun fld => ⟨fld.bytes .name, fld.bytes .value⟩ := by
  induction h with
  | nil => rfl
  | update _ _ _ ih => exact ih hlit
  | @field off p p' p'' fld r h flds os os' evts evts' hs _ denotes _ _ _ ih =>
    obtain ⟨htyp, hidx⟩ := hlit fld List.mem_cons_self
    rw [Field.denotes, htyp, if_neg Bool.false_ne_true, Field.nameRef, hidx,
      if_neg Bool.false_ne_true] at denotes
    rw [List.map_cons, ← ih fun f hf => hlit f (List.mem_cons_of_mem _ hf)]
    cases denotes
    rfl

end Peer.Encodes

theorem tells_insertEvents (limit : ℕ) (l : List Entry) (e : Entry) :
    (insertEvents limit l e).filter Event.tells = [] := by
  unfold insertEvents evictEvents
  split <;> split <;> rfl

theorem hpackEncodeAny_eq_some {enc : Cp Unit} (h : hpackEncodeAny fld = some enc) :
    (fld.typIdx = true ∧ fld.typNvr = false ∧ enc = hpackEncodeIndexed fld) ∨
    (fld.typIdx = false ∧ fld.typDyn = true ∧ fld.typNvr = false ∧ enc = hpackEncodeDynamic fld) ∨
    (fld.typIdx = false ∧ fld.typDyn = false ∧
      enc = hpackEncodeField fld (if fld.typNvr then .nvr else .lit)) := by
  obtain ⟨i, d, l, n, _⟩ := fld
  cases i <;> cases d <;> cases l <;> cases n <;> simp_all [hpackEncodeAny, hpackEncodeLiteral,
    hpackEncodeNever]

/-- No resize has to be signalled, and the sizes are those of another peer. -/
structure Peer.Settled (p' p : Peer) : Prop where
  resize : p'.resize = none
  max : p'.max = p.max
  limit : p'.limit = p.limit

theorem Peer.Settled.trans {p'' : Peer} (h' : p''.Settled p') (h : p'.Settled p) :
    p''.Settled p :=
  ⟨h'.resize, h'.max.trans h.max, h'.limit.trans h.limit⟩

/-- What a field that was encoded leaves: its octets, and the tables that their reader has. -/
structure Hpack.Encoded (hp : Hpack) (p : Peer) (fld : Field) (hp' : Hpack) : Prop where
  emitted : hp.Emitted fld.octets hp'
  sizes : hp.SameSizes hp'
  wire : fld.rep.Wire fld.octets
  step : ∃ h p', fld.denotes p = some h ∧ hp'.Drives p' ∧ p'.Settled p ∧
    ∀ off, ∃ evts, p.Step off fld.rep evts [h] p' ∧
      evts.filter Event.tells = h.told fld.typNvr

/-- No borrowed name of a field to insert may have to be evicted. -/
def Field.Static (fld : Field) : Prop :=
  fld.typDyn = true → fld.namIdxF = true → fld.namIdx.toNat ≤ hpackStatic

theorem hpackEncodeAny_wire {enc : Cp Unit} (hany : hpackEncodeAny fld = some enc)
    (hd : hp.Drives p) (hset : p.resize = none) (ho : hp.Open)
    (hdesc : ∀ evt, fld.Describable evt) (hw : fld.Whole hp.ctx.arg.bufLen hp.ctx.cur.length)
    (hstat : fld.Static) (halloc : p.limit ≤ hp.tbl.length) (h : enc hp = .ok () hp') :
    hp.Encoded p fld hp' := by
  obtain ⟨htyp, hnvr, rfl⟩ | ⟨htyp, hdyn, hnvr, rfl⟩ | ⟨htyp, hdyn, rfl⟩ :=
    hpackEncodeAny_eq_some hany
  · obtain ⟨hdr, found, hwire, hput⟩ := hpackEncodeIndexed_wire hd ho h
    have hrep : fld.rep = .indexed fld.idx.toNat := if_pos htyp
    have hoct : fld.octets = hpiOctets .idx fld.idx.toNat := if_pos htyp
    refine ⟨hoct ▸ hput.emitted, hput.sameSizes, hoct ▸ hrep ▸ hwire, hdr, p.started, ?_, ?_,
      ⟨hset, rfl, rfl⟩, fun off => ?_⟩
    · rw [Field.denotes, if_pos htyp]
      exact found
    · exact (hd.puts hput).started
    · rw [hrep, hnvr]
      exact ⟨_, .indexed hset found, rfl⟩
  · have hlit : fld.lit = .dyn := if_pos hdyn
    have hw' := hw htyp
    rw [hlit] at hw'
    obtain ⟨e, hname, hval, hvalid, hwire, hem, hsz, hd'⟩ :=
      hpackEncodeDynamic_wire hd ho hdesc hw' (hstat hdyn) halloc h
    have hne : ¬ fld.typIdx = true := by rw [htyp]; exact Bool.false_ne_true
    have hrep : fld.rep = .literal .dyn fld.nameRef (fld.bytes .value) := by
      rw [Field.rep, if_neg hne, hlit]
    have hoct : fld.octets = fld.litOctets .dyn := by rw [Field.octets, if_neg hne, hlit]
    refine ⟨hoct ▸ hem, hsz, hoct ▸ hrep ▸ hwire, e.field, (p.insert e).started, ?_, hd'.started,
      ⟨hset, rfl, rfl⟩, fun off => ?_⟩
    · rw [Field.denotes, if_neg hne, hname, ← hval]
      rfl
    · rw [hrep, ← hval, hnvr]
      refine ⟨_, .dynamic hset hname hvalid, ?_⟩
      rw [List.filter_append, tells_insertEvents, List.append_nil]
      rfl
  · have hne : ¬ fld.typIdx = true := by rw [htyp]; exact Bool.false_ne_true
    have hnd : ¬ fld.typDyn = true := by rw [hdyn]; exact Bool.false_ne_true
    have hw' := hw htyp
    rw [Field.lit, if_neg hnd] at hw'
    have hrep : fld.rep
        = .literal (if fld.typNvr then .nvr else .lit) fld.nameRef (fld.bytes .value) := by
      rw [Field.rep, if_neg hne, Field.lit, if_neg hnd]
    have hoct : fld.octets = fld.litOctets (if fld.typNvr then .nvr else .lit) := by
      rw [Field.octets, if_neg hne, Field.lit, if_neg hnd]
    rw [show (if fld.typNvr = true then Hpp.nvr else Hpp.lit)
      = (if fld.typNvr = true then Lit.nvr else Lit.lit).hpp from by cases fld.typNvr <;> rfl] at h
    obtain ⟨nam, hname, ⟨hvn, -⟩, ⟨hvv, -⟩, hwire, hput⟩ := hpackEncodeField_wire hd ho hdesc hw' h
    refine ⟨hoct ▸ hput.emitted, hput.sameSizes, hoct ▸ hrep ▸ hwire, ⟨nam, fld.bytes .value⟩,
      p.started, ?_, (hd.puts hput).started, ⟨hset, rfl, rfl⟩, fun off => ?_⟩
    · rw [Field.denotes, if_neg hne, hname]
      rfl
    · rw [hrep]
      cases fld.typNvr with
      | true => exact ⟨_, .never (h := ⟨nam, fld.bytes .value⟩) hset hname ⟨hvn, hvv⟩, rfl⟩
      | false => exact ⟨_, .literal (h := ⟨nam, fld.bytes .value⟩) hset hname ⟨hvn, hvv⟩, rfl⟩

/-- **A field that is encoded is represented**: its octets are a representation that means the
field it denotes, and the encoder keeps the tables of their reader. -/
theorem hpackEncodeTurn_wire (hd : hp.Drives p) (hset : p.resize = none) (ho : hp.Open)
    (halloc : p.limit ≤ hp.tbl.length) (hdesc : ∀ evt, fld.Describable evt)
    (h : hpackEncodeTurn fld hp = .ok (fld', none) hp')
    (hw : fld'.Whole hp.ctx.arg.bufLen hp.ctx.cur.length) (hstat : fld'.Static) :
    fld.Alike fld' p ∧ hp.Encoded p fld' hp' := by
  rw [hpackEncodeTurn_eq] at h
  obtain ⟨⟨fld₁, arg⟩, hp₁, hauto, hnext⟩ := bind_eq_ok h
  cases arg with
  | true => cases hnext
  | false =>
    -- an index may have been found for the field, which still means the same
    obtain ⟨rfl, halike⟩ : hp₁ = hp ∧ fld.Alike fld₁ p := by
      rw [ite_run] at hauto
      by_cases haut : fld.autIdx = true
      · rw [if_pos haut] at hauto
        exact hpackAutoIndex_wire hd hauto
      · rw [if_neg haut] at hauto
        cases hauto
        exact ⟨rfl, rfl, rfl, fun _ => rfl, fun _ => rfl⟩
    have hnot := Buffered.notify ho [.field none 0] fun e he => List.mem_singleton.1 he ▸ rfl
    have hrest : hpackEncodeRest fld₁ hp₁ = .ok (fld', none) hp' := hnext
    rw [hpackEncodeRest, bind_apply, hpcNotify_eq (Or.inl ho.fits), Out.bind_ok] at hrest
    cases hany : hpackEncodeAny fld₁ with
    | none =>
      rw [hany] at hrest
      cases hrest
    | some enc =>
      rw [hany] at hrest
      obtain ⟨r, hp₂, hatt, hend⟩ := bind_eq_ok hrest
      cases r with
      | none =>
        obtain ⟨_, hend⟩ := assert_bind_eq_ok (show (assert (hp₂.ctx.res ≠ .ok) >>= _) hp₂ = _
          from hend)
        obtain ⟨_, hend⟩ := assert_bind_eq_ok hend
        cases hend
      | some _ =>
        cases hend
        have hrun := attempt_eq_some hatt
        have hw' : fld'.Whole (hp₁.notify [.field none 0]).ctx.arg.bufLen
          (hp₁.notify [.field none 0]).ctx.cur.length := hw
        have hdesc' : ∀ evt, fld'.Describable evt := by
          intro evt hhuf s hs
          rw [halike.huf] at hhuf
          rw [halike.str] at hs
          exact hdesc evt hhuf s hs
        obtain ⟨hem, hsz, hwire, hstep⟩ := hpackEncodeAny_wire hany (hd.puts hnot) hset
          (hnot.keeps_open ho) hdesc' hw' hstat halloc hrun
        exact ⟨halike, hnot.emitted.trans hem, hnot.sameSizes.trans hsz, hwire, hstep⟩

end Cashpack
