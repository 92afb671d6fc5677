import Cashpack.Wire.Field
import Cashpack.Decoder.Update

/-!
# Reading names and entries

The parts of a representation that look at the tables.  `Hpack.Mirrors` says that the tables of a
codec are those of a peer: its lookups then find the fields the peer means, which the functions of
the decoder copy, validate and notify.

## Main results

* `hptField_lookup` : the entry at an index.
* `hpackDecodeField_wire` : a literal field, with a name of its own or the one of an entry.
* `hptDecode_wire` : an indexed field.
-/

namespace Cashpack

open Prog Fifo

variable {hp : Hpack} {os ns vs rest s : Octets} {n i : ℕ} {p p' : Peer} {h : Header}
  {nam : NameRef}

/-! ### Tables -/

/-- The tables of the codec are those of the peer. -/
structure Hpack.Mirrors (hp : Hpack) (p : Peer) : Prop where
  rep : hp.toTable.Rep p.entries
  valid : ∀ e ∈ p.entries, e.Valid
  own : hp.ctx.hp = hp.addr
  limit : hp.sz.limit = p.limit
  lim_le : hp.sz.lim ≤ hp.sz.max

/-- Only the table matters, and where the codec is. -/
theorem Hpack.Mirrors.congr (h : hp.Mirrors p) {hp' : Hpack} (ht : hp'.toTable = hp.toTable)
    (hown : hp'.ctx.hp = hp'.addr) : hp'.Mirrors p where
  rep := ht ▸ h.rep
  valid := h.valid
  own := hown
  limit := by rw [ht]; exact h.limit
  lim_le := by rw [ht]; exact h.lim_le

/-- An index of the tables, which starts at one. -/
theorem lookup_cases (found : p.lookup i = some h) :
    (∃ j < hpackStatic, i = j + 1 ∧ ∃ e, hptStatic[j]? = some e ∧ h = ⟨e.nam, e.val⟩) ∨
      ∃ j, ∃ hj : j < p.entries.length, i = hpackStatic + (j + 1) ∧ h = p.entries[j].field := by
  unfold Peer.lookup at found
  by_cases h0 : i = 0
  · rw [if_pos h0] at found
    cases found
  rw [if_neg h0] at found
  by_cases hi : i ≤ hpackStatic
  · rw [if_pos hi, Option.map_eq_some_iff] at found
    obtain ⟨e, he, rfl⟩ := found
    exact Or.inl ⟨i - 1, by omega, by omega, e, he, rfl⟩
  · rw [if_neg hi, Option.map_eq_some_iff] at found
    obtain ⟨e, he, rfl⟩ := found
    obtain ⟨hj, rfl⟩ := List.getElem?_eq_some_iff.1 he
    exact Or.inr ⟨i - hpackStatic - 1, hj, by omega, rfl⟩

theorem lookup_valid (hv : ∀ e ∈ p.entries, e.Valid) (found : p.lookup i = some h) :
    ValidName h.nam ∧ ValidValue h.val := by
  obtain ⟨j, hj, -, e, he, rfl⟩ | ⟨j, hj, -, rfl⟩ := lookup_cases found
  · exact hpsTable_valid e (List.mem_of_getElem? he)
  · exact hv _ (List.getElem_mem hj)

/-- `HPT_field` finds the entry at an index of the tables. -/
theorem hptField_lookup (hm : hp.Mirrors p) (found : p.lookup i = some h) :
    ∃ hf : HptField, hptField i hp = .ok hf hp ∧ hf.nam.Lasting ∧ hf.val.Lasting ∧
      hf.namSz = h.nam.length ∧ hf.valSz = h.val.length ∧
      hp.str hf.nam h.nam.length = some (h.nam, 0) ∧
      hp.str hf.val h.val.length = some (h.val, 0) := by
  obtain ⟨j, hj, rfl, e, he, rfl⟩ | ⟨j, hj, rfl, rfl⟩ := lookup_cases found
  · obtain ⟨e', he', hrun⟩ := hptField_static hp hj
    obtain rfl : e = e' := by
      rw [he] at he'
      exact Option.some.inj he'
    exact ⟨_, hrun, trivial, trivial, rfl, rfl, Hpack.str_str hp _, Hpack.str_str hp _⟩
  · obtain ⟨hnam, hval⟩ := str_entryField hm.rep hj
    exact ⟨_, hptField_dynamic hm.rep hm.own hj, trivial, trivial, rfl, rfl, hnam, hval⟩

/-- The field of the context is inserted as the peer inserts it. -/
theorem hptIndex_wire {e : Entry} (hm : hp.Mirrors p) (he : hp.FldIs e) (hv : e.Valid)
    (hn : hp.Notifies) (halloc : p.limit ≤ hp.tbl.length) :
    ∃ t : Table, hptIndex hp
        = .ok () ((hp.withTable t).notify (insertEvents p.limit p.entries e)) ∧
      (hp.withTable t).Mirrors (p.insert e) ∧ t.tbl.length = hp.tbl.length ∧
      t.sz = { hp.sz with len := t.sz.len } := by
  have hmem : hp.sz.limit ≤ hp.tbl.length := hm.limit ▸ halloc
  obtain ⟨t, hrun, hrep, hlen, hsz⟩ := hptIndex_eq hm.rep he hn hm.lim_le hmem
  rw [hm.limit] at hrun hrep hsz
  have hlim : t.sz.limit = p.limit := by
    rw [hsz, ← hm.limit]
    rfl
  refine ⟨t, hrun, ⟨hrep, fun e' he' => ?_, hm.own, hlim, ?_⟩, hlen, ?_⟩
  · rcases List.mem_cons.1 ((fit_isPrefix _ _).subset he') with rfl | h
    · exact hv
    · exact hm.valid e' h
  · show t.sz.lim ≤ t.sz.max
    rw [hsz]
    exact hm.lim_le
  · rw [hsz]

theorem ValidName.pos (hv : ValidName s) : 0 < s.length := List.length_pos_of_ne_nil hv.1

/-! ### Names -/

/-- The name of an entry is copied. -/
theorem hptDecodeName_wire (hm : hp.Mirrors p) (found : p.lookup hp.state.idx = some h)
    (hidx : hp.state.idx ≠ 0) (hfld : hp.ctx.fld.nam = .out hp.ctx.out.length)
    (hroom : hp.Room (h.nam.length + 1)) :
    hptDecodeName hp = .ok () (hp.advance hp.state { hp.ctx.fld with namSz := h.nam.length }
      hp.ctx.blk (h.nam ++ [0]) []) := by
  obtain ⟨hf, hrun, hlast, -, hsz, -, hstr, -⟩ := hptField_lookup hm found
  have hpos : 0 < hf.namSz := hsz ▸ (lookup_valid hm.valid found).1.pos
  have hnull : hf.nam ≠ .null := by
    intro hc
    rw [hc] at hlast
    exact hlast
  have hstr' : ({ hp with ctx.fld.namSz := h.nam.length } : Hpack).str hf.nam h.nam.length
      = some (h.nam, 0) := (Hpack.str_lasting _ hlast rfl).trans hstr
  have hputs := hpdPuts_eq hlast hstr' (hroom.congr rfl rfl rfl rfl)
  rw [hptDecodeName, bind_apply, get_apply, Out.bind_ok, assert_bind_pos hfld,
    assert_bind_pos hidx, bind_apply, hrun, Out.bind_ok, assert_bind_pos hnull,
    assert_bind_pos hpos, bind_apply, modify_apply, Out.bind_ok, hsz, hputs,
    Hpack.write_eq_advance]
  rfl

/-- A name is read, or copied, and validated. -/
theorem hpackDecodeFieldName_wire (hm : hp.Mirrors p) (hns : nam.Spelled ns)
    (hname : p.name nam = some s) (hvalid : ValidName s) (hblk : hp.ctx.blk = ns ++ rest)
    (hidx : hp.state.idx = nam.idx) (hbsy : hp.state.bsy = false) (hstp : hp.state.stp = .namLen)
    (hfld : hp.ctx.fld.nam = .out hp.ctx.out.length) (hroom : hp.Room (s.length + 1)) :
    ∃ st : State, st.bsy = false ∧ st.stp = .valLen ∧ hpackDecodeFieldName hp = .ok ()
      (hp.advance st ⟨.out hp.ctx.out.length, .out (hp.ctx.out ++ (s ++ [0])).length, s.length,
        hp.ctx.fld.valSz⟩ rest (s ++ [0]) []) := by
  -- the name is written and its size is set
  have hwrite : ∃ st : State, st.bsy = false ∧
      (if hp.state.idx = 0 then hpackDecodeNewName else hptDecodeName) hp = .ok () (hp.advance st
        ⟨.out hp.ctx.out.length, hp.ctx.fld.val, s.length, hp.ctx.fld.valSz⟩ rest (s ++ [0])
        []) := by
    cases hns with
    | @index i hi =>
      obtain ⟨h, found, rfl⟩ := Option.map_eq_some_iff.1 hname
      have hidx' : hp.state.idx = i := hidx
      rw [← hidx'] at found hi
      rw [if_neg hi]
      refine ⟨hp.state, hbsy, (hptDecodeName_wire hm found hi hfld hroom).trans ?_⟩
      rw [hblk, ← hfld]
      rfl
    | @literal s' ns h =>
      obtain rfl : s' = s := Option.some.inj hname
      have hidx' : hp.state.idx = 0 := hidx
      obtain ⟨st, hst, -, -, hrun⟩ :=
        hpackDecodeString_wire .name h hblk hbsy (Or.inl hstp) (fun _ => hvalid.1) hroom
      have hdiff : bufDiff hp.ctx.fld.nam (hp.advance st hp.ctx.fld rest (s' ++ [0]) [])
          = .ok (s'.length + 1) (hp.advance st hp.ctx.fld rest (s' ++ [0]) []) := by
        rw [hfld]
        exact bufDiff_eq rfl
      rw [if_pos hidx']
      refine ⟨st, hst, ?_⟩
      rw [hpackDecodeNewName, bind_apply, hrun, Out.bind_ok, bind_apply, get_apply, Out.bind_ok,
        bind_apply]
      refine (congrArg (fun o => Out.bind o _) hdiff).trans ?_
      rw [Out.bind_ok, modify_apply, ← hfld]
      rfl
  obtain ⟨st, hst, hrun⟩ := hwrite
  generalize hfld' : (⟨.out hp.ctx.out.length, hp.ctx.fld.val, s.length, hp.ctx.fld.valSz⟩ : Fld)
    = fld' at hrun
  have hcheck : hpvToken fld'.nam fld'.namSz (hp.advance st fld' rest (s ++ [0]) [])
      = .ok () (hp.advance st fld' rest (s ++ [0]) []) := by
    rw [← hfld']
    exact hpvToken_eq (Hpack.str_out (b := []) rfl) hvalid
  refine ⟨{ st with stp := .valLen }, hst, rfl, ?_⟩
  rw [hpackDecodeFieldName, bind_apply, get_apply, Out.bind_ok, bind_apply, hrun, Out.bind_ok,
    bind_apply, get_apply, Out.bind_ok, bind_apply]
  refine (congrArg (fun o => Out.bind o _) hcheck).trans ?_
  rw [Out.bind_ok, modify_apply, ← hfld']
  rfl

/-- The name and the value of a field, one after the other in the working buffer. -/
def Hpack.fieldAt (hp : Hpack) (h : Header) : Fld where
  nam := .out hp.ctx.out.length
  val := .out (hp.ctx.out ++ (h.nam ++ [0])).length
  namSz := h.nam.length
  valSz := h.val.length

theorem Header.length_octets (h : Header) :
    h.octets.length = (h.nam ++ [0]).length + (h.val ++ [0]).length := List.length_append

/-- The field of a literal is read and notified. -/
theorem hpackDecodeField_wire (hm : hp.Mirrors p) (hns : nam.Spelled ns)
    (hname : p.name nam = some h.nam) (hvs : StrWire h.val vs)
    (hvalid : ValidName h.nam ∧ ValidValue h.val) (hb : hp.ctx.tooBig = false)
    (hblk : hp.ctx.blk = ns ++ (vs ++ rest)) (hidx : hp.state.idx = nam.idx)
    (hbsy : hp.state.bsy = false) (hstp : hp.state.stp = .fldInt)
    (hroom : hp.Room h.octets.length) :
    ∃ st : State, st.bsy = false ∧ st.stp = .fldInt ∧ hpackDecodeField hp = .ok ()
      (hp.advance st (hp.fieldAt h) rest h.octets [.name h.nam, .value h.val]) := by
  -- the codec once the place of the name is set
  generalize hfld : ({ hp.ctx.fld with nam := .out hp.ctx.out.length } : Fld) = fld
  have hstart : ({ hp with
      state.stp := .namLen, ctx.fld.nam := .out hp.ctx.out.length } : Hpack)
      = hp.advance { hp.state with stp := .namLen } fld hp.ctx.blk [] [] := by
    rw [Hpack.advance_nil, ← hfld]
  have hm₁ : (hp.advance { hp.state with stp := .namLen } fld hp.ctx.blk [] []).Mirrors p :=
    hm.congr rfl hm.own
  have hout : (hp.advance { hp.state with stp := .namLen } fld hp.ctx.blk [] []).ctx.out
      = hp.ctx.out := List.append_nil _
  have hroom₁ : (hp.advance { hp.state with stp := .namLen } fld hp.ctx.blk [] []).Room
      ((h.nam ++ [0]).length + (h.val ++ [0]).length) :=
    Hpack.Room.advance (by
      rw [List.length_nil, Nat.zero_add, ← Header.length_octets]
      exact hroom)
  have hnam : fld.nam = .out hp.ctx.out.length := by rw [← hfld]
  obtain ⟨st, hst, hstp', hnamrun⟩ := hpackDecodeFieldName_wire hm₁ hns hname hvalid.1 hblk hidx
    hbsy rfl (by rw [hout]; exact hnam)
    (hroom₁.mono (by rw [List.length_append, List.length_singleton]; omega))
  rw [hout, Hpack.advance_advance, List.nil_append, List.nil_append] at hnamrun
  change hpackDecodeFieldName _ = .ok () (hp.advance st ⟨.out hp.ctx.out.length,
    .out (hp.ctx.out ++ (h.nam ++ [0])).length, h.nam.length, fld.valSz⟩ _ _ _) at hnamrun
  generalize hfld₂ : (⟨.out hp.ctx.out.length, .out (hp.ctx.out ++ (h.nam ++ [0])).length,
    h.nam.length, fld.valSz⟩ : Fld) = fld₂ at hnamrun
  have hb₂ : (hp.advance st fld₂ (vs ++ rest) (h.nam ++ [0]) []).ctx.tooBig = false := hb
  have hroom₂ : (hp.advance st fld₂ (vs ++ rest) (h.nam ++ [0]) []).Room (h.val.length + 1) :=
    Hpack.Room.advance (hroom.mono (by
      rw [Header.length_octets, List.length_append, List.length_append, List.length_singleton]))
  obtain ⟨st', hst', hstp'', hvalrun⟩ := hpackDecodeFieldValue_wire hvs hvalid.2 hvalid.1.1 hb₂
    rfl hst hstp' rfl hfld₂.symm hroom₂
  refine ⟨st', hst', hstp'', ?_⟩
  rw [hpackDecodeField, bind_apply, get_apply, Out.bind_ok, bind_apply, when_apply, if_pos hstp,
    modify_apply, Out.bind_ok, hstart, bind_apply, get_apply, Out.bind_ok, bind_apply, when_apply]
  refine (congrArg (fun o => Out.bind o _) ((if_pos (Or.inl rfl)).trans hnamrun)).trans ?_
  rw [Out.bind_ok, hvalrun, Hpack.advance_advance]
  rfl

/-- A string of the table is copied after what was written. -/
theorem hpdPuts_advance {q : Ptr} {st : State} {fld : Fld} {out : Octets} (hq : q.Lasting)
    (hs : hp.str q s.length = some (s, 0)) (hroom : hp.Room (out.length + (s.length + 1))) :
    hpdPuts q s.length (hp.advance st fld rest out [])
      = .ok () (hp.advance st fld rest (out ++ (s ++ [0])) []) := by
  have hstr : (hp.advance st fld rest out []).str q s.length = some (s, 0) := by
    rw [← hs]
    exact Hpack.str_lasting _ hq rfl
  rw [hpdPuts_eq hq hstr (Hpack.Room.advance hroom), Hpack.write_eq_advance, Hpack.advance_advance]
  rfl

/-- The field of an entry is copied and notified. -/
theorem hptDecode_wire (hm : hp.Mirrors p) (found : p.lookup i = some h)
    (hb : hp.ctx.tooBig = false) (hroom : hp.Room h.octets.length) :
    hptDecode i hp = .ok () (hp.advance hp.state (hp.fieldAt h) hp.ctx.blk h.octets
      [.name h.nam, .value h.val]) := by
  obtain ⟨hf, hrun, hln, hlv, hnsz, hvsz, hnam, hval⟩ := hptField_lookup hm found
  have hvn := (lookup_valid hm.valid found).1
  have hpos : 0 < hf.namSz := hnsz ▸ hvn.pos
  have hidx : 0 < i := by
    rcases lookup_cases found with ⟨j, -, rfl, -⟩ | ⟨j, -, rfl, -⟩ <;> omega
  have hnull : ∀ q : Ptr, q.Lasting → q ≠ .null := by
    rintro _ hq rfl
    exact hq
  rw [Header.length_octets] at hroom
  -- the name, then the value
  generalize hfld : ({ hp.ctx.fld with
    nam := .out hp.ctx.out.length, namSz := h.nam.length } : Fld) = fld
  have hset : ({ hp with
      ctx.fld.nam := .out hp.ctx.out.length, ctx.fld.namSz := h.nam.length } : Hpack)
      = hp.advance hp.state fld hp.ctx.blk [] [] := by
    rw [Hpack.advance_nil, ← hfld]
  have hputs : hpdPuts hf.nam h.nam.length (hp.advance hp.state fld hp.ctx.blk [] [])
      = .ok () (hp.advance hp.state fld hp.ctx.blk (h.nam ++ [0]) []) :=
    hpdPuts_advance hln hnam (hroom.mono (by
      rw [List.length_nil, List.length_append, List.length_singleton]
      omega))
  have hset' : ({ hp.advance hp.state fld hp.ctx.blk (h.nam ++ [0]) [] with
      ctx.fld.val := .out (hp.ctx.out ++ (h.nam ++ [0])).length
      ctx.fld.valSz := h.val.length } : Hpack)
      = hp.advance hp.state (hp.fieldAt h) hp.ctx.blk (h.nam ++ [0]) [] := by
    rw [← hfld]
    rfl
  have hputs' : hpdPuts hf.val h.val.length
      (hp.advance hp.state (hp.fieldAt h) hp.ctx.blk (h.nam ++ [0]) [])
      = .ok () (hp.advance hp.state (hp.fieldAt h) hp.ctx.blk h.octets []) :=
    hpdPuts_advance hlv hval (hroom.mono (by
      rw [List.length_append, List.length_append, List.length_singleton]))
  have hb' : (hp.advance hp.state (hp.fieldAt h) hp.ctx.blk h.octets []).ctx.tooBig = false := hb
  have hnotify := hpdNotify_eq hvn.1 hb' rfl
    (Hpack.str_out (b := h.val ++ [0]) (by
      show hp.ctx.out ++ h.octets = _
      rw [Header.octets, List.append_assoc]
      rfl))
    (Hpack.str_out (b := []) (by
      show hp.ctx.out ++ h.octets = _
      rw [Header.octets, ← List.append_assoc]))
  rw [Hpack.notify_eq_advance hb', Hpack.advance_advance, List.append_nil, List.nil_append]
    at hnotify
  rw [hptDecode, bind_apply, expect_apply, if_pos hidx, Out.bind_ok, bind_apply, hrun, Out.bind_ok,
    assert_bind_pos (hnull _ hln), assert_bind_pos (hnull _ hlv), assert_bind_pos hpos, bind_apply,
    modify_apply, Out.bind_ok, hnsz, hvsz, hset, bind_apply, hputs, Out.bind_ok, bind_apply,
    modify_apply, Out.bind_ok]
  refine (congrArg _ hset').trans ?_
  rw [bind_apply, hputs', Out.bind_ok]
  exact hnotify

/-! ### Representations -/

/-- The start of a field is notified. -/
theorem hpackDecoderField_wire {st : State} {off k : ℕ} (fld : Fld) (idx : ℕ)
    (hb : hp.ctx.tooBig = false) (hl : st.hpi.l = k) (hk : 0 < k)
    (hoff : hp.ctx.arg.blkLen = off + (k + rest.length)) :
    hpackDecoderField idx (hp.advance st fld rest [] [])
      = .ok () (hp.advance st fld rest [] [.field (some off) idx]) := by
  have hpos : ((hp.advance st fld rest [] []).ctx.arg.blkLen : ℤ) -
      (hp.advance st fld rest [] []).ctx.blk.length - k = off := by
    show (hp.ctx.arg.blkLen : ℤ) - rest.length - k = off
    omega
  have hl' : (hp.advance st fld rest [] []).state.hpi.l = k := hl
  have hb' : (hp.advance st fld rest [] []).ctx.tooBig = false := hb
  rw [hpackDecoderField, bind_apply, get_apply, Out.bind_ok, hl', assert_bind_pos hk, hpos,
    hpcNotify_eq (Or.inl hb'), Hpack.notify_eq_advance hb', Hpack.advance_advance]
  rfl

/-- The start of a literal is read. -/
theorem hpackDecodeLiteralIdx_wire {q : Hpp} {off : ℕ} (hi : IntWire q n os)
    (hb : hp.ctx.tooBig = false) (hblk : hp.ctx.blk = os ++ rest) (hbsy : hp.state.bsy = false)
    (hoff : hp.ctx.arg.blkLen = off + hp.ctx.blk.length) :
    ∃ st : State, st.bsy = false ∧ st.stp = hp.state.stp ∧ st.idx = n ∧
      hpackDecodeLiteralIdx q hp
        = .ok () (hp.advance st hp.ctx.fld rest [] [.field (some off) 0]) := by
  obtain ⟨i, hil, hrun⟩ := hpiDecode_wire hi hblk hbsy
  have hoff' : hp.ctx.arg.blkLen = off + (os.length + rest.length) := by
    rw [hoff, hblk, List.length_append]
  refine ⟨{ hp.state with magic := .int, hpi := i, idx := n }, hbsy, rfl, rfl, ?_⟩
  rw [hpackDecodeLiteralIdx, bind_apply, hrun, Out.bind_ok, bind_apply, modify_apply, Out.bind_ok]
  exact hpackDecoderField_wire _ 0 hb hil (List.length_pos_of_ne_nil hi.ne_nil) hoff'

end Cashpack
