import Cashpack.Wire.Lookup
import Cashpack.Decoder.Idle
import Cashpack.Decoder.Update
import Cashpack.Decoder.Block

/-!
# Decoding what is on the wire

`hpack_decode` reads every block of the format as the format means it.

## Main results

* `hpackDecodeTurn_wire` : one round of the loop reads one representation.
* `hpackDecode_block` : a call reads a block, from any decoder that a run leads to.
* `hpackDecode_parts` : several calls read the parts of a block.
-/

namespace Cashpack

open Prog Fifo

variable {hp hp' : Hpack} {os os' rest : Octets} {n off : ℕ} {p p' : Peer} {h : Header}
  {r : Rep} {evts evts' : List Event} {hs hs' : List Header}

/-! ### Decoders -/

/-- The resize not signalled yet, which memory was allocated for. -/
def Size.Waits (sz : Size) (mem : ℕ) : Option (ℕ × ℕ) → Prop
  | none => sz.min < 0 ∧ sz.nxt < 0
  | some (smallest, last) => sz.min = smallest ∧ sz.nxt = last ∧ smallest ≤ last ∧ last ≤ mem

/-- The decoder is where the peer is. -/
structure Hpack.Follows (hp : Hpack) (p : Peer) : Prop extends Hpack.Mirrors hp p where
  decoder : hp.magic = .decoder
  fits : hp.ctx.tooBig = false
  max : hp.sz.max = p.max
  maxAlloc : p.max ≤ hp.tbl.length
  resize : hp.sz.Waits hp.tbl.length p.resize
  canUpd : p.canUpd = true → hp.ctx.canUpd = true

/-- A decoder that went on with its tables as they were. -/
theorem Hpack.Follows.congr (h : hp.Follows p) (ht : hp'.toTable = hp.toTable)
    (hown : hp'.ctx.hp = hp'.addr) (hm : hp'.magic = .decoder) (hb : hp'.ctx.tooBig = false)
    (hu : hp'.ctx.canUpd = hp.ctx.canUpd) : hp'.Follows p where
  toMirrors := h.toMirrors.congr ht hown
  decoder := hm
  fits := hb
  max := by rw [ht]; exact h.max
  maxAlloc := by rw [ht]; exact h.maxAlloc
  resize := by rw [ht]; exact h.resize
  canUpd := by rw [hu]; exact h.canUpd

/-- There is memory for the table. -/
theorem Hpack.Follows.alloc (h : hp.Follows p) : p.limit ≤ hp.tbl.length := by
  have hle := Size.limit_le_max h.lim_le
  rw [h.limit, h.max] at hle
  exact hle.trans h.maxAlloc

/-- An update may not be allowed any more. -/
theorem Hpack.Follows.started (h : hp.Follows p) : hp.Follows p.started :=
  { h with canUpd := Bool.noConfusion }

/-- The codec that went on, with another table. -/
def Hpack.goOn (hp : Hpack) (t : Table) (st : State) (fld : Fld) (rest out : Octets)
    (evts : List Event) (u : Bool) : Hpack :=
  { hp.advance st fld rest out evts with toTable := t, ctx.canUpd := u }

theorem Hpack.goOn_goOn (hp : Hpack) (t t' : Table) (st st' : State) (fld fld' : Fld)
    (rest rest' out out' : Octets) (u u' : Bool) :
    (hp.goOn t st fld rest out evts u).goOn t' st' fld' rest' out' evts' u'
      = hp.goOn t' st' fld' rest' (out ++ out') (evts ++ evts') u' := by
  simp only [Hpack.goOn, Hpack.advance, List.append_assoc, List.length_append, Nat.sub_sub]

theorem Hpack.notify_goOn (hp : Hpack) (t : Table) (st : State) (fld : Fld) (rest out : Octets)
    (evts evts' : List Event) (hb : hp.ctx.tooBig = false) :
    ((hp.advance st fld rest out evts).withTable t).notify evts'
      = hp.goOn t st fld rest out (evts ++ evts') hp.ctx.canUpd := by
  simp only [Hpack.notify, Hpack.goOn, Hpack.advance, Hpack.withTable, hb, Bool.false_eq_true,
    if_false, List.append_assoc]

/-- The decoder read the fields `hs` up to `rest`, and follows the peer there. -/
structure Hpack.Reads (hp : Hpack) (rest : Octets) (evts : List Event) (hs : List Header)
    (p' : Peer) (hp' : Hpack) : Prop where
  went : ∃ t st fld u, st.bsy = false ∧ st.stp = .fldInt ∧
    hp' = hp.goOn t st fld rest (headerOctets hs) evts u
  follows : hp'.Follows p'

theorem headerOctets_append (hs hs' : List Header) :
    headerOctets (hs ++ hs') = headerOctets hs ++ headerOctets hs' := List.flatMap_append

theorem headerOctets_singleton (h : Header) : headerOctets [h] = h.octets := by
  simp [headerOctets]

theorem Hpack.Reads.trans {hp'' : Hpack} {p'' : Peer} (h : hp.Reads rest evts hs p hp')
    (h' : hp'.Reads os evts' hs' p'' hp'') :
    hp.Reads os (evts ++ evts') (hs ++ hs') p'' hp'' where
  went := by
    obtain ⟨t, st, fld, u, -, -, rfl⟩ := h.went
    obtain ⟨t', st', fld', u', hbsy, hstp, rfl⟩ := h'.went
    refine ⟨t', st', fld', u', hbsy, hstp, ?_⟩
    rw [headerOctets_append, Hpack.goOn_goOn]
  follows := h'.follows

/-- A field that leaves the tables as they are. -/
theorem Hpack.Follows.reads (hf : hp.Follows p) {st : State} (hbsy : st.bsy = false)
    (hstp : st.stp = .fldInt) (fld : Fld) (rest : Octets) (evts : List Event) (h : Header) :
    hp.Reads rest evts [h] p (hp.advance st fld rest h.octets evts) where
  went := ⟨hp.toTable, st, fld, hp.ctx.canUpd, hbsy, hstp, by rw [headerOctets_singleton]; rfl⟩
  follows := hf.congr rfl hf.own hf.decoder hf.fits rfl

/-! ### Updates -/

/-- What an update leaves of the sizes, before the limit is set. -/
structure Resized (p' : Peer) (n mem : ℕ) (sz sz' : Size) (u : Bool) : Prop where
  len : sz'.len = sz.len
  le : n ≤ sz'.max
  max : sz'.max = p'.max
  maxAlloc : p'.max ≤ mem
  resize : sz'.Waits mem p'.resize
  canUpd : p'.canUpd = true → u = true

/-- An update that the peer allows is accepted. -/
theorem hpackDecodeResize_wire (hf : hp.Follows p) (hu : p.Update n p') :
    ∃ sz u, Resized p' n hp.tbl.length hp.sz sz u ∧
      hpackDecodeResize n hp = .ok () { hp with sz := sz, ctx.canUpd := u } := by
  have hres := hf.resize
  rw [hpackDecodeResize, bind_apply, get_apply, Out.bind_ok, ite_run]
  cases hu with
  | limit h hn =>
    rw [h] at hres
    have hmin : ¬ 0 ≤ hp.sz.min := not_le.2 hres.1
    rw [if_neg hmin, modify_apply]
    exact ⟨hp.sz, false, ⟨rfl, hf.max ▸ hn, hf.max, hf.maxAlloc, h ▸ hres, Bool.noConfusion⟩, rfl⟩
  | @smallest last h hlt hn =>
    rw [h] at hres
    obtain ⟨hmin, hnxt, hle, hlast⟩ := hres
    have h0 : 0 ≤ hp.sz.min := by omega
    have hle' : hp.sz.min ≤ hp.sz.nxt := by omega
    have hlt' : hp.sz.min < hp.sz.nxt := by omega
    -- only the smallest size is accepted first, and another update is still due
    rw [if_pos h0, assert_bind_pos hle', ite_run, if_pos hlt', bind_apply, expect_apply,
      if_pos hmin.symm, Out.bind_ok, modify_apply]
    refine ⟨{ hp.sz with min := hp.sz.nxt }, hp.ctx.canUpd, ⟨rfl, hf.max ▸ hn, hf.max, hf.maxAlloc,
      ⟨hnxt, hnxt, le_rfl, hlast⟩, hf.canUpd⟩, rfl⟩
  | @last last h hn =>
    rw [h] at hres
    obtain ⟨hmin, hnxt, -, hlast⟩ := hres
    have h0 : 0 ≤ hp.sz.min := by omega
    have hle' : hp.sz.min ≤ hp.sz.nxt := by omega
    have hlt' : ¬ hp.sz.min < hp.sz.nxt := by omega
    have hacc : (n : ℤ) = hp.sz.nxt ∨ (n : ℤ) < hp.sz.nxt := by omega
    have h0' : 0 ≤ hp.sz.nxt := by omega
    have hmax : hp.sz.nxt.toNat = last := by omega
    -- the peer may choose a limit below the last size, which becomes the maximum all the same
    rw [if_pos h0, assert_bind_pos hle', ite_run, if_neg hlt', bind_apply, expect_apply,
      if_pos hacc, Out.bind_ok, assert_bind_pos h0', modify_apply]
    refine ⟨{ hp.sz with max := hp.sz.nxt.toNat, lim := n, min := -1, nxt := -1 }, false,
      ⟨rfl, ?_, hmax, hlast, ⟨neg_one_lt_zero, neg_one_lt_zero⟩,
        Bool.noConfusion⟩, rfl⟩
    show n ≤ hp.sz.nxt.toNat
    omega

theorem Peer.Update.entries (hu : p.Update n p') :
    p'.entries = fit Entry.size n p.entries ∧ p'.limit = n := by
  cases hu <;> exact ⟨rfl, rfl⟩

/-! ### Representations -/

/-- A literal field, after the events `evts` that announce it. -/
theorem hpackDecodeField_reads {nam : NameRef} {ns vs : Octets} {st : State} (hf : hp.Follows p)
    (hns : nam.Spelled ns) (hname : p.name nam = some h.nam) (hvs : StrWire h.val vs)
    (hvalid : ValidName h.nam ∧ ValidValue h.val) (hrest : rest = ns ++ (vs ++ os))
    (hidx : st.idx = nam.idx) (hbsy : st.bsy = false) (hstp : st.stp = .fldInt)
    (hroom : hp.Room h.octets.length) (evts : List Event) :
    ∃ st', st'.bsy = false ∧ st'.stp = .fldInt ∧
      hpackDecodeField (hp.advance st hp.ctx.fld rest [] evts)
        = .ok () (hp.advance st' (hp.fieldAt h) os h.octets
            (evts ++ [.name h.nam, .value h.val])) := by
  have hm : (hp.advance st hp.ctx.fld rest [] evts).Mirrors p := hf.toMirrors.congr rfl hf.own
  have hroom' : (hp.advance st hp.ctx.fld rest [] evts).Room h.octets.length :=
    Hpack.Room.advance (by rwa [List.length_nil, Nat.zero_add])
  have hat : (hp.advance st hp.ctx.fld rest [] evts).fieldAt h = hp.fieldAt h := by
    simp only [Hpack.fieldAt, Hpack.advance, List.append_nil]
  obtain ⟨st', hbsy', hstp', hrun⟩ := hpackDecodeField_wire hm hns hname hvs hvalid hf.fits hrest
    hidx hbsy hstp hroom'
  rw [hat, Hpack.advance_advance] at hrun
  exact ⟨st', hbsy', hstp', hrun⟩

/-- What was read is the field to insert. -/
theorem Hpack.fieldAt_is (hp : Hpack) (e : Entry) (st : State) (rest : Octets)
    (evts : List Event) :
    (hp.advance st (hp.fieldAt e.field) rest e.field.octets evts).FldIs e where
  nam_ext := Ptr.out_ext _
  val_ext := Ptr.out_ext _
  namSz := rfl
  valSz := rfl
  nam := Hpack.str_out (b := e.val ++ [0]) (by
    show hp.ctx.out ++ e.field.octets = _
    rw [Header.octets, List.append_assoc]
    rfl)
  val := Hpack.str_out (b := []) (by
    show hp.ctx.out ++ e.field.octets = _
    rw [Header.octets, ← List.append_assoc])

section

variable {nam : NameRef} {ns vs : Octets} {e : Entry} (hf : hp.Follows p)
  (hblk : hp.ctx.blk = os ++ rest) (hbsy : hp.state.bsy = false)
  (hstp : hp.state.stp = .fldInt) (hoff : hp.ctx.arg.blkLen = off + hp.ctx.blk.length)

include hf hblk hbsy hstp hoff

theorem hpackDecodeIndexed_wire {i : ℕ} (hi : IntWire .idx i os) (found : p.lookup i = some h)
    (hroom : hp.Room h.octets.length) :
    ∃ hp', hpackDecodeIndexed hp = .ok () hp' ∧
      hp.Reads rest [.field (some off) i, .name h.nam, .value h.val] [h] p hp' := by
  obtain ⟨j, hjl, hrun⟩ := hpiDecode_wire hi hblk hbsy
  have hoff' : hp.ctx.arg.blkLen = off + (os.length + rest.length) := by
    rw [hoff, hblk, List.length_append]
  generalize hst : ({ hp.state with magic := .int, hpi := j } : State) = st at hrun
  have hl : st.hpi.l = os.length := by rw [← hst, ← hjl]
  have hbsy' : st.bsy = false := by rw [← hst, ← hbsy]
  have hstp' : st.stp = .fldInt := by rw [← hst, ← hstp]
  have hfield := hpackDecoderField_wire hp.ctx.fld i hf.fits hl
    (List.length_pos_of_ne_nil hi.ne_nil) hoff'
  have hm : (hp.advance st hp.ctx.fld rest [] [.field (some off) i]).Mirrors p :=
    hf.toMirrors.congr rfl hf.own
  have hroom' : (hp.advance st hp.ctx.fld rest [] [.field (some off) i]).Room h.octets.length :=
    Hpack.Room.advance (by rwa [List.length_nil, Nat.zero_add])
  have hdec := hptDecode_wire hm found hf.fits hroom'
  rw [Hpack.advance_advance] at hdec
  have hstep : hpackDecodeIndexed hp
      = hptDecode i (hp.advance st hp.ctx.fld rest [] [.field (some off) i]) := by
    rw [hpackDecodeIndexed, bind_apply, hrun, Out.bind_ok, bind_apply, hfield, Out.bind_ok]
  exact ⟨_, hstep.trans hdec, hf.reads hbsy' hstp' _ rest _ h⟩

/-- The start of a literal, and the field after it. -/
theorem hpackDecodeLiteral_starts {q : Hpp} (hi : IntWire q nam.idx os) :
    ∃ st : State, st.bsy = false ∧ st.stp = .fldInt ∧ st.idx = nam.idx ∧
      hpackDecodeLiteralIdx q hp
        = .ok () (hp.advance st hp.ctx.fld rest [] [.field (some off) 0]) := by
  obtain ⟨st, hbsy', hstp', hidx, hrun⟩ := hpackDecodeLiteralIdx_wire hi hf.fits hblk hbsy hoff
  exact ⟨st, hbsy', hstp'.trans hstp, hidx, hrun⟩

omit hstp hoff in
theorem hpackDecodeUpdate_wire (hi : IntWire .upd n os) (hallow : p.canUpd = true)
    (hu : p.Update n p') (hstp : hp.state.stp = .fldInt) :
    ∃ hp', hpackDecodeUpdate hp = .ok () hp' ∧
      hp.Reads rest (evictEvents (p.entries.length - (fit Entry.size n p.entries).length) ++
        [.table n]) [] p' hp' := by
  obtain ⟨j, -, hrun⟩ := hpiDecode_wire hi hblk hbsy
  generalize hst : ({ hp.state with magic := .int, hpi := j } : State) = st at hrun
  have hbsy' : st.bsy = false := by rw [← hst, ← hbsy]
  have hstp' : st.stp = .fldInt := by rw [← hst, ← hstp]
  have hf' : (hp.advance st hp.ctx.fld rest [] []).Follows p :=
    hf.congr rfl hf.own hf.decoder hf.fits rfl
  -- the sizes are recorded first: what the table evicts depends on its entries only
  obtain ⟨sz, u, hsz, hres⟩ := hpackDecodeResize_wire hf' hu
  obtain ⟨hents, hlim⟩ := hu.entries
  have hrep : ({ hp.toTable with sz := sz } : Table).Rep p.entries := hf.rep.congr rfl hsz.len rfl
  have hlimit : hpackDecodeLimit n ({ hp.advance st hp.ctx.fld rest [] [] with
      sz := sz, ctx.canUpd := u } : Hpack) = _ :=
    hpackDecodeLimit_eq hrep (Or.inl hf.fits) hsz.le
  have hgo : (({ hp.advance st hp.ctx.fld rest [] [] with
      sz := sz, ctx.canUpd := u } : Hpack).withTable
        (({ hp.toTable with sz := sz } : Table).limitTo n p.entries)).notify
          (evictEvents (p.entries.length - (fit Entry.size n p.entries).length) ++ [.table n])
      = hp.goOn (({ hp.toTable with sz := sz } : Table).limitTo n p.entries) st hp.ctx.fld rest []
          (evictEvents (p.entries.length - (fit Entry.size n p.entries).length) ++ [.table n])
          u := by
    simp only [Hpack.notify, Hpack.goOn, Hpack.advance, Hpack.withTable, hf.fits,
      Bool.false_eq_true, if_false, List.append_nil]
  have hstep : hpackDecodeUpdate hp = hpackDecodeLimit n ({ hp.advance st hp.ctx.fld rest [] [] with
      sz := sz, ctx.canUpd := u } : Hpack) := by
    rw [hpackDecodeUpdate, bind_apply, get_apply, Out.bind_ok, bind_apply, expect_apply,
      if_pos (hf.canUpd hallow), Out.bind_ok, bind_apply, hrun, Out.bind_ok, bind_apply, hres,
      Out.bind_ok]
  refine ⟨_, hstep.trans (hlimit.trans (congrArg _ hgo)),
    ⟨_, st, _, _, hbsy', hstp', rfl⟩, ⟨⟨?_, ?_, hf.own, ?_, ?_⟩, hf.decoder, hf.fits, hsz.max,
      hsz.maxAlloc, hsz.resize, hsz.canUpd⟩⟩
  · rw [hents]
    exact hrep.limitTo n
  · rw [hents]
    exact fun e he => hf.valid e ((fit_isPrefix _ _).subset he)
  · rw [hlim]
    exact Size.limit_natCast _ n
  · have := hsz.le
    show (n : ℤ) ≤ sz.max
    omega

variable (hns : nam.Spelled ns) (hrest : rest = ns ++ (vs ++ os'))

include hns hrest

theorem hpackDecodeLiteral_wire (hi : IntWire .lit nam.idx os) (hname : p.name nam = some h.nam)
    (hvs : StrWire h.val vs) (hvalid : ValidName h.nam ∧ ValidValue h.val)
    (hroom : hp.Room h.octets.length) :
    ∃ hp', hpackDecodeLiteral hp = .ok () hp' ∧
      hp.Reads os' [.field (some off) 0, .name h.nam, .value h.val] [h] p hp' := by
  obtain ⟨st, hbsy', hstp', hidx, hrun⟩ := hpackDecodeLiteral_starts hf hblk hbsy hstp hoff hi
  obtain ⟨st', hbsy'', hstp'', hfield⟩ := hpackDecodeField_reads hf hns hname hvs hvalid hrest hidx
    hbsy' hstp' hroom [.field (some off) 0]
  have hstep : hpackDecodeLiteral hp
      = hpackDecodeField (hp.advance st hp.ctx.fld rest [] [.field (some off) 0]) := by
    rw [hpackDecodeLiteral, bind_apply, get_apply, Out.bind_ok, bind_apply, when_apply,
      if_pos hstp, hrun, Out.bind_ok]
  exact ⟨_, hstep.trans hfield, hf.reads hbsy'' hstp'' _ os' _ h⟩

theorem hpackDecodeNever_wire (hi : IntWire .nvr nam.idx os) (hname : p.name nam = some h.nam)
    (hvs : StrWire h.val vs) (hvalid : ValidName h.nam ∧ ValidValue h.val)
    (hroom : hp.Room h.octets.length) :
    ∃ hp', hpackDecodeNever hp = .ok () hp' ∧
      hp.Reads os' [.field (some off) 0, .never, .name h.nam, .value h.val] [h] p hp' := by
  obtain ⟨st, hbsy', hstp', hidx, hrun⟩ := hpackDecodeLiteral_starts hf hblk hbsy hstp hoff hi
  obtain ⟨st', hbsy'', hstp'', hfield⟩ := hpackDecodeField_reads hf hns hname hvs hvalid hrest hidx
    hbsy' hstp' hroom [.field (some off) 0, .never]
  have hb : (hp.advance st hp.ctx.fld rest [] [.field (some off) 0]).ctx.tooBig = false := hf.fits
  have hstep : hpackDecodeNever hp
      = hpackDecodeField (hp.advance st hp.ctx.fld rest [] [.field (some off) 0, .never]) := by
    rw [hpackDecodeNever, bind_apply, get_apply, Out.bind_ok, bind_apply, when_apply,
      if_pos hstp, bind_apply, hrun, Out.bind_ok, hpcNotify_eq (Or.inl hb), Out.bind_ok,
      Hpack.notify_eq_advance hb, Hpack.advance_advance]
    rfl
  exact ⟨_, hstep.trans hfield, hf.reads hbsy'' hstp'' _ os' _ h⟩

theorem hpackDecodeDynamic_wire (hi : IntWire .dyn nam.idx os) (hname : p.name nam = some e.nam)
    (hvs : StrWire e.val vs) (hvalid : e.Valid) (hroom : hp.Room e.field.octets.length) :
    ∃ hp', hpackDecodeDynamic hp = .ok () hp' ∧
      hp.Reads os' ([.field (some off) 0, .name e.nam, .value e.val] ++
        insertEvents p.limit p.entries e) [e.field] (p.insert e) hp' := by
  obtain ⟨st, hbsy', hstp', hidx, hrun⟩ := hpackDecodeLiteral_starts hf hblk hbsy hstp hoff hi
  obtain ⟨st', hbsy'', hstp'', hfield⟩ := hpackDecodeField_reads (h := e.field) hf hns hname hvs
    hvalid hrest hidx hbsy' hstp' hroom [.field (some off) 0]
  generalize hevts : ([.field (some off) 0] ++ [.name e.field.nam, .value e.field.val] : List Event)
    = evts at hfield
  have hm : (hp.advance st' (hp.fieldAt e.field) os' e.field.octets evts).Mirrors p :=
    hf.toMirrors.congr rfl hf.own
  -- the entry is copied from the working buffer, where its field was just written
  obtain ⟨t, hindex, hm', hlen, hsz⟩ :=
    hptIndex_wire hm (hp.fieldAt_is e st' os' evts) hvalid (Or.inl hf.fits) hf.alloc
  have hstep : hpackDecodeDynamic hp = hptIndex
      (hp.advance st' (hp.fieldAt e.field) os' e.field.octets evts) := by
    rw [hpackDecodeDynamic, bind_apply, get_apply, Out.bind_ok, bind_apply, when_apply,
      if_pos hstp, hrun, Out.bind_ok, bind_apply, hfield, Out.bind_ok]
  rw [Hpack.notify_goOn hp t st' _ os' _ evts _ hf.fits] at hindex
  refine ⟨_, hstep.trans hindex, ?_, ?_⟩
  · rw [← hevts]
    exact ⟨t, st', _, _, hbsy'', hstp'', by rw [headerOctets_singleton]; rfl⟩
  · refine ⟨hm'.congr rfl hm'.own, hf.decoder, hf.fits, ?_, ?_, ?_, hf.canUpd⟩
    · show t.sz.max = p.max
      rw [hsz]
      exact hf.max
    · show p.max ≤ t.tbl.length
      rw [hlen]
      exact hf.maxAlloc
    · show t.sz.Waits t.tbl.length p.resize
      rw [hsz, hlen]
      exact hf.resize

end

/-! ### Turns -/

/-- How the patterns are told apart. -/
theorem leads_matches (b : UInt8) :
    (Hpp.idx.Leads b → Hpp.idx.matches b = true) ∧
    (Hpp.dyn.Leads b → Hpp.idx.matches b = false ∧ Hpp.dyn.matches b = true) ∧
    (Hpp.upd.Leads b → Hpp.idx.matches b = false ∧ Hpp.dyn.matches b = false ∧
      Hpp.upd.matches b = true) ∧
    (Hpp.nvr.Leads b → Hpp.idx.matches b = false ∧ Hpp.dyn.matches b = false ∧
      Hpp.upd.matches b = false ∧ Hpp.nvr.matches b = true) ∧
    (Hpp.lit.Leads b → Hpp.idx.matches b = false ∧ Hpp.dyn.matches b = false ∧
      Hpp.upd.matches b = false ∧ Hpp.nvr.matches b = false) := by
  refine Octets.forall_octet (p := fun b =>
    (Hpp.idx.Leads b → Hpp.idx.matches b = true) ∧
    (Hpp.dyn.Leads b → Hpp.idx.matches b = false ∧ Hpp.dyn.matches b = true) ∧
    (Hpp.upd.Leads b → Hpp.idx.matches b = false ∧ Hpp.dyn.matches b = false ∧
      Hpp.upd.matches b = true) ∧
    (Hpp.nvr.Leads b → Hpp.idx.matches b = false ∧ Hpp.dyn.matches b = false ∧
      Hpp.upd.matches b = false ∧ Hpp.nvr.matches b = true) ∧
    (Hpp.lit.Leads b → Hpp.idx.matches b = false ∧ Hpp.dyn.matches b = false ∧
      Hpp.upd.matches b = false ∧ Hpp.nvr.matches b = false)) ?_ b
  decide +kernel

/-- The function of each pattern. -/
def Hpp.decode : Hpp → Cp Unit
  | .idx => hpackDecodeIndexed
  | .dyn => hpackDecodeDynamic
  | .upd => hpackDecodeUpdate
  | .nvr => hpackDecodeNever
  | _ => hpackDecodeLiteral

/-- The pattern of a representation chooses the function. -/
theorem hpackDecodeAny_leads {b : UInt8} (r : Rep) (hb : r.hpp.Leads b) :
    hpackDecodeAny b = r.hpp.decode := by
  obtain ⟨hidx, hdyn, hupd, hnvr, hlit⟩ := leads_matches b
  rw [hpackDecodeAny]
  cases r with
  | indexed i => rw [if_pos (hidx hb)]; rfl
  | update n =>
    obtain ⟨h₁, h₂, h₃⟩ := hupd hb
    rw [if_neg (by simp [h₁]), if_neg (by simp [h₂]), if_pos h₃]
    rfl
  | literal t nam val =>
    cases t with
    | dyn =>
      obtain ⟨h₁, h₂⟩ := hdyn hb
      rw [if_neg (by simp [h₁]), if_pos h₂]
      rfl
    | nvr =>
      obtain ⟨h₁, h₂, h₃, h₄⟩ := hnvr hb
      rw [if_neg (by simp [h₁]), if_neg (by simp [h₂]), if_neg (by simp [h₃]), if_pos h₄]
      rfl
    | lit =>
      obtain ⟨h₁, h₂, h₃, h₄⟩ := hlit hb
      rw [if_neg (by simp [h₁]), if_neg (by simp [h₂]), if_neg (by simp [h₃]),
        if_neg (by simp [h₄])]
      rfl

/-- The codec with the first octet of a representation saved. -/
def Hpack.saving (hp : Hpack) (b : UInt8) (u : Bool) : Hpack :=
  { hp with state.typ := b, ctx.canUpd := u }

/-- A representation, once its first octet is saved. -/
theorem hpackDecodeRep_wire (cut : Bool) {b : UInt8} {u : Bool} {r : Rep} (hb : r.hpp.Leads b)
    (h : ∃ hp', r.hpp.decode (hp.saving b u) = .ok () hp' ∧
      (hp.saving b u).Reads rest evts hs p hp') :
    ∃ hp', hpackDecodeRep cut b (hp.saving b u) = .ok none hp' ∧ hp'.ctx.fld = Fld.zero ∧
      hp.Reads rest evts hs p hp' := by
  obtain ⟨hp', hrun, hreads⟩ := h
  obtain ⟨t, st, fld, u', hbsy, hstp, rfl⟩ := hreads.went
  rw [hpackDecodeRep, bind_apply, attempt_apply, hpackDecodeAny_leads r hb, hrun]
  exact ⟨_, rfl, rfl, ⟨t, st, Fld.zero, u', hbsy, hstp, rfl⟩,
    hreads.follows.congr rfl hreads.follows.own hreads.follows.decoder hreads.follows.fits rfl⟩

/-- A turn saves the first octet; a field ends the updates. -/
theorem hpackDecodeTurn_saving (cut : Bool) {b : UInt8} {blk : Octets}
    (hblk : hp.ctx.blk = b :: blk) (hbsy : hp.state.bsy = false) (hstp : hp.state.stp = .fldInt)
    (hres : Hpp.upd.matches b = true ∨ (hp.sz.min < 0 ∧ hp.sz.nxt < 0)) :
    hpackDecodeTurn cut hp
      = hpackDecodeRep cut b (hp.saving b (hp.ctx.canUpd && Hpp.upd.matches b)) := by
  have htyp : hpackDecodeTyp hp = .ok () { hp with state.typ := b } := by
    rw [hpackDecodeTyp, bind_apply, get_apply, Out.bind_ok, when_apply, if_pos ⟨hbsy, hstp⟩, hblk]
    rfl
  rw [hpackDecodeTurn, bind_apply, htyp, Out.bind_ok, bind_apply, get_apply, Out.bind_ok]
  by_cases hupd : Hpp.upd.matches b = true
  · have hfield : ¬ Hpp.upd.matches b = false := by simp [hupd]
    refine (ite_run _ _ _ _).trans ((if_neg fun h => hfield h.1).trans ?_)
    rw [bind_apply, when_apply]
    refine (congrArg (fun o => Out.bind o _) (if_neg hfield)).trans ?_
    rw [hupd, Bool.and_true]
    rfl
  · have hfield : Hpp.upd.matches b = false := Bool.eq_false_iff.2 hupd
    obtain ⟨hmin, hnxt⟩ := hres.resolve_left hupd
    refine (ite_run _ _ _ _).trans ((if_neg fun h => absurd h.2 (not_le.2 hnxt)).trans ?_)
    rw [bind_apply, when_apply]
    refine (congrArg (fun o => Out.bind o _) ((if_pos hfield).trans
      (assert_bind_pos hmin _ _))).trans ?_
    rw [hfield, Bool.and_false]
    rfl

theorem Hpack.Follows.saving (hf : hp.Follows p) {b : UInt8} {u : Bool}
    (hu : p.canUpd = true → u = true) : (hp.saving b u).Follows p :=
  have hkept : ({ hp with state.typ := b } : Hpack).Follows p :=
    hf.congr rfl hf.own hf.decoder hf.fits rfl
  { hkept with
    toMirrors := hf.toMirrors.congr rfl hf.own
    canUpd := hu }

/-- **A turn of the loop reads a representation as the format means it.** -/
theorem hpackDecodeTurn_wire (cut : Bool) (hf : hp.Follows p) (hw : r.Wire os)
    (hs₀ : p.Step off r evts hs p') (hblk : hp.ctx.blk = os ++ rest) (hbsy : hp.state.bsy = false)
    (hstp : hp.state.stp = .fldInt) (hoff : hp.ctx.arg.blkLen = off + hp.ctx.blk.length)
    (hroom : hp.Room (headerOctets hs).length) :
    ∃ hp', hpackDecodeTurn cut hp = .ok none hp' ∧ hp'.ctx.fld = Fld.zero ∧
      hp.Reads rest evts hs p' hp' := by
  have hlead := hw.leads rest
  rw [← hblk] at hlead
  obtain ⟨b, blk, hcons⟩ : ∃ b blk, hp.ctx.blk = b :: blk := by
    rw [hblk]
    exact List.exists_cons_of_ne_nil fun h => hw.ne_nil (List.append_eq_nil_iff.1 h).1
  have hb : r.hpp.Leads b := by rwa [hcons] at hlead
  -- a field may only start once every resize is acknowledged
  have hcase : Hpp.upd.matches b = true ∨ (hp.sz.min < 0 ∧ hp.sz.nxt < 0) := by
    have hres := hf.resize
    cases hs₀ with
    | update _ _ => exact Or.inl ((leads_matches b).2.2.1 hb).2.2
    | indexed h _ | literal h _ _ | never h _ _ | dynamic h _ _ =>
      rw [h] at hres
      exact Or.inr hres
  rw [hpackDecodeTurn_saving cut hcons hbsy hstp hcase]
  generalize hu : (hp.ctx.canUpd && Hpp.upd.matches b) = u
  have hsaved : (hp.saving b u).Follows p.started := hf.started.saving Bool.noConfusion
  have hroom' : (hp.saving b u).Room (headerOctets hs).length := hroom.congr rfl rfl rfl rfl
  refine hpackDecodeRep_wire cut hb ?_
  cases hs₀ with
  | indexed settled found =>
    cases hw with
    | indexed hi =>
      rw [headerOctets_singleton] at hroom'
      exact hpackDecodeIndexed_wire hsaved hblk hbsy hstp hoff hi found hroom'
  | literal settled name valid =>
    cases hw with
    | literal hi hn hv =>
      rw [headerOctets_singleton] at hroom'
      rw [List.append_assoc] at hblk
      exact hpackDecodeLiteral_wire hsaved hblk hbsy hstp hoff hn (List.append_assoc ..) hi name hv
        valid hroom'
  | never settled name valid =>
    cases hw with
    | literal hi hn hv =>
      rw [headerOctets_singleton] at hroom'
      rw [List.append_assoc] at hblk
      exact hpackDecodeNever_wire hsaved hblk hbsy hstp hoff hn (List.append_assoc ..) hi name hv
        valid hroom'
  | dynamic settled name valid =>
    cases hw with
    | literal hi hn hv =>
      rw [headerOctets_singleton] at hroom'
      rw [List.append_assoc] at hblk
      exact hpackDecodeDynamic_wire hsaved hblk hbsy hstp hoff hn (List.append_assoc ..) hi name hv
        valid hroom'
  | update allowed upd =>
    cases hw with
    | update hi =>
      have hu' : u = true := by
        rw [← hu, hf.canUpd allowed, ((leads_matches b).2.2.1 hb).2.2]
        rfl
      exact hpackDecodeUpdate_wire (hf.saving fun _ => hu') hblk hbsy hi allowed upd hstp

/-! ### Blocks -/

theorem Hpack.Reads.refl (hf : hp.Follows p) (hblk : hp.ctx.blk = rest)
    (hbsy : hp.state.bsy = false) (hstp : hp.state.stp = .fldInt) : hp.Reads rest [] [] p hp where
  went := by
    refine ⟨hp.toTable, hp.state, hp.ctx.fld, hp.ctx.canUpd, hbsy, hstp, ?_⟩
    have hnil : headerOctets [] = [] := rfl
    rw [hnil, Hpack.goOn, Hpack.advance_nil, ← hblk]
  follows := hf

/-- The loop reads the representations one after the other. -/
theorem hpackDecodeLoop_wire (cut : Bool) (hblock : p.Block off os evts hs p') :
    ∀ hp : Hpack, hp.Follows p → hp.ctx.blk = os → hp.state.bsy = false → hp.state.stp = .fldInt →
      hp.ctx.arg.blkLen = off + hp.ctx.blk.length → hp.Room (headerOctets hs).length →
      ∀ fuel > os.length, ∃ hp', hpackDecodeLoop cut fuel hp = hpackDecodeEnd hp' ∧
        hp.Reads [] evts hs p' hp' := by
  induction hblock with
  | nil off p =>
    intro hp hf hblk hbsy hstp hoff _ fuel hfuel
    obtain ⟨k, rfl⟩ : ∃ k, fuel = k + 1 := ⟨fuel - 1, by rw [List.length_nil] at hfuel; omega⟩
    refine ⟨hp, ?_, .refl hf hblk hbsy hstp⟩
    rw [hpackDecodeLoop, bind_apply, get_apply, Out.bind_ok, ite_run, if_pos hblk]
  | @cons off p p₁ p₂ r os os' evts evts' hs hs' wire step tail ih =>
    intro hp hf hblk hbsy hstp hoff hroom fuel hfuel
    -- a turn takes one octet at least, so the fuel outlasts the block
    have hpos : 0 < os.length := List.length_pos_of_ne_nil wire.ne_nil
    rw [List.length_append] at hfuel
    obtain ⟨k, rfl⟩ : ∃ k, fuel = k + 1 := ⟨fuel - 1, by omega⟩
    rw [headerOctets_append, List.length_append] at hroom
    obtain ⟨hp₁, hturn, -, hreads⟩ := hpackDecodeTurn_wire cut hf wire step hblk hbsy hstp hoff
      (hroom.mono (Nat.le_add_right _ _))
    have hne : hp.ctx.blk ≠ [] := by
      rw [hblk]
      exact fun h => wire.ne_nil (List.append_eq_nil_iff.1 h).1
    have hstep : hpackDecodeLoop cut (k + 1) hp = hpackDecodeLoop cut k hp₁ := by
      rw [hpackDecodeLoop, bind_apply, get_apply, Out.bind_ok, ite_run, if_neg hne, bind_apply,
        hturn, Out.bind_ok]
    obtain ⟨t, st, fld, u, hbsy', hstp', rfl⟩ := hreads.went
    have hoff' : hp.ctx.arg.blkLen = off + os.length + os'.length := by
      rw [hoff, hblk, List.length_append, Nat.add_assoc]
    have hroom' : (hp.goOn t st fld os' (headerOctets hs) evts u).Room (headerOctets hs').length :=
      hroom.write.congr rfl rfl rfl rfl
    obtain ⟨hp₂, hloop, hreads'⟩ :=
      ih _ hreads.follows rfl hbsy' hstp' hoff' hroom' k (by omega)
    exact ⟨hp₂, hstep.trans hloop, hreads.trans hreads'⟩

/-- A block starts. -/
theorem Hpack.Idle.enters {dec : Decoding} (h : hp.Idle) (hv : dec.Valid) :
    Enters dec hp (hpackDecodeArg dec (hp.begin dec)) where
  magic := h.magic
  valid := hv
  enter := by
    have hblk : hp.ctx.res ≠ .blk := by
      rw [h.res]
      exact Res.noConfusion
    refine ⟨_, ?_, rfl⟩
    rw [hpackDecodeBegin, bind_apply, get_apply, Out.bind_ok, assert_bind_pos h.own, ite_run,
      if_neg hblk, assert_bind_pos h.res, bind_apply, expect_apply, if_pos h.tooBig, Out.bind_ok,
      modify_apply]
    rfl

theorem Hpack.Follows.enters {dec : Decoding} (hf : hp.Follows p) :
    (hpackDecodeArg dec (hp.begin dec)).Follows p.opened where
  rep := hf.rep
  valid := hf.valid
  own := hf.own
  limit := hf.limit
  lim_le := hf.lim_le
  decoder := hf.decoder
  fits := hf.fits
  max := hf.max
  maxAlloc := hf.maxAlloc
  resize := hf.resize
  canUpd _ := rfl

/-- A call reads a block from where its loop starts. -/
theorem hpackDecode_entered {dec : Decoding} {hl : Hpack} (he : Enters dec hp hl)
    (hl' : hl.Follows p) (hat : hl.state.AtStart) (hblock : p.Block 0 dec.blk evts hs p')
    (hroom : hl.Room (headerOctets hs).length) :
    ∃ hp', hpackDecode dec hp = .ok (if dec.cut then .blk else .ok) hp' ∧
      hl.Reads [] evts hs p' hp' := by
  obtain ⟨hb, hbegin, harg⟩ := he.enter
  have hblk : hl.ctx.blk = dec.blk := by rw [harg]; rfl
  have hlen : hl.ctx.arg.blkLen = 0 + hl.ctx.blk.length := by
    rw [hblk, harg]
    exact (Nat.zero_add _).symm
  have hres : hl.ctx.res = if dec.cut then .blk else .ok := by rw [harg]; rfl
  have hfits : hl.ctx.tooBig = false := hl'.fits
  obtain ⟨hp', hloop, hreads⟩ := hpackDecodeLoop_wire dec.cut hblock hl hl' hblk hat.1 hat.2 hlen
    hroom (dec.blk.length + 1) (Nat.lt_succ_self _)
  obtain ⟨t, st, fld, u, hbsy, hstp, rfl⟩ := hreads.went
  refine ⟨_, ?_, hreads⟩
  rw [he.decode_eq, hloop, hpackDecodeEnd, bind_apply, get_apply, Out.bind_ok]
  have hends : hl.ctx.res = .ok ∨ hl.ctx.res = .blk := by
    rw [hres]
    cases dec.cut
    · exact Or.inl rfl
    · exact Or.inr rfl
  refine (assert_bind_pos hends _ _).trans ?_
  rw [pure_apply, ← hres]
  have hskip : ¬ (hl.ctx.tooBig = true ∧ hl.ctx.res = .ok) := fun h => by
    rw [hfits] at h
    exact Bool.false_ne_true h.1
  exact congrArg (fun r => Out.ok r _) (if_neg hskip)

/-- A decoder between two blocks reads the next one as the format means it. -/
theorem hpackDecode_wire {dec : Decoding} (hf : hp.Follows p) (hidle : hp.Idle) (hv : dec.Valid)
    (hblock : p.opened.Block 0 dec.blk evts hs p')
    (hroom : (headerOctets hs).length ≤ dec.bufLen) :
    ∃ hp', hpackDecode dec hp = .ok (if dec.cut then .blk else .ok) hp' ∧ hp'.Follows p' ∧
      hp'.ctx.log = hp.ctx.log ++ evts ∧ hp'.ctx.org = dec.buf ∧
      hp'.ctx.out = headerOctets hs ∧ hp'.ctx.bufLen = dec.bufLen - (headerOctets hs).length ∧
      hp'.state.AtStart ∧ hp'.ctx.res = if dec.cut then .blk else .ok := by
  have hroom' : (hpackDecodeArg dec (hp.begin dec)).Room (headerOctets hs).length :=
    ⟨le_rfl, le_rfl, hroom⟩
  obtain ⟨hp', hrun, hreads⟩ :=
    hpackDecode_entered (hidle.enters hv) hf.enters ⟨hidle.bsy, rfl⟩ hblock hroom'
  obtain ⟨t, st, fld, u, hbsy, hstp, rfl⟩ := hreads.went
  exact ⟨_, hrun, hreads.follows, rfl, rfl, rfl, rfl, ⟨hbsy, hstp⟩, rfl⟩

/-! ### Parts of a block -/

/-- The decoder waits for another part of a block, in the middle of which it gave the fields `hs`
in the buffer `buf` of `len` octets. -/
structure Hpack.Halfway (hp : Hpack) (p : Peer) (buf len : ℕ) (hs : List Header) : Prop where
  follows : hp.Follows p
  res : hp.ctx.res = .blk
  start : hp.state.AtStart
  org : hp.ctx.org = buf
  out : hp.ctx.out = headerOctets hs
  bufLen : hp.ctx.bufLen = len - (headerOctets hs).length
  room : (headerOctets hs).length ≤ len

/-- A block resumes. -/
theorem Hpack.Halfway.enters {dec : Decoding} {hs₀ : List Header}
    (h : hp.Halfway p dec.buf dec.bufLen hs₀) (hv : dec.Valid) :
    Enters dec hp (hpackDecodeArg dec hp) where
  magic := h.follows.decoder
  valid := hv
  enter := by
    have hlen : hp.ctx.out.length = (headerOctets hs₀).length := by rw [h.out]
    have horg := h.org
    have hleft := h.bufLen
    have hroom := h.room
    have hpos : hp.ctx.org + hp.ctx.out.length ≠ 0 := by
      have := hv.2.1
      omega
    have hsame : dec.buf + dec.bufLen = hp.ctx.org + hp.ctx.out.length + hp.ctx.bufLen := by omega
    refine ⟨hp, ?_, rfl⟩
    rw [hpackDecodeBegin, bind_apply, get_apply, Out.bind_ok, assert_bind_pos h.follows.own,
      ite_run, if_pos h.res]
    exact (assert_bind_pos hpos _ _).trans (by rw [expect_apply, if_pos hsame])

/-- A decoder in the middle of a block reads the next part of it. -/
theorem hpackDecode_resumed {dec : Decoding} {hs₀ : List Header}
    (h : hp.Halfway p dec.buf dec.bufLen hs₀) (hv : dec.Valid)
    (hblock : p.Block 0 dec.blk evts hs p')
    (hroom : (headerOctets (hs₀ ++ hs)).length ≤ dec.bufLen) :
    ∃ hp', hpackDecode dec hp = .ok (if dec.cut then .blk else .ok) hp' ∧ hp'.Follows p' ∧
      hp'.ctx.log = hp.ctx.log ++ evts ∧ hp'.ctx.org = dec.buf ∧
      hp'.ctx.out = headerOctets (hs₀ ++ hs) ∧
      hp'.ctx.bufLen = dec.bufLen - (headerOctets (hs₀ ++ hs)).length ∧
      hp'.state.AtStart ∧ hp'.ctx.res = if dec.cut then .blk else .ok := by
  have hf := h.follows
  have hlen : hp.ctx.out.length = (headerOctets hs₀).length := by rw [h.out]
  have horg := h.org
  have hleft := h.bufLen
  rw [headerOctets_append, List.length_append] at hroom
  have hroom' : (hpackDecodeArg dec hp).Room (headerOctets hs).length := by
    refine ⟨?_, ?_, ?_⟩
    · show dec.buf ≤ hp.ctx.org + hp.ctx.out.length
      omega
    · show hp.ctx.org + hp.ctx.out.length + hp.ctx.bufLen ≤ dec.buf + dec.bufLen
      omega
    · show (headerOctets hs).length ≤ hp.ctx.bufLen
      omega
  have hl : (hpackDecodeArg dec hp).Follows p := hf.congr rfl hf.own hf.decoder hf.fits rfl
  obtain ⟨hp', hrun, hreads⟩ := hpackDecode_entered (h.enters hv) hl h.start hblock hroom'
  obtain ⟨t, st, fld, u, hbsy, hstp, rfl⟩ := hreads.went
  refine ⟨_, hrun, hreads.follows, rfl, horg, ?_, ?_, ⟨hbsy, hstp⟩, rfl⟩
  · show hp.ctx.out ++ headerOctets hs = _
    rw [h.out, headerOctets_append]
  · show hp.ctx.bufLen - (headerOctets hs).length = _
    rw [hleft, headerOctets_append, List.length_append, Nat.sub_sub]

/-- The calls for the parts of a block: all but the last one are cut, and all go well. -/
inductive PartCalls : List Decoding → Hpack → Hpack → Prop
  | last {dec : Decoding} {hp hp' : Hpack} (run : hpackDecode dec hp = .ok .ok hp') :
    PartCalls [dec] hp hp'
  | more {dec : Decoding} {ds : List Decoding} {hp hp' hp'' : Hpack}
    (run : hpackDecode dec hp = .ok .blk hp') (rest : PartCalls ds hp' hp'') :
    PartCalls (dec :: ds) hp hp''

/-- What the parts of a block mean, which are cut between two representations and decoded in the
buffer `buf` of `len` octets. -/
inductive Peer.Parts (buf len : ℕ) :
    Peer → List Decoding → List Event → List Header → Peer → Prop
  | last {p p' : Peer} {dec : Decoding} {evts : List Event} {hs : List Header} (valid : dec.Valid)
    (cut : dec.cut = false) (same : dec.buf = buf ∧ dec.bufLen = len)
    (block : p.Block 0 dec.blk evts hs p') : Parts buf len p [dec] evts hs p'
  | more {p p' p'' : Peer} {dec : Decoding} {ds : List Decoding} {evts evts' : List Event}
    {hs hs' : List Header} (valid : dec.Valid) (cut : dec.cut = true)
    (same : dec.buf = buf ∧ dec.bufLen = len) (block : p.Block 0 dec.blk evts hs p')
    (rest : Parts buf len p' ds evts' hs' p'') :
    Parts buf len p (dec :: ds) (evts ++ evts') (hs ++ hs') p''

/-- The parts after the first one. -/
theorem hpackDecode_rest {buf len : ℕ} {ds : List Decoding}
    (hparts : Peer.Parts buf len p ds evts hs p') :
    ∀ hp hs₀, hp.Halfway p buf len hs₀ → (headerOctets (hs₀ ++ hs)).length ≤ len →
      ∃ hp', PartCalls ds hp hp' ∧ hp'.Follows p' ∧ hp'.ctx.log = hp.ctx.log ++ evts ∧
        hp'.ctx.out = headerOctets (hs₀ ++ hs) ∧ hp'.Idle := by
  induction hparts with
  | last valid cut same block =>
    obtain ⟨rfl, rfl⟩ := same
    intro hp hs₀ h hroom
    obtain ⟨hp', hrun, hf, hlog, -, hout, -, hat, hres⟩ := hpackDecode_resumed h valid block hroom
    rw [cut] at hrun hres
    exact ⟨hp', .last hrun, hf, hlog, hout, ⟨hf.decoder, hres, hf.fits, hf.own, hat.1⟩⟩
  | @more p p₁ p₂ dec ds evts evts' hs hs' valid cut same block _ ih =>
    obtain ⟨rfl, rfl⟩ := same
    intro hp hs₀ h hroom
    rw [← List.append_assoc] at hroom
    have hfirst : (headerOctets (hs₀ ++ hs)).length ≤ dec.bufLen := by
      rw [headerOctets_append, List.length_append] at hroom
      omega
    obtain ⟨hp₁, hrun, hf, hlog, horg, hout, hlen, hat, hres⟩ :=
      hpackDecode_resumed h valid block hfirst
    rw [cut] at hrun hres
    obtain ⟨hp₂, hcalls, hf₂, hlog₂, hout₂, hidle⟩ :=
      ih hp₁ _ ⟨hf, hres, hat, horg, hout, hlen, hfirst⟩ hroom
    rw [List.append_assoc] at hout₂
    exact ⟨hp₂, .more hrun hcalls, hf₂, by rw [hlog₂, hlog, List.append_assoc], hout₂, hidle⟩

/-- A decoder between two blocks reads the parts of the next one. -/
theorem hpackDecode_partsWire {buf len : ℕ} {ds : List Decoding} (hf : hp.Follows p)
    (hidle : hp.Idle) (hparts : Peer.Parts buf len p.opened ds evts hs p')
    (hroom : (headerOctets hs).length ≤ len) :
    ∃ hp', PartCalls ds hp hp' ∧ hp'.Follows p' ∧ hp'.ctx.log = hp.ctx.log ++ evts ∧
      hp'.ctx.out = headerOctets hs ∧ hp'.Idle := by
  cases hparts with
  | last valid cut same block =>
    obtain ⟨rfl, rfl⟩ := same
    obtain ⟨hp', hrun, hf', hlog, -, hout, -, hat, hres⟩ :=
      hpackDecode_wire hf hidle valid block hroom
    rw [cut] at hrun hres
    exact ⟨hp', .last hrun, hf', hlog, hout, ⟨hf'.decoder, hres, hf'.fits, hf'.own, hat.1⟩⟩
  | @more _ p₁ _ dec ds evts evts' hs hs' valid cut same block rest =>
    obtain ⟨rfl, rfl⟩ := same
    have hfirst : (headerOctets hs).length ≤ dec.bufLen := by
      rw [headerOctets_append, List.length_append] at hroom
      omega
    obtain ⟨hp₁, hrun, hf₁, hlog, horg, hout, hlen, hat, hres⟩ :=
      hpackDecode_wire hf hidle valid block hfirst
    rw [cut] at hrun hres
    obtain ⟨hp₂, hcalls, hf₂, hlog₂, hout₂, hidle₂⟩ :=
      hpackDecode_rest rest hp₁ hs ⟨hf₁, hres, hat, horg, hout, hlen, hfirst⟩ hroom
    exact ⟨hp₂, .more hrun hcalls, hf₂, by rw [hlog₂, hlog, List.append_assoc], hout₂, hidle₂⟩

/-! ### Runs -/

/-- Calls that neither move the codec nor give back memory a resize asked for. -/
def InMemory (op : DecOp) (hp : Hpack) : Prop := Steady op hp ∧ TrimOk op hp

/-- The peer that a decoder follows. -/
def Hpack.peer (hp : Hpack) (l : List Entry) : Peer where
  entries := l
  max := hp.sz.max
  limit := hp.sz.limit
  resize := if hp.sz.nxt < 0 then none else some (hp.sz.min.toNat, hp.sz.nxt.toNat)
  canUpd := false

/-- Every live decoder that has nothing to skip follows a peer. -/
theorem decoder_follows {max : ℕ} {rsz : ℤ} {ha : Alloc} {hp₀ : Hpack}
    (hnew : hpackDecoder max rsz ha () = .ok (some hp₀) ())
    (hrun : Reach DecOp.exec InMemory hp₀ hp) (hm : hp.magic = .decoder)
    (hb : hp.ctx.tooBig = false) : ∃ l, hp.Follows (hp.peer l) := by
  have hsound : Resumes hp := by
    refine hrun.invariant (resumes_new hnew) fun op hp r hp' h _ hr => ?_
    have h' := exec_sound op h
    rwa [hr] at h'
  have hfits : hp.Decoder True := by
    refine hrun.invariant (decoder_new (.decoder hnew)) fun op hp r hp' h hop hr => ?_
    have h' := fits_exec op h fun _ => hop.2
    rwa [hr] at h'
  have hready := decoder_ready (.decoder hnew) (hrun.mono fun _ _ h => h.1)
  obtain ⟨l, hrep, hvalid⟩ := hsound.1.inv.1.table
  have ht : hp.toTable.Fits True := hfits.1.1
  have hmax : hp.sz.max ≤ hp.tbl.length := ht.mem ▸ ht.max_le trivial
  refine ⟨l, ⟨⟨hrep, hvalid, hready.own, rfl, ht.lim_le⟩, hm, hb, rfl, hmax, ?_,
    Bool.noConfusion⟩⟩
  · have hnxt := ht.nxt_le trivial
    have hpend := ht.pend
    have hmem := ht.mem
    show hp.sz.Waits hp.tbl.length (if hp.sz.nxt < 0 then none else some (_, _))
    split
    · exact ⟨by omega, ‹_›⟩
    · exact ⟨by omega, by omega, by omega, by omega⟩

/-- **A decoder reads every block of the format as the format means it**: an idle decoder accepts
each one that starts from its tables, delivers its header fields and the events of its
representations in order, and ends with the tables the block leads to. -/
theorem hpackDecode_block {max : ℕ} {rsz : ℤ} {ha : Alloc} {hp₀ : Hpack}
    (hnew : hpackDecoder max rsz ha () = .ok (some hp₀) ())
    (hrun : Reach DecOp.exec InMemory hp₀ hp) (hidle : hp.Idle) :
    ∃ p : Peer, hp.Follows p ∧ ∀ (dec : Decoding) evts hs p', dec.Valid →
      p.opened.Block 0 dec.blk evts hs p' → (headerOctets hs).length ≤ dec.bufLen →
      ∃ hp', hpackDecode dec hp = .ok (if dec.cut then .blk else .ok) hp' ∧ hp'.Follows p' ∧
        hp'.ctx.log = hp.ctx.log ++ evts ∧ hp'.ctx.out = headerOctets hs := by
  obtain ⟨l, hf⟩ := decoder_follows hnew hrun hidle.magic hidle.tooBig
  refine ⟨hp.peer l, hf, fun dec evts hs p' hv hblock hroom => ?_⟩
  obtain ⟨hp', hrun', hf', hlog, -, hout, -⟩ := hpackDecode_wire hf hidle hv hblock hroom
  exact ⟨hp', hrun', hf', hlog, hout⟩

/-- A block of one octet, for the second entry of the static table. -/
theorem methodBlock (settled : p.resize = none) :
    p.Block 0 [0x82] [.field (some 0) 2, .name (ascii ":method"), .value (ascii "GET")]
      [⟨ascii ":method", ascii "GET"⟩] p.started := by
  have hstep : p.Step 0 (.indexed 2) _ [⟨ascii ":method", ascii "GET"⟩] _ :=
    .indexed settled (by rfl)
  have hlead : ∀ b ∈ ([0x82] : Octets).head?, Hpp.idx.Leads b := by
    intro b hb
    obtain rfl : 0x82 = b := Option.some.inj hb
    decide
  have hwire : (Rep.indexed 2).Wire [0x82] := .indexed ⟨by decide, hlead, by decide, by decide⟩
  exact .cons hwire hstep (.nil _ _)

theorem smallDecoder_settled (hf : smallDecoder.Follows p) : p.opened.resize = none := by
  show p.resize = none
  cases hres : p.resize with
  | none => rfl
  | some r =>
    have := hf.resize
    rw [hres] at this
    exact absurd this.1 (by show (-1 : ℤ) ≠ r.1; omega)

/-- A decoder given the block of the method. -/
theorem hpackDecode_block_indexed :
    ∃ hp', hpackDecode ⟨[0x82], 1, 100, true, false⟩ smallDecoder = .ok .ok hp' ∧
      hp'.ctx.out = ascii ":method" ++ [0] ++ (ascii "GET" ++ [0]) := by
  obtain ⟨p, hf, h⟩ := hpackDecode_block smallDecoder_new (.refl _) ⟨rfl, rfl, rfl, rfl, rfl⟩
  obtain ⟨hp', hrun, -, -, hout⟩ := h ⟨[0x82], 1, 100, true, false⟩ _ _ _
    ⟨by decide, by decide, by decide, rfl⟩ (methodBlock (smallDecoder_settled hf)) (by decide)
  exact ⟨hp', hrun, hout⟩

/-- **A block is read alike in several parts**: an idle decoder that is given the parts of a block
one after the other, all in the same buffer, delivers the fields and the events of all of them. -/
theorem hpackDecode_parts {max : ℕ} {rsz : ℤ} {ha : Alloc} {hp₀ : Hpack}
    (hnew : hpackDecoder max rsz ha () = .ok (some hp₀) ())
    (hrun : Reach DecOp.exec InMemory hp₀ hp) (hidle : hp.Idle) :
    ∃ p : Peer, hp.Follows p ∧ ∀ buf len ds evts hs p',
      Peer.Parts buf len p.opened ds evts hs p' → (headerOctets hs).length ≤ len →
      ∃ hp', PartCalls ds hp hp' ∧ hp'.Follows p' ∧ hp'.ctx.log = hp.ctx.log ++ evts ∧
        hp'.ctx.out = headerOctets hs ∧ hp'.Idle := by
  obtain ⟨l, hf⟩ := decoder_follows hnew hrun hidle.magic hidle.tooBig
  exact ⟨hp.peer l, hf, fun _ _ _ _ _ _ hparts hroom =>
    hpackDecode_partsWire hf hidle hparts hroom⟩

/-- A decoder given the method twice, in two parts of a block. -/
theorem hpackDecode_parts_indexed :
    ∃ hp', PartCalls [⟨[0x82], 1, 100, true, true⟩, ⟨[0x82], 1, 100, true, false⟩]
        smallDecoder hp' ∧
      hp'.ctx.out = headerOctets (List.replicate 2 ⟨ascii ":method", ascii "GET"⟩) := by
  obtain ⟨p, hf, h⟩ := hpackDecode_parts smallDecoder_new (.refl _) ⟨rfl, rfl, rfl, rfl, rfl⟩
  have hset := smallDecoder_settled hf
  have hfirst := methodBlock hset
  have hsecond := methodBlock (p := p.opened.started) hset
  obtain ⟨hp', hcalls, -, -, hout, -⟩ := h 1 100
    [⟨[0x82], 1, 100, true, true⟩, ⟨[0x82], 1, 100, true, false⟩] _ _ _
    (.more ⟨by decide, by decide, by decide, rfl⟩ rfl ⟨rfl, rfl⟩ hfirst
      (.last ⟨by decide, by decide, by decide, rfl⟩ rfl ⟨rfl, rfl⟩ hsecond)) (by decide)
  exact ⟨hp', hcalls, hout⟩

end Cashpack
