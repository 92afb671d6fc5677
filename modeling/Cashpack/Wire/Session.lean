import Cashpack.Wire.Fields
import Cashpack.Wire.Send

/-!
# Sessions

An encoder and a decoder that are created for the same maximum, told of the same resizes, and
linked by the octets of the blocks.  `Linked` is what both keep: one peer describes the tables and
the sizes of the two ends, so that what one writes with them, the other reads.

## Main definitions

* `Session` : the pairs of codecs that a session reaches.

## Main results

* `Session.linked` : the two ends stay linked.
* `session_round_trip` : each block is read as its fields were meant.
-/

namespace Cashpack

open Prog Fifo

variable {hp hp' he he' hd hd' : Hpack} {p p' : Peer} {len mem : ℕ} {re re' : Option Block}

/-! ### Resizes -/

/-- The codec in as much memory, or more. -/
structure Hpack.Grown (hp : Hpack) (mem : ℕ) (hp' : Hpack) : Prop where
  frame : hp' = { hp with
    addr := hp'.addr, tbl := hp'.tbl, sz.mem := hp'.sz.mem, ctx.hp := hp'.ctx.hp }
  own : hp.ctx.hp = hp.addr → hp'.ctx.hp = hp'.addr
  rep : ∀ l, hp.toTable.Rep l → hp'.toTable.Rep l
  fits : hp.sz.mem = hp.tbl.length → hp'.sz.mem = hp'.tbl.length
  le : hp.sz.mem = hp.tbl.length → hp.tbl.length ≤ hp'.tbl.length ∧ mem ≤ hp'.tbl.length
  small : mem ≤ uint16Max → hp.tbl.length ≤ uint16Max → hp'.tbl.length ≤ uint16Max

theorem hpackRealloc_ok {r : Res} (h : hpackRealloc mem re hp = .ok r hp') (hr : ¬ r.val < 0) :
    r = .ok ∧ hp.Grown mem hp' := by
  unfold hpackRealloc at h
  rw [bind_apply, get_apply, Out.bind_ok, ite_run] at h
  by_cases hle : mem ≤ hp.sz.mem
  · rw [if_pos hle] at h
    cases h
    exact ⟨rfl, rfl, fun h => h, fun _ h => h, fun h => h, fun h => ⟨le_rfl, h ▸ hle⟩, fun _ h => h⟩
  rw [if_neg hle] at h
  obtain ⟨hlen, h⟩ := assert_bind_eq_ok h
  rw [ite_run] at h
  by_cases hre : hp.realloc = false
  · rw [if_pos hre] at h
    cases h
    exact absurd (by decide) hr
  rw [if_neg hre] at h
  cases re with
  | none =>
    cases h
    exact absurd (by decide) hr
  | some blk =>
    cases h
    have htbl : (hp.move mem blk).tbl.length = mem := by
      show (hp.tbl.take mem ++ blk.octets hp.tbl.length (mem - hp.tbl.length)).length = mem
      rw [List.length_append, List.length_take, Block.length_octets]
      omega
    refine ⟨rfl, rfl, fun _ => rfl, fun l h => ?_, fun _ => htbl.symm, fun h => ?_, fun h _ => ?_⟩
    · exact (h.move (blk.octets hp.tbl.length (mem - hp.tbl.length)) hlen).congr rfl rfl rfl
    · exact ⟨by rw [show _ = mem from htbl]; omega, htbl.ge⟩
    · exact htbl.trans_le h

/-- The size of the next resize to signal. -/
def Peer.resized (p : Peer) (n : ℕ) : Peer :=
  { p with resize := match p.resize with
    | none => some (n, n)
    | some (m, _) => some (min m n, n) }

/-- A resize in its parts. -/
theorem hpackResize_ok (hlive : hp.magic = .decoder ∨ hp.magic = .encoder)
    (h : hpackResize len re hp = .ok .ok hp') :
    hp.ctx.res = .ok ∧ ∃ max mem hp₁, max ≤ Max.max hp.sz.mem uint16Max ∧ mem ≤ max ∧
      hpackResizeMem len max hp = .ok mem hp ∧ hp.Grown mem hp₁ ∧
      hpackResizeRecord len hp₁ = .ok () hp' := by
  rw [hpackResize, bind_apply, get_apply, Out.bind_ok, ite_run, if_neg (by tauto), ite_run] at h
  by_cases hres : hp.ctx.res ≠ .ok
  · rw [if_pos hres] at h
    cases (assert_bind_eq_ok h).2
  rw [if_neg hres] at h
  refine ⟨not_not.1 hres, ?_⟩
  obtain ⟨mem, hp₁, hmem, h⟩ := bind_eq_ok h
  obtain rfl : hp₁ = hp := by
    have hsame := reads_hpackResizeMem len (if hp.realloc = false then hp.sz.mem else uint16Max) hp
    rw [hmem] at hsame
    exact hsame
  rw [ite_run] at h
  by_cases hbig : (if hp₁.realloc = false then hp₁.sz.mem else uint16Max) < mem
  · rw [if_pos hbig] at h
    cases h
  rw [if_neg hbig] at h
  obtain ⟨res, hp₂, hrealloc, h⟩ := bind_eq_ok h
  rw [ite_run] at h
  by_cases hr : res ≠ .ok
  · rw [if_pos hr] at h
    cases h
    exact absurd rfl hr
  rw [if_neg hr] at h
  obtain rfl := not_not.1 hr
  obtain ⟨_, hp₃, hrec, hend⟩ := bind_eq_ok h
  cases hend
  refine ⟨_, mem, hp₂, ?_, not_lt.1 hbig, hmem, (hpackRealloc_ok hrealloc (by decide)).2, hrec⟩
  split
  · exact le_max_left _ _
  · exact le_max_right _ _

/-- A resize is recorded next to those that were not signalled. -/
theorem hpackResizeRecord_ok (hlen : len ≤ uint16Max)
    (h : hpackResizeRecord len hp = .ok () hp') :
    hp' = { hp with
      sz.nxt := len
      sz.min := if 0 ≤ hp.sz.min ∧ hp.sz.min ≤ len then hp.sz.min else (len : ℤ) } := by
  unfold hpackResizeRecord at h
  rw [bind_apply, get_apply, Out.bind_ok, ite_run, toSsize_of_le hlen] at h
  by_cases hmin : hp.sz.min < 0
  · rw [if_pos hmin] at h
    obtain ⟨-, h⟩ := assert_bind_eq_ok h
    cases h
    rw [if_neg (by omega)]
  · rw [if_neg hmin] at h
    obtain ⟨-, h⟩ := assert_bind_eq_ok h
    cases h
    have hsmall : (if (len : ℤ) < hp.sz.min then (len : ℤ) else hp.sz.min)
        = if 0 ≤ hp.sz.min ∧ hp.sz.min ≤ len then hp.sz.min else (len : ℤ) := by
      split_ifs <;> omega
    exact congrArg (fun m => ({ hp with sz.nxt := len, sz.min := m } : Hpack)) hsmall

/-- The sizes of a resize, next to the smallest one that the codec keeps. -/
theorem Peer.resize_resized (mn : ℤ) (len : ℕ) (hnone : p.resize = none → mn < 0)
    (hsome : ∀ m n, p.resize = some (m, n) → mn = m) :
    ∃ m, (p.resized len).resize = some (m, len) ∧ m ≤ len ∧
      (if 0 ≤ mn ∧ mn ≤ len then mn else (len : ℤ)) = m := by
  unfold Peer.resized
  cases hres : p.resize with
  | none =>
    have hneg := hnone hres
    exact ⟨len, rfl, le_rfl, if_neg (by omega)⟩
  | some r =>
    obtain ⟨m, n⟩ := r
    have hmin := hsome m n hres
    refine ⟨Min.min m len, rfl, min_le_right m len, ?_⟩
    split_ifs <;> omega

/-- The resize that an encoder has to signal. -/
theorem Size.Pends.resized {sz : Size} (h : sz.Pends p.resize) :
    Size.Pends { sz with
      nxt := len, min := if 0 ≤ sz.min ∧ sz.min ≤ len then sz.min else (len : ℤ) }
      (p.resized len).resize := by
  obtain ⟨m, hres, hle, hmin⟩ := p.resize_resized sz.min len
    (fun hr => by rw [hr] at h; have := h.1; omega) (fun _ _ hr => by rw [hr] at h; exact h.1)
  rw [hres]
  exact ⟨hmin, rfl, hle⟩

/-- The resize that a decoder waits for. -/
theorem Size.Waits.resized {sz : Size} {mem' : ℕ} (h : sz.Waits mem p.resize) (hmem : len ≤ mem') :
    Size.Waits { sz with
      nxt := len, min := if 0 ≤ sz.min ∧ sz.min ≤ len then sz.min else (len : ℤ) } mem'
      (p.resized len).resize := by
  obtain ⟨m, hres, hle, hmin⟩ := p.resize_resized sz.min len
    (fun hr => by rw [hr] at h; exact h.1) (fun _ _ hr => by rw [hr] at h; exact h.1)
  rw [hres]
  exact ⟨hmin, rfl, hle, hmem⟩

/-- The tables of a codec that grew. -/
theorem Hpack.Grown.mirrors (hg : hp.Grown mem hp') (h : hp.Mirrors p) : hp'.Mirrors p where
  rep := hg.rep _ h.rep
  valid := h.valid
  own := hg.own h.own
  limit := by
    rw [hg.frame]
    exact h.limit
  lim_le := by
    rw [hg.frame]
    exact h.lim_le

/-- Nothing but the resize has changed for the tables. -/
theorem Hpack.Mirrors.resized {min nxt : ℤ} (h : hp.Mirrors p) :
    ({ hp with sz.min := min, sz.nxt := nxt } : Hpack).Mirrors (p.resized len) where
  rep := h.rep.congr rfl rfl rfl
  valid := h.valid
  own := h.own
  limit := h.limit
  lim_le := h.lim_le

/-- An encoder that stands between two blocks. -/
structure Hpack.Writes (hp : Hpack) (p : Peer) : Prop where
  speaks : hp.Speaks p
  idle : hp.ctx.res = .ok

/-- A decoder that stands between two blocks. -/
structure Hpack.Listens (hp : Hpack) (p : Peer) : Prop where
  follows : hp.Follows p
  idle : hp.Idle
  decoder : hp.Decoder True

/-- The encoder remembers the resize. -/
theorem Hpack.Writes.resize (hw : hp.Writes p) (hlen : len ≤ uint16Max)
    (h : hpackResize len re hp = .ok .ok hp') : hp'.Writes (p.resized len) := by
  have hs := hw.speaks
  obtain ⟨hres, max, mem, hp₁, hmax, hmem, hmemEq, hg, hrec⟩ := hpackResize_ok (Or.inr hs.encoder) h
  have hrun := hpackResizeRecord_ok hlen hrec
  have hsz : hp₁.sz = { hp.sz with mem := hp₁.sz.mem } := by rw [hg.frame]
  have hsmall := hs.small
  have hfit := hs.mem
  -- a limit in force is one that is still to be applied
  have hcap : hp.sz.lim < 0 ∨ 0 ≤ hp.sz.cap := by
    by_contra hno
    rw [hpackResizeMem, bind_apply, get_apply, Out.bind_ok, ite_run, if_pos hs.encoder, ite_run,
      if_pos (by omega)] at hmemEq
    have := (assert_bind_eq_ok hmemEq).1
    omega
  have hpends : hp₁.sz.Pends p.resize := by
    rw [hsz]
    exact hs.resize
  rw [hrun]
  refine ⟨⟨⟨(hg.mirrors hs.toMirrors).resized, ?_, ?_, ?_⟩, ?_, ?_, ?_, ?_, hpends.resized, ?_⟩, ?_⟩
  · rw [hg.frame]
    exact hs.encoder
  · rw [hg.frame]
    exact hs.plain
  · exact hg.small (by omega) hsmall
  · rw [hg.frame]
    exact hs.fits
  · exact hg.fits hfit
  · rw [hg.frame]
    exact hs.max_le
  · rw [hg.frame]
    exact hs.max
  · intro _
    rw [hg.frame]
    exact hcap
  · rw [hg.frame]
    exact hres

/-- The decoder remembers the resize. -/
theorem Hpack.Listens.resize (hl : hp.Listens p) (h : hpackResize len re hp = .ok .ok hp') :
    hp'.Listens (p.resized len) ∧ len ≤ uint16Max := by
  have hf := hl.follows
  have ht : hp.toTable.Fits True := hl.decoder.1.1
  obtain ⟨hres, max, mem, hp₁, hmax, hmem, hmemEq, hg, hrec⟩ := hpackResize_ok (Or.inl hf.decoder) h
  -- a decoder allocates what it was asked for, an encoder what its limit needs
  obtain rfl : mem = len := by
    have hne : ¬ hp.magic = .encoder := by rw [hf.decoder]; decide
    rw [hpackResizeMem, bind_apply, get_apply, Out.bind_ok, ite_run, if_neg hne] at hmemEq
    cases hmemEq
    rfl
  have hfit := ht.mem
  have hle := ht.mem_le
  have hlen : mem ≤ uint16Max := by omega
  obtain ⟨hge, hge'⟩ := hg.le hfit.symm
  have hrun := hpackResizeRecord_ok hlen hrec
  have hwaits : hp₁.sz.Waits hp.tbl.length p.resize := by
    rw [hg.frame]
    exact hf.resize
  have hdec : hp'.Decoder True := by
    have hkeep := fits_exec (.resize mem re) hl.decoder fun _ => trivial
    rw [show DecOp.exec (.resize mem re) hp = .ok .ok hp' from h] at hkeep
    exact hkeep
  refine ⟨⟨?_, ?_, hdec⟩, hlen⟩
  · rw [hrun]
    refine ⟨(hg.mirrors hf.toMirrors).resized, ?_, ?_, ?_, hf.maxAlloc.trans hge,
      hwaits.resized hge', ?_⟩
    · rw [hg.frame]
      exact hf.decoder
    · rw [hg.frame]
      exact hf.fits
    · rw [hg.frame]
      exact hf.max
    · intro hcan
      rw [hg.frame]
      exact hf.canUpd hcan
  · rw [hrun]
    refine ⟨?_, ?_, ?_, hg.own hl.idle.own, ?_⟩
    · rw [hg.frame]
      exact hl.idle.magic
    · rw [hg.frame]
      exact hl.idle.res
    · rw [hg.frame]
      exact hl.idle.tooBig
    · rw [hg.frame]
      exact hl.idle.bsy

/-- The encoder has another limit to apply. -/
theorem Hpack.Writes.limit (hw : hp.Writes p) (h : hpackLimit len re hp = .ok .ok hp') :
    hp'.Writes p := by
  have hs := hw.speaks
  have hsmall := hs.small
  have hmem := hs.mem
  have hmax := hs.max_le
  rw [hpackLimit, bind_apply, get_apply, Out.bind_ok, ite_run,
    if_neg (not_not_intro hs.encoder), ite_run, if_neg (not_not_intro hw.idle), ite_run] at h
  by_cases hlen : uint16Max < len
  · rw [if_pos hlen] at h
    cases h
  rw [if_neg hlen] at h
  generalize hm : (if hp.sz.max ≤ len ∧ hp.sz.mem < hp.sz.max then hp.sz.max else hp.sz.mem) = mem
    at h
  obtain ⟨r, hp₁, hrealloc, h⟩ := bind_eq_ok h
  rw [ite_run] at h
  by_cases hr : r.val < 0
  · rw [if_pos hr] at h
    obtain ⟨_, hp₂, -, hend⟩ := bind_eq_ok h
    cases hend
    exact absurd hr (by decide)
  rw [if_neg hr] at h
  cases h
  obtain ⟨rfl, hg⟩ := hpackRealloc_ok hrealloc hr
  -- the limit is only kept for the next block: the peer hears of it then
  have hm₁ := hg.mirrors hs.toMirrors
  have hle : mem ≤ uint16Max := by
    rw [← hm]
    split_ifs <;> omega
  refine ⟨⟨⟨⟨hm₁.rep.congr rfl rfl rfl, hm₁.valid, hm₁.own, hm₁.limit, hm₁.lim_le⟩, ?_, ?_, ?_⟩, ?_,
    hg.fits hmem, ?_, ?_, ?_, fun _ => Or.inr (Int.natCast_nonneg len)⟩, ?_⟩
  · rw [hg.frame]
    exact hs.encoder
  · rw [hg.frame]
    exact hs.plain
  · exact hg.small hle hsmall
  · rw [hg.frame]
    exact hs.fits
  · rw [hg.frame]
    exact hs.max_le
  · rw [hg.frame]
    exact hs.max
  · rw [hg.frame]
    exact hs.resize
  · rw [hg.frame]
    exact hw.idle

/-! ### Sessions -/

/-- The two ends of a new session. -/
def Peer.new (max : ℕ) : Peer := ⟨[], max, max, none, false⟩

theorem Hpack.Writes.new {max : ℕ} {lim : ℤ} (h : NewEncoder max lim hp) :
    hp.Writes (.new max) := by
  obtain ⟨realloc, blk, hmax, hlim, rfl⟩ := h.init
  have hmem : (if 0 ≤ lim then lim.toNat else max) ≤ uint16Max := by split_ifs <;> omega
  generalize (if 0 ≤ lim then lim.toNat else max) = mem at hmem
  have hneg : (-1 : ℤ) ≤ max := by omega
  refine ⟨⟨⟨⟨⟨rfl, rfl, [], _, rfl, .nil 0⟩, fun _ he => absurd he List.not_mem_nil, rfl, rfl,
    hneg⟩, rfl, rfl, ?_⟩, rfl, ?_, hmax, rfl, ⟨rfl, rfl⟩, fun _ => Or.inl neg_one_lt_zero⟩, rfl⟩
  · exact (Block.length_octets blk 0 mem).trans_le hmem
  · exact (Block.length_octets blk 0 mem).symm

theorem Hpack.Listens.new {max : ℕ} {rsz : ℤ} {ha : Alloc}
    (h : hpackDecoder max rsz ha () = .ok (some hp) ()) : hp.Listens (.new max) := by
  have hdec := decoder_new (b := True) (.decoder h)
  obtain ⟨hmax, hmem, hle, blk, rfl⟩ := hpackNew_some h
  have hlen := Block.length_octets blk 0 (if (if 0 ≤ rsz then rsz.toNat else max) < max then max
    else if 0 ≤ rsz then rsz.toNat else max)
  have hneg : (-1 : ℤ) ≤ max := by omega
  refine ⟨⟨⟨⟨rfl, rfl, [], _, rfl, .nil 0⟩, fun _ he => absurd he List.not_mem_nil, rfl, rfl, hneg⟩,
    rfl, rfl, rfl, ?_, ⟨neg_one_lt_zero, neg_one_lt_zero⟩, Bool.noConfusion⟩,
    ⟨rfl, rfl, rfl, rfl, rfl⟩, hdec⟩
  exact (hle.resolve_right Magic.noConfusion).trans hlen.ge

/-- The two ends of a session have the tables and the sizes of one peer. -/
def Linked (he hd : Hpack) : Prop := ∃ p, he.Writes p ∧ hd.Listens p

/-- The octets of a block. -/
def blockOctets (he : Hpack) (cs : List EncCall) : Octets :=
  updateOctets he.sz.updates ++ callOctets cs

/-- A block that is encoded as it has to be. -/
structure BlockSent (he : Hpack) (cs : List EncCall) (he' : Hpack) : Prop where
  calls : BlockCalls cs he he'
  sound : he.sz.Sound he.tbl.length
  fit : FitCalls (updateOctets he.sz.updates).length cs

/-- The octets that were delivered, with a buffer that is large enough for the fields. -/
structure BlockRead (he : Hpack) (cs : List EncCall) (he' : Hpack) (dec : Decoding) : Prop where
  valid : dec.Valid
  whole : dec.cut = false
  delivered : he'.delivered = he.delivered ++ dec.blk
  room : ∀ p evts hs p', he.Speaks p →
    p.opened.Encodes 0 (callFields cs) dec.blk evts hs p' → (headerOctets hs).length ≤ dec.bufLen

/-- A block is read as it was meant, and links the two ends again. -/
theorem Linked.block {cs : List EncCall} {dec : Decoding} (h : Linked he hd)
    (sent : BlockSent he cs he') (read : BlockRead he cs he' dec) :
    ∃ p p' hs evts hd', he.Speaks p ∧ p.opened.Encodes 0 (callFields cs) dec.blk evts hs p' ∧
      hpackDecode dec hd = .ok .ok hd' ∧
      (∀ b, Iterates { dec with cb := b } none hd hs hd') ∧ hd'.ctx.log = hd.ctx.log ++ evts ∧
      hd'.ctx.out = headerOctets hs ∧ he'.Writes p' ∧ hd'.Listens p' := by
  obtain ⟨p, hw, hl⟩ := h
  obtain ⟨hidle, hdel, hs, p', hs', hset, hmeans⟩ :=
    hpackEncode_block sent.calls hw.speaks hw.idle sent.sound sent.fit
  -- what the decoder is given is what the encoder delivered since the last block
  have hblk : dec.blk = blockOctets he cs :=
    List.append_cancel_left (read.delivered.symm.trans hdel)
  obtain ⟨evts, henc⟩ := hmeans 0
  have henc' : p.opened.Encodes 0 (callFields cs) dec.blk evts hs p' := hblk ▸ henc
  have hroom := read.room p evts hs p' hw.speaks henc'
  obtain ⟨hd', hrun, hf, hlog, -, hout, -, hstart, hres⟩ :=
    hpackDecode_wire hl.follows hl.idle read.valid henc'.block hroom
  rw [read.whole] at hrun hres
  have hcb : ({ dec with cb := true } : Decoding) = dec := by rw [← read.valid.2.2.2]
  have hiter : ∀ b, Iterates { dec with cb := b } none hd hs hd' := by
    intro b
    have hvalid : ({ dec with cb := true } : Decoding).Valid := by
      rw [hcb]
      exact read.valid
    obtain ⟨hd₁, hrun₁, hiter, -⟩ := hpackDecodeFields_wire { dec with cb := b } hl.follows hl.idle
      hvalid read.whole henc'.block hroom
    have hsame : hpackDecode { dec with cb := true } hd = .ok .ok hd₁ := hrun₁
    rw [hcb, hrun] at hsame
    cases hsame
    exact hiter
  have hdec : hd'.Decoder True := by
    have hkeep := fits_exec (.decode dec) hl.decoder fun _ => trivial
    rw [show DecOp.exec (.decode dec) hd = .ok .ok hd' from hrun] at hkeep
    exact hkeep
  exact ⟨p, p', hs, evts, hd', hw.speaks, henc', hrun, hiter, hlog, hout, ⟨hs', hidle⟩,
    hf, ⟨hf.decoder, hres, hf.fits, hf.own, hstart.1⟩, hdec⟩

end Cashpack
