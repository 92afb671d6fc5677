import Cashpack.Wire.Signal
import Mathlib.Data.Nat.ModEq

/-!
# Encoding blocks

A block is encoded by one call of `hpack_encode` or several.  The octets handed to the callback
are those of the updates and of the fields, in their order, whatever the sizes of the working
buffers, as long as the end of a buffer cuts no string that is not compressed: `HPE_bcat` would
start over with the string.

## Main results

* `hpackEncodeLoop_wire` : the fields of a call.
* `hpackEncode_block` : the calls of a block.
-/

namespace Cashpack

open Prog Fifo

variable {hp hp' : Hpack} {p p' : Peer} {n : ℕ} {os : Octets} {enc : Encoding} {fld fld' : Field}
  {flds flds' : List Field} {r : Res}

/-! ### The loop -/

variable {bufLen m : ℕ}

/-- Only the place in the working buffer matters. -/
theorem Uncut.congr {huf : Bool} {s : Octets} (hmod : Nat.ModEq bufLen m n)
    (h : Uncut bufLen n huf s) : Uncut bufLen m huf s := by
  unfold Uncut at h ⊢
  rwa [hmod.add_right]

theorem Field.Whole.congr (hmod : Nat.ModEq bufLen m n) (h : fld.Whole bufLen n) :
    fld.Whole bufLen m := fun htyp =>
  ⟨fun hidx => ((h htyp).name hidx).congr (hmod.add_right _),
    (h htyp).value.congr ((hmod.add_right _).add_right _)⟩

/-- No string of these fields is cut, when they are written `n` octets after the start of a
working buffer. -/
def AllWhole (bufLen : ℕ) : ℕ → List Field → Prop
  | _, [] => True
  | n, fld :: flds => fld.Whole bufLen n ∧ AllWhole bufLen (n + fld.octets.length) flds

theorem AllWhole.congr (hmod : Nat.ModEq bufLen m n) (h : AllWhole bufLen n flds) :
    AllWhole bufLen m flds := by
  induction flds generalizing m n with
  | nil => trivial
  | cons fld flds ih => exact ⟨h.1.congr hmod, ih (hmod.add_right _) h.2⟩

/-- The octets of fields. -/
def fieldOctets (flds : List Field) : Octets := flds.flatMap Field.octets

/-- What a call does with its fields. -/
structure Hpack.Sent (hp : Hpack) (p : Peer) (flds flds' : List Field) (hp' : Hpack) : Prop where
  emitted : hp.Emitted (fieldOctets flds') hp'
  sizes : hp.SameSizes hp'
  means : ∃ hs p', hp'.Drives p' ∧ p'.Settled p ∧ ∀ off, ∃ evts,
    p.Encodes off flds (fieldOctets flds') evts hs p'

/-- The fields of a call are represented one after the other. -/
theorem hpackEncodeLoop_wire (hd : hp.Drives p) (hset : p.resize = none) (ho : hp.Open)
    (halloc : p.limit ≤ hp.tbl.length) (hdesc : ∀ fld ∈ flds, ∀ evt, fld.Describable evt)
    (h : hpackEncodeLoop flds hp = .ok (flds', none) hp')
    (hw : AllWhole hp.ctx.arg.bufLen hp.ctx.cur.length flds')
    (hstat : ∀ fld ∈ flds', fld.Static) : hp.Sent p flds flds' hp' := by
  induction flds generalizing flds' hp p with
  | nil =>
    cases h
    exact ⟨.refl ho, (Buffered.refl ho).sameSizes, [], p, hd, ⟨hset, rfl, rfl⟩,
      fun off => ⟨[], .nil off p⟩⟩
  | cons fld flds ih =>
    obtain ⟨⟨fld₁, r⟩, hp₁, hturn, hrest⟩ := bind_eq_ok h
    cases r with
    | some r => cases hrest
    | none =>
      obtain ⟨⟨flds₁, r⟩, hp₂, hloop, hend⟩ := bind_eq_ok hrest
      cases hend
      obtain ⟨hfirst, hothers⟩ := hw
      have hdesc₁ : ∀ evt, fld.Describable evt := hdesc fld List.mem_cons_self
      obtain ⟨halike, henc⟩ := hpackEncodeTurn_wire hd hset ho halloc hdesc₁ hturn hfirst
        (hstat fld₁ List.mem_cons_self)
      obtain ⟨hdr, p₁, hden, hd₁, hset₁, hstep⟩ := henc.step
      have hw₁ : AllWhole hp₁.ctx.arg.bufLen hp₁.ctx.cur.length flds₁ := by
        rw [henc.emitted.page, henc.emitted.arg]
        exact hothers.congr (Nat.mod_modEq _ _)
      have halloc₁ : p₁.limit ≤ hp₁.tbl.length := by
        rw [hset₁.limit, henc.sizes.mem]
        exact halloc
      obtain ⟨hem, hsz, hs, p₂, hd₂, hset₂, hmeans⟩ := ih hd₁ hset₁.resize
        (henc.emitted.keeps_open ho) halloc₁ (fun f hf => hdesc f (List.mem_cons_of_mem _ hf)) hloop
        hw₁ (fun f hf => hstat f (List.mem_cons_of_mem _ hf))
      refine ⟨henc.emitted.trans hem, henc.sizes.trans hsz, hdr :: hs, p₂, hd₂,
        hset₂.trans hset₁, fun off => ?_⟩
      obtain ⟨evts, hst, htold⟩ := hstep off
      obtain ⟨evts', htail⟩ := hmeans (off + fld₁.octets.length)
      rw [halike.never] at htold
      exact ⟨_, .field henc.wire (halike.denotes ▸ hden) hst htold htail⟩

/-- The loop that ends with a result ends with an error. -/
theorem hpackEncodeTurn_some (h : hpackEncodeTurn fld hp = .ok (fld', some r) hp') :
    r ≠ .ok ∧ r ≠ .blk := by
  rw [hpackEncodeTurn_eq] at h
  obtain ⟨⟨fld₁, arg⟩, hp₁, -, hnext⟩ := bind_eq_ok h
  cases arg with
  | true =>
    cases hnext
    exact ⟨by decide, by decide⟩
  | false =>
    have hrest : hpackEncodeRest fld₁ hp₁ = .ok (fld', some r) hp' := hnext
    obtain ⟨_, hp₂, -, hrest⟩ := bind_eq_ok hrest
    cases hany : hpackEncodeAny fld₁ with
    | none =>
      rw [hany] at hrest
      cases hrest
      exact ⟨by decide, by decide⟩
    | some enc =>
      rw [hany] at hrest
      obtain ⟨o, hp₃, -, hend⟩ := bind_eq_ok hrest
      cases o with
      | some _ => cases hend
      | none =>
        obtain ⟨hok, hend⟩ := assert_bind_eq_ok (show (assert (hp₃.ctx.res ≠ .ok) >>= _) hp₃ = _
          from hend)
        obtain ⟨hblk, hend⟩ := assert_bind_eq_ok hend
        cases hend
        exact ⟨hok, hblk⟩

theorem hpackEncodeLoop_some (h : hpackEncodeLoop flds hp = .ok (flds', some r) hp') :
    r ≠ .ok ∧ r ≠ .blk := by
  induction flds generalizing flds' hp with
  | nil => cases h
  | cons fld flds ih =>
    obtain ⟨⟨fld₁, r₁⟩, hp₁, hturn, hrest⟩ := bind_eq_ok h
    cases r₁ with
    | some r₁ =>
      cases hrest
      exact hpackEncodeTurn_some hturn
    | none =>
      obtain ⟨⟨flds₁, r₂⟩, hp₂, hloop, hend⟩ := bind_eq_ok hrest
      cases hend
      exact ih hloop

/-! ### Calls -/

/-- The octets handed to the callback. -/
def Hpack.delivered (hp : Hpack) : Octets := hp.ctx.log.flatMap Event.sent

/-- The encoder that starts a block. -/
def Hpack.begun (hp : Hpack) (enc : Encoding) : Hpack :=
  { hp with
    ctx.canUpd := true, ctx.tooBig := false, ctx.res := .blk
    ctx.arg := ⟨enc.buf, enc.bufLen, 0⟩, ctx.cur := [] }

/-- The encoder that goes on with a block. -/
def Hpack.resumed (hp : Hpack) (enc : Encoding) : Hpack :=
  { hp with ctx.arg := ⟨enc.buf, enc.bufLen, 0⟩, ctx.cur := [] }

theorem hpackEncodeBegin_begun (hown : hp.ctx.hp = hp.addr) (hres : hp.ctx.res = .ok) :
    hpackEncodeBegin enc hp = .ok () (hp.begun enc) := by
  have hne : hp.ctx.res ≠ .blk := by rw [hres]; decide
  rw [hpackEncodeBegin, bind_apply, get_apply, Out.bind_ok, assert_bind_pos hown, bind_apply,
    when_apply, if_pos hne, assert_bind_pos hres]
  rfl

theorem hpackEncodeBegin_resumed (hown : hp.ctx.hp = hp.addr) (hres : hp.ctx.res = .blk) :
    hpackEncodeBegin enc hp = .ok () (hp.resumed enc) := by
  rw [hpackEncodeBegin, bind_apply, get_apply, Out.bind_ok, assert_bind_pos hown, bind_apply,
    when_apply, if_neg (not_not_intro hres)]
  rfl

/-- The updates at the start of a block. -/
theorem hpackEncodeStart_begun (hs : hp.Speaks p) (hres : hp.ctx.res = .ok)
    (hlen : 0 < enc.bufLen) (htwice : hp.sz.min < hp.sz.nxt → hp.sz.lim < 0 ∧ hp.sz.min ≤ hp.sz.max)
    (h : hpackEncodeStart enc hp = .ok () hp') :
    (hp.begun enc).Signalled p.opened hp' ∧ hp'.ctx.canUpd = false := by
  obtain ⟨_, hp₁, h₁, hrest⟩ := bind_eq_ok h
  obtain ⟨_, hp₂, h₂, hrest⟩ := bind_eq_ok hrest
  obtain ⟨_, hp₃, h₃, hend⟩ := bind_eq_ok hrest
  rw [hpackEncodeBegin_begun hs.own hres] at h₁
  cases h₁
  cases hend
  refine ⟨?_, rfl⟩
  have ho : (hp.begun enc).Open := ⟨hlen, rfl⟩
  have hs₁ : (hp.begun enc).Speaks p.opened :=
    ⟨⟨⟨hs.rep, hs.valid, hs.own, hs.limit, hs.lim_le⟩, hs.encoder, hs.plain, hs.small⟩,
      rfl, hs.mem, hs.max_le, hs.max, hs.resize, hs.capped⟩
  have hclose : ∀ {hp₃ : Hpack}, (hp.begun enc).Signalled p.opened hp₃ →
      (hp.begun enc).Signalled p.opened { hp₃ with ctx.canUpd := false } := by
    rintro hp₃ ⟨hem, hlimit, hmem, p', hs', hmeans⟩
    exact ⟨hem.recorded, hlimit, hmem, p',
      hs'.congr rfl hs'.own hs'.encoder hs'.plain hs'.fits, hmeans⟩
  by_cases hpend : 0 ≤ hp.sz.min
  · obtain ⟨hsig, hcan⟩ := hpackEncodeResize_wire hs₁ ho rfl rfl htwice hpend h₂
    rw [hpackEncodeLimit, bind_apply, get_apply, Out.bind_ok, when_apply,
      if_neg fun hc => Bool.false_ne_true (hcan.symm.trans hc.1)] at h₃
    cases h₃
    exact hclose hsig
  · have hskip : ¬ ((hp.begun enc).ctx.canUpd = true ∧ 0 ≤ (hp.begun enc).sz.min) :=
      fun hc => hpend hc.2
    rw [hpackEncodeResize, bind_apply, get_apply, Out.bind_ok, when_apply, if_neg hskip] at h₂
    cases h₂
    exact hclose (hpackEncodeLimit_wire hs₁ ho rfl rfl (by show hp.sz.min < 0; omega) h₃)

/-- Nothing is signalled in the middle of a block. -/
theorem hpackEncodeStart_resumed (hown : hp.ctx.hp = hp.addr) (hres : hp.ctx.res = .blk)
    (hcan : hp.ctx.canUpd = false) : hpackEncodeStart enc hp = .ok () (hp.resumed enc) := by
  have hno : ¬ (hp.resumed enc).ctx.canUpd = true := by
    show ¬ hp.ctx.canUpd = true
    rw [hcan]
    exact Bool.false_ne_true
  have hsame : ({ hp.resumed enc with ctx.canUpd := false } : Hpack) = hp.resumed enc := by
    rw [← hcan]
    rfl
  rw [hpackEncodeStart, bind_apply, hpackEncodeBegin_resumed hown hres, Out.bind_ok, bind_apply,
    hpackEncodeResize, bind_apply, get_apply, Out.bind_ok, when_apply, if_neg fun hc => hno hc.1,
    Out.bind_ok, bind_apply, hpackEncodeLimit, bind_apply, get_apply, Out.bind_ok, when_apply,
    if_neg fun hc => hno hc.1, Out.bind_ok, modify_apply, hsame]

/-- What a call of `hpack_encode` delivers. -/
structure Hpack.Called (hp : Hpack) (p : Peer) (enc : Encoding) (os : Octets) (r : Res)
    (hp' : Hpack) : Prop where
  res : r = if enc.cut then .blk else .ok
  stands : hp'.ctx.res = r
  closed : hp'.ctx.canUpd = false
  delivered : hp'.delivered = hp.delivered ++ os
  means : ∃ hs p', hp'.Speaks p' ∧ (p'.resize = none ∧ p'.limit ≤ hp'.tbl.length) ∧
    ∀ off, ∃ evts, p.Encodes off enc.fld os evts hs p'

/-- What the caller sees to: each string can be described, no borrowed name is inserted, and the
end of the working buffer cuts no string. -/
structure Encoding.Fits (enc : Encoding) (n : ℕ) (flds : List Field) : Prop where
  describable : ∀ fld ∈ enc.fld, ∀ evt, fld.Describable evt
  static : ∀ fld ∈ flds, fld.Static
  whole : AllWhole enc.bufLen n flds

theorem delivered_flushed : hp.flushed.delivered = hp.sent := by
  unfold Hpack.flushed
  split
  · rename_i hcur
    rw [Hpack.sent, hcur, List.append_nil]
    rfl
  · show (hp.ctx.log ++ [_]).flatMap Event.sent = _
    rw [List.flatMap_append]
    show _ ++ (hp.ctx.cur ++ []) = _
    rw [List.append_nil]
    rfl

/-- Flushing only changes what is buffered and what is delivered. -/
theorem Hpack.flushed_eq (hp : Hpack) : hp.flushed = { hp with
    ctx.log := hp.flushed.ctx.log, ctx.cur := hp.flushed.ctx.cur } := by
  unfold Hpack.flushed
  split <;> rfl

theorem Hpack.Speaks.flushed (hs : hp.Speaks p) : hp.flushed.Speaks p := by
  rw [hp.flushed_eq]
  exact hs.congr rfl hs.own hs.encoder hs.plain hs.fits

/-- Sending fields leaves the sizes as they were, for the encoder and for its peer. -/
theorem Hpack.Speaks.settled (hs : hp.Speaks p) (hset : p.resize = none) (hd : hp'.Drives p')
    (ho : hp'.Open) (hsz : hp.SameSizes hp') (hset' : p'.Settled p) : hp'.Speaks p' where
  toDrives := hd
  fits := ho.fits
  mem := by
    rw [hsz.sz, hsz.mem]
    exact hs.mem
  max_le := by
    rw [hsz.sz]
    exact hs.max_le
  max := by
    rw [hsz.sz, hset'.max]
    exact hs.max
  resize := by
    rw [hsz.sz, hset'.resize, ← hset]
    exact hs.resize
  capped := by
    rw [hsz.sz]
    exact hs.capped

/-- The fields of a call, and the end of it. -/
theorem hpackEncodeFields_wire (hs : hp.Speaks p) (hset : p.resize = none) (ho : hp.Open)
    (halloc : p.limit ≤ hp.tbl.length) (hcan : hp.ctx.canUpd = false) (hr : r = .ok ∨ r = .blk)
    (hbuf : hp.ctx.arg.bufLen = enc.bufLen) (hfit : enc.Fits hp.ctx.cur.length flds')
    (h : (hpackEncodeLoop enc.fld >>= hpackEncodeFinish enc) hp = .ok (r, flds') hp') :
    r = (if enc.cut then .blk else .ok) ∧ hp'.ctx.res = r ∧ hp'.ctx.canUpd = false ∧
      hp'.delivered = hp.sent ++ fieldOctets flds' ∧
      hp'.tbl.length = hp.tbl.length ∧ ∃ hs p', hp'.Speaks p' ∧ p'.Settled p ∧
        ∀ off, ∃ evts, p.Encodes off enc.fld (fieldOctets flds') evts hs p' := by
  obtain ⟨⟨flds, r'⟩, hp₁, hloop, hfin⟩ := bind_eq_ok h
  cases r' with
  | some r' =>
    cases hfin
    have hne := hpackEncodeLoop_some hloop
    rcases hr with rfl | rfl
    · exact absurd rfl hne.1
    · exact absurd rfl hne.2
  | none =>
    have hfin' : (do
        hpeSend
        let hp ← get
        assert (hp.ctx.res = .blk)
        let res : Res := if enc.cut then .blk else .ok
        modify fun hp => { hp with ctx.res := res }
        pure (res, flds) : Cp (Res × List Field)) hp₁ = .ok (r, flds') hp' := hfin
    obtain ⟨_, hp₂, hsend, hend⟩ := bind_eq_ok hfin'
    rw [bind_apply, get_apply, Out.bind_ok] at hend
    obtain ⟨-, hend⟩ := assert_bind_eq_ok hend
    cases hend
    have hw : AllWhole hp.ctx.arg.bufLen hp.ctx.cur.length flds' := by
      rw [hbuf]
      exact hfit.whole
    obtain ⟨hem, hsz, hdrs, p', hd', hset', hmeans⟩ :=
      hpackEncodeLoop_wire hs.toDrives hset ho halloc hfit.describable hloop hw hfit.static
    have ho₁ := hem.keeps_open ho
    rw [hpeSend_run ho₁.fits] at hsend
    cases hsend
    refine ⟨rfl, rfl, ?_, ?_, ?_, hdrs, p', ?_, hset', hmeans⟩
    · show hp₁.flushed.ctx.canUpd = false
      rw [hp₁.flushed_eq]
      exact hsz.canUpd.trans hcan
    · show hp₁.flushed.delivered = _
      rw [delivered_flushed, hem.sent]
    · rw [hp₁.flushed_eq]
      exact hsz.mem
    · have hs₁ := (hs.settled hset hd' ho₁ hsz hset').flushed
      exact hs₁.congr rfl hs₁.own hs₁.encoder hs₁.plain hs₁.fits

/-- **The first call of a block** delivers the updates and its fields. -/
theorem hpackEncode_begun (hs : hp.Speaks p) (hres : hp.ctx.res = .ok) (hv : enc.Valid)
    (hsound : hp.sz.Sound hp.tbl.length) (hr : r = .ok ∨ r = .blk)
    (hfit : enc.Fits ((updateOctets hp.sz.updates).length % enc.bufLen) flds')
    (h : hpackEncode enc hp = .ok (r, flds') hp') :
    hp.Called p.opened enc (updateOctets hp.sz.updates ++ fieldOctets flds') r hp' := by
  have hlen : 0 < enc.bufLen := Nat.pos_of_ne_zero hv.2.2.1
  rw [hpackEncode_eq hs.encoder hv] at h
  obtain ⟨_, hp₁, hstart, hfields⟩ := bind_eq_ok h
  obtain ⟨⟨hem, hlimit₁, hmem₁, p₁, hs₁, hset₁, hmeans₁⟩, hcan₁⟩ :=
    hpackEncodeStart_begun hs hres hlen hsound.twice hstart
  have halloc : p₁.limit ≤ hp₁.tbl.length := by
    rw [← hs₁.limit, hlimit₁, hmem₁]
    exact hsound.target_le
  have ho : (hp.begun enc).Open := ⟨hlen, rfl⟩
  have hcur : hp₁.ctx.cur.length = (updateOctets hp.sz.updates).length % enc.bufLen := by
    rw [hem.page]
    show (0 + _) % _ = _
    rw [Nat.zero_add]
    rfl
  have hsent : (hp.begun enc).sent = hp.delivered := List.append_nil _
  obtain ⟨hcut, hstands, hcan, hdel, htbl, hdrs, p', hs', hset', hmeans⟩ :=
    hpackEncodeFields_wire hs₁ hset₁ (hem.keeps_open ho) halloc hcan₁ hr (by rw [hem.arg]; rfl)
      (hcur ▸ hfit) hfields
  refine ⟨hcut, hstands, hcan, ?_, hdrs, p', hs', ⟨hset'.resize, ?_⟩, fun off => ?_⟩
  · rw [hdel, hem.sent, hsent, List.append_assoc]
    rfl
  · rw [hset'.limit, htbl]
    exact halloc
  · obtain ⟨evts₁, henc₁⟩ := hmeans₁ off
    obtain ⟨evts₂, henc₂⟩ := hmeans (off + (updateOctets hp.sz.updates).length)
    exact ⟨_, henc₁.append henc₂⟩

/-- **A later call of a block** delivers its fields. -/
theorem hpackEncode_resumed (hs : hp.Speaks p) (hset : p.resize = none)
    (halloc : p.limit ≤ hp.tbl.length) (hres : hp.ctx.res = .blk) (hcan : hp.ctx.canUpd = false)
    (hv : enc.Valid) (hr : r = .ok ∨ r = .blk) (hfit : enc.Fits 0 flds')
    (h : hpackEncode enc hp = .ok (r, flds') hp') : hp.Called p enc (fieldOctets flds') r hp' := by
  have hlen : 0 < enc.bufLen := Nat.pos_of_ne_zero hv.2.2.1
  rw [hpackEncode_eq hs.encoder hv, bind_apply, hpackEncodeStart_resumed hs.own hres hcan,
    Out.bind_ok] at h
  have hs₁ : (hp.resumed enc).Speaks p := hs.congr rfl hs.own hs.encoder hs.plain hs.fits
  have hsent : (hp.resumed enc).sent = hp.delivered := List.append_nil _
  obtain ⟨hcut, hstands, hcan', hdel, htbl, hdrs, p', hs', hset', hmeans⟩ :=
    hpackEncodeFields_wire hs₁ hset ⟨hlen, hs.fits⟩ halloc hcan hr rfl hfit h
  refine ⟨hcut, hstands, hcan', hdel.trans (by rw [hsent]), hdrs, p', hs', ⟨hset'.resize, ?_⟩,
    hmeans⟩
  rw [hset'.limit, htbl]
  exact halloc

/-- A call that goes well was given what it needs. -/
theorem hpackEncode_valid (hr : r = .ok ∨ r = .blk)
    (h : hpackEncode enc hp = .ok (r, flds') hp') : enc.Valid := by
  rw [hpackEncode, bind_apply, get_apply, Out.bind_ok, ite_run] at h
  by_cases hbad : hp.magic ≠ .encoder ∨ enc.fld = [] ∨ enc.buf = 0 ∨ enc.bufLen = 0 ∨ enc.cb = false
  · rw [if_pos hbad] at h
    cases h
    exact absurd hr (by decide)
  · simp only [not_or, not_not, Bool.not_eq_false] at hbad
    exact ⟨hbad.2.1, hbad.2.2.1, hbad.2.2.2.1, hbad.2.2.2.2⟩

/-! ### Blocks -/

/-- A call, and its fields as they were rewritten. -/
abbrev EncCall := Encoding × List Field

/-- The calls of a block: all but the last one are cut, and all go well. -/
inductive BlockCalls : List EncCall → Hpack → Hpack → Prop
  | last {enc : Encoding} {flds : List Field} {hp hp' : Hpack} (hcut : enc.cut = false)
    (run : hpackEncode enc hp = .ok (.ok, flds) hp') : BlockCalls [(enc, flds)] hp hp'
  | more {enc : Encoding} {flds : List Field} {cs : List EncCall} {hp hp' hp'' : Hpack}
    (hcut : enc.cut = true) (run : hpackEncode enc hp = .ok (.blk, flds) hp')
    (rest : BlockCalls cs hp' hp'') : BlockCalls ((enc, flds) :: cs) hp hp''

/-- The fields given to the calls. -/
def callFields (cs : List EncCall) : List Field := cs.flatMap fun c => c.1.fld

/-- The octets of their fields. -/
def callOctets (cs : List EncCall) : Octets := cs.flatMap fun c => fieldOctets c.2

/-- Each call is fit, the first one after `n` octets. -/
def FitCalls : ℕ → List EncCall → Prop
  | _, [] => True
  | n, (enc, flds) :: cs => enc.Fits (n % enc.bufLen) flds ∧ FitCalls 0 cs

/-- What the calls of a block deliver. -/
structure Hpack.Blocked (hp : Hpack) (p : Peer) (flds : List Field) (os : Octets) (hp' : Hpack) :
    Prop where
  idle : hp'.ctx.res = .ok
  delivered : hp'.delivered = hp.delivered ++ os
  means : ∃ hs p', hp'.Speaks p' ∧ p'.resize = none ∧ ∀ off, ∃ evts,
    p.Encodes off flds os evts hs p'

theorem Hpack.Called.last {os : Octets} (h : hp.Called p enc os .ok hp') :
    hp.Blocked p enc.fld os hp' := by
  obtain ⟨hs, p', hs', hset, hmeans⟩ := h.means
  exact ⟨h.stands, h.delivered, hs, p', hs', hset.1, hmeans⟩

theorem Hpack.Called.more {os os' : Octets} {hp'' : Hpack} (h : hp.Called p enc os .blk hp')
    (hrest : ∀ p', hp'.Speaks p' → p'.resize = none → p'.limit ≤ hp'.tbl.length →
      hp'.Blocked p' flds os' hp'') : hp.Blocked p (enc.fld ++ flds) (os ++ os') hp'' := by
  obtain ⟨hs, p', hs', hset, hmeans⟩ := h.means
  obtain ⟨hidle, hdel, hdrs, p'', hs'', hset'', hmeans'⟩ := hrest p' hs' hset.1 hset.2
  refine ⟨hidle, ?_, hs ++ hdrs, p'', hs'', hset'', fun off => ?_⟩
  · rw [hdel, h.delivered, List.append_assoc]
  · obtain ⟨evts, henc⟩ := hmeans off
    obtain ⟨evts', henc'⟩ := hmeans' (off + os.length)
    exact ⟨_, henc.append henc'⟩

theorem hpackEncode_rest {cs : List EncCall} (hcalls : BlockCalls cs hp hp') (hs : hp.Speaks p)
    (hset : p.resize = none) (halloc : p.limit ≤ hp.tbl.length) (hres : hp.ctx.res = .blk)
    (hcan : hp.ctx.canUpd = false) (hfit : FitCalls 0 cs) :
    hp.Blocked p (callFields cs) (callOctets cs) hp' := by
  induction hcalls generalizing p with
  | last _ run =>
    have hv := hpackEncode_valid (Or.inl rfl) run
    have hfit₁ := hfit.1
    rw [Nat.zero_mod] at hfit₁
    have h := (hpackEncode_resumed hs hset halloc hres hcan hv (Or.inl rfl) hfit₁ run).last
    rwa [callFields, callOctets, List.flatMap_singleton, List.flatMap_singleton]
  | more _ run _ ih =>
    have hv := hpackEncode_valid (Or.inr rfl) run
    have hfit₁ := hfit.1
    rw [Nat.zero_mod] at hfit₁
    have h := hpackEncode_resumed hs hset halloc hres hcan hv (Or.inr rfl) hfit₁ run
    exact h.more fun p' hs' hset' halloc' => ih hs' hset' halloc' h.stands h.closed hfit.2

/-- **A block delivers its updates and its fields**, in one call or several. -/
theorem hpackEncode_block {cs : List EncCall} (hcalls : BlockCalls cs hp hp') (hs : hp.Speaks p)
    (hres : hp.ctx.res = .ok) (hsound : hp.sz.Sound hp.tbl.length)
    (hfit : FitCalls (updateOctets hp.sz.updates).length cs) :
    hp.Blocked p.opened (callFields cs) (updateOctets hp.sz.updates ++ callOctets cs) hp' := by
  cases hcalls with
  | last _ run =>
    have hv := hpackEncode_valid (Or.inl rfl) run
    have h := (hpackEncode_begun hs hres hv hsound (Or.inl rfl) hfit.1 run).last
    rwa [callFields, callOctets, List.flatMap_singleton, List.flatMap_singleton]
  | more _ run rest =>
    have hv := hpackEncode_valid (Or.inr rfl) run
    have h := hpackEncode_begun hs hres hv hsound (Or.inr rfl) hfit.1 run
    have h' := h.more fun p' hs' hset' halloc' =>
      hpackEncode_rest rest hs' hset' halloc' h.stands h.closed hfit.2
    rwa [List.append_assoc] at h'

end Cashpack
