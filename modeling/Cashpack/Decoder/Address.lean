import Cashpack.Decoder.Output
import Cashpack.Decoder.Order
import Cashpack.Decoder.Strings

/-!
# Where the fields of a block are

A FIELD event comes with the address of the field in the block, which `hpack_decoder_field` finds
by going back as many octets as `HPI_decode` counted.  The count has 8 bits, and the integer may
be padded to any length.

## Main results

* `hpackDecodeAny_announce` : a field is decoded up to its FIELD event, then to its end.
* `field_address` : the FIELD event points at the first octet of its field, and passes its
  assertion, exactly when the count did not wrap around.
-/

namespace Cashpack

open Prog

variable {hp hp' hpn hc hl : Hpack} {dec : Decoding} {cs rest : Octets} {n : ℕ} {typ : UInt8}

/-! ### Integers in progress -/

theorem outputs_tagged : Outputs fun hp => hp.state.Tagged where
  only _ _ _ _ htag h := htag h
  notify evt hp h := ((blind_hpcNotify evt).state_eq hp).mono
    (fun _ _ hst => hst.symm ▸ h) (fun _ hst => hst.symm ▸ h) fun _ h => h
  skip len hp h := ((blind_hpdSkip len).state_eq hp).mono
    (fun _ _ hst => hst.symm ▸ h) (fun _ hst => hst.symm ▸ h) fun _ h => h
  write s hp h := ((blind_hpdWrite s).state_eq hp).mono
    (fun _ _ hst => hst.symm ▸ h) (fun _ hst => hst.symm ▸ h) fun _ h => h

theorem tagged_hpackDecode (dec : Decoding) :
    Keeps (fun _ => True) (fun hp => hp.state.Tagged) (hpackDecode dec) := by
  refine .bind .get fun hp => .ite (fun _ => .pure _) fun _ => ?_
  refine .bind (.attempt fun hp h => ?_) fun r => ?_
  · refine (hpackDecodeBegin_holds dec hp).mono (fun _ hp' h' => ?_) (fun hp' h' => ?_)
      fun _ h => h
    · rcases h' with ⟨-, -, rfl⟩ | ⟨-, -, rfl⟩
      · exact h
      · exact h
    · exact h'.2 ▸ h
  cases r with
  | none => exact .pure _
  | some _ => exact .bind (.modify fun _ h => h) fun _ => output_hpackDecodeLoop outputs_tagged _ _

theorem tagged_hpackDecodeFields (dec : Decoding) (cur : Option (ℕ × ℕ)) :
    Keeps (fun _ => True) (fun hp => hp.state.Tagged) (hpackDecodeFields dec cur) := by
  have hnext : Keeps (fun _ => True) (fun hp => hp.state.Tagged) (hpackDecodeFieldsNext dec cur) := by
    intro hp h
    refine (hpackDecodeFieldsNext_holds dec cur hp).mono (fun _ hp' h' => ?_)
      (fun _ h' => h'.elim) fun _ h => h
    rcases h' with ⟨-, rfl, -⟩ | ⟨-, rfl⟩
    · exact h
    · exact h
  refine .bind .get fun hp => .ite (fun _ => .pure _) fun _ => .bind (.assert _ trivial) fun _ => ?_
  refine .ite (fun _ => .ite (fun _ => ?_) fun _ => ?_) fun _ => hnext
  · exact .bind (.modify fun _ h => h) fun _ => .pure _
  · refine .bind (tagged_hpackDecode _) fun r => .bind .get fun hp' => ?_
    refine .bind (.assert _ trivial) fun _ => .ite (fun _ => .pure _) fun _ => ?_
    exact .bind (.modify fun _ h => h) fun _ => hnext

theorem tagged_exec (op : DecOp) (h : hp.state.Tagged) :
    (op.exec hp).Holds (fun _ hp' => hp'.state.Tagged) (fun _ => True) fun _ => True := by
  have hmem : MemFree fun hp => hp.state.Tagged := fun _ _ _ _ _ _ h => h
  have hany : ∀ {x : Cp Res}, Keeps (fun _ => True) (fun hp => hp.state.Tagged) x →
      (x hp).Holds (fun _ hp' => hp'.state.Tagged) (fun _ => True) fun _ => True := fun hx =>
    (hx hp h).mono (fun _ _ h => h) (fun _ _ => trivial) fun _ h => h
  cases op with
  | resize len re => exact hany (hmem.hpackResize len re)
  | trim re => exact hany (hmem.hpackTrim re)
  | decode dec => exact hany (tagged_hpackDecode dec)
  | fields dec cur => exact hany (.bind (tagged_hpackDecodeFields dec cur) fun _ => .pure _)
  | skip =>
    refine hany (.bind .get fun hp => .ite (fun _ => .pure _) fun _ => ?_)
    exact .bind (.modify fun _ h => h) fun _ => .pure _
  | foreach static dynamic =>
    refine (hpackForeach_cleared static dynamic hp).mono (fun _ hp' h' => ?_)
      (fun _ _ => trivial) fun _ h => h
    rcases h' with ⟨-, rfl⟩ | ⟨-, log, rfl⟩
    · exact h
    · exact h

theorem decoder_tagged (hnew : NewDecoder hpn)
    (hrun : Reach DecOp.exec (fun _ _ => True) hpn hp) : hp.state.Tagged := by
  refine hrun.invariant (I := fun hp => hp.state.Tagged) ?_ fun op hp r hp' h _ hr => ?_
  · obtain ⟨mem, max, realloc, mon, blk, -, -, rfl⟩ := hnew.init
    exact Bool.noConfusion
  · have h' := tagged_exec op h
    rwa [hr] at h'

/-! ### Fields, up to their FIELD event -/

/-- The representation of a field that starts with this octet. -/
def fieldHpp (typ : UInt8) : Hpp :=
  if Hpp.idx.matches typ then .idx
  else if Hpp.dyn.matches typ then .dyn
  else if Hpp.nvr.matches typ then .nvr
  else .lit

/-- The start of a field, up to its FIELD event, with the index of that event. -/
def hpackDecodeAnnounce (typ : UInt8) : Cp ℕ :=
  if Hpp.idx.matches typ then do
    let idx ← hpiDecode Hpp.idx.pfx
    hpackDecoderField idx
    pure idx
  else do
    hpackDecodeLiteralIdx (fieldHpp typ)
    pure 0

/-- What follows the FIELD event. -/
def hpackDecodeAnnounced (typ : UInt8) (idx : ℕ) : Cp Unit :=
  if Hpp.idx.matches typ then hptDecode idx
  else if Hpp.dyn.matches typ then do
    hpackDecodeField
    hptIndex
  else if Hpp.nvr.matches typ then do
    hpcNotify .never
    hpackDecodeField
  else hpackDecodeField

/-- A field that starts is decoded up to its FIELD event, then to its end. -/
theorem hpackDecodeAny_announce (hf : ¬ IsUpdate typ) (hstp : hp.state.stp = .fldInt) :
    hpackDecodeAny typ hp = (do
      let idx ← hpackDecodeAnnounce typ
      hpackDecodeAnnounced typ idx : Cp Unit) hp := by
  unfold hpackDecodeAny hpackDecodeAnnounce hpackDecodeAnnounced fieldHpp
  -- a literal that starts is not resumed
  have hwhen : ∀ x y : Cp Unit, (do
      let hp ← get
      Prog.when (hp.state.stp = .fldInt) x
      y : Cp Unit) hp = (do x; y : Cp Unit) hp := by
    intro x y
    rw [bind_apply, get_apply, Out.bind_ok, bind_apply, when_apply, if_pos hstp, bind_apply]
  by_cases hidx : Hpp.idx.matches typ = true
  · simp only [if_pos hidx, hpackDecodeIndexed, bind_assoc, pure_bind]
  simp only [if_neg hidx, bind_assoc, pure_bind]
  by_cases hdyn : Hpp.dyn.matches typ = true
  · simp only [if_pos hdyn]
    exact hwhen _ _
  have hupd : ¬ Hpp.upd.matches typ = true := fun h => hf ⟨by simpa using hidx, by simpa using hdyn, h⟩
  simp only [if_neg hdyn, if_neg hupd]
  by_cases hnvr : Hpp.nvr.matches typ = true
  · simp only [if_pos hnvr]
    have h := hwhen (do hpackDecodeLiteralIdx .nvr; hpcNotify .never) hpackDecodeField
    rwa [bind_assoc] at h
  · simp only [if_neg hnvr]
    exact hwhen _ _

/-! ### Turns -/

/-- The codec that a turn gives to its representation. -/
def Hpack.turn (hp : Hpack) : Hpack :=
  { hp with state.typ := hp.typ, ctx.canUpd := hp.ctx.canUpd && Hpp.upd.matches hp.typ }

/-- A turn decodes a representation, unless it is a field that may not come yet. -/
theorem hpackDecodeTurn_turn (cut : Bool) (hblk : hp.ctx.blk ≠ [])
    (h : Hpp.upd.matches hp.typ = true ∨ (hp.sz.min < 0 ∧ hp.sz.nxt < 0)) :
    hpackDecodeTurn cut hp = hpackDecodeRep cut hp.typ hp.turn := by
  rw [hpackDecodeTurn, bind_apply, hpackDecodeTyp_eq hblk, Out.bind_ok, bind_apply, get_apply,
    Out.bind_ok, ite_run]
  rcases h with h | ⟨hmin, hnxt⟩
  · rw [if_neg (by simp [h]), bind_apply, when_apply, if_neg (by simp [h]), Out.bind_ok]
    have hturn : hp.turn = { hp with state.typ := hp.typ } := by
      rw [Hpack.turn, h, Bool.and_true]
    rw [hturn]
  · rw [if_neg fun h' => absurd h'.2 (by simpa using hnxt), bind_apply, when_apply]
    split
    · rename_i hfield
      have hturn : hp.turn = { hp with state.typ := hp.typ, ctx.canUpd := false } := by
        have hfield : Hpp.upd.matches hp.typ = false := hfield
        rw [Hpack.turn, hfield, Bool.and_false]
      rw [assert_bind_pos hmin, modify_apply, Out.bind_ok, hturn]
    · rename_i hfield
      have hfield : Hpp.upd.matches hp.typ = true := by simpa using hfield
      have hturn : hp.turn = { hp with state.typ := hp.typ } := by
        rw [Hpack.turn, hfield, Bool.and_true]
      rw [Out.bind_ok, hturn]

/-- How a turn ends: with its representation decoded, with an error that leaves the rest to come or
a defunct codec, or on a field that may not come yet. -/
inductive TurnOf (cut : Bool) (hp : Hpack) : Option Res → Hpack → Prop
  | decoded {hp₁ : Hpack} (any : hpackDecodeAny hp.typ hp.turn = .ok () hp₁) :
    TurnOf cut hp none { hp₁ with ctx.fld := Fld.zero }
  | lacking {hp₁ : Hpack} (any : hpackDecodeAny hp.typ hp.turn = .err hp₁) (hcut : cut = true)
    (hres : hp₁.ctx.res = .buf) : TurnOf cut hp (some .blk) { hp₁ with ctx.res := .blk }
  | failed {hp₁ : Hpack} (any : hpackDecodeAny hp.typ hp.turn = .err hp₁) :
    TurnOf cut hp (some hp₁.ctx.res) { hp₁ with magic := .defunct }
  | early : TurnOf cut hp (some .rsz) { hp with state.typ := hp.typ, magic := .defunct }

theorem hpackDecodeTurn_of {cut : Bool} {r : Option Res} (hblk : hp.ctx.blk ≠ [])
    (hpend : hp.sz.Pend) (h : hpackDecodeTurn cut hp = .ok r hp') : TurnOf cut hp r hp' := by
  by_cases hfield : Hpp.upd.matches hp.typ = false ∧ 0 ≤ hp.sz.nxt
  · have hturn := hpackDecodeTurn_early cut hblk hfield.1 hfield.2
    rw [h] at hturn
    obtain ⟨rfl, rfl⟩ := Out.ok.inj hturn
    exact .early
  have hok : Hpp.upd.matches hp.typ = true ∨ (hp.sz.min < 0 ∧ hp.sz.nxt < 0) := by
    by_cases hupd : Hpp.upd.matches hp.typ = true
    · exact Or.inl hupd
    · have hnxt : hp.sz.nxt < 0 := by
        by_contra hnxt
        exact hfield ⟨by simpa using hupd, by omega⟩
      rcases hpend with ⟨hmin, -⟩ | ⟨hmin, hle⟩
      · exact Or.inr ⟨hmin, hnxt⟩
      · omega
  rw [hpackDecodeTurn_turn cut hblk hok, hpackDecodeRep, bind_apply, attempt_apply] at h
  cases hany : hpackDecodeAny hp.typ hp.turn with
  | ok u hp₁ =>
    rw [hany] at h
    obtain ⟨rfl, rfl⟩ := Out.ok.inj h
    exact .decoded hany
  | err hp₁ =>
    rw [hany, Out.bind_ok] at h
    dsimp only at h
    rw [bind_apply, get_apply, Out.bind_ok, bind_apply, assert_apply] at h
    split at h
    swap
    · cases h
    rw [Out.bind_ok, ite_run] at h
    split at h
    · rename_i hbuf
      obtain ⟨rfl, rfl⟩ := Out.ok.inj h
      exact .lacking hany hbuf.1 hbuf.2
    · obtain ⟨rfl, rfl⟩ := Out.ok.inj h
      exact .failed hany
  | stop w =>
    rw [hany] at h
    cases h

/-! ### Counting octets -/

/-- The octets of an integer in progress are counted modulo 256. -/
theorem intLoop_octets {i i' : IntState} (h : intLoop cs i = .done i' []) :
    i'.l = (i.l + cs.length) % 256 := by
  induction cs generalizing i with
  | nil => cases h
  | cons b cs ih =>
    rw [intLoop] at h
    split at h
    · cases h
    · split at h
      · have hl : (i.next b).l = (i.l + 1) % 256 := rfl
        rw [ih h, hl, List.length_cons]
        omega
      · obtain ⟨rfl, rfl⟩ := IntOut.done.inj h
        rfl

/-- The octets `cs` are an integer of value `n`, or the rest of the one in progress. -/
def State.Index (st : State) (pfx n : ℕ) (cs : Octets) : Prop :=
  (st.bsy = false ∧ ∃ b cs', cs = b :: cs' ∧ IsInt pfx n b cs') ∨
    (st.bsy = true ∧ ∃ i, intLoop cs { st.hpi with l := 0 } = .done i [] ∧ i.v = n)

theorem State.Index.ne_nil {st : State} {pfx : ℕ} (h : st.Index pfx n cs) : cs ≠ [] := by
  rcases h with ⟨-, b, cs', rfl, -⟩ | ⟨-, i, hi, -⟩
  · exact List.cons_ne_nil _ _
  · rintro rfl
    cases hi

/-- `HPI_decode` reads it, and counts its octets modulo 256. -/
theorem hpiDecode_index {pfx : ℕ} (hpfx : 4 ≤ pfx ∧ pfx ≤ 7) (htag : hp.state.Tagged)
    (h : hp.state.Index pfx n cs) (hblk : hp.ctx.blk = cs ++ rest) :
    ∃ hp₁, hpiDecode pfx hp = .ok n hp₁ ∧ hp₁.ctx = { hp.ctx with blk := rest } ∧
      hp₁.magic = hp.magic ∧ hp₁.state.hpi.l = cs.length % 256 := by
  rcases h with ⟨hbsy, b, cs', rfl, hint⟩ | ⟨hbsy, i, hi, rfl⟩
  · simp only [hpiDecode, bind_apply, assert_apply, if_pos hpfx, Out.bind_ok, get_apply, hbsy,
      hblk, ite_run, Bool.false_eq_true, if_false, modify_apply, List.cons_append]
    rcases hint with ⟨hn, hb, rfl⟩ | ⟨hb, i, hi, rfl⟩
    · rw [hb, if_pos hn]
      exact ⟨_, rfl, rfl, rfl, rfl⟩
    · rw [if_neg hb, hpiDecodeLoop_eq, intLoop_append, hi]
      refine ⟨_, rfl, rfl, rfl, ?_⟩
      rw [List.length_cons, Nat.add_comm]
      exact intLoop_octets hi
  · have hne : hp.ctx.blk ≠ [] := by
      rw [hblk]
      rintro hnil
      rw [(List.append_eq_nil_iff.1 hnil).1] at hi
      cases hi
    rw [hpiDecode, assert_bind_pos hpfx, bind_apply, get_apply, Out.bind_ok, ite_run, if_pos hbsy,
      assert_bind_pos (htag hbsy), assert_bind_pos hne, hpiDecodeLoop_eq, hblk, intLoop_append, hi]
    refine ⟨_, rfl, rfl, rfl, ?_⟩
    have hl := intLoop_octets hi
    rwa [Nat.zero_add] at hl

/-! ### The FIELD event -/

/-- The FIELD event of the octets before `rest`, with its address in the block. -/
theorem hpackDecoderField_eq (idx : ℕ) (hm : hp.magic = .decoder) :
    hpackDecoderField idx hp =
      if 0 < hp.state.hpi.l then .ok () { hp with ctx.log := hp.ctx.log ++
        if hp.ctx.tooBig = true then []
        else [.field (some ((hp.ctx.arg.blkLen : ℤ) - hp.ctx.blk.length - hp.state.hpi.l)) idx] }
      else .stop .abort := by
  rw [hpackDecoderField, bind_apply, get_apply, Out.bind_ok, bind_apply, assert_apply]
  split
  · rw [Out.bind_ok, hpcNotify]
    by_cases hb : hp.ctx.tooBig = true
    · rw [if_pos hb, if_pos hm, if_pos hb, List.append_nil]
    · rw [if_neg hb, if_neg hb]
  · rfl

/-- A field starts here, or goes on with its index, of which `cs` are the octets left, and it may
come now. -/
structure Hpack.AtField (hp : Hpack) (cs : Octets) : Prop where
  field : ¬ IsUpdate hp.typ
  stp : hp.state.stp = .fldInt
  now : Hpp.upd.matches hp.typ = true ∨ hp.sz.nxt < 0
  index : ∃ n, hp.state.Index (fieldHpp hp.typ).pfx n cs
  blk : cs <+: hp.ctx.blk

theorem fieldHpp_pfx (typ : UInt8) : 4 ≤ (fieldHpp typ).pfx ∧ (fieldHpp typ).pfx ≤ 7 := by
  unfold fieldHpp
  split
  · decide
  split
  · decide
  split <;> decide

/-- The FIELD event comes after the octets of the index, and goes back as many as were counted. -/
theorem hpackDecodeAnnounce_eq (h : hp.AtField cs) (htag : hp.state.Tagged)
    (hm : hp.magic = .decoder) (hrest : hp.ctx.blk = cs ++ rest) :
    (256 ∣ cs.length → hpackDecodeAnnounce hp.typ hp.turn = .stop .abort) ∧
      (¬ 256 ∣ cs.length → ∃ idx idx' hf, hpackDecodeAnnounce hp.typ hp.turn = .ok idx hf ∧
        hf.ctx.log = hp.ctx.log ++ if hp.ctx.tooBig = true then [] else
          [.field (some ((hp.ctx.arg.blkLen : ℤ) - rest.length - (cs.length % 256 : ℕ))) idx']) := by
  obtain ⟨n, hidx⟩ := h.index
  obtain ⟨hp₁, hint, hctx, hm₁, hl⟩ := @hpiDecode_index hp.turn cs rest n _ (fieldHpp_pfx hp.typ)
    htag hidx hrest
  have hpos : 0 < hp₁.state.hpi.l ↔ ¬ 256 ∣ cs.length := by
    rw [hl, Nat.dvd_iff_mod_eq_zero]
    omega
  have hfield : ∀ idx (hp₂ : Hpack), hp₂.magic = .decoder → hp₂.ctx = hp₁.ctx →
      hp₂.state.hpi = hp₁.state.hpi → hpackDecoderField idx hp₂ =
        if 0 < hp₁.state.hpi.l then .ok () { hp₂ with ctx.log := hp.ctx.log ++
          if hp.ctx.tooBig = true then [] else
            [.field (some ((hp.ctx.arg.blkLen : ℤ) - rest.length - (cs.length % 256 : ℕ))) idx] }
        else .stop .abort := by
    intro idx hp₂ hm₂ hctx₂ hhpi
    rw [hpackDecoderField_eq idx hm₂, hctx₂, hhpi, hctx, ← hl]
    rfl
  have hm₁' : hp₁.magic = .decoder := hm₁.trans hm
  by_cases htyp : Hpp.idx.matches hp.typ = true
  · have hpfx : fieldHpp hp.typ = .idx := if_pos htyp
    rw [hpfx] at hint
    rw [hpackDecodeAnnounce, if_pos htyp, bind_apply, hint, Out.bind_ok, bind_apply,
      hfield n hp₁ hm₁' rfl rfl]
    refine ⟨fun hdvd => ?_, fun hdvd => ?_⟩
    · rw [if_neg fun h => hpos.1 h hdvd, Out.bind_stop]
    · rw [if_pos (hpos.2 hdvd)]
      exact ⟨n, n, _, rfl, rfl⟩
  · rw [hpackDecodeAnnounce, if_neg htyp, bind_apply, hpackDecodeLiteralIdx, bind_apply, hint,
      Out.bind_ok, bind_apply, modify_apply, Out.bind_ok,
      hfield 0 { hp₁ with state.idx := n } hm₁' rfl rfl]
    refine ⟨fun hdvd => ?_, fun hdvd => ?_⟩
    · rw [if_neg fun h => hpos.1 h hdvd, Out.bind_stop]
    · rw [if_pos (hpos.2 hdvd)]
      exact ⟨0, 0, _, rfl, rfl⟩

/-! ### Calls -/

/-- What decoding representations keeps holds at every turn of a call. -/
theorem Turns.decoder {b : Prop} (h : Turns dec hc hl) (hc' : hc.Decoder b) : hl.Decoder b := by
  induction h with
  | enter h => exact h.keeps (stable_onDecoder _) hc'
  | @turn hl hl' _ _ h ih =>
    have hturn := keeps_hpackDecodeTurn (stable_onDecoder _) fits_hptField fits_hptIndex
      fits_hpackDecodeUpdate dec.cut hl ih
    rwa [h] at hturn

theorem Turns.magic (h : Turns dec hc hl) (hc' : hc.Decoder False) : hl.magic = .decoder := by
  induction h with
  | enter h =>
    obtain ⟨hb, hbegin, rfl⟩ := h.enter
    have hb' := hpackDecodeBegin_holds dec hc
    rw [hbegin] at hb'
    rcases hb' with ⟨-, -, rfl⟩ | ⟨-, -, rfl⟩
    · exact h.magic
    · exact h.magic
  | @turn hl hl' before hblk h ih =>
    have hdec := before.decoder hc'
    obtain ⟨hany⟩ := hpackDecodeTurn_of hblk hdec.1.1.pend h
    have hfree : TableFree fun c => c.magic = .decoder := fun _ _ h => h
    have hkeeps : Keeps (InBounds False) (Hpack.Inv (fun c => c.magic = .decoder) Fld.Ext)
        (hpackDecodeAny hl.typ) :=
      keeps_hpackDecodeAny (keeps_hptField hfree.entriesFree) (keeps_hptIndex hfree.entriesFree)
        (keeps_hpackDecodeUpdate hfree fun _ h => h)
    have hkeep := hkeeps hl.turn ⟨ih, hdec.2⟩
    rw [hany] at hkeep
    exact hkeep.1

theorem Turns.tagged (h : Turns dec hc hl) (hc' : hc.state.Tagged) : hl.state.Tagged := by
  induction h with
  | enter h =>
    obtain ⟨hb, hbegin, rfl⟩ := h.enter
    have hb' := hpackDecodeBegin_holds dec hc
    rw [hbegin] at hb'
    rcases hb' with ⟨-, -, rfl⟩ | ⟨-, -, rfl⟩
    · exact hc'
    · exact hc'
  | @turn hl hl' _ _ h ih =>
    have hturn := output_hpackDecodeTurn outputs_tagged dec.cut hl ih
    rwa [h] at hturn

/-- The octets left are at the end of the block. -/
theorem Turns.suffix (h : Turns dec hc hl) :
    hl.ctx.blk <:+ dec.blk ∧ hl.ctx.arg = ⟨dec.buf, dec.bufLen, dec.blk.length⟩ := by
  induction h with
  | enter h =>
    obtain ⟨hb, hbegin, rfl⟩ := h.enter
    exact ⟨List.suffix_refl _, rfl⟩
  | turn _ _ h ih =>
    have honward := hpackDecodeTurn_onward h
    exact ⟨honward.blk.trans ih.1, honward.arg.trans ih.2⟩

/-- The turn goes past the assertion of `hpack_decoder_field`, and unless events are no longer
notified, it notifies a FIELD event with the address of the octets `hl` is at. -/
def Points (dec : Decoding) (hl : Hpack) : Prop :=
  ∃ idx idx' pre hf, dec.blk = pre ++ hl.ctx.blk ∧
    hpackDecodeTurn dec.cut hl = hpackDecodeRep dec.cut hl.typ hl.turn ∧
    hpackDecodeAny hl.typ hl.turn = hpackDecodeAnnounced hl.typ idx hf ∧
    hpackDecodeAnnounce hl.typ hl.turn = .ok idx hf ∧
    hf.ctx.log = hl.ctx.log ++
      if hl.ctx.tooBig = true then [] else [.field (some pre.length) idx']

/-- **FIELD events point at their field**: a call of `hpack_decode` comes to a field of the block,
of which `cs` are the octets of the index.  The assertion on the count holds, and the event has
the address of the field, exactly when the count did not wrap around. -/
theorem field_address (hnew : NewDecoder hpn) (hrun : Reach DecOp.exec (fun _ _ => True) hpn hc)
    (hturn : Turns dec hc hl) (hfield : hl.AtField cs) :
    Points dec hl ↔ ¬ 256 ∣ cs.length ∧ (hl.ctx.tooBig = false → cs.length < 256) := by
  have hdec : hl.Decoder False := hturn.decoder (decoder_sound hnew hrun)
  obtain ⟨hsuffix, harg⟩ := hturn.suffix
  obtain ⟨rest, hrest⟩ := hfield.blk
  obtain ⟨hstop, hok⟩ := hpackDecodeAnnounce_eq hfield (hturn.tagged (decoder_tagged hnew hrun))
    (hturn.magic (decoder_sound hnew hrun)) hrest.symm
  obtain ⟨pre, hpre⟩ := hsuffix
  have hlen : (hl.ctx.arg.blkLen : ℤ) = pre.length + cs.length + rest.length := by
    rw [harg, ← hpre, ← hrest]
    simp only [List.length_append]
    omega
  constructor
  · rintro ⟨idx, idx', pre', hf, hpre', -, -, hann, hlog⟩
    have hdvd : ¬ 256 ∣ cs.length := by
      intro hdvd
      rw [hstop hdvd] at hann
      cases hann
    refine ⟨hdvd, fun hb => ?_⟩
    obtain ⟨idx₁, idx₁', hf₁, hann₁, hlog₁⟩ := hok hdvd
    rw [hann] at hann₁
    obtain ⟨-, rfl⟩ := Out.ok.inj hann₁
    have hpre₁ : pre' = pre := List.append_cancel_right (hpre'.symm.trans hpre.symm)
    rw [hlog, hb, if_neg Bool.false_ne_true, if_neg Bool.false_ne_true] at hlog₁
    have hevt := List.append_cancel_left hlog₁
    simp only [List.cons.injEq, Event.field.injEq, Option.some.injEq, and_true] at hevt
    rw [hpre₁] at hevt
    omega
  · rintro ⟨hdvd, hlt⟩
    obtain ⟨idx, idx', hf, hann, hlog⟩ := hok hdvd
    have hblk : hl.ctx.blk ≠ [] := by
      obtain ⟨n, hidx⟩ := hfield.index
      rw [← hrest]
      exact fun hnil => hidx.ne_nil (List.append_eq_nil_iff.1 hnil).1
    have hnow : Hpp.upd.matches hl.typ = true ∨ (hl.sz.min < 0 ∧ hl.sz.nxt < 0) := by
      refine hfield.now.imp_right fun hnxt => ?_
      have hpend : (hl.sz.min < 0 ∧ hl.sz.nxt < 0) ∨ (0 ≤ hl.sz.min ∧ hl.sz.min ≤ hl.sz.nxt) :=
        hdec.1.1.pend
      omega
    refine ⟨idx, idx', pre, hf, hpre.symm, hpackDecodeTurn_turn dec.cut hblk hnow, ?_, hann, ?_⟩
    · have hstp : hl.turn.state.stp = .fldInt := hfield.stp
      rw [hpackDecodeAny_announce hfield.field hstp, bind_apply, hann, Out.bind_ok]
    · rw [hlog]
      by_cases hb : hl.ctx.tooBig = true
      · rw [if_pos hb, if_pos hb]
      · have hcs := hlt (by simpa using hb)
        have hbuf : (hl.ctx.arg.blkLen : ℤ) - rest.length - (cs.length % 256 : ℕ) = pre.length := by
          omega
        rw [if_neg hb, if_neg hb, hbuf]

/-- A literal with the name `accept-charset`, whose index takes `n + 2` octets, and the value
`a`. -/
def paddedIndex (n : ℕ) : Decoding :=
  ⟨0x0f :: List.replicate n 0x80 ++ [0x00, 0x01, 0x61], 1, 100, true, false⟩

/-- A decoder at this literal. -/
def paddedTurn (n : ℕ) : Hpack :=
  hpackDecodeArg (paddedIndex n) (smallDecoder.begin (paddedIndex n))

theorem field_address_padded : Points (paddedIndex 1) (paddedTurn 1) := by
  have hval : (paddedIndex 1).Valid := ⟨by decide, by decide, by decide, rfl⟩
  have hturn : Turns (paddedIndex 1) smallDecoder (paddedTurn 1) :=
    .enter ⟨rfl, hval, _, rfl, rfl⟩
  have hidx : (paddedTurn 1).state.Index 4 15 [0x0f, 0x80, 0x00] :=
    Or.inl ⟨rfl, 0x0f, [0x80, 0x00], rfl, Or.inr ⟨by decide, ⟨15, 14, 3⟩, by decide, rfl⟩⟩
  have hfield : (paddedTurn 1).AtField [0x0f, 0x80, 0x00] :=
    ⟨by decide, rfl, Or.inr (by decide), ⟨15, hidx⟩, ⟨[0x01, 0x61], rfl⟩⟩
  have h := field_address (.decoder smallDecoder_new) (.refl _) hturn hfield
  exact h.2 ⟨by decide, fun _ => by decide⟩

/-- A decoder that was given the literal with an index of 257 octets. -/
def paddedDecoder : Hpack :=
  match (DecOp.decode (paddedIndex 255)).exec smallDecoder with
  | .ok _ hp => hp
  | _ => smallDecoder

/-- An index of 256 octets fails an assertion, and with 257 octets the event points at the last
octet of the index. -/
theorem field_address_false :
    (DecOp.decode (paddedIndex 254)).exec smallDecoder = .stop .abort ∧
      (DecOp.decode (paddedIndex 255)).exec smallDecoder = .ok .ok paddedDecoder ∧
      paddedDecoder.ctx.log =
        [.field (some 256) 0, .name (ascii "accept-charset"), .value (ascii "a")] := by
  refine ⟨?_, ?_, ?_⟩ <;> decide +kernel

end Cashpack
