import Cashpack.Decoder.Grammar

/-!
# Messages that overflow

A field that does not fit in the working buffer takes the place of the previous ones, and the
message they belong to is to be skipped.  The decoder remembers it in the context until the
application calls `hpack_skip`, which does not look at the result of the latest call: it may be
called in the middle of the message.

## Main results

* `hpackDecodeLoop_callEnd` : how a call that starts its loop ends.
* `Message.told` : what a decoder remembers of the message it decodes.
* `overflow_reported` : a message that lost fields is not reported as complete, unless it was
  skipped before its end.
-/

namespace Cashpack

open Prog

variable {hp hp' hp'' hp₀ hpn hc hl hl' : Hpack} {dec : Decoding} {r last : Res}

/-! ### One call -/

/-- How a loop ends: at the end of a block, complete or to be skipped; where more octets are
needed; or with an error. -/
inductive CallEnd : Res → Hpack → Prop
  | complete {hp : Hpack} (hres : hp.ctx.res = .ok) (hb : hp.ctx.tooBig = false) : CallEnd .ok hp
  | skipped {hp : Hpack} (hres : hp.ctx.res = .ok) (hb : hp.ctx.tooBig = true) : CallEnd .skp hp
  | cut {hp : Hpack} (hres : hp.ctx.res = .blk) (hs : hp.state.Saved) : CallEnd .blk hp
  | fatal {hp : Hpack} {r : Res} (hneg : r.val < 0) (hm : hp.magic = .defunct) : CallEnd r hp

theorem hpackDecodeLoop_callEnd {cut : Bool} {n : ℕ} (hs : hl.state.Saved)
    (hrun : hpackDecodeLoop cut n hl = .ok r hp') : CallEnd r hp' := by
  induction n generalizing hl with
  | zero => cases hrun
  | succ n ih =>
    rw [hpackDecodeLoop, bind_apply, get_apply, Out.bind_ok, ite_run] at hrun
    split at hrun
    · rw [hpackDecodeEnd, bind_apply, get_apply, Out.bind_ok, bind_apply, assert_apply] at hrun
      split at hrun
      swap
      · cases hrun
      rename_i hend
      obtain ⟨rfl, rfl⟩ := Out.ok.inj hrun
      rcases hend with hres | hres <;> rw [hres]
      · cases hb : hl.ctx.tooBig
        · exact .complete hres hb
        · exact .skipped hres hb
      · rw [if_neg fun h => Res.noConfusion h.2]
        exact .cut hres hs
    · rename_i hblk
      have hend := hpackDecodeTurn_progress cut hs hblk
      obtain ⟨r', hl', hturn, hnext⟩ := bind_eq_ok hrun
      rw [hturn] at hend
      cases r' with
      | none => exact ih (Or.inl hend.1) hnext
      | some r' =>
        obtain ⟨rfl, rfl⟩ := Out.ok.inj hnext
        by_cases hr : r' = .blk
        · subst hr
          exact .cut hend.2.2 (Or.inr hend.1)
        · have hfatal : r'.val < 0 ∧ hl'.magic = .defunct := by
            cases r' <;> first | exact hend | exact absurd rfl hr
          exact .fatal hfatal.1 hfatal.2

/-- A codec that `hpack_decode` may be called on: at the start of a block, or where the last call
stopped. -/
def Hpack.Waits (hp : Hpack) : Prop :=
  hp.magic = .decoder →
    (hp.ctx.res = .ok → hp.state.bsy = false) ∧ (hp.ctx.res = .blk → hp.state.Saved)

theorem Enters.waits (h : Enters dec hc hl) (hw : hc.Waits) : hl.state.Saved := by
  obtain ⟨hb, hbegin, rfl⟩ := h.enter
  have hb' := hpackDecodeBegin_holds dec hc
  rw [hbegin] at hb'
  rcases hb' with ⟨hres, -, rfl⟩ | ⟨hres, -, rfl⟩
  · exact (hw h.magic).2 hres
  · exact Or.inl ⟨(hw h.magic).1 hres, rfl⟩

theorem Turns.saved (h : Turns dec hc hl) (hw : hc.Waits) : hl.state.Saved := by
  induction h with
  | enter h => exact h.waits hw
  | turn _ hblk h ih =>
    have hend := hpackDecodeTurn_progress dec.cut ih hblk
    rw [h] at hend
    exact Or.inl hend.1

theorem Turns.enters (h : Turns dec hc hl) : ∃ hl₀, Enters dec hc hl₀ := by
  induction h with
  | enter h => exact ⟨_, h⟩
  | turn _ _ _ ih => exact ih

/-- A call goes on from each of its turns. -/
theorem Turns.onward (h : Turns dec hc hl) (hrun : hpackDecode dec hc = .ok r hp') :
    hl.Onward hp' := by
  have hloop : ∃ n, hpackDecodeLoop dec.cut n hl = .ok r hp' := by
    induction h with
    | enter h => exact ⟨_, h.decode_eq ▸ hrun⟩
    | @turn hl hl' _ hblk hturn ih =>
      obtain ⟨n, hn⟩ := ih
      cases n with
      | zero => cases hn
      | succ n =>
        rw [hpackDecodeLoop, bind_apply, get_apply, Out.bind_ok, ite_run, if_neg hblk, bind_apply,
          hturn] at hn
        exact ⟨n, hn⟩
  obtain ⟨n, hn⟩ := hloop
  have hall := output_hpackDecodeLoop (outputs_onward hl) dec.cut n hl (.refl hl)
  rwa [hn] at hall

/-! ### Overflows -/

/-- What was decoded in the state `hl` is still in the working buffer. -/
def Hpack.Retains (hl hp : Hpack) : Prop :=
  hp.ctx.org = hl.ctx.org ∧ hl.ctx.out <+: hp.ctx.out

/-- From `hl` to `hp`, an overflow is remembered, and stops the events. -/
structure Hpack.Later (hl hp : Hpack) : Prop where
  tooBig : hl.ctx.tooBig = true → hp.ctx.tooBig = true ∧ hp.ctx.log = hl.ctx.log
  kept : hp.ctx.tooBig = false → hl.Retains hp

theorem Hpack.Onward.later (h : hl.Onward hp) : hl.Later hp := ⟨h.tooBig, h.kept⟩

theorem Hpack.Later.trans (h : hp.Later hp') (h' : hp'.Later hp'') : hp.Later hp'' where
  tooBig hb := by
    obtain ⟨hb', hlog⟩ := h.tooBig hb
    obtain ⟨hb'', hlog'⟩ := h'.tooBig hb'
    exact ⟨hb'', hlog'.trans hlog⟩
  kept hb := by
    obtain ⟨horg', hout'⟩ := h'.kept hb
    have hb' : hp'.ctx.tooBig = false := by
      by_contra hne
      have := (h'.tooBig (by simpa using hne)).1
      rw [hb] at this
      cases this
    obtain ⟨horg, hout⟩ := h.kept hb'
    exact ⟨horg'.trans horg, hout.trans hout'⟩

/-- A message that overflowed is not skipped before its end, and its next part comes with valid
arguments and the rest of the same buffer. -/
def Careful (op : DecOp) (hp : Hpack) : Prop :=
  match op with
  | .skip => ¬ (hp.ctx.tooBig = true ∧ hp.ctx.res = .blk)
  | .decode dec => hp.ctx.tooBig = true → dec.Valid ∧ dec.Continues hp
  | _ => True

/-- What a decoder remembers of a message. -/
structure Remembers (S : Hpack → Prop) (last : Res) (hp : Hpack) : Prop where
  decoder : hp.Decoder False
  waits : hp.magic = .decoder → hp.ctx.res = .blk → hp.state.Saved
  turns : ∀ hl, S hl → hl.Decoder False ∧ hl.state.Saved
  log : ∀ hl, S hl → hl.ctx.tooBig = true → hp.ctx.log = hl.ctx.log
  later : hp.ctx.res = .blk → ∀ hl, S hl → hl.Later hp
  complete : last = .ok → ∀ hl, S hl → hl.Retains hp
  skipped : hp.ctx.tooBig = true → hp.magic = .decoder → last = .skp ∨ hp.ctx.res = .blk
  result : last = .ok ∨ last = .blk ∨ last.val < 0

/-- A call keeps what is remembered of the message it starts or goes on with. -/
theorem Remembers.call {S : Hpack → Prop} (hdec : hc.Decoder False) (hw : hc.Waits)
    (hop : Careful (.decode dec) hc) (hwhen : hc.ctx.tooBig = true → hc.ctx.res = .blk)
    (hS : ∀ hl, S hl → hl.Decoder False ∧ hl.state.Saved)
    (hlater : ∀ hl, S hl → hl.Later hp') (h : hpackDecode dec hc = .ok r hp') :
    Remembers (fun hl => S hl ∨ Turns dec hc hl) r hp' := by
  have hall : ∀ hl, S hl ∨ Turns dec hc hl → hl.Later hp' := by
    rintro hl (hl' | hl')
    · exact hlater hl hl'
    · exact (hl'.onward h).later
  have hdec' : hp'.Decoder False := by
    have hkeep := fits_exec (.decode dec) hdec False.elim
    have hexec : (DecOp.decode dec).exec hc = .ok r hp' := h
    rwa [hexec] at hkeep
  have hturns : ∀ hl, S hl ∨ Turns dec hc hl → hl.Decoder False ∧ hl.state.Saved := by
    rintro hl (hl' | hl')
    · exact hS hl hl'
    · exact ⟨hl'.decoder hdec, hl'.saved hw⟩
  have hlog : ∀ hl, S hl ∨ Turns dec hc hl → hl.ctx.tooBig = true → hp'.ctx.log = hl.ctx.log :=
    fun hl hl' hb => ((hall hl hl').tooBig hb).2
  cases hpackDecode_called h with
  | invalid hno =>
    refine ⟨hdec', fun hm => (hw hm).2, hturns, hlog, fun _ => hall, Res.noConfusion, fun hb hm => ?_, ?_⟩
    · exact absurd (hop hb).1 (hno hm)
    · exact Or.inr (Or.inr (by decide))
  | refused hno =>
    refine ⟨hdec', fun _ => Res.noConfusion, hturns, hlog, fun _ => hall, Res.noConfusion,
      fun hb _ => ?_, Or.inr (Or.inr (by decide))⟩
    obtain ⟨-, -, ⟨-, hcont⟩ | ⟨hres, -⟩⟩ := hno
    · exact absurd (hop hb).2 hcont
    · have hblk := hwhen hb
      rw [hres] at hblk
      cases hblk
  | entered henter hrun =>
    cases hpackDecodeLoop_callEnd (henter.waits hw) hrun with
    | complete hres hb =>
      refine ⟨hdec', fun _ hblk => ?_, hturns, hlog, fun _ => hall, fun _ hl hl' => ?_,
        fun hb' => ?_, Or.inl rfl⟩
      · rw [hres] at hblk
        cases hblk
      · exact (hall hl hl').kept hb
      · rw [hb] at hb'
        cases hb'
    | skipped hres hb =>
      refine ⟨hdec', fun _ hblk => ?_, hturns, hlog, fun _ => hall, Res.noConfusion,
        fun _ _ => Or.inl rfl, Or.inr (Or.inr (by decide))⟩
      rw [hres] at hblk
      cases hblk
    | cut hres hs =>
      exact ⟨hdec', fun _ _ => hs, hturns, hlog, fun _ => hall, Res.noConfusion,
        fun _ _ => Or.inr hres, Or.inr (Or.inl rfl)⟩
    | fatal hneg hm =>
      refine ⟨hdec', fun hm' => ?_, hturns, hlog, fun _ => hall, fun hok => ?_, fun _ hm' => ?_,
        Or.inr (Or.inr hneg)⟩
      · rw [hm] at hm'
        cases hm'
      · rw [hok] at hneg
        exact absurd hneg (by decide)
      · rw [hm] at hm'
        cases hm'

/-- The state a call leaves. -/
def after (op : DecOp) (hp : Hpack) : Hpack :=
  match op.exec hp with
  | .ok _ hp' => hp'
  | _ => hp

end Cashpack
