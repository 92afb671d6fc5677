import Cashpack.Decoder.Failure

/-!
# Blocks, turn by turn

A block is decoded by one call of `hpack_decode`, or by several when it is cut.  `InBlock` follows
it through the turns of the loop of each call, with the first octets of the representations
that were decoded so far; `InBlock.decode_eq` says that what is left of a call is the loop from
where it stands.
-/

namespace Cashpack

open Prog

/-- The call passes its checks in the state `hc` and starts its loop in the state `hl`. -/
structure Enters (dec : Decoding) (hc hl : Hpack) : Prop where
  magic : hc.magic = .decoder
  valid : dec.Valid
  enter : ∃ hb, hpackDecodeBegin dec hc = .ok () hb ∧ hl = hpackDecodeArg dec hb

theorem Enters.decode_eq {dec : Decoding} {hc hl : Hpack} (h : Enters dec hc hl) :
    hpackDecode dec hc = hpackDecodeLoop dec.cut (dec.blk.length + 1) hl := by
  obtain ⟨hb, hbegin, rfl⟩ := h.enter
  obtain ⟨h₁, h₂, h₃, h₄⟩ := h.valid
  rw [hpackDecode, bind_apply, get_apply, Out.bind_ok, ite_run,
    if_neg (by simp [h.magic, h₁, h₂, h₃, h₄]), bind_apply, attempt_apply, hbegin]
  rfl

/-- How a call of `hpack_decode` ends: it is refused, for its arguments or the state of the
decoder, or its loop decides. -/
inductive Called (dec : Decoding) (hc : Hpack) : Res → Hpack → Prop
  | invalid (h : hc.magic = .decoder → ¬ dec.Valid) : Called dec hc .arg hc
  | refused (h : Refused dec hc) : Called dec hc .arg { hc with ctx.res := .arg }
  | entered {hl hp' : Hpack} {r : Res} (h : Enters dec hc hl)
    (run : hpackDecodeLoop dec.cut (dec.blk.length + 1) hl = .ok r hp') : Called dec hc r hp'

theorem hpackDecode_called {dec : Decoding} {hc hp' : Hpack} {r : Res}
    (h : hpackDecode dec hc = .ok r hp') : Called dec hc r hp' := by
  rw [hpackDecode, bind_apply, get_apply, Out.bind_ok, ite_run] at h
  split at h
  · rename_i hargs
    obtain ⟨rfl, rfl⟩ := Out.ok.inj h
    refine .invalid fun hm hv => ?_
    obtain ⟨h₁, h₂, h₃, h₄⟩ := hv
    simp [hm, h₁, h₂, h₃, h₄] at hargs
  · rename_i hargs
    push Not at hargs
    obtain ⟨hm, hblk, hbuf, hlen, hcb⟩ := hargs
    have hv : dec.Valid := ⟨hblk, hbuf, hlen, by simpa using hcb⟩
    have hb' := hpackDecodeBegin_holds dec hc
    rw [bind_apply, attempt_apply] at h
    cases hbegin : hpackDecodeBegin dec hc with
    | ok u hb =>
      rw [hbegin] at h
      exact .entered ⟨hm, hv, hb, hbegin, rfl⟩ h
    | err hb =>
      rw [hbegin] at h hb'
      obtain ⟨rfl, rfl⟩ := Out.ok.inj h
      obtain ⟨hwhy, rfl⟩ := hb'
      exact .refused ⟨hm, hv, hwhy⟩
    | stop w =>
      rw [hbegin] at h
      cases h

/-- A block is being decoded since the state `hp₀`: `fs` are the first octets of the
representations decoded so far, and the call `dec`, made in the state `hc`, is at the start of a
turn of its loop in the state `hl`. -/
inductive InBlock (hp₀ : Hpack) : List UInt8 → Decoding → Hpack → Hpack → Prop
  /-- The first call. -/
  | start {dec : Decoding} {hl : Hpack} (hres : hp₀.ctx.res = .ok) (h : Enters dec hp₀ hl) :
      InBlock hp₀ [] dec hp₀ hl
  /-- A turn that decodes a representation, or the end of one. -/
  | turn {fs : List UInt8} {dec : Decoding} {hc hl hl' : Hpack} (before : InBlock hp₀ fs dec hc hl)
      (hblk : hl.ctx.blk ≠ []) (h : hpackDecodeTurn dec.cut hl = .ok none hl') :
      InBlock hp₀ (fs ++ [hl.typ]) dec hc hl'
  /-- The part ends between two representations. -/
  | resume {fs : List UInt8} {dec dec' : Decoding} {hc hl hl' : Hpack}
      (before : InBlock hp₀ fs dec hc hl) (hblk : hl.ctx.blk = []) (hres : hl.ctx.res = .blk)
      (h : Enters dec' hl hl') : InBlock hp₀ fs dec' hl hl'
  /-- The part ends in the middle of a representation. -/
  | within {fs : List UInt8} {dec dec' : Decoding} {hc hl hc' hl' : Hpack}
      (before : InBlock hp₀ fs dec hc hl) (hblk : hl.ctx.blk ≠ [])
      (hend : hpackDecodeTurn dec.cut hl = .ok (some .blk) hc') (h : Enters dec' hc' hl') :
      InBlock hp₀ fs dec' hc' hl'

/-- A new loop is where the last one stopped, or at the start of a representation. -/
theorem Enters.saved {dec : Decoding} {hc hl : Hpack} (h : Enters dec hc hl)
    (hsaved : hc.state.Saved) (hok : hc.ctx.res = .ok → hc.state.bsy = false) :
    hl.state.Saved ∧ hl.ctx.blk = dec.blk := by
  obtain ⟨hb, hbegin, rfl⟩ := h.enter
  have hb' := hpackDecodeBegin_holds dec hc
  rw [hbegin] at hb'
  rcases hb' with ⟨-, -, rfl⟩ | ⟨hres, -, rfl⟩
  · exact ⟨hsaved, rfl⟩
  · exact ⟨Or.inl ⟨hok hres, rfl⟩, rfl⟩

/-- A loop is at the start of a representation, or there are octets left for the one it is in. -/
theorem InBlock.saved {hp₀ hc hl : Hpack} {fs : List UInt8} {dec : Decoding}
    (h : InBlock hp₀ fs dec hc hl) (hbsy : hp₀.state.bsy = false) :
    hl.state.Saved ∧ (hl.ctx.blk = [] → hl.state.AtStart) := by
  induction h with
  | @start dec hl hres h =>
    obtain ⟨hb, hbegin, rfl⟩ := h.enter
    have hb' := hpackDecodeBegin_holds dec hp₀
    rw [hbegin] at hb'
    rcases hb' with ⟨hblk, -, -⟩ | ⟨-, -, rfl⟩
    · rw [hres] at hblk
      cases hblk
    · exact ⟨Or.inl ⟨hbsy, rfl⟩, fun _ => ⟨hbsy, rfl⟩⟩
  | @turn _ dec _ _ _ _ hblk h ih =>
    have hend := hpackDecodeTurn_progress dec.cut ih.1 hblk
    rw [h] at hend
    exact ⟨Or.inl hend.1, fun _ => hend.1⟩
  | resume _ hblk _ h ih =>
    obtain ⟨hs, heq⟩ := h.saved ih.1 fun _ => (ih.2 hblk).bsy
    exact ⟨hs, fun hnil => absurd (heq ▸ hnil) h.valid.1⟩
  | @within _ dec _ _ _ _ _ _ hblk hend h ih =>
    have hmid := hpackDecodeTurn_progress dec.cut ih.1 hblk
    rw [hend] at hmid
    obtain ⟨hs, heq⟩ := h.saved (Or.inr hmid.1) fun hok => by
      rw [hmid.2.2] at hok
      cases hok
    exact ⟨hs, fun hnil => absurd (heq ▸ hnil) h.valid.1⟩

/-- What is left of the call is the loop from where it stands. -/
theorem InBlock.decode_eq {hp₀ hc hl : Hpack} {fs : List UInt8} {dec : Decoding}
    (h : InBlock hp₀ fs dec hc hl) (hbsy : hp₀.state.bsy = false) {n : ℕ}
    (hn : hl.ctx.blk.length < n) : hpackDecode dec hc = hpackDecodeLoop dec.cut n hl := by
  -- a loop that was just started, whatever the call it follows
  have hstart : ∀ {dec hc hl n}, Enters dec hc hl → hl.state.Saved → hl.ctx.blk.length < n →
      hpackDecode dec hc = hpackDecodeLoop dec.cut n hl := by
    intro dec hc hl n h hs hn
    have hlen : hl.ctx.blk.length < dec.blk.length + 1 := by
      obtain ⟨hb, -, rfl⟩ := h.enter
      exact Nat.lt_succ_self _
    rw [h.decode_eq, hpackDecodeLoop_fuel hs hlen hn]
  have hsaved := h.saved hbsy
  induction h generalizing n with
  | start hres h => exact hstart h hsaved.1 hn
  | @turn fs dec hc hl hl' before hblk h ih =>
    have hs := before.saved hbsy
    have hend := hpackDecodeTurn_progress dec.cut hs.1 hblk
    rw [h] at hend
    rw [ih (n := hl.ctx.blk.length + n + 1) (by omega) hs, hpackDecodeLoop, bind_apply, get_apply,
      Out.bind_ok, ite_run, if_neg hblk, bind_apply, h]
    exact hpackDecodeLoop_fuel hsaved.1 (by have := hend.2; omega) hn
  | resume _ hblk _ h ih => exact hstart h hsaved.1 hn
  | within _ hblk hend h ih => exact hstart h hsaved.1 hn

/-- A turn that ends the loop gives the result of the call. -/
theorem InBlock.ends {hp₀ hc hl hp' : Hpack} {fs : List UInt8} {dec : Decoding} {r : Res}
    (h : InBlock hp₀ fs dec hc hl) (hbsy : hp₀.state.bsy = false) (hblk : hl.ctx.blk ≠ [])
    (hturn : hpackDecodeTurn dec.cut hl = .ok (some r) hp') : hpackDecode dec hc = .ok r hp' := by
  rw [h.decode_eq hbsy (Nat.lt_succ_self _), hpackDecodeLoop, bind_apply, get_apply, Out.bind_ok,
    ite_run, if_neg hblk, bind_apply, hturn]
  rfl

section

variable {b : Prop} {P : Core → Prop} (hP : Stable P)
  (hfield : ∀ idx, Keeps (InBounds b) (Hpack.Inv P Fld.Ext) (hptField idx))
  (hindex : Keeps (InBounds b) (Hpack.Inv P Fld.Ext) hptIndex)
  (hupdate : Keeps (InBounds b) (Hpack.Inv P Fld.Ext) hpackDecodeUpdate)

include hP

theorem Enters.keeps {dec : Decoding} {hc hl : Hpack} (h : Enters dec hc hl)
    (hinv : Hpack.Inv P Fld.Ext hc) : Hpack.Inv P Fld.Ext hl := by
  obtain ⟨hb, hbegin, rfl⟩ := h.enter
  have hb' := hpackDecodeBegin_holds dec hc
  rw [hbegin] at hb'
  rcases hb' with ⟨-, -, rfl⟩ | ⟨-, -, rfl⟩
  · exact ⟨hP _ _ ⟨dec.buf, dec.bufLen, dec.blk.length⟩ _ (Or.inl rfl) hinv.1, hinv.2⟩
  · exact ⟨hP _ _ ⟨dec.buf, dec.bufLen, dec.blk.length⟩ true (Or.inl rfl) hinv.1, hinv.2⟩

include hfield hindex hupdate

/-- What representations keep holds at every turn of a block. -/
theorem InBlock.keeps {hp₀ hc hl : Hpack} {fs : List UInt8} {dec : Decoding}
    (h : InBlock hp₀ fs dec hc hl) (h₀ : Hpack.Inv P Fld.Ext hp₀) : Hpack.Inv P Fld.Ext hl := by
  induction h with
  | start _ h => exact h.keeps hP h₀
  | @turn _ dec _ hl _ _ _ h ih =>
    have := keeps_hpackDecodeTurn hP hfield hindex hupdate dec.cut hl ih
    rwa [h] at this
  | resume _ _ _ h ih => exact h.keeps hP ih
  | @within _ dec _ _ hl _ _ _ _ hend h ih =>
    have := keeps_hpackDecodeTurn hP hfield hindex hupdate dec.cut hl ih
    rw [hend] at this
    exact h.keeps hP this

end

/-- The name and the value never point into the table. -/
theorem InBlock.ext {hp₀ hc hl : Hpack} {fs : List UInt8} {dec : Decoding}
    (h : InBlock hp₀ fs dec hc hl) (h₀ : hp₀.ctx.fld.Ext) : hl.ctx.fld.Ext := by
  have htrue : TableFree fun _ => True := fun _ _ h => h
  exact (h.keeps (P := fun _ => True) (fun _ _ _ _ _ h => h) (keeps_hptField htrue.entriesFree)
    (keeps_hptIndex htrue.entriesFree) (keeps_hpackDecodeUpdate htrue fun _ h => h)
    ⟨trivial, h₀⟩).2

end Cashpack
