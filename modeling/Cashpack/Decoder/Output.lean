import Cashpack.Decoder.Int
import Cashpack.Decoder.Write

/-!
# What the decoder delivers

The decoder tells its caller about a block through the working buffer and the events.  Only three
functions change these: `hpd_skip`, the write to the buffer and `HPC_notify`.  Whatever they keep,
decoding keeps (`Outputs`), as long as it does not depend on the octets left, which decoding takes
from the start.

## Main results

* `output_hpackDecodeTurn` : a turn of the loop of `hpack_decode` keeps what these three keep.
* `hpackDecodeTurn_onward` : events are added, octets are taken, and the strings decoded so far
  stay in the buffer until `hpd_skip` makes room.
-/

namespace Cashpack

open Prog

variable {J : Hpack → Prop} {α : Type}

/-- The part of a codec that its caller sees of a block. -/
structure Output where
  arg : Arg
  org : ℕ
  out : Octets
  tooBig : Bool
  log : List Event

/-- The output of a codec. -/
def Hpack.output (hp : Hpack) : Output :=
  ⟨hp.ctx.arg, hp.ctx.org, hp.ctx.out, hp.ctx.tooBig, hp.ctx.log⟩

/-- The state of an integer in progress is there to go on with. -/
def State.Tagged (st : State) : Prop := st.bsy = true → st.magic = .int

/-- The invariant is about the output, about octets left that can be taken, and about integers in
progress; what fills the working buffer keeps it. -/
structure Writes (J : Hpack → Prop) : Prop where
  only : ∀ hp hp' : Hpack, hp'.ctx.blk <:+ hp.ctx.blk → hp'.output = hp.output →
    (hp.state.Tagged → hp'.state.Tagged) → J hp → J hp'
  skip : ∀ len, Keeps (fun _ => True) J (hpdSkip len)
  write : ∀ s, Keeps (fun _ => True) J (hpdWrite s)

/-- Notifications keep it too. -/
structure Outputs (J : Hpack → Prop) : Prop extends Writes J where
  notify : ∀ evt, Keeps (fun _ => True) J (hpcNotify evt)

section

variable (hW : Writes J)

include hW

/-! ### Common functions -/

/-- A change that the caller does not see, on octets that are left or not. -/
theorem output_modify {f : Hpack → Hpack}
    (hf : ∀ hp : Hpack, (f hp).ctx.blk <:+ hp.ctx.blk ∧ (f hp).output = hp.output ∧
      (hp.state.Tagged → (f hp).state.Tagged)) :
    Keeps (fun _ => True) J (modify f) :=
  .modify fun hp h => hW.only hp (f hp) (hf hp).1 (hf hp).2.1 (hf hp).2.2 h

/-- A change that the caller does not see, with the same octets left. -/
theorem output_same {f : Hpack → Hpack}
    (hf : ∀ hp : Hpack, (f hp).ctx.blk = hp.ctx.blk ∧ (f hp).output = hp.output ∧
      (hp.state.Tagged → (f hp).state.Tagged)) :
    Keeps (fun _ => True) J (modify f) :=
  output_modify hW fun hp => ⟨(hf hp).1 ▸ List.suffix_refl _, (hf hp).2⟩

theorem output_failWith (r : Res) : Keeps (fun _ => True) J (failWith r : Cp α) :=
  fun hp h => hW.only hp { hp with ctx.res := r } (List.suffix_refl _) rfl id h

theorem output_expect (r : Res) (c : Prop) [Decidable c] : Keeps (fun _ => True) J (expect r c) := by
  intro hp h
  rw [expect_apply]
  split
  · exact h
  · exact hW.only hp { hp with ctx.res := r } (List.suffix_refl _) rfl id h

omit hW in
theorem output_readStr (p : Ptr) (n : ℕ) : Keeps (fun _ => True) J (readStr p n) := by
  intro hp h
  unfold readStr
  split
  · exact h
  · trivial

theorem output_onTable (f : Prog Table α) : Keeps (fun _ => True) J (onTable f) := by
  intro hp h
  unfold onTable
  split
  · exact hW.only hp _ (List.suffix_refl _) rfl id h
  · exact hW.only hp _ (List.suffix_refl _) rfl id h
  · trivial

theorem output_hpvValue (str : Ptr) (len : ℕ) : Keeps (fun _ => True) J (hpvValue str len) := by
  refine .bind (.assert _ trivial) fun _ => .bind (output_readStr _ _) fun r => ?_
  exact .bind (output_expect hW _ _) fun _ => .bind (.assert _ trivial) fun _ => .assert _ trivial

theorem output_hpvToken (str : Ptr) (len : ℕ) : Keeps (fun _ => True) J (hpvToken str len) := by
  refine .bind (.assert _ trivial) fun _ => .bind (.assert _ trivial) fun _ => ?_
  refine .bind .get fun hp => .ite (fun _ => .assert _ trivial) fun _ => ?_
  refine .bind (output_readStr _ _) fun r => .ite (fun _ => ?_) fun _ => ?_
  · exact .ite (fun _ => .pure ()) fun _ => output_failWith hW _
  · exact .bind (output_expect hW _ _) fun _ => .assert _ trivial

/-! ### Strings -/

theorem output_hpdCat (s : Octets) : Keeps (fun _ => True) J (hpdCat s) :=
  .bind (hW.skip _) fun _ => hW.write s

theorem output_hpdPuts (str : Ptr) (len : ℕ) : Keeps (fun _ => True) J (hpdPuts str len) := by
  refine .bind .get fun hp => .ite (fun _ => ?_) fun _ => .ite (fun _ => ?_) fun _ => ?_
  · refine .bind (.assert _ trivial) fun _ => .bind (.assert _ trivial) fun _ => ?_
    refine .bind (.assert _ trivial) fun _ => .bind (.assert _ trivial) fun _ => ?_
    exact output_same hW fun _ => ⟨rfl, rfl, id⟩
  · refine .bind (.assert _ trivial) fun _ => .bind (.assert _ trivial) fun _ => ?_
    refine .bind (.assert _ trivial) fun _ => .bind (.assert _ trivial) fun _ => ?_
    exact output_same hW fun _ => ⟨rfl, rfl, id⟩
  · refine .bind (output_readStr _ _) fun r => .bind (.assert _ trivial) fun _ => ?_
    exact output_hpdCat hW _

theorem output_hpiDecodeLoop (blk : Octets) (i : IntState) {hp : Hpack}
    (hblk : blk <:+ hp.ctx.blk) (h : J hp) :
    (hpiDecodeLoop blk i hp).Holds (fun _ hp' => J hp' ∧ hp'.state.bsy = false) J
      fun _ => True := by
  rw [hpiDecodeLoop_eq]
  cases hi : intLoop blk i with
  | more i' => exact hW.only hp _ (List.nil_suffix) rfl id h
  | done i' rest =>
    obtain ⟨cs, rfl, -⟩ := intLoop_done hi
    exact ⟨hW.only hp _ ((List.suffix_append cs rest).trans hblk) rfl (fun _ => Bool.noConfusion) h,
      rfl⟩
  | bad i' rest =>
    have hrest : rest <:+ blk := intLoop_bad_suffix hi
    exact hW.only hp _ (hrest.trans hblk) rfl id h

theorem hpiDecode_output (pfx : ℕ) {hp : Hpack} (h : J hp) :
    (hpiDecode pfx hp).Holds (fun _ hp' => J hp' ∧ hp'.state.bsy = false) J fun _ => True := by
  unfold hpiDecode
  refine .assert_bind trivial fun _ => ?_
  rw [bind_apply, get_apply, Out.bind_ok, ite_run]
  split
  · refine .assert_bind trivial fun _ => .assert_bind trivial fun _ => ?_
    exact output_hpiDecodeLoop hW _ _ (List.suffix_refl _) h
  · rename_i hbsy
    cases hblk : hp.ctx.blk with
    | nil => trivial
    | cons b blk =>
      have hrest : blk <:+ hp.ctx.blk := hblk ▸ List.suffix_cons b blk
      dsimp only
      rw [bind_apply, modify_apply, Out.bind_ok, ite_run]
      split
      · exact ⟨hW.only hp _ hrest rfl (fun _ _ => rfl) h, by simpa using hbsy⟩
      · rw [bind_apply, modify_apply, Out.bind_ok]
        refine output_hpiDecodeLoop hW _ _ (List.suffix_refl _) ?_
        exact hW.only hp _ hrest rfl (fun _ _ => rfl) h

theorem output_hpiDecode (pfx : ℕ) : Keeps (fun _ => True) J (hpiDecode pfx) :=
  fun _ h => (hpiDecode_output hW pfx h).mono (fun _ _ h => h.1) (fun _ h => h) fun _ h => h

theorem output_hphDecodeChr (oct : HphOct) : Keeps (fun _ => True) J (hphDecodeChr oct) := by
  unfold hphDecodeChr
  split
  · refine .bind (output_hpdCat hW [_]) fun _ => .bind ?_ fun _ => .pure _
    exact output_same hW fun _ => ⟨rfl, rfl, id⟩
  · exact .pure _

theorem output_hphDecodeLookup (eos : Bool) : Keeps (fun _ => True) J (hphDecodeLookup eos) := by
  have hloop : ∀ fuel eos, Keeps (fun _ => True) J (hphDecodeLookupLoop fuel eos) := by
    intro fuel
    induction fuel with
    | zero => exact fun _ => .halt trivial
    | succ fuel ih =>
      intro eos
      rw [hphDecodeLookupLoop]
      refine .bind .get fun hp => ?_
      dsimp only
      split
      · exact .halt trivial
      · refine .ite (fun _ => ?_) fun _ => .pure _
        split
        · exact .halt trivial
        · refine .bind (output_expect hW _ _) fun _ => .ite (fun _ => .pure _) fun _ => ?_
          refine .bind (output_same hW fun _ => ⟨rfl, rfl, id⟩) fun _ => ?_
          refine .bind (output_hphDecodeChr hW _) fun eos => ?_
          exact .bind (output_same hW fun _ => ⟨rfl, rfl, id⟩) fun _ => ih eos
  exact .bind .get fun hp => .bind (.assert _ trivial) fun _ => hloop _ _

theorem output_hphDecodeLoop (strLen len : ℕ) (eos : Bool) :
    Keeps (fun _ => True) J (hphDecodeLoop strLen len eos) := by
  induction strLen generalizing len eos with
  | zero => exact .pure eos
  | succ strLen ih =>
    refine .bind (output_expect hW _ _) fun _ => .get_bind fun hp h => ?_
    refine .assert_bind trivial fun _ => ?_
    cases hblk : hp.ctx.blk with
    | nil => trivial
    | cons b blk =>
      dsimp only
      rw [bind_apply, modify_apply, Out.bind_ok]
      refine Keeps.bind (output_hphDecodeLookup hW eos) (fun eos => ih _ eos) _ ?_
      exact hW.only hp _ (hblk ▸ List.suffix_cons b blk) rfl id h

theorem output_hphDecode (len : ℕ) : Keeps (fun _ => True) J (hphDecode len) := by
  refine .bind .get fun hp => .bind (.when fun _ => output_same hW fun _ => ⟨rfl, rfl, id⟩) fun _ => ?_
  refine .bind (output_hphDecodeLoop hW _ _ _) fun eos => .bind (output_expect hW _ _) fun _ => ?_
  refine .bind (.bind .get fun hp => .ite (fun _ => ?_) fun _ => .assert _ trivial) fun _ => ?_
  · exact .bind (.assert _ trivial) fun _ => output_expect hW _ _
  · exact output_hpdCat hW [0]

theorem output_hpackDecodeRawString (len : ℕ) :
    Keeps (fun _ => True) J (hpackDecodeRawString len) := by
  refine .bind .get fun hp => .bind (output_hpdCat hW _) fun _ => ?_
  refine .bind (.when fun _ => output_hpdCat hW [0]) fun _ => .bind ?_ fun _ => ?_
  · exact output_modify hW fun hp => ⟨List.drop_suffix _ _, rfl, id⟩
  · exact .bind .get fun hp => output_expect hW _ _

theorem output_hpackDecodeStringLen (evt : StrEvt) :
    Keeps (fun _ => True) J (hpackDecodeStringLen evt) := by
  refine .get_bind fun hp h => ?_
  rw [bind_apply]
  refine (hpiDecode_output hW _ h).bind fun len hp₁ h₁ => ?_
  rw [bind_apply, modify_apply, Out.bind_ok]
  have hend : Keeps (fun _ => True) J (do
      Prog.when (hp.ctx.blk.headD 0 &&& Hpp.huf.pat ≠ 0) <| modify fun hp =>
        { hp with state.str.dec := none, state.str.blen := 0, state.str.bits := 0 }
      Prog.when (evt = .name) (expect .len (0 < len))
      Prog.when (0 < len) do
        let hp ← get
        expect .buf (hp.ctx.blk ≠ [])) := by
    refine .bind (.when fun _ => output_same hW fun _ => ⟨rfl, rfl, id⟩) fun _ => ?_
    refine .bind (.when fun _ => output_expect hW _ _) fun _ => .when fun _ => ?_
    exact .bind .get fun hp => output_expect hW _ _
  refine hend _ (hW.only hp₁ _ (List.suffix_refl _) rfl (fun _ hbsy => ?_) h₁.1)
  rw [h₁.2] at hbsy
  cases hbsy

theorem output_hpackDecodeString (evt : StrEvt) :
    Keeps (fun _ => True) J (hpackDecodeString evt) := by
  refine .bind .get fun hp => .bind (output_expect hW _ _) fun _ => .bind (.assert _ trivial) ?_
  refine fun _ => .bind (.when fun _ => output_hpackDecodeStringLen hW evt) fun _ => ?_
  refine .bind .get fun hp => .bind (.assert _ trivial) fun _ => ?_
  refine .ite (fun _ => output_hphDecode hW _) fun _ => .bind (.assert _ trivial) fun _ => ?_
  exact output_hpackDecodeRawString hW _

/-! ### Names -/

omit hW in
theorem output_bufDiff (p : Ptr) : Keeps (fun _ => True) J (bufDiff p) := by
  refine .bind .get fun hp => ?_
  split
  · exact .bind (.assert _ trivial) fun _ => .pure _
  · exact .halt trivial

theorem output_hptField (idx : ℕ) : Keeps (fun _ => True) J (hptField idx) := by
  refine .bind (.assert _ trivial) fun _ => .ite (fun _ => ?_) fun _ => ?_
  · split
    · exact .pure _
    · exact .halt trivial
  · refine .bind (.bind .get fun hp => .when fun _ => .halt trivial) fun _ => .bind .get fun hp => ?_
    refine .ite (fun _ => .pure _) fun _ => .bind (output_expect hW _ _) fun _ => ?_
    refine .bind (output_onTable hW _) fun he => .bind (output_onTable hW _) fun tmp => .pure _

theorem output_hptDecodeName : Keeps (fun _ => True) J hptDecodeName := by
  refine .bind .get fun hp => .bind (.assert _ trivial) fun _ => .bind (.assert _ trivial) fun _ => ?_
  refine .bind (output_hptField hW _) fun hf => .bind (.assert _ trivial) fun _ => ?_
  refine .bind (.assert _ trivial) fun _ => .bind (output_same hW fun _ => ⟨rfl, rfl, id⟩) fun _ => ?_
  exact output_hpdPuts hW _ _

theorem output_hpackDecodeFieldName : Keeps (fun _ => True) J hpackDecodeFieldName := by
  refine .bind .get fun hp => .bind (.ite (fun _ => ?_) fun _ => output_hptDecodeName hW) fun _ => ?_
  · refine .bind (output_hpackDecodeString hW _) fun _ => .bind .get fun hp => ?_
    exact .bind (output_bufDiff _) fun d => output_same hW fun _ => ⟨rfl, rfl, id⟩
  · refine .bind .get fun hp => .bind (output_hpvToken hW _ _) fun _ => ?_
    exact output_same hW fun _ => ⟨rfl, rfl, id⟩

end

section

variable (hJ : Outputs J)

include hJ

/-! ### Fields -/

theorem output_hpcNotifyAll (evts : List Event) :
    Keeps (fun _ => True) J (hpcNotifyAll evts) := by
  induction evts with
  | nil => exact .pure ()
  | cons evt evts ih => exact .bind (hJ.notify evt) fun _ => ih

theorem output_hpdNotify : Keeps (fun _ => True) J hpdNotify := by
  refine .bind .get fun hp => .bind (.assert _ trivial) fun _ => .bind (.assert _ trivial) fun _ => ?_
  refine .bind (.assert _ trivial) fun _ => .bind (output_readStr _ _) fun r => ?_
  refine .bind (.assert _ trivial) fun _ => .bind (output_readStr _ _) fun r' => ?_
  exact .bind (.assert _ trivial) fun _ => .bind (hJ.notify _) fun _ => hJ.notify _

theorem output_hptDecode (idx : ℕ) : Keeps (fun _ => True) J (hptDecode idx) := by
  refine .bind (output_expect hJ.toWrites _ _) fun _ => .bind (output_hptField hJ.toWrites idx) fun hf => ?_
  refine .bind (.assert _ trivial) fun _ => .bind (.assert _ trivial) fun _ => ?_
  refine .bind (.assert _ trivial) fun _ => .bind (output_same hJ.toWrites fun _ => ⟨rfl, rfl, id⟩) fun _ => ?_
  refine .bind (output_hpdPuts hJ.toWrites _ _) fun _ => .bind (output_same hJ.toWrites fun _ => ⟨rfl, rfl, id⟩) fun _ => ?_
  exact .bind (output_hpdPuts hJ.toWrites _ _) fun _ => output_hpdNotify hJ

theorem output_hptIndex : Keeps (fun _ => True) J hptIndex := by
  refine .bind .get fun hp => .bind (.assert _ trivial) fun _ => .bind (.assert _ trivial) fun _ => ?_
  refine .bind (.assert _ trivial) fun _ => .bind (.assert _ trivial) fun _ => ?_
  refine .bind (.assert _ trivial) fun _ => .bind (output_readStr _ _) fun r => ?_
  refine .bind (.assert _ trivial) fun _ => .bind (output_readStr _ _) fun r' => ?_
  refine .bind (.assert _ trivial) fun _ => .bind (.assert _ trivial) fun _ => ?_
  exact .bind (output_onTable hJ.toWrites _) fun evts => output_hpcNotifyAll hJ evts

theorem output_hpackDecodeFieldValue : Keeps (fun _ => True) J hpackDecodeFieldValue := by
  refine .bind (output_hpackDecodeString hJ.toWrites _) fun _ => .bind .get fun hp => ?_
  refine .bind (output_bufDiff _) fun d => .bind (output_same hJ.toWrites fun _ => ⟨rfl, rfl, id⟩) fun _ => ?_
  refine .bind .get fun hp => .bind (output_hpvValue hJ.toWrites _ _) fun _ => ?_
  exact .bind (output_hpdNotify hJ) fun _ => output_same hJ.toWrites fun _ => ⟨rfl, rfl, id⟩

theorem output_hpackDecodeField : Keeps (fun _ => True) J hpackDecodeField := by
  refine .bind .get fun hp => .bind (.when fun _ => output_same hJ.toWrites fun _ => ⟨rfl, rfl, id⟩) fun _ => ?_
  refine .bind .get fun hp => .bind (.when fun _ => output_hpackDecodeFieldName hJ.toWrites) fun _ => ?_
  exact output_hpackDecodeFieldValue hJ

theorem output_hpackDecoderField (idx : ℕ) :
    Keeps (fun _ => True) J (hpackDecoderField idx) :=
  .bind .get fun _ => .bind (.assert _ trivial) fun _ => hJ.notify _

/-! ### Representations -/

theorem output_hpackDecodeLiteralIdx (p : Hpp) :
    Keeps (fun _ => True) J (hpackDecodeLiteralIdx p) := by
  refine .bind (output_hpiDecode hJ.toWrites _) fun idx => .bind ?_ fun _ => output_hpackDecoderField hJ 0
  exact output_same hJ.toWrites fun _ => ⟨rfl, rfl, id⟩

theorem output_hpackDecodeUpdate : Keeps (fun _ => True) J hpackDecodeUpdate := by
  refine .bind .get fun hp => .bind (output_expect hJ.toWrites _ _) fun _ => ?_
  refine .bind (output_hpiDecode hJ.toWrites _) fun sz => .bind (.bind .get fun hp => ?_) fun _ => ?_
  · refine .ite (fun _ => ?_) fun _ => output_same hJ.toWrites fun _ => ⟨rfl, rfl, id⟩
    refine .bind (.assert _ trivial) fun _ => .ite (fun _ => ?_) fun _ => ?_
    · exact .bind (output_expect hJ.toWrites _ _) fun _ => output_same hJ.toWrites fun _ => ⟨rfl, rfl, id⟩
    · refine .bind (output_expect hJ.toWrites _ _) fun _ => .bind (.assert _ trivial) fun _ => ?_
      exact output_same hJ.toWrites fun _ => ⟨rfl, rfl, id⟩
  · refine .bind .get fun hp => .bind (output_expect hJ.toWrites _ _) fun _ => ?_
    refine .bind (output_same hJ.toWrites fun _ => ⟨rfl, rfl, id⟩) fun _ => .bind ?_ fun _ => hJ.notify _
    exact .bind (output_onTable hJ.toWrites _) fun evts => output_hpcNotifyAll hJ evts

theorem output_hpackDecodeAny (typ : UInt8) : Keeps (fun _ => True) J (hpackDecodeAny typ) := by
  refine .ite (fun _ => ?_) fun _ => .ite (fun _ => ?_) fun _ => .ite (fun _ => ?_) fun _ => ?_
  · refine .bind (output_hpiDecode hJ.toWrites _) fun idx => ?_
    exact .bind (output_hpackDecoderField hJ idx) fun _ => output_hptDecode hJ idx
  · refine .bind .get fun hp => .bind (.when fun _ => output_hpackDecodeLiteralIdx hJ _) fun _ => ?_
    exact .bind (output_hpackDecodeField hJ) fun _ => output_hptIndex hJ
  · exact output_hpackDecodeUpdate hJ
  · refine .ite (fun _ => .bind .get fun hp => ?_) fun _ => .bind .get fun hp => ?_
    · refine .bind (.when fun _ => ?_) fun _ => output_hpackDecodeField hJ
      exact .bind (output_hpackDecodeLiteralIdx hJ _) fun _ => hJ.notify _
    · refine .bind (.when fun _ => output_hpackDecodeLiteralIdx hJ _) fun _ => ?_
      exact output_hpackDecodeField hJ

/-! ### Turns -/

theorem output_hpackDecodeRep (cut : Bool) (typ : UInt8) :
    Keeps (fun _ => True) J (hpackDecodeRep cut typ) := by
  refine .bind (.attempt (output_hpackDecodeAny hJ typ)) fun r => ?_
  cases r with
  | some _ => exact .bind (output_same hJ.toWrites fun _ => ⟨rfl, rfl, id⟩) fun _ => .pure _
  | none =>
    refine .bind .get fun hp => .bind (.assert _ trivial) fun _ => .ite (fun _ => ?_) fun _ => ?_
    · exact .bind (output_same hJ.toWrites fun _ => ⟨rfl, rfl, id⟩) fun _ => .pure _
    · exact .bind (output_same hJ.toWrites fun _ => ⟨rfl, rfl, id⟩) fun _ => .pure _

/-- A turn of the loop keeps what the functions that make the output keep. -/
theorem output_hpackDecodeTurn (cut : Bool) :
    Keeps (fun _ => True) J (hpackDecodeTurn cut) := by
  refine .bind (.bind .get fun hp => .when fun _ => ?_) fun _ => .bind .get fun hp => ?_
  · split
    · exact .halt trivial
    · exact output_same hJ.toWrites fun _ => ⟨rfl, rfl, id⟩
  · refine .ite (fun _ => ?_) fun _ => .bind (.when fun _ => ?_) fun _ => ?_
    · exact .bind (output_same hJ.toWrites fun _ => ⟨rfl, rfl, id⟩) fun _ => .pure _
    · exact .bind (.assert _ trivial) fun _ => output_same hJ.toWrites fun _ => ⟨rfl, rfl, id⟩
    · exact output_hpackDecodeRep hJ _ _

theorem output_hpackDecodeLoop (cut : Bool) (fuel : ℕ) :
    Keeps (fun _ => True) J (hpackDecodeLoop cut fuel) := by
  induction fuel with
  | zero => exact .halt trivial
  | succ fuel ih =>
    refine .bind .get fun hp => .ite (fun _ => ?_) fun _ => ?_
    · exact .bind .get fun hp => .bind (.assert _ trivial) fun _ => .pure _
    · refine .bind (output_hpackDecodeTurn hJ cut) fun r => ?_
      cases r with
      | some r => exact .pure _
      | none => exact ih

end

/-! ### Going on with a block -/

/-- The decoder goes on with a block from `hp` to `hp'`: it takes octets from the start and adds
events at the end.  Once `hpd_skip` made room, no event is added; until it does, what is in the
working buffer stays there. -/
structure Hpack.Onward (hp hp' : Hpack) : Prop where
  blk : hp'.ctx.blk <:+ hp.ctx.blk
  arg : hp'.ctx.arg = hp.ctx.arg
  log : hp.ctx.log <+: hp'.ctx.log
  tooBig : hp.ctx.tooBig = true → hp'.ctx.tooBig = true ∧ hp'.ctx.log = hp.ctx.log
  kept : hp'.ctx.tooBig = false → hp'.ctx.org = hp.ctx.org ∧ hp.ctx.out <+: hp'.ctx.out

namespace Hpack.Onward

variable {hp hp' hp'' : Hpack}

theorem refl (hp : Hpack) : hp.Onward hp :=
  ⟨List.suffix_refl _, rfl, List.prefix_refl _, fun h => ⟨h, rfl⟩,
    fun _ => ⟨rfl, List.prefix_refl _⟩⟩

theorem trans (h : hp.Onward hp') (h' : hp'.Onward hp'') : hp.Onward hp'' where
  blk := h'.blk.trans h.blk
  arg := h'.arg.trans h.arg
  log := h.log.trans h'.log
  tooBig hb := by
    obtain ⟨hb', hlog⟩ := h.tooBig hb
    obtain ⟨hb'', hlog'⟩ := h'.tooBig hb'
    exact ⟨hb'', hlog'.trans hlog⟩
  kept hb := by
    obtain ⟨horg', hout'⟩ := h'.kept hb
    have hb' : hp'.ctx.tooBig = false := by
      by_contra hne
      have := (h'.tooBig (by simpa using hne)).1
      rw [hb] at this
      cases this
    obtain ⟨horg, hout⟩ := h.kept hb'
    exact ⟨horg'.trans horg, hout.trans hout'⟩

/-- The output is the same. -/
theorem of_output (hblk : hp'.ctx.blk <:+ hp.ctx.blk) (h : hp'.output = hp.output) :
    hp.Onward hp' where
  blk := hblk
  arg := congrArg Output.arg h
  log := by
    have hlog : hp'.ctx.log = hp.ctx.log := congrArg Output.log h
    exact hlog ▸ List.prefix_refl _
  tooBig hb := by
    have hb' : hp'.ctx.tooBig = hp.ctx.tooBig := congrArg Output.tooBig h
    exact ⟨hb'.trans hb, congrArg Output.log h⟩
  kept _ := by
    have hout : hp'.ctx.out = hp.ctx.out := congrArg Output.out h
    exact ⟨congrArg Output.org h, hout ▸ List.prefix_refl _⟩

/-- Room was made in the working buffer. -/
theorem of_tooBig (hblk : hp'.ctx.blk <:+ hp.ctx.blk) (harg : hp'.ctx.arg = hp.ctx.arg)
    (hlog : hp'.ctx.log = hp.ctx.log) (hb : hp'.ctx.tooBig = true) : hp.Onward hp' where
  blk := hblk
  arg := harg
  log := hlog ▸ List.prefix_refl _
  tooBig _ := ⟨hb, hlog⟩
  kept hb' := by
    rw [hb] at hb'
    cases hb'

end Hpack.Onward

theorem hpcNotify_onward (evt : Event) (hp : Hpack) :
    (hpcNotify evt hp).Holds (fun _ hp' => hp.Onward hp') (fun _ => False) fun _ => True := by
  unfold hpcNotify
  split
  · split
    · exact .refl hp
    · trivial
  · rename_i hb
    refine ⟨List.suffix_refl _, rfl, List.prefix_append _ _, fun h => absurd h hb, fun _ => ?_⟩
    exact ⟨rfl, List.prefix_refl _⟩

theorem hpdWrite_onward (s : Octets) (hp : Hpack) :
    (hpdWrite s hp).Holds (fun _ hp' => hp.Onward hp') (fun _ => False) fun _ => True := by
  unfold hpdWrite
  split
  · refine ⟨List.suffix_refl _, rfl, List.prefix_refl _, fun h => ⟨h, rfl⟩, fun _ => ?_⟩
    exact ⟨rfl, List.prefix_append _ _⟩
  · trivial

theorem hpdSkip_onward (len : ℕ) (hp : Hpack) :
    (hpdSkip len hp).Holds (fun _ hp' => hp.Onward hp') (fun hp' => hp.Onward hp')
      fun _ => True := by
  refine (hpdSkip_holds len hp).mono (fun _ hp' h => ?_) (fun hp' h => ?_) fun _ h => h
  · rcases h with ⟨-, rfl⟩ | ⟨n, -, rfl⟩
    · exact .refl _
    · exact .of_tooBig (List.suffix_refl _) rfl rfl rfl
  · exact h.2 ▸ .of_tooBig (List.suffix_refl _) rfl rfl rfl

/-- Going on with a block from the state `hp₀`. -/
theorem outputs_onward (hp₀ : Hpack) : Outputs (Hpack.Onward hp₀) where
  only _ _ hblk hout _ h := h.trans (.of_output hblk hout)
  notify evt hp h := (hpcNotify_onward evt hp).mono (fun _ _ h' => h.trans h')
    (fun _ h' => h'.elim) fun _ h' => h'
  skip len hp h := (hpdSkip_onward len hp).mono (fun _ _ h' => h.trans h')
    (fun _ h' => h.trans h') fun _ h' => h'
  write s hp h := (hpdWrite_onward s hp).mono (fun _ _ h' => h.trans h')
    (fun _ h' => h'.elim) fun _ h' => h'

/-- A turn goes on with the block. -/
theorem hpackDecodeTurn_onward {cut : Bool} {hp hp' : Hpack} {r : Option Res}
    (h : hpackDecodeTurn cut hp = .ok r hp') : hp.Onward hp' := by
  have hturn := output_hpackDecodeTurn (outputs_onward hp) cut hp (.refl hp)
  rwa [h] at hturn

end Cashpack
