import Cashpack.Codec.Alike

/-!
# Decoders that behave alike

No function of the decoder looks at the events that were notified before.

## Main results

* `unaware_hpackDecode` : a block is decoded alike whatever was notified before it.
-/

namespace Cashpack

open Prog

variable {L L' : List Event} {β : Type}

/-- The rests of two decoders: they make no use of the buffer of an encoder. -/
def SameDec (a b : Rest) : Prop := b = { a with cur := b.cur }

theorem SameDec.out {a b : Rest} (h : SameDec a b) : a.out = b.out := by
  rw [show b = { a with cur := b.cur } from h]

theorem SameDec.fld {a b : Rest} (h : SameDec a b) : a.fld = b.fld := by
  rw [show b = { a with cur := b.cur } from h]

/-- The codec with other events, and other octets in the buffer of an encoder. -/
def Hpack.recur (hp : Hpack) (log : List Event) (cur : Octets) : Hpack :=
  { hp with ctx.log := log, ctx.cur := cur }

theorem alike_dec {hp hp' : Hpack} : Alike SameDec L L' hp hp' ↔
    ∃ (m : List Event) (cur : Octets), hp.ctx.log = L ++ m ∧ hp' = hp.recur (L' ++ m) cur := by
  constructor
  · rintro ⟨m, r, hm, hQ, rfl⟩
    refine ⟨m, r.cur, hm, ?_⟩
    rw [show r = { hp.ctx.rest with cur := r.cur } from hQ]
    rfl
  · rintro ⟨m, cur, hm, rfl⟩
    exact ⟨m, { hp.ctx.rest with cur := cur }, hm, rfl, rfl⟩

/-- A function that does the same on decoders that are alike. -/
abbrev UnawareDec (L L' : List Event) (x : Cp β) : Prop := Unaware SameDec L L' x

namespace UnawareDec

theorem get_bind {f : Hpack → Cp β} (hf : ∀ hp log cur, f (hp.recur log cur) = f hp)
    (h : ∀ hp, UnawareDec L L' (f hp)) : UnawareDec L L' (get >>= f) := by
  refine Agree.get_bind fun hp hp' hr => ?_
  obtain ⟨m, cur, hm, rfl⟩ := alike_dec.1 hr
  rw [hf hp (L' ++ m) cur]
  exact h hp _ _ hr

theorem modify {f : Hpack → Hpack}
    (hf : ∀ hp log cur, f (hp.recur log cur) = (f hp).recur log cur)
    (hk : ∀ hp, (f hp).ctx.log = hp.ctx.log) : UnawareDec L L' (Prog.modify f) := by
  refine Agree.modify fun hp hp' hr => ?_
  obtain ⟨m, cur, hm, rfl⟩ := alike_dec.1 hr
  exact alike_dec.2 ⟨m, cur, (hk hp).trans hm, hf hp _ cur⟩

theorem readStr (p : Ptr) (n : ℕ) : UnawareDec L L' (readStr p n) :=
  unaware_readStr n (Or.inr fun _ _ => SameDec.out)

end UnawareDec

/-! ### The working buffer of a decoder -/

theorem unaware_hpdSkip (len : ℕ) : UnawareDec L L' (hpdSkip len) := by
  refine UnawareDec.get_bind (fun _ _ _ => rfl) fun hp => .ite (fun _ => .pure _) fun _ => ?_
  refine .bind (UnawareDec.modify (fun _ _ _ => rfl) fun _ => rfl) fun _ => ?_
  cases hp.ctx.fld.nam with
  | out nam =>
    refine .bind (unaware_expect _ _) fun _ => .bind (.assert _) fun _ => .bind (.assert _) fun _ => ?_
    exact .bind (unaware_expect _ _) fun _ => UnawareDec.modify (fun _ _ _ => rfl) fun _ => rfl
  | null => exact .halt .abort
  | _ => exact .halt .fault

theorem unaware_hpdWrite (s : Octets) : UnawareDec L L' (hpdWrite s) := by
  intro hp hp' hr
  obtain ⟨m, cur, hm, rfl⟩ := alike_dec.1 hr
  have hw : hpdWrite s (hp.recur (L' ++ m) cur) =
      if hp.ctx.arg.buf ≤ hp.ctx.org + hp.ctx.out.length ∧
        hp.ctx.org + hp.ctx.out.length + s.length ≤ hp.ctx.arg.buf + hp.ctx.arg.bufLen then
        .ok () ({ hp with
          ctx.out := hp.ctx.out ++ s, ctx.bufLen := hp.ctx.bufLen - s.length }.recur (L' ++ m) cur)
      else .stop .fault := rfl
  rw [hw, hpdWrite]
  split
  · exact .ok () (alike_dec.2 ⟨m, cur, hm, rfl⟩)
  · exact .stop .fault

theorem unaware_hpdPutc (c : UInt8) : UnawareDec L L' (hpdPutc c) :=
  .bind (unaware_hpdSkip 1) fun _ => unaware_hpdWrite [c]

theorem unaware_hpdCat (s : Octets) : UnawareDec L L' (hpdCat s) :=
  .bind (unaware_hpdSkip _) fun _ => unaware_hpdWrite s

theorem unaware_hpdPuts (str : Ptr) (len : ℕ) : UnawareDec L L' (hpdPuts str len) := by
  refine UnawareDec.get_bind (fun _ _ _ => rfl) fun hp => .ite (fun _ => ?_) fun _ => .ite ?_ ?_
  · refine .bind (.assert _) fun _ => .bind (.assert _) fun _ => .bind (.assert _) fun _ => ?_
    exact .bind (.assert _) fun _ => UnawareDec.modify (fun _ _ _ => rfl) fun _ => rfl
  · refine fun _ => .bind (.assert _) fun _ => .bind (.assert _) fun _ => .bind (.assert _) fun _ => ?_
    exact .bind (.assert _) fun _ => UnawareDec.modify (fun _ _ _ => rfl) fun _ => rfl
  · exact fun _ => .bind (UnawareDec.readStr _ _) fun _ => .bind (.assert _) fun _ => unaware_hpdCat _

theorem unaware_hpdNotify : UnawareDec L L' hpdNotify := by
  refine UnawareDec.get_bind (fun _ _ _ => rfl) fun hp => ?_
  refine .bind (.assert _) fun _ => .bind (.assert _) fun _ => .bind (.assert _) fun _ => ?_
  refine .bind (UnawareDec.readStr _ _) fun _ => .bind (.assert _) fun _ => ?_
  refine .bind (UnawareDec.readStr _ _) fun _ => .bind (.assert _) fun _ => ?_
  exact .bind (unaware_hpcNotify _) fun _ => unaware_hpcNotify _

theorem unaware_hptDecode (idx : ℕ) : UnawareDec L L' (hptDecode idx) := by
  refine .bind (unaware_expect _ _) fun _ => .bind (unaware_hptField _) fun hf => ?_
  refine .bind (.assert _) fun _ => .bind (.assert _) fun _ => .bind (.assert _) fun _ => ?_
  refine .bind (UnawareDec.modify (fun _ _ _ => rfl) fun _ => rfl) fun _ => ?_
  refine .bind (unaware_hpdPuts _ _) fun _ => ?_
  refine .bind (UnawareDec.modify (fun _ _ _ => rfl) fun _ => rfl) fun _ => ?_
  exact .bind (unaware_hpdPuts _ _) fun _ => unaware_hpdNotify

theorem unaware_hptDecodeName : UnawareDec L L' hptDecodeName := by
  refine UnawareDec.get_bind (fun _ _ _ => rfl) fun hp => ?_
  refine .bind (.assert _) fun _ => .bind (.assert _) fun _ => .bind (unaware_hptField _) fun hf => ?_
  refine .bind (.assert _) fun _ => .bind (.assert _) fun _ => ?_
  refine .bind (UnawareDec.modify (fun _ _ _ => rfl) fun _ => rfl) fun _ => ?_
  exact unaware_hpdPuts _ _

/-! ### Decoding -/

theorem unaware_hpiDecodeLoop (blk : Octets) (i : IntState) :
    UnawareDec L L' (hpiDecodeLoop blk i) := by
  induction blk generalizing i with
  | nil =>
    intro hp hp' hr
    obtain ⟨m, cur, hm, rfl⟩ := alike_dec.1 hr
    exact .err (alike_dec.2 ⟨m, cur, hm, rfl⟩)
  | cons b blk ih =>
    intro hp hp' hr
    obtain ⟨m, cur, hm, rfl⟩ := alike_dec.1 hr
    simp only [hpiDecodeLoop]
    generalize (if i.m ≤ 16 then (i.v + (b &&& 0x7f).toNat <<< i.m) % 65536 else i.v) = n
    split
    · exact .err (alike_dec.2 ⟨m, cur, hm, rfl⟩)
    · split
      · exact ih _ hp _ hr
      · exact .ok n (alike_dec.2 ⟨m, cur, hm, rfl⟩)

theorem unaware_hpiDecode (pfx : ℕ) : UnawareDec L L' (hpiDecode pfx) := by
  refine .bind (.assert _) fun _ => UnawareDec.get_bind (fun _ _ _ => rfl) fun hp => ?_
  refine .ite (fun _ => .bind (.assert _) fun _ => .bind (.assert _) fun _ => ?_) fun _ => ?_
  · exact unaware_hpiDecodeLoop _ _
  · cases hp.ctx.blk with
    | nil => exact .halt .abort
    | cons b blk =>
      refine .bind (UnawareDec.modify (fun _ _ _ => rfl) fun _ => rfl) fun _ => ?_
      refine .ite (fun _ => .pure _) fun _ => ?_
      refine .bind (UnawareDec.modify (fun _ _ _ => rfl) fun _ => rfl) fun _ => ?_
      exact unaware_hpiDecodeLoop _ _

theorem unaware_hphDecodeChr (oct : HphOct) : UnawareDec L L' (hphDecodeChr oct) := by
  unfold hphDecodeChr
  cases oct.nxt with
  | none =>
    refine .bind (unaware_hpdPutc _) fun _ => ?_
    exact .bind (UnawareDec.modify (fun _ _ _ => rfl) fun _ => rfl) fun _ => .pure _
  | some _ => exact .pure _

theorem unaware_hphDecodeLookupLoop (fuel : ℕ) (eos : Bool) :
    UnawareDec L L' (hphDecodeLookupLoop fuel eos) := by
  induction fuel generalizing eos with
  | zero => exact .halt .spin
  | succ fuel ih =>
    refine UnawareDec.get_bind (fun _ _ _ => rfl) fun hp => ?_
    dsimp only
    cases hp.state.str.dec with
    | none => exact .halt .fault
    | some name =>
      refine .ite (fun _ => ?_) fun _ => .pure _
      split
      · exact .halt .fault
      · refine .bind (unaware_expect _ _) fun _ => .ite (fun _ => .pure _) fun _ => ?_
        refine .bind (UnawareDec.modify (fun _ _ _ => rfl) fun _ => rfl) fun _ => ?_
        refine .bind (unaware_hphDecodeChr _) fun eos => ?_
        refine .bind (UnawareDec.modify (fun _ _ _ => rfl) fun _ => rfl) fun _ => ?_
        exact ih eos

theorem unaware_hphDecodeLoop (strLen len : ℕ) (eos : Bool) :
    UnawareDec L L' (hphDecodeLoop strLen len eos) := by
  induction strLen generalizing len eos with
  | zero => exact .pure _
  | succ strLen ih =>
    refine .bind (unaware_expect _ _) fun _ => UnawareDec.get_bind (fun _ _ _ => rfl) fun hp => ?_
    refine .bind (.assert _) fun _ => ?_
    cases hp.ctx.blk with
    | nil => exact .halt .fault
    | cons b blk =>
      refine .bind (UnawareDec.modify (fun _ _ _ => rfl) fun _ => rfl) fun _ => ?_
      refine .bind (UnawareDec.get_bind (fun _ _ _ => rfl) fun hp => ?_) fun eos => ih _ eos
      exact .bind (.assert _) fun _ => unaware_hphDecodeLookupLoop _ _

theorem unaware_hphDecode (len : ℕ) : UnawareDec L L' (hphDecode len) := by
  refine UnawareDec.get_bind (fun _ _ _ => rfl) fun hp => .bind (.when fun _ => ?_) fun _ => ?_
  · exact UnawareDec.modify (fun _ _ _ => rfl) fun _ => rfl
  refine .bind (unaware_hphDecodeLoop _ _ _) fun eos => .bind (unaware_expect _ _) fun _ => ?_
  refine .bind (UnawareDec.get_bind (fun _ _ _ => rfl) fun hp => .ite (fun _ => ?_) fun _ => ?_) fun _ =>
    unaware_hpdPutc 0
  · exact .bind (.assert _) fun _ => unaware_expect _ _
  · exact .assert _

theorem unaware_hpackDecodeRawString (len : ℕ) : UnawareDec L L' (hpackDecodeRawString len) := by
  refine UnawareDec.get_bind (fun _ _ _ => rfl) fun hp => .bind (unaware_hpdCat _) fun _ => ?_
  refine .bind (.when fun _ => unaware_hpdPutc 0) fun _ => ?_
  refine .bind (UnawareDec.modify (fun _ _ _ => rfl) fun _ => rfl) fun _ => ?_
  exact UnawareDec.get_bind (fun _ _ _ => rfl) fun hp => unaware_expect _ _

theorem unaware_hpackDecodeStringLen (evt : StrEvt) :
    UnawareDec L L' (hpackDecodeStringLen evt) := by
  refine UnawareDec.get_bind (fun _ _ _ => rfl) fun hp => .bind (unaware_hpiDecode _) fun len => ?_
  refine .bind (UnawareDec.modify (fun _ _ _ => rfl) fun _ => rfl) fun _ => ?_
  refine .bind (.when fun _ => UnawareDec.modify (fun _ _ _ => rfl) fun _ => rfl) fun _ => ?_
  refine .bind (.when fun _ => unaware_expect _ _) fun _ => .when fun _ => ?_
  exact UnawareDec.get_bind (fun _ _ _ => rfl) fun hp => unaware_expect _ _

theorem unaware_hpackDecodeString (evt : StrEvt) : UnawareDec L L' (hpackDecodeString evt) := by
  refine UnawareDec.get_bind (fun _ _ _ => rfl) fun hp => .bind (unaware_expect _ _) fun _ => ?_
  refine .bind (.assert _) fun _ => .bind (.when fun _ => unaware_hpackDecodeStringLen evt) ?_
  refine fun _ => UnawareDec.get_bind (fun _ _ _ => rfl) fun hp => .bind (.assert _) fun _ => ?_
  refine .ite (fun _ => unaware_hphDecode _) fun _ => .bind (.assert _) fun _ => ?_
  exact unaware_hpackDecodeRawString _

theorem unaware_bufDiff (p : Ptr) : UnawareDec L L' (bufDiff p) := by
  refine UnawareDec.get_bind (fun _ _ _ => rfl) fun hp => ?_
  cases p with
  | out off => exact .bind (.assert _) fun _ => .pure _
  | _ => exact .halt .fault

theorem unaware_hpackDecodeFieldName : UnawareDec L L' hpackDecodeFieldName := by
  refine UnawareDec.get_bind (fun _ _ _ => rfl) fun hp => .bind (.ite (fun _ => ?_) fun _ => ?_) ?_
  · refine .bind (unaware_hpackDecodeString _) fun _ => ?_
    refine UnawareDec.get_bind (fun _ _ _ => rfl) fun hp => .bind (unaware_bufDiff _) fun d => ?_
    exact UnawareDec.modify (fun _ _ _ => rfl) fun _ => rfl
  · exact unaware_hptDecodeName
  · refine fun _ => UnawareDec.get_bind (fun _ _ _ => rfl) fun hp => .bind (unaware_hpvToken _ (Or.inr fun _ _ => SameDec.out)) ?_
    exact fun _ => UnawareDec.modify (fun _ _ _ => rfl) fun _ => rfl

theorem unaware_hpackDecodeFieldValue : UnawareDec L L' hpackDecodeFieldValue := by
  refine .bind (unaware_hpackDecodeString _) fun _ => ?_
  refine UnawareDec.get_bind (fun _ _ _ => rfl) fun hp => .bind (unaware_bufDiff _) fun d => ?_
  refine .bind (UnawareDec.modify (fun _ _ _ => rfl) fun _ => rfl) fun _ => ?_
  refine UnawareDec.get_bind (fun _ _ _ => rfl) fun hp => .bind (unaware_hpvValue _ (Or.inr fun _ _ => SameDec.out)) fun _ => ?_
  refine .bind unaware_hpdNotify fun _ => UnawareDec.modify (fun _ _ _ => rfl) fun _ => rfl

theorem unaware_hpackDecodeField : UnawareDec L L' hpackDecodeField := by
  refine UnawareDec.get_bind (fun _ _ _ => rfl) fun hp => .bind (.when fun _ => ?_) fun _ => ?_
  · exact UnawareDec.modify (fun _ _ _ => rfl) fun _ => rfl
  · refine UnawareDec.get_bind (fun _ _ _ => rfl) fun hp => .bind (.when fun _ => ?_) fun _ => ?_
    · exact unaware_hpackDecodeFieldName
    · exact unaware_hpackDecodeFieldValue

theorem unaware_hpackDecoderField (idx : ℕ) : UnawareDec L L' (hpackDecoderField idx) := by
  refine UnawareDec.get_bind (fun _ _ _ => rfl) fun hp => .bind (.assert _) fun _ => ?_
  exact unaware_hpcNotify _

theorem unaware_hpackDecodeLiteralIdx (p : Hpp) : UnawareDec L L' (hpackDecodeLiteralIdx p) := by
  refine .bind (unaware_hpiDecode _) fun idx => ?_
  refine .bind (UnawareDec.modify (fun _ _ _ => rfl) fun _ => rfl) fun _ => ?_
  exact unaware_hpackDecoderField 0

theorem unaware_hpackDecodeUpdate : UnawareDec L L' hpackDecodeUpdate := by
  refine UnawareDec.get_bind (fun _ _ _ => rfl) fun hp => .bind (unaware_expect _ _) fun _ => ?_
  refine .bind (unaware_hpiDecode _) fun sz => .bind ?_ fun _ => ?_
  · refine UnawareDec.get_bind (fun _ _ _ => rfl) fun hp => .ite (fun _ => ?_) fun _ => ?_
    · refine .bind (.assert _) fun _ => .ite (fun _ => .bind (unaware_expect _ _) fun _ => ?_) ?_
      · exact UnawareDec.modify (fun _ _ _ => rfl) fun _ => rfl
      · refine fun _ => .bind (unaware_expect _ _) fun _ => .bind (.assert _) fun _ => ?_
        exact UnawareDec.modify (fun _ _ _ => rfl) fun _ => rfl
    · exact UnawareDec.modify (fun _ _ _ => rfl) fun _ => rfl
  · refine UnawareDec.get_bind (fun _ _ _ => rfl) fun hp => .bind (unaware_expect _ _) fun _ => ?_
    refine .bind (UnawareDec.modify (fun _ _ _ => rfl) fun _ => rfl) fun _ => ?_
    exact .bind (unaware_hpackAdjust _) fun _ => unaware_hpcNotify _

theorem unaware_hpackDecodeAny (typ : UInt8) : UnawareDec L L' (hpackDecodeAny typ) := by
  refine .ite (fun _ => ?_) fun _ => .ite (fun _ => ?_) fun _ => .ite (fun _ => ?_) fun _ =>
    .ite (fun _ => ?_) fun _ => ?_
  · exact .bind (unaware_hpiDecode _) fun idx => .bind (unaware_hpackDecoderField _) fun _ =>
      unaware_hptDecode _
  · refine UnawareDec.get_bind (fun _ _ _ => rfl) fun hp => .bind (.when fun _ => ?_) fun _ => ?_
    · exact unaware_hpackDecodeLiteralIdx .dyn
    · exact .bind unaware_hpackDecodeField fun _ =>
        unaware_hptIndex (fun _ _ => SameDec.fld) (Or.inl fun _ _ => SameDec.out)
  · exact unaware_hpackDecodeUpdate
  · refine UnawareDec.get_bind (fun _ _ _ => rfl) fun hp => .bind (.when fun _ => ?_) fun _ => ?_
    · exact .bind (unaware_hpackDecodeLiteralIdx .nvr) fun _ => unaware_hpcNotify _
    · exact unaware_hpackDecodeField
  · refine UnawareDec.get_bind (fun _ _ _ => rfl) fun hp => .bind (.when fun _ => ?_) fun _ => ?_
    · exact unaware_hpackDecodeLiteralIdx .lit
    · exact unaware_hpackDecodeField

theorem unaware_hpackDecodeTurn (cut : Bool) : UnawareDec L L' (hpackDecodeTurn cut) := by
  have hrep : ∀ typ, UnawareDec L L' (hpackDecodeRep cut typ) := by
    intro typ
    refine .bind (.attempt (unaware_hpackDecodeAny typ)) fun r => ?_
    cases r with
    | some _ => exact .bind (UnawareDec.modify (fun _ _ _ => rfl) fun _ => rfl) fun _ => .pure _
    | none =>
      refine UnawareDec.get_bind (fun _ _ _ => rfl) fun hp => .bind (.assert _) fun _ => ?_
      refine .ite (fun _ => ?_) fun _ => ?_
      · exact .bind (UnawareDec.modify (fun _ _ _ => rfl) fun _ => rfl) fun _ => .pure _
      · exact .bind (UnawareDec.modify (fun _ _ _ => rfl) fun _ => rfl) fun _ => .pure _
  refine .bind (UnawareDec.get_bind (fun _ _ _ => rfl) fun hp => .when fun _ => ?_) fun _ => ?_
  · cases hp.ctx.blk with
    | nil => exact .halt .fault
    | cons b blk => exact UnawareDec.modify (fun _ _ _ => rfl) fun _ => rfl
  · refine UnawareDec.get_bind (fun _ _ _ => rfl) fun hp => .ite (fun _ => ?_) fun _ => ?_
    · exact .bind (UnawareDec.modify (fun _ _ _ => rfl) fun _ => rfl) fun _ => .pure _
    · refine .bind (.when fun _ => .bind (.assert _) fun _ => ?_) fun _ => hrep _
      exact UnawareDec.modify (fun _ _ _ => rfl) fun _ => rfl

theorem unaware_hpackDecodeLoop (cut : Bool) (fuel : ℕ) :
    UnawareDec L L' (hpackDecodeLoop cut fuel) := by
  induction fuel with
  | zero => exact .halt .spin
  | succ fuel ih =>
    refine UnawareDec.get_bind (fun _ _ _ => rfl) fun hp => .ite (fun _ => ?_) fun _ => ?_
    · exact UnawareDec.get_bind (fun _ _ _ => rfl) fun hp => .bind (.assert _) fun _ => .pure _
    · refine .bind (unaware_hpackDecodeTurn cut) fun r => ?_
      cases r with
      | some r => exact .pure r
      | none => exact ih

/-- `hpack_decode` does not depend on what was notified before. -/
theorem unaware_hpackDecode (dec : Decoding) : UnawareDec L L' (hpackDecode dec) := by
  refine UnawareDec.get_bind (fun _ _ _ => rfl) fun hp => .ite (fun _ => .pure _) fun _ => ?_
  refine .bind (.attempt (UnawareDec.get_bind (fun _ _ _ => rfl) fun hp => ?_)) fun r => ?_
  · refine .bind (.assert _) fun _ => .ite (fun _ => ?_) fun _ => ?_
    · exact .bind (.assert _) fun _ => unaware_expect _ _
    · refine .bind (.assert _) fun _ => .bind (unaware_expect _ _) fun _ => ?_
      exact UnawareDec.modify (fun _ _ _ => rfl) fun _ => rfl
  · cases r with
    | none => exact .pure _
    | some _ =>
      refine .bind (UnawareDec.modify (fun _ _ _ => rfl) fun _ => rfl) fun _ => ?_
      exact unaware_hpackDecodeLoop _ _

end Cashpack
