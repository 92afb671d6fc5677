import Cashpack.Codec.Alike
import Cashpack.Prog.Keeps

/-!
# Encoders that behave alike

No function of the encoder looks at the events that were notified before, nor at the field that
the last insertion left in the context.

## Main results

* `unaware_hpackEncode` : a block is encoded alike whatever was notified and inserted before.
-/

namespace Cashpack

open Prog

variable {Q : Rest → Rest → Prop} {L L' : List Event} {β : Type}

/-- The rests of two encoders: they make no use of the block and the buffer of a decoder, nor of
the field that was inserted last. -/
def SameEnc (a b : Rest) : Prop := a.arg = b.arg ∧ a.cur = b.cur ∧ a.canUpd = b.canUpd

/-- A function that does the same on encoders that are alike. -/
abbrev UnawareEnc (L L' : List Event) (x : Cp β) : Prop := Unaware SameEnc L L' x

namespace UnawareEnc

theorem get_bind {f : Hpack → Cp β}
    (hf : ∀ (hp : Hpack) (log : List Event) (r : Rest), f (hp.relog log { r with
      arg := hp.ctx.arg, cur := hp.ctx.cur, canUpd := hp.ctx.canUpd }) = f hp)
    (h : ∀ hp, UnawareEnc L L' (f hp)) : UnawareEnc L L' (get >>= f) := by
  refine Agree.get_bind fun hp hp' hr => ?_
  obtain ⟨m, ⟨arg, blk, cur, org, out, bufLen, fld, canUpd⟩, hm, ⟨rfl, rfl, rfl⟩, rfl⟩ := hr
  have heq := hf hp (L' ++ m) ⟨hp.ctx.arg, blk, hp.ctx.cur, org, out, bufLen, fld, hp.ctx.canUpd⟩
  refine (congrFun heq _).symm ▸ h hp _ _ ⟨m, _, hm, ?_, rfl⟩
  exact ⟨rfl, rfl, rfl⟩

theorem modify {f : Hpack → Hpack}
    (hf : ∀ (hp : Hpack) (log : List Event) (r : Rest), f (hp.relog log { r with
      arg := hp.ctx.arg, cur := hp.ctx.cur, canUpd := hp.ctx.canUpd }) = (f hp).relog log { r with
        arg := (f hp).ctx.arg, cur := (f hp).ctx.cur, canUpd := (f hp).ctx.canUpd })
    (hk : ∀ hp, (f hp).ctx.log = hp.ctx.log) : UnawareEnc L L' (Prog.modify f) := by
  refine Agree.modify fun hp hp' hr => ?_
  obtain ⟨m, ⟨arg, blk, cur, org, out, bufLen, fld, canUpd⟩, hm, ⟨rfl, rfl, rfl⟩, rfl⟩ := hr
  refine ⟨m, _, (hk hp).trans hm, ?_,
    hf hp (L' ++ m) ⟨hp.ctx.arg, blk, hp.ctx.cur, org, out, bufLen, fld, hp.ctx.canUpd⟩⟩
  exact ⟨rfl, rfl, rfl⟩

end UnawareEnc

/-! ### The working buffer -/

theorem unaware_hpeSend : UnawareEnc L L' hpeSend := by
  refine UnawareEnc.get_bind (fun _ _ _ => rfl) fun hp => .when fun _ => ?_
  refine .bind (unaware_hpcNotify _) fun _ => ?_
  exact UnawareEnc.modify (fun _ _ _ => rfl) fun _ => rfl

theorem unaware_hpeFlush : UnawareEnc L L' hpeFlush :=
  UnawareEnc.get_bind (fun _ _ _ => rfl) fun _ => .when fun _ => unaware_hpeSend

theorem unaware_hpePutb (b : UInt8) : UnawareEnc L L' (hpePutb b) := by
  refine UnawareEnc.get_bind (fun _ _ _ => rfl) fun hp => .bind (.assert _) fun _ => ?_
  exact .bind (UnawareEnc.modify (fun _ _ _ => rfl) fun _ => rfl) fun _ => unaware_hpeFlush

theorem unaware_hpePuts (bs : Octets) : UnawareEnc L L' (hpePuts bs) := by
  induction bs with
  | nil => exact .pure ()
  | cons b bs ih => exact .bind (unaware_hpePutb b) fun _ => ih

theorem unaware_hpeBcatLoop (buf : Octets) (fuel len : ℕ) :
    UnawareEnc L L' (hpeBcatLoop buf fuel len) := by
  induction fuel generalizing len with
  | zero =>
    cases len with
    | zero => exact .pure ()
    | succ len => exact .halt .spin
  | succ fuel ih =>
    cases len with
    | zero => exact .pure ()
    | succ len =>
      refine UnawareEnc.get_bind (fun _ _ _ => rfl) fun hp => .bind (.assert _) fun _ => ?_
      refine .bind (UnawareEnc.modify (fun _ _ _ => rfl) fun _ => rfl) fun _ => ?_
      exact .bind unaware_hpeFlush fun _ => ih _

theorem unaware_hpiEncode (p : Hpp) (val : ℕ) : UnawareEnc L L' (hpiEncode p val) :=
  UnawareEnc.get_bind (fun _ _ _ => rfl) fun _ => .bind (.assert _) fun _ => unaware_hpePuts _

/-! ### Fields -/

theorem unaware_userStr (s : Option CStr) : UnawareEnc L L' (userStr s) := by
  cases s with
  | some s => exact .pure _
  | none => exact .halt .fault

theorem unaware_hpackEncodeString (fld : Field) (evt : StrEvt) :
    UnawareEnc L L' (hpackEncodeString fld evt) := by
  refine .bind (.when fun _ => .assert _) fun _ => .bind (unaware_userStr _) fun str => ?_
  refine .bind (unaware_expect _ _) fun _ => .bind (.ite (fun _ => ?_) fun _ => ?_) fun _ => ?_
  · exact unaware_hpvToken _ (Or.inl fun _ => Ptr.noConfusion)
  · exact unaware_hpvValue _ (Or.inl fun _ => Ptr.noConfusion)
  · refine .ite (fun _ => ?_) fun _ => ?_
    · exact .bind (unaware_hpiEncode _ _) fun _ => unaware_hpePuts _
    · exact .bind (unaware_hpiEncode _ _) fun _ => unaware_hpeBcatLoop _ _ _

theorem unaware_hpackEncodeField (fld : Field) (p : Hpp) :
    UnawareEnc L L' (hpackEncodeField fld p) := by
  refine UnawareEnc.get_bind (fun _ _ _ => rfl) fun hp => .bind (.when fun _ => ?_) fun _ => ?_
  · exact unaware_expect _ _
  · refine .bind (unaware_hpiEncode _ _) fun _ => .bind (.when fun _ => ?_) fun _ => ?_
    · exact unaware_hpackEncodeString _ _
    · exact unaware_hpackEncodeString _ _

theorem unaware_hpackEncodeIndexed (fld : Field) : UnawareEnc L L' (hpackEncodeIndexed fld) :=
  UnawareEnc.get_bind (fun _ _ _ => rfl) fun _ => .bind (unaware_expect _ _) fun _ =>
    unaware_hpiEncode _ _

/-- The rests of two encoders that insert the same field. -/
def SameIns (a b : Rest) : Prop :=
  SameEnc a b ∧ a.fld = b.fld ∧ ∀ off, a.fld.nam ≠ .out off ∧ a.fld.val ≠ .out off

/-- Once its name and its value are set, nothing is left of the field there was. -/
theorem unaware_insert {nam : Ptr} (hnam : ∀ off, nam ≠ .out off) (namSz : ℕ) (val : Option CStr) :
    UnawareEnc L L' (do
      modify fun hp => { hp with ctx.fld.nam := nam, ctx.fld.namSz := namSz }
      let val ← userStr val
      modify fun hp => { hp with ctx.fld.val := .str val, ctx.fld.valSz := val.length }
      hptIndex) := by
  rintro hp _ ⟨m, r, hm, hQ, rfl⟩
  cases val with
  | none => exact .stop .fault
  | some s =>
    have hins : Unaware SameIns L L' hptIndex :=
      unaware_hptIndex (fun _ _ h => h.2.1) (Or.inr fun _ _ h => h.2.2)
    refine (hins _ _ ⟨m, { r with fld := ⟨nam, .str s.bytes, namSz, s.bytes.length⟩ }, ?_, ?_,
      rfl⟩).mono (fun _ _ h => h.mono fun _ _ h => h.1) fun _ h => h
    · exact hm
    · exact ⟨hQ, rfl, fun off => ⟨hnam off, Ptr.noConfusion⟩⟩

/-- The entries of the tables are not in the working buffer of a decoder. -/
theorem hptField_not_out (idx : ℕ) (hp : Hpack) :
    (hptField idx hp).Holds (fun hf _ => ∀ off, hf.nam ≠ .out off) (fun _ => True) fun _ => True := by
  refine .assert_bind trivial fun _ => ?_
  rw [ite_run]
  split
  · cases hptStatic[idx - 1]? with
    | some e => exact fun _ => Ptr.noConfusion
    | none => trivial
  · refine (Out.Holds.any (ctxHp hp)).bind fun _ hp _ => ?_
    rw [bind_apply, get_apply, Out.bind_ok, ite_run]
    split
    · exact fun _ => Ptr.noConfusion
    · refine (Out.Holds.any (expect .idx _ hp)).bind fun _ _ _ => ?_
      refine (Out.Holds.any (onTable _ _)).bind fun he _ _ => ?_
      exact (Out.Holds.any (onTable _ _)).bind fun tmp _ _ _ => Ptr.noConfusion

/-- The entry a name is borrowed from is the same, and is in a table. -/
theorem unaware_hptField_bind (idx : ℕ) {f : Option HptField → Cp β}
    (hf : ∀ r : Option HptField, (∀ hf ∈ r, ∀ off, hf.nam ≠ .out off) → UnawareEnc L L' (f r)) :
    UnawareEnc L L' (attempt (hptField idx) >>= f) := by
  intro hp hp' hr
  have hfield : UnawareEnc L L' (hptField idx) := unaware_hptField idx
  have hrel := Agree.attempt (X := fun _ => False) hfield hp hp' hr
  have hout : (attempt (hptField idx) hp).Holds
      (fun r _ => r.elim True fun hf => ∀ off, hf.nam ≠ .out off) (fun _ => True) fun _ => True :=
    (hptField_not_out idx hp).attempt
  rw [bind_apply, bind_apply]
  generalize attempt (hptField idx) hp = o at hrel hout
  generalize attempt (hptField idx) hp' = o' at hrel
  cases hrel with
  | ok r h =>
    refine hf r (fun e he => ?_) _ _ h
    obtain rfl : r = some e := he
    exact hout
  | err h => exact .err h
  | stop w => exact .stop w
  | exit _ h => exact h.elim

theorem unaware_hpackEncodeDynamic (fld : Field) :
    UnawareEnc L L' (hpackEncodeDynamic fld) := by
  refine .bind (unaware_hpackEncodeField _ _) fun _ => ?_
  cases fld.namIdxF with
  | true =>
    show UnawareEnc L L' (hpackEncodeNamIdx fld >>= _)
    rw [hpackEncodeNamIdx, bind_assoc]
    refine unaware_hptField_bind _ fun hf hnam => ?_
    rw [bind_assoc]
    refine UnawareEnc.get_bind (fun _ _ _ => rfl) fun hp => ?_
    rw [bind_assoc]
    refine .bind (.assert _) fun _ => ?_
    cases hf with
    | none => exact fun _ _ _ => .stop .fault
    | some hf => exact unaware_insert (hnam hf rfl) hf.namSz fld.val
  | false =>
    show UnawareEnc L L' (hpackEncodeNam fld >>= _)
    rw [hpackEncodeNam, bind_assoc]
    refine .bind (unaware_userStr _) fun nam => ?_
    exact unaware_insert (fun _ => Ptr.noConfusion) nam.length fld.val

theorem unaware_hpackEncodeAny {fld : Field} {enc : Cp Unit} (h : hpackEncodeAny fld = some enc) :
    UnawareEnc L L' enc := by
  unfold hpackEncodeAny at h
  split at h
  · exact Option.some.inj h ▸ unaware_hpackEncodeIndexed fld
  · exact Option.some.inj h ▸ unaware_hpackEncodeDynamic fld
  · exact Option.some.inj h ▸ unaware_hpackEncodeField fld .nvr
  · exact Option.some.inj h ▸ unaware_hpackEncodeField fld .lit
  · cases h

theorem unaware_hpackSearch (nam val : Option CStr) :
    Unaware Q L L' (hpackSearch nam val) := by
  refine Unaware.get_bind (fun _ _ _ => rfl) fun hp => ?_
  cases nam with
  | none => exact .pure _
  | some nam =>
    refine .ite (fun _ => .pure _) fun _ => .bind (.bind (unaware_onTable _) fun r => ?_) ?_
    · refine .ite (fun _ => .pure _) fun _ => .bind (.assert _) fun _ => .bind unaware_ctxHp ?_
      exact fun _ => unaware_onTable _
    · exact fun r => .pure _

theorem unaware_hpackAutoIndex (fld : Field) : Unaware Q L L' (hpackAutoIndex fld) := by
  refine .ite (fun _ => .pure _) fun _ => .bind (unaware_hpackSearch _ _) fun r => ?_
  obtain ⟨res, idx⟩ := r
  dsimp only
  split
  · exact .pure _
  · exact .pure _
  · exact .bind (.assert _) fun _ => .pure _
  · exact .pure _
  · exact .halt .abort

/-! ### Size updates -/

theorem unaware_hpackCap (lim max : ℤ) : Unaware Q L L' (hpackCap lim max) := by
  refine .bind (.assert _) fun _ => Unaware.get_bind (fun _ _ _ => rfl) fun hp => ?_
  refine .ite (fun _ => .pure _) fun _ => .ite (fun _ => ?_) fun _ => ?_
  · exact .bind (Unaware.modify (fun _ _ _ => rfl) fun _ => ⟨rfl, rfl⟩) fun _ => .pure _
  · exact .bind (Unaware.modify (fun _ _ _ => rfl) fun _ => ⟨rfl, rfl⟩) fun _ => .pure _

theorem unaware_hpackEncodeSettle (lim : ℤ) : Unaware Q L L' (hpackEncodeSettle lim) := by
  refine Unaware.get_bind (fun _ _ _ => rfl) fun hp => .ite (fun _ => ?_) fun _ => ?_
  · refine .bind (.assert _) fun _ => .bind ?_ fun _ => .ite (fun _ => ?_) fun _ => ?_
    · exact Unaware.modify (fun _ _ _ => rfl) fun _ => ⟨rfl, rfl⟩
    · exact .bind (.assert _) fun _ => .pure _
    · exact unaware_hpackCap _ _
  · refine .bind (unaware_hpackCap _ _) fun lim => Unaware.get_bind (fun _ _ _ => rfl) fun hp => ?_
    exact .bind (.assert _) fun _ => .pure _

theorem unaware_hpackEncodeUpdated : UnawareEnc L L' hpackEncodeUpdated := by
  refine UnawareEnc.get_bind (fun _ _ _ => rfl) fun hp => .ite (fun _ => ?_) fun _ => .when fun _ => ?_
  · exact .bind (.assert _) fun _ => UnawareEnc.modify (fun _ _ _ => rfl) fun _ => rfl
  · exact .bind (.assert _) fun _ => UnawareEnc.modify (fun _ _ _ => rfl) fun _ => rfl

theorem unaware_hpackEncodeUpdate (lim : ℤ) : UnawareEnc L L' (hpackEncodeUpdate lim) := by
  refine UnawareEnc.get_bind (fun _ _ _ => rfl) fun hp => .bind (.assert _) fun _ => ?_
  refine .bind (.assert _) fun _ => .bind (.assert _) fun _ => ?_
  refine .bind (unaware_hpackEncodeSettle _) fun lim => .bind (.assert _) fun _ => ?_
  refine UnawareEnc.get_bind (fun _ _ _ => rfl) fun hp => .bind (unaware_hpackAdjust _) fun _ => ?_
  refine .bind (unaware_hpiEncode _ _) fun _ => .bind (unaware_hpcNotify _) fun _ => ?_
  refine .bind unaware_hpackEncodeUpdated fun _ => UnawareEnc.get_bind (fun _ _ _ => rfl) fun hp => ?_
  exact .assert _

theorem unaware_hpackEncodeResize : UnawareEnc L L' hpackEncodeResize := by
  refine UnawareEnc.get_bind (fun _ _ _ => rfl) fun hp => .when fun _ => .bind (.assert _) fun _ => ?_
  refine .bind (unaware_hpackEncodeUpdate _) fun _ => UnawareEnc.get_bind (fun _ _ _ => rfl) fun hp => ?_
  refine .bind (.assert _) fun _ => .bind (.when fun _ => unaware_hpackEncodeUpdate _) fun _ => ?_
  exact UnawareEnc.get_bind (fun _ _ _ => rfl) fun hp => .assert _

theorem unaware_hpackEncodeLimit : UnawareEnc L L' hpackEncodeLimit := by
  refine UnawareEnc.get_bind (fun _ _ _ => rfl) fun hp => .when fun _ => .bind (.assert _) fun _ => ?_
  refine .when fun _ => .bind (unaware_hpackEncodeUpdate _) fun _ => ?_
  exact UnawareEnc.modify (fun _ _ _ => rfl) fun _ => rfl

/-! ### Blocks -/

theorem unaware_hpackEncodeTurn (fld : Field) : UnawareEnc L L' (hpackEncodeTurn fld) := by
  refine .bind (.ite (fun _ => unaware_hpackAutoIndex fld) fun _ => .pure _) fun r => ?_
  obtain ⟨fld, arg⟩ := r
  refine .ite (fun _ => .pure _) fun _ => .bind (unaware_hpcNotify _) fun _ => ?_
  cases henc : hpackEncodeAny fld with
  | none => exact .bind (UnawareEnc.modify (fun _ _ _ => rfl) fun _ => rfl) fun _ => .pure _
  | some enc =>
    refine .bind (.attempt (unaware_hpackEncodeAny henc)) fun r => ?_
    cases r with
    | some _ => exact .pure _
    | none =>
      refine UnawareEnc.get_bind (fun _ _ _ => rfl) fun hp => .bind (.assert _) fun _ => ?_
      refine .bind (.assert _) fun _ => ?_
      exact .bind (UnawareEnc.modify (fun _ _ _ => rfl) fun _ => rfl) fun _ => .pure _

theorem unaware_hpackEncodeLoop (flds : List Field) :
    UnawareEnc L L' (hpackEncodeLoop flds) := by
  induction flds with
  | nil => exact .pure _
  | cons fld flds ih =>
    refine .bind (unaware_hpackEncodeTurn fld) fun r => ?_
    obtain ⟨fld, r⟩ := r
    cases r with
    | some r => exact .pure _
    | none => exact .bind ih fun r => .pure _

/-- `hpack_encode` does not depend on what was notified and inserted before. -/
theorem unaware_hpackEncode (enc : Encoding) : UnawareEnc L L' (hpackEncode enc) := by
  refine UnawareEnc.get_bind (fun _ _ _ => rfl) fun hp => .ite (fun _ => .pure _) fun _ => ?_
  refine .bind (UnawareEnc.get_bind (fun _ _ _ => rfl) fun hp => .bind (.assert _) fun _ => ?_) fun _ => ?_
  · refine .bind (.when fun _ => .bind (.assert _) fun _ => ?_) fun _ => ?_
    · exact UnawareEnc.modify (fun _ _ _ => rfl) fun _ => rfl
    · exact UnawareEnc.modify (fun _ _ _ => rfl) fun _ => rfl
  refine .bind unaware_hpackEncodeResize fun _ => .bind unaware_hpackEncodeLimit fun _ => ?_
  refine .bind (UnawareEnc.modify (fun _ _ _ => rfl) fun _ => rfl) fun _ => ?_
  refine .bind (unaware_hpackEncodeLoop _) fun r => ?_
  obtain ⟨flds, r⟩ := r
  cases r with
  | some r => exact .pure _
  | none =>
    refine .bind unaware_hpeSend fun _ => UnawareEnc.get_bind (fun _ _ _ => rfl) fun hp => ?_
    refine .bind (.assert _) fun _ => .bind ?_ fun _ => .pure _
    exact UnawareEnc.modify (fun _ _ _ => rfl) fun _ => rfl

end Cashpack
