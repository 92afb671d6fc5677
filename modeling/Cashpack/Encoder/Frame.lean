import Cashpack.Encoder.Runs

/-!
# What encoding a field leaves unchanged

Encoding a field works on the buffer and on the table.  It keeps every invariant on the rest of
the codec (`EntriesFree`): whose codec it is, what it is, and the arguments of the call.
-/

namespace Cashpack

open Prog

variable {P : Core → Prop}

/-- What is kept while a field is encoded. -/
abbrev Hpack.Outside (P : Core → Prop) : Hpack → Prop := Hpack.Inv P fun _ => True

/-- Keep what is outside of the table, whatever happens to it. -/
abbrev KeepsOutside (P : Core → Prop) {α : Type} (x : Cp α) : Prop :=
  Keeps (InBounds False) (Hpack.Outside P) x

theorem keeps_notify_outside (e : Event) : KeepsOutside P (hpcNotify e) := keeps_hpcNotify e

/-! ### The working buffer -/

theorem keeps_hpeSend : KeepsOutside P hpeSend := by
  refine .bind .get fun hp => .when fun _ => .bind (keeps_hpcNotify _) fun _ => ?_
  exact keeps_modify fun _ => ⟨rfl, rfl⟩

theorem keeps_hpeFlush : KeepsOutside P hpeFlush :=
  .bind .get fun _ => .when fun _ => keeps_hpeSend

theorem keeps_hpePutb (b : UInt8) : KeepsOutside P (hpePutb b) :=
  .bind .get fun _ => .bind (keeps_assert _) fun _ =>
    .bind (keeps_modify fun _ => ⟨rfl, rfl⟩) fun _ => keeps_hpeFlush

theorem keeps_hpePuts (bs : Octets) : KeepsOutside P (hpePuts bs) := by
  induction bs with
  | nil => exact .pure ()
  | cons b bs ih => exact .bind (keeps_hpePutb b) fun _ => ih

theorem keeps_hpeBcatLoop (buf : Octets) (fuel len : ℕ) :
    KeepsOutside P (hpeBcatLoop buf fuel len) := by
  induction fuel generalizing len with
  | zero =>
    cases len with
    | zero => exact .pure ()
    | succ len => exact keeps_spin
  | succ fuel ih =>
    cases len with
    | zero => exact .pure ()
    | succ len =>
      refine .bind .get fun hp => .bind (keeps_assert _) fun _ => ?_
      refine .bind (keeps_modify fun _ => ⟨rfl, rfl⟩) fun _ => ?_
      exact .bind keeps_hpeFlush fun _ => ih _

theorem keeps_hpiEncode (p : Hpp) (val : ℕ) : KeepsOutside P (hpiEncode p val) :=
  .bind .get fun _ => .bind (keeps_assert _) fun _ => keeps_hpePuts _

/-! ### Fields -/

theorem keeps_userStr (s : Option CStr) : KeepsOutside P (userStr s) := by
  cases s with
  | none => exact keeps_fault
  | some s => exact .pure _

theorem keeps_hpackEncodeString (fld : Field) (evt : StrEvt) :
    KeepsOutside P (hpackEncodeString fld evt) := by
  refine .bind (.when fun _ => keeps_assert _) fun _ => .bind (keeps_userStr _) fun str => ?_
  refine .bind (keeps_expect _ _) fun _ => .bind (.ite (fun _ => keeps_hpvToken _ _) fun _ =>
    keeps_hpvValue _ _) fun _ => .ite (fun _ => ?_) fun _ => ?_
  · exact .bind (keeps_hpiEncode _ _) fun _ => keeps_hpePuts _
  · exact .bind (keeps_hpiEncode _ _) fun _ => keeps_hpeBcatLoop _ _ _

theorem keeps_hpackEncodeField (fld : Field) (p : Hpp) :
    KeepsOutside P (hpackEncodeField fld p) := by
  refine .bind .get fun hp => .bind (.when fun _ => keeps_expect _ _) fun _ => ?_
  refine .bind (keeps_hpiEncode _ _) fun _ => ?_
  exact .bind (.when fun _ => keeps_hpackEncodeString _ _) fun _ => keeps_hpackEncodeString _ _

theorem keeps_hpackEncodeIndexed (fld : Field) : KeepsOutside P (hpackEncodeIndexed fld) :=
  .bind .get fun _ => .bind (keeps_expect _ _) fun _ => keeps_hpiEncode _ _

theorem keeps_modify_outside {f : Hpack → Hpack} (hf : ∀ hp, (f hp).core = hp.core) :
    KeepsOutside P (modify f) := by
  intro hp h
  exact ⟨(hf hp).symm ▸ h.1, trivial⟩

theorem keeps_hpackEncodeDynamic (hP : EntriesFree P) (fld : Field) :
    KeepsOutside P (hpackEncodeDynamic fld) := by
  refine .bind (keeps_hpackEncodeField _ _) fun _ => .bind (.ite (fun _ => ?_) fun _ => ?_)
    fun _ => .bind (keeps_userStr _) fun val => ?_
  · refine .bind (.attempt (keeps_hptField hP _)) fun hf => .bind .get fun hp => ?_
    refine .bind (keeps_assert _) fun _ => ?_
    split
    · exact keeps_fault
    · exact keeps_modify_outside fun _ => rfl
  · exact .bind (keeps_userStr _) fun nam => keeps_modify_outside fun _ => rfl
  · exact .bind (keeps_modify_outside fun _ => rfl) fun _ => keeps_hptIndex hP

/-- Whatever its type, encoding a field keeps what is outside of the table. -/
theorem keeps_hpackEncodeAny (hP : EntriesFree P) {fld : Field} {enc : Cp Unit}
    (h : hpackEncodeAny fld = some enc) : KeepsOutside P enc := by
  unfold hpackEncodeAny at h
  split at h
  · exact Option.some.inj h ▸ keeps_hpackEncodeIndexed fld
  · exact Option.some.inj h ▸ keeps_hpackEncodeDynamic hP fld
  · exact Option.some.inj h ▸ keeps_hpackEncodeField fld .nvr
  · exact Option.some.inj h ▸ keeps_hpackEncodeField fld .lit
  · cases h

theorem keeps_hptSearch (hP : EntriesFree P) (nam val : Octets) :
    KeepsOutside P (hptSearch nam val) := by
  refine .bind (keeps_onTable_limits hP fun _ => limits_reads (reads_hptBsearch _ _)) fun r => ?_
  refine .ite (fun _ => .pure _) fun _ => .bind (keeps_assert _) fun _ => .bind keeps_ctxHp fun _ => ?_
  exact keeps_onTable_limits hP fun _ => limits_reads (reads_hptSearchDynamic _ _ _)

theorem keeps_hpackSearch (hP : EntriesFree P) (nam val : Option CStr) :
    KeepsOutside P (hpackSearch nam val) := by
  refine .bind .get fun hp => ?_
  cases nam with
  | none => exact .pure _
  | some nam =>
    exact .ite (fun _ => .pure _) fun _ => .bind (keeps_hptSearch hP _ _) fun r => .pure _

theorem keeps_hpackAutoIndex (hP : EntriesFree P) (fld : Field) :
    KeepsOutside P (hpackAutoIndex fld) := by
  refine .ite (fun _ => .pure _) fun _ => .bind (keeps_hpackSearch hP _ _) fun r => ?_
  obtain ⟨res, idx⟩ := r
  dsimp only
  split
  · exact .pure _
  · exact .pure _
  · exact .bind (keeps_assert _) fun _ => .pure _
  · exact .pure _
  · exact keeps_abort

/-! ### Size updates -/

/-- Neither the table nor what a call sets up matters. -/
def CallFree (P : Core → Prop) : Prop :=
  ∀ (c : Core) (t : Table) (a : Arg) (u : Bool), P c →
    P { c with table := t, arg := a, canUpd := u }

theorem CallFree.tableFree (hP : CallFree P) : TableFree P := fun c t h => hP c t c.arg c.canUpd h

/-- A change of the table or of what a call sets up. -/
theorem CallFree.modify (hP : CallFree P) {f : Hpack → Hpack}
    (hf : ∀ hp : Hpack, (f hp).core = { hp.core with
      table := (f hp).toTable, arg := (f hp).ctx.arg, canUpd := (f hp).ctx.canUpd }) :
    KeepsOutside P (modify f) := by
  intro hp h
  refine ⟨?_, trivial⟩
  show P (f hp).core
  rw [hf hp]
  exact hP _ _ _ _ h.1

theorem keeps_hpackCap (hP : CallFree P) (lim max : ℤ) : KeepsOutside P (hpackCap lim max) := by
  refine .bind (keeps_assert _) fun _ => .bind .get fun hp => .ite (fun _ => .pure _) fun _ => ?_
  refine .ite (fun _ => .bind ?_ fun _ => .pure _) fun _ => .bind ?_ fun _ => .pure _
  · exact hP.modify fun _ => rfl
  · exact hP.modify fun _ => rfl

theorem keeps_hpackEncodeSettle (hP : CallFree P) (lim : ℤ) :
    KeepsOutside P (hpackEncodeSettle lim) := by
  refine .bind .get fun hp => .ite (fun _ => .bind (keeps_assert _) fun _ => ?_) fun _ => ?_
  · refine .bind (hP.modify fun _ => rfl) fun _ => .ite (fun _ => ?_) fun _ => ?_
    · exact .bind (keeps_assert _) fun _ => .pure _
    · exact keeps_hpackCap hP _ _
  · refine .bind (keeps_hpackCap hP _ _) fun lim => .bind .get fun hp => ?_
    exact .bind (keeps_assert _) fun _ => .pure _

theorem keeps_hpackEncodeUpdated (hP : CallFree P) : KeepsOutside P hpackEncodeUpdated := by
  refine .bind .get fun hp => .ite (fun _ => .bind (keeps_assert _) fun _ => ?_) fun _ => ?_
  · exact hP.modify fun _ => rfl
  · exact .when fun _ => .bind (keeps_assert _) fun _ => hP.modify fun _ => rfl

theorem keeps_hpackEncodeUpdate (hP : CallFree P) (lim : ℤ) :
    KeepsOutside P (hpackEncodeUpdate lim) := by
  refine .bind .get fun hp => .bind (keeps_assert _) fun _ => .bind (keeps_assert _) fun _ => ?_
  refine .bind (keeps_assert _) fun _ => .bind (keeps_hpackEncodeSettle hP _) fun lim => ?_
  refine .bind (keeps_assert _) fun _ => .bind .get fun hp => ?_
  refine .bind (.bind (keeps_onTable hP.tableFree _) fun _ => keeps_hpcNotifyAll _) fun _ => ?_
  refine .bind (keeps_hpiEncode _ _) fun _ => .bind (keeps_notify_outside _) fun _ => ?_
  exact .bind (keeps_hpackEncodeUpdated hP) fun _ => .bind .get fun hp => keeps_assert _

theorem keeps_hpackEncodeResize (hP : CallFree P) : KeepsOutside P hpackEncodeResize := by
  refine .bind .get fun hp => .when fun _ => .bind (keeps_assert _) fun _ => ?_
  refine .bind (keeps_hpackEncodeUpdate hP _) fun _ => .bind .get fun hp => ?_
  refine .bind (keeps_assert _) fun _ => .bind (.when fun _ => keeps_hpackEncodeUpdate hP _) ?_
  exact fun _ => .bind .get fun hp => keeps_assert _

theorem keeps_hpackEncodeLimit (hP : CallFree P) : KeepsOutside P hpackEncodeLimit := by
  refine .bind .get fun hp => .when fun _ => .bind (keeps_assert _) fun _ => .when fun _ => ?_
  exact .bind (keeps_hpackEncodeUpdate hP _) fun _ => hP.modify fun _ => rfl

theorem keeps_hpackEncodeBegin (hP : CallFree P) (enc : Encoding) :
    KeepsOutside P (hpackEncodeBegin enc) := by
  refine .bind .get fun hp => .bind (keeps_assert _) fun _ => .bind (.when fun _ => ?_) fun _ => ?_
  · exact .bind (keeps_assert _) fun _ => hP.modify fun _ => rfl
  · exact hP.modify fun _ => rfl

/-! ### Blocks -/

/-- A codec that becomes defunct does not matter. -/
def DefunctFree (P : Core → Prop) : Prop := ∀ c : Core, P c → P { c with magic := .defunct }

section

variable (hP : EntriesFree P) (hdef : DefunctFree P)

include hP hdef

theorem keeps_hpackEncodeTurn (fld : Field) : KeepsOutside P (hpackEncodeTurn fld) := by
  have hdefunct : KeepsOutside P (modify fun hp => { hp with magic := .defunct }) :=
    fun hp h => ⟨hdef _ h.1, trivial⟩
  refine .bind (.ite (fun _ => keeps_hpackAutoIndex hP fld) fun _ => .pure _) fun r => ?_
  obtain ⟨fld, arg⟩ := r
  refine .ite (fun _ => .pure _) fun _ => .bind (keeps_notify_outside _) fun _ => ?_
  cases henc : hpackEncodeAny fld with
  | none => exact .bind hdefunct fun _ => .pure _
  | some enc =>
    refine .bind (.attempt (keeps_hpackEncodeAny hP henc)) fun r => ?_
    cases r with
    | some _ => exact .pure _
    | none =>
      refine .bind .get fun hp => .bind (keeps_assert _) fun _ => .bind (keeps_assert _) fun _ => ?_
      exact .bind hdefunct fun _ => .pure _

theorem keeps_hpackEncodeLoop (flds : List Field) : KeepsOutside P (hpackEncodeLoop flds) := by
  induction flds with
  | nil => exact .pure _
  | cons fld flds ih =>
    refine .bind (keeps_hpackEncodeTurn hP hdef fld) fun r => ?_
    obtain ⟨fld, r⟩ := r
    cases r with
    | some r => exact .pure _
    | none => exact .bind ih fun r => .pure _

/-- What the fields, the start of a block and the size updates keep, a block keeps. -/
theorem keeps_hpackEncode (hbegin : ∀ enc, KeepsOutside P (hpackEncodeBegin enc))
    (hresize : KeepsOutside P hpackEncodeResize) (hlimit : KeepsOutside P hpackEncodeLimit)
    (hupd : ∀ c : Core, P c → P { c with canUpd := false }) (enc : Encoding) :
    KeepsOutside P (hpackEncode enc) := by
  refine .bind .get fun hp => .ite (fun _ => .pure _) fun _ => .bind (hbegin enc) fun _ => ?_
  refine .bind hresize fun _ => .bind hlimit fun _ => .bind (fun hp h => ⟨hupd _ h.1, trivial⟩) ?_
  refine fun _ => .bind (keeps_hpackEncodeLoop hP hdef _) fun r => ?_
  obtain ⟨flds, r⟩ := r
  cases r with
  | some r => exact .pure _
  | none =>
    refine .bind keeps_hpeSend fun _ => .bind .get fun hp => .bind (keeps_assert _) fun _ => ?_
    exact .bind (keeps_modify_outside fun _ => rfl) fun _ => .pure _

end

end Cashpack
