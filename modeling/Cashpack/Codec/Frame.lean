import Cashpack.Codec.Reads

/-!
# What decoding a field leaves unchanged

Decoding a field works on the block, the working buffer and the decoding state.  It never
changes the part of the codec gathered in `Core` (the table with its sizes, and what says whose
codec it is and whether size updates are still allowed), and never makes a name or a value
under construction point into the dynamic table.  So it keeps every invariant on these
(`Hpack.Inv`), whatever the invariant is; only `HPT_index` and the size updates are left to
whoever states one.
-/

namespace Cashpack

open Prog

/-- The part of a codec that decoding a field leaves alone. -/
structure Core where
  table : Table
  addr : ℕ
  magic : Magic
  mon : Bool
  realloc : Bool
  owner : ℕ
  arg : Arg
  canUpd : Bool

/-- The core of a codec. -/
def Hpack.core (hp : Hpack) : Core :=
  ⟨hp.toTable, hp.addr, hp.magic, hp.mon, hp.realloc, hp.ctx.hp, hp.ctx.arg, hp.ctx.canUpd⟩

/-- Neither the name nor the value points into the dynamic table. -/
def Fld.Ext (fld : Fld) : Prop := (∀ off, fld.nam ≠ .tbl off) ∧ ∀ off, fld.val ≠ .tbl off

/-- An invariant on the core and on the field being processed. -/
def Hpack.Inv (P : Core → Prop) (Q : Fld → Prop) (hp : Hpack) : Prop :=
  P hp.core ∧ Q hp.ctx.fld

/-- Any reason to stop, but an access past the end of the table when `b` rules it out. -/
def InBounds (b : Prop) (w : Stop) : Prop := b → w ≠ .overrun

variable {b : Prop} {P : Core → Prop} {Q : Fld → Prop} {α : Type}

/-! ### Common functions -/

namespace InBounds

theorem abort : InBounds b .abort := fun _ => Stop.noConfusion

theorem fault : InBounds b .fault := fun _ => Stop.noConfusion

theorem spin : InBounds b .spin := fun _ => Stop.noConfusion

end InBounds

theorem keeps_failWith (r : Res) : Keeps (InBounds b) (Hpack.Inv P Q) (failWith r : Cp α) :=
  fun _ h => h

theorem keeps_expect (r : Res) (c : Prop) [Decidable c] :
    Keeps (InBounds b) (Hpack.Inv P Q) (expect r c) := by
  intro hp h
  rw [expect_apply]
  split <;> exact h

theorem keeps_readStr (p : Ptr) (n : ℕ) : Keeps (InBounds b) (Hpack.Inv P Q) (readStr p n) := by
  intro hp h
  unfold readStr
  split
  · exact h
  · exact InBounds.fault

theorem keeps_hpcNotify (e : Event) : Keeps (InBounds b) (Hpack.Inv P Q) (hpcNotify e) := by
  intro hp h
  unfold hpcNotify
  split
  · split
    · exact h
    · exact InBounds.abort
  · exact h

theorem keeps_hpcNotifyAll (es : List Event) :
    Keeps (InBounds b) (Hpack.Inv P Q) (hpcNotifyAll es) := by
  induction es with
  | nil => exact .pure ()
  | cons e es ih => exact .bind (keeps_hpcNotify e) fun _ => ih

theorem keeps_assert (c : Prop) [Decidable c] :
    Keeps (InBounds b) (Hpack.Inv P Q) (assert c : Cp _) :=
  .assert c InBounds.abort

theorem keeps_abort : Keeps (InBounds b) (Hpack.Inv P Q) (halt .abort : Cp α) :=
  .halt InBounds.abort

theorem keeps_fault : Keeps (InBounds b) (Hpack.Inv P Q) (halt .fault : Cp α) :=
  .halt InBounds.fault

theorem keeps_spin : Keeps (InBounds b) (Hpack.Inv P Q) (halt .spin : Cp α) :=
  .halt InBounds.spin

/-- A change of neither the core nor the field. -/
theorem keeps_modify {f : Hpack → Hpack}
    (hf : ∀ hp, (f hp).core = hp.core ∧ (f hp).ctx.fld = hp.ctx.fld) :
    Keeps (InBounds b) (Hpack.Inv P Q) (modify f) := by
  intro hp h
  exact ⟨(hf hp).1.symm ▸ h.1, (hf hp).2.symm ▸ h.2⟩

theorem keeps_hpvValue (str : Ptr) (len : ℕ) :
    Keeps (InBounds b) (Hpack.Inv P Q) (hpvValue str len) := by
  refine .bind (keeps_assert _) fun _ => .bind (keeps_readStr _ _) fun r => ?_
  exact .bind (keeps_expect _ _) fun _ => .bind (keeps_assert _) fun _ => keeps_assert _

theorem keeps_hpvToken (str : Ptr) (len : ℕ) :
    Keeps (InBounds b) (Hpack.Inv P Q) (hpvToken str len) := by
  refine .bind (keeps_assert _) fun _ => .bind (keeps_assert _) fun _ => .bind .get fun hp => ?_
  refine .ite (fun _ => keeps_assert _) fun _ => .bind (keeps_readStr _ _) fun r => ?_
  refine .ite (fun _ => .ite (fun _ => .pure ()) fun _ => keeps_failWith _) fun _ => ?_
  exact .bind (keeps_expect _ _) fun _ => keeps_assert _

/-! ### Memory management -/

/-- The table and where the codec is do not matter, nor that it becomes defunct. -/
def MemFree (J : Hpack → Prop) : Prop :=
  ∀ (hp : Hpack) (t : Table) (a o : ℕ) (m : Magic), m = hp.magic ∨ m = .defunct → J hp →
    J { hp with toTable := t, addr := a, magic := m, ctx.hp := o }

namespace MemFree

variable {J : Hpack → Prop} (hJ : MemFree J)

include hJ

theorem defunct : Keeps (fun _ => True) J (modify fun hp => { hp with magic := .defunct }) :=
  fun hp h => hJ hp hp.toTable hp.addr hp.ctx.hp .defunct (Or.inr rfl) h

theorem modify {f : Hpack → Hpack}
    (hf : ∀ hp : Hpack, f hp = { hp with
      toTable := (f hp).toTable, addr := (f hp).addr, ctx.hp := (f hp).ctx.hp }) :
    Keeps (fun _ => True) J (modify f) := by
  intro hp h
  show J (f hp)
  rw [hf hp]
  exact hJ hp _ _ _ hp.magic (Or.inl rfl) h

theorem hpackRealloc (mem : ℕ) (re : Option Block) :
    Keeps (fun _ => True) J (hpackRealloc mem re) := by
  refine .bind .get fun hp => .ite (fun _ => .pure _) fun _ => ?_
  refine .bind (.assert _ trivial) fun _ => .ite (fun _ => .pure _) fun _ => ?_
  cases re with
  | none => exact .pure _
  | some blk => exact .bind (hJ.modify fun _ => rfl) fun _ => .pure _

theorem hpackResize (len : ℕ) (re : Option Block) :
    Keeps (fun _ => True) J (hpackResize len re) := by
  refine .bind .get fun hp => .ite (fun _ => .pure _) fun _ => ?_
  refine .ite (fun _ => .bind (.assert _ trivial) fun _ => .pure _) fun _ => ?_
  refine .bind ((reads_hpackResizeMem _ _).keeps fun _ => trivial) fun mem => ?_
  refine .ite (fun _ => .bind hJ.defunct fun _ => .pure _) fun _ => ?_
  refine .bind (hJ.hpackRealloc _ _) fun res => .ite (fun _ => ?_) fun _ => ?_
  · exact .bind hJ.defunct fun _ => .pure _
  · refine .bind (.bind .get fun hp => .ite (fun _ => ?_) fun _ => ?_) fun _ => .pure _
    · exact .bind (.assert _ trivial) fun _ => hJ.modify fun _ => rfl
    · exact .bind (.assert _ trivial) fun _ => hJ.modify fun _ => rfl

theorem hpackLimit (len : ℕ) (re : Option Block) :
    Keeps (fun _ => True) J (hpackLimit len re) := by
  refine .bind .get fun hp => .ite (fun _ => .pure _) fun _ => ?_
  refine .ite (fun _ => .bind (.assert _ trivial) fun _ => .pure _) fun _ => ?_
  refine .ite (fun _ => .pure _) fun _ => .bind (hJ.hpackRealloc _ _) fun res => ?_
  refine .ite (fun _ => .bind (.when fun _ => hJ.defunct) fun _ => .pure _) fun _ => ?_
  exact .bind (hJ.modify fun _ => rfl) fun _ => .pure _

theorem hpackTrim (re : Option Block) : Keeps (fun _ => True) J (hpackTrim re) := by
  refine .bind .get fun hp => .ite (fun _ => .pure _) fun _ => .ite (fun _ => .pure _) fun _ => ?_
  refine .ite (fun _ => .bind (.assert _ trivial) fun _ => .pure _) fun _ => ?_
  refine .bind (.assert _ trivial) fun _ => .ite (fun _ => ?_) fun _ => .pure _
  cases re with
  | none => exact .pure _
  | some blk => exact .bind (hJ.modify fun _ => rfl) fun _ => .pure _

end MemFree

/-! ### The working buffer -/

/-- Point the field into the working buffer, or at a string of the library. -/
theorem keeps_modify_fld {f : Hpack → Hpack}
    (hf : ∀ hp, (f hp).core = hp.core ∧ (hp.ctx.fld.Ext → (f hp).ctx.fld.Ext)) :
    Keeps (InBounds b) (Hpack.Inv P Fld.Ext) (modify f) := by
  intro hp h
  exact ⟨(hf hp).1.symm ▸ h.1, (hf hp).2 h.2⟩

theorem Fld.Ext.nam {fld : Fld} (h : fld.Ext) {p : Ptr} (n : ℕ) (hp : ∀ off, p ≠ .tbl off) :
    Fld.Ext { fld with nam := p, namSz := n } := ⟨hp, h.2⟩

theorem Fld.Ext.val {fld : Fld} (h : fld.Ext) {p : Ptr} (n : ℕ) (hp : ∀ off, p ≠ .tbl off) :
    Fld.Ext { fld with val := p, valSz := n } := ⟨h.1, hp⟩

theorem Ptr.out_ext (n : ℕ) : ∀ off, Ptr.out n ≠ .tbl off := fun _ => Ptr.noConfusion

theorem keeps_hpdSkip (len : ℕ) : Keeps (InBounds b) (Hpack.Inv P Fld.Ext) (hpdSkip len) := by
  refine .bind .get fun hp => .ite (fun _ => .pure ()) fun _ => ?_
  refine .bind (keeps_modify fun _ => ⟨rfl, rfl⟩) fun _ => ?_
  split
  · refine .bind (keeps_expect _ _) fun _ => .bind (keeps_assert _) fun _ => ?_
    refine .bind (keeps_assert _) fun _ => .bind (keeps_expect _ _) fun _ => ?_
    refine keeps_modify_fld fun hp => ⟨rfl, fun _ => ⟨Ptr.out_ext 0, fun off => ?_⟩⟩
    simp only
    split <;> exact Ptr.noConfusion
  · exact keeps_abort
  · exact keeps_fault

theorem keeps_hpdWrite (s : Octets) : Keeps (InBounds b) (Hpack.Inv P Q) (hpdWrite s) := by
  intro hp h
  unfold hpdWrite
  split
  · exact h
  · exact InBounds.fault

theorem keeps_hpdPutc (c : UInt8) : Keeps (InBounds b) (Hpack.Inv P Fld.Ext) (hpdPutc c) :=
  .bind (keeps_hpdSkip 1) fun _ => keeps_hpdWrite [c]

theorem keeps_hpdCat (s : Octets) : Keeps (InBounds b) (Hpack.Inv P Fld.Ext) (hpdCat s) :=
  .bind (keeps_hpdSkip _) fun _ => keeps_hpdWrite s

theorem keeps_hpdPuts (str : Ptr) (len : ℕ) :
    Keeps (InBounds b) (Hpack.Inv P Fld.Ext) (hpdPuts str len) := by
  refine .bind .get fun hp => .ite (fun hs => ?_) fun _ => .ite (fun hs => ?_) fun _ => ?_
  · refine .bind (keeps_assert _) fun _ => .bind (keeps_assert _) fun _ => ?_
    refine .bind (keeps_assert _) fun _ => .bind (keeps_assert _) fun _ => ?_
    exact keeps_modify_fld fun hp => ⟨rfl, fun h => h.nam _ (hs ▸ fun _ => Ptr.noConfusion)⟩
  · refine .bind (keeps_assert _) fun _ => .bind (keeps_assert _) fun _ => ?_
    refine .bind (keeps_assert _) fun _ => .bind (keeps_assert _) fun _ => ?_
    exact keeps_modify_fld fun hp => ⟨rfl, fun h => h.val _ (hs ▸ fun _ => Ptr.noConfusion)⟩
  · refine .bind (keeps_readStr _ _) fun r => .bind (keeps_assert _) fun _ => ?_
    exact keeps_hpdCat _

theorem keeps_hpdNotify : Keeps (InBounds b) (Hpack.Inv P Q) hpdNotify := by
  refine .bind .get fun hp => .bind (keeps_assert _) fun _ => .bind (keeps_assert _) fun _ => ?_
  refine .bind (keeps_assert _) fun _ => .bind (keeps_readStr _ _) fun r => ?_
  refine .bind (keeps_assert _) fun _ => .bind (keeps_readStr _ _) fun r' => ?_
  refine .bind (keeps_assert _) fun _ => .bind (keeps_hpcNotify _) fun _ => keeps_hpcNotify _

/-! ### Integers and strings -/

/-- The octets left, the decoding state and the result do not matter. -/
def StateFree (J : Hpack → Prop) : Prop :=
  ∀ (hp : Hpack) (st : State) (blk : Octets) (r : Res), J hp →
    J { hp with state := st, ctx.blk := blk, ctx.res := r }

namespace StateFree

variable {J : Hpack → Prop} {S : Stop → Prop} (hJ : StateFree J)
  (hS : ∀ w, w ≠ .overrun → S w)

include hJ

theorem failWith (r : Res) : Keeps S J (failWith r : Cp α) := fun hp h => hJ hp hp.state hp.ctx.blk r h

theorem expect (r : Res) (c : Prop) [Decidable c] : Keeps S J (expect r c) := by
  intro hp h
  rw [expect_apply]
  split
  · exact h
  · exact hJ hp hp.state hp.ctx.blk r h

theorem modify {f : Hpack → Hpack}
    (hf : ∀ hp : Hpack, f hp = { hp with
      state := (f hp).state, ctx.blk := (f hp).ctx.blk, ctx.res := (f hp).ctx.res }) :
    Keeps S J (modify f) := by
  intro hp h
  show J (f hp)
  rw [hf hp]
  exact hJ hp _ _ _ h

theorem hpiDecodeLoop (blk : Octets) (i : IntState) : Keeps S J (hpiDecodeLoop blk i) := by
  induction blk generalizing i with
  | nil => exact fun hp h => hJ hp { hp.state with hpi := i } [] .buf h
  | cons b blk ih =>
    intro hp h
    rw [Cashpack.hpiDecodeLoop]
    dsimp only
    generalize (if i.m ≤ 16 then _ else i.v : ℕ) = n
    split
    · exact hJ hp { hp.state with hpi := i } (b :: blk) .int h
    · split
      · exact ih _ hp h
      · exact hJ hp { hp.state with hpi := ⟨n, _, _⟩, bsy := false } blk hp.ctx.res h

include hS

theorem hpiDecode (pfx : ℕ) : Keeps S J (hpiDecode pfx) := by
  refine .bind (.assert _ (hS _ Stop.noConfusion)) fun _ => .bind .get fun hp => .ite (fun _ => ?_) fun _ => ?_
  · refine .bind (.assert _ (hS _ Stop.noConfusion)) fun _ => .bind (.assert _ (hS _ Stop.noConfusion)) fun _ => ?_
    exact hJ.hpiDecodeLoop _ _
  · split
    · exact .halt (hS _ Stop.noConfusion)
    · refine .bind (hJ.modify fun _ => rfl) fun _ => .ite (fun _ => .pure _) fun _ => ?_
      exact .bind (hJ.modify fun _ => rfl) fun _ => hJ.hpiDecodeLoop _ _

theorem hpackDecodeStringLen (evt : StrEvt) : Keeps S J (hpackDecodeStringLen evt) := by
  refine .bind .get fun hp => .bind (hJ.hpiDecode hS _) fun len => ?_
  refine .bind (hJ.modify fun _ => rfl) fun _ => ?_
  refine .bind (.when fun _ => hJ.modify fun _ => rfl) fun _ => ?_
  refine .bind (.when fun _ => hJ.expect _ _) fun _ => .when fun _ => ?_
  exact .bind .get fun hp => hJ.expect _ _

-- a string is only decoded through writes to the working buffer
variable (hcat : ∀ s, Keeps S J (hpdCat s))

include hcat

omit hS in
theorem hphDecodeChr (oct : HphOct) : Keeps S J (hphDecodeChr oct) := by
  unfold Cashpack.hphDecodeChr
  split
  · exact .bind (hcat [_]) fun _ => .bind (hJ.modify fun _ => rfl) fun _ => .pure _
  · exact .pure _

theorem hphDecodeLookupLoop (fuel : ℕ) (eos : Bool) :
    Keeps S J (hphDecodeLookupLoop fuel eos) := by
  induction fuel generalizing eos with
  | zero =>
    rw [Cashpack.hphDecodeLookupLoop]
    exact .halt (hS _ Stop.noConfusion)
  | succ fuel ih =>
    rw [Cashpack.hphDecodeLookupLoop]
    refine .bind .get fun hp => ?_
    dsimp only
    split
    · exact .halt (hS _ Stop.noConfusion)
    · refine .ite (fun _ => ?_) fun _ => .pure _
      split
      · exact .halt (hS _ Stop.noConfusion)
      · refine .bind (hJ.expect _ _) fun _ => .ite (fun _ => .pure _) fun _ => ?_
        refine .bind (hJ.modify fun _ => rfl) fun _ => ?_
        refine .bind (hJ.hphDecodeChr hcat _) fun eos => ?_
        exact .bind (hJ.modify fun _ => rfl) fun _ => ih eos

theorem hphDecodeLoop (strLen len : ℕ) (eos : Bool) : Keeps S J (hphDecodeLoop strLen len eos) := by
  induction strLen generalizing len eos with
  | zero => exact .pure eos
  | succ strLen ih =>
    refine .bind (hJ.expect _ _) fun _ => .bind .get fun hp => .bind (.assert _ (hS _ Stop.noConfusion)) fun _ => ?_
    split
    · exact .halt (hS _ Stop.noConfusion)
    · refine .bind (hJ.modify fun _ => rfl) fun _ => .bind ?_ fun eos => ih _ eos
      exact .bind .get fun hp => .bind (.assert _ (hS _ Stop.noConfusion)) fun _ =>
        hJ.hphDecodeLookupLoop hS hcat _ _

theorem hphDecode (len : ℕ) : Keeps S J (hphDecode len) := by
  refine .bind .get fun hp => .bind (.when fun _ => hJ.modify fun _ => rfl) fun _ => ?_
  refine .bind (hJ.hphDecodeLoop hS hcat _ _ _) fun eos => .bind (hJ.expect _ _) fun _ => ?_
  refine .bind (.bind .get fun hp => .ite (fun _ => ?_) fun _ => .assert _ (hS _ Stop.noConfusion)) fun _ => hcat [0]
  exact .bind (.assert _ (hS _ Stop.noConfusion)) fun _ => hJ.expect _ _

omit hS in
theorem hpackDecodeRawString (len : ℕ) : Keeps S J (hpackDecodeRawString len) := by
  refine .bind .get fun hp => .bind (hcat _) fun _ => .bind (.when fun _ => hcat [0]) fun _ => ?_
  exact .bind (hJ.modify fun _ => rfl) fun _ => .bind .get fun hp => hJ.expect _ _

/-- Decoding a string keeps what writing to the working buffer keeps. -/
theorem hpackDecodeString (evt : StrEvt) : Keeps S J (hpackDecodeString evt) := by
  refine .bind .get fun hp => .bind (hJ.expect _ _) fun _ => .bind (.assert _ (hS _ Stop.noConfusion)) fun _ => ?_
  refine .bind (.when fun _ => hJ.hpackDecodeStringLen hS evt) fun _ => .bind .get fun hp => ?_
  refine .bind (.assert _ (hS _ Stop.noConfusion)) fun _ => .ite (fun _ => hJ.hphDecode hS hcat _) fun _ => ?_
  exact .bind (.assert _ (hS _ Stop.noConfusion)) fun _ => hJ.hpackDecodeRawString hcat _

end StateFree

theorem stateFree_inv : StateFree (Hpack.Inv P Q) := fun _ _ _ _ h => h

theorem keeps_hpiDecode (pfx : ℕ) : Keeps (InBounds b) (Hpack.Inv P Q) (hpiDecode pfx) :=
  stateFree_inv.hpiDecode (fun _ h _ => h) pfx

theorem keeps_hpackDecodeString (evt : StrEvt) :
    Keeps (InBounds b) (Hpack.Inv P Fld.Ext) (hpackDecodeString evt) :=
  stateFree_inv.hpackDecodeString (fun _ h _ => h) keeps_hpdCat evt

theorem keeps_bufDiff (p : Ptr) : Keeps (InBounds b) (Hpack.Inv P Q) (bufDiff p) := by
  refine .bind .get fun hp => ?_
  split
  · exact .bind (keeps_assert _) fun _ => .pure _
  · exact keeps_fault

/-! ### Fields -/

section

-- reading an entry is the only access to the table
variable (hfield : ∀ idx, Keeps (InBounds b) (Hpack.Inv P Fld.Ext) (hptField idx))

include hfield

theorem keeps_hptDecode (idx : ℕ) : Keeps (InBounds b) (Hpack.Inv P Fld.Ext) (hptDecode idx) := by
  refine .bind (keeps_expect _ _) fun _ => .bind (hfield idx) fun hf => ?_
  refine .bind (keeps_assert _) fun _ => .bind (keeps_assert _) fun _ => ?_
  refine .bind (keeps_assert _) fun _ => .bind ?_ fun _ => .bind (keeps_hpdPuts _ _) fun _ => ?_
  · exact keeps_modify_fld fun hp => ⟨rfl, fun h => h.nam _ (Ptr.out_ext _)⟩
  · refine .bind ?_ fun _ => .bind (keeps_hpdPuts _ _) fun _ => keeps_hpdNotify
    exact keeps_modify_fld fun hp => ⟨rfl, fun h => h.val _ (Ptr.out_ext _)⟩

theorem keeps_hptDecodeName : Keeps (InBounds b) (Hpack.Inv P Fld.Ext) hptDecodeName := by
  refine .bind .get fun hp => .bind (keeps_assert _) fun _ => .bind (keeps_assert _) fun _ => ?_
  refine .bind (hfield _) fun hf => .bind (keeps_assert _) fun _ => ?_
  refine .bind (keeps_assert _) fun _ => .bind ?_ fun _ => keeps_hpdPuts _ _
  exact keeps_modify_fld fun hp => ⟨rfl, id⟩

omit hfield in
theorem keeps_hpackDecodeNewName : Keeps (InBounds b) (Hpack.Inv P Fld.Ext) hpackDecodeNewName := by
  refine .bind (keeps_hpackDecodeString _) fun _ => .bind .get fun hp => ?_
  exact .bind (keeps_bufDiff _) fun d => keeps_modify_fld fun hp => ⟨rfl, id⟩

theorem keeps_hpackDecodeFieldName :
    Keeps (InBounds b) (Hpack.Inv P Fld.Ext) hpackDecodeFieldName := by
  refine .bind .get fun hp => .bind (.ite (fun _ => ?_) fun _ => ?_) fun _ => ?_
  · exact keeps_hpackDecodeNewName
  · exact keeps_hptDecodeName hfield
  · refine .bind .get fun hp => .bind (keeps_hpvToken _ _) fun _ => ?_
    exact keeps_modify_fld fun hp => ⟨rfl, fun h => ⟨h.1, Ptr.out_ext _⟩⟩

omit hfield in
theorem keeps_hpackDecodeFieldValue :
    Keeps (InBounds b) (Hpack.Inv P Fld.Ext) hpackDecodeFieldValue := by
  refine .bind (keeps_hpackDecodeString _) fun _ => .bind .get fun hp => ?_
  refine .bind (keeps_bufDiff _) fun d => .bind (keeps_modify_fld fun hp => ⟨rfl, id⟩) fun _ => ?_
  refine .bind .get fun hp => .bind (keeps_hpvValue _ _) fun _ => .bind keeps_hpdNotify fun _ => ?_
  exact keeps_modify fun _ => ⟨rfl, rfl⟩

theorem keeps_hpackDecodeField : Keeps (InBounds b) (Hpack.Inv P Fld.Ext) hpackDecodeField := by
  refine .bind .get fun hp => .bind (.when fun _ => ?_) fun _ => ?_
  · exact keeps_modify_fld fun hp => ⟨rfl, fun h => ⟨Ptr.out_ext _, h.2⟩⟩
  · refine .bind .get fun hp => .bind (.when fun _ => ?_) fun _ => ?_
    · exact keeps_hpackDecodeFieldName hfield
    · exact keeps_hpackDecodeFieldValue

omit hfield in
theorem keeps_hpackDecoderField (idx : ℕ) :
    Keeps (InBounds b) (Hpack.Inv P Q) (hpackDecoderField idx) :=
  .bind .get fun _ => .bind (keeps_assert _) fun _ => keeps_hpcNotify _

omit hfield in
theorem keeps_hpackDecodeLiteralIdx (p : Hpp) :
    Keeps (InBounds b) (Hpack.Inv P Q) (hpackDecodeLiteralIdx p) := by
  refine .bind (keeps_hpiDecode _) fun idx => .bind (keeps_modify fun _ => ⟨rfl, rfl⟩) fun _ => ?_
  exact keeps_hpackDecoderField 0

theorem keeps_hpackDecodeIndexed : Keeps (InBounds b) (Hpack.Inv P Fld.Ext) hpackDecodeIndexed :=
  .bind (keeps_hpiDecode _) fun idx => .bind (keeps_hpackDecoderField idx) fun _ =>
    keeps_hptDecode hfield idx

theorem keeps_hpackDecodeDynamic
    (hindex : Keeps (InBounds b) (Hpack.Inv P Fld.Ext) hptIndex) :
    Keeps (InBounds b) (Hpack.Inv P Fld.Ext) hpackDecodeDynamic := by
  refine .bind .get fun hp => .bind (.when fun _ => ?_) fun _ => ?_
  · exact keeps_hpackDecodeLiteralIdx _
  · exact .bind (keeps_hpackDecodeField hfield) fun _ => hindex

theorem keeps_hpackDecodeLiteral : Keeps (InBounds b) (Hpack.Inv P Fld.Ext) hpackDecodeLiteral := by
  refine .bind .get fun hp => .bind (.when fun _ => ?_) fun _ => ?_
  · exact keeps_hpackDecodeLiteralIdx _
  · exact keeps_hpackDecodeField hfield

theorem keeps_hpackDecodeNever : Keeps (InBounds b) (Hpack.Inv P Fld.Ext) hpackDecodeNever := by
  refine .bind .get fun hp => .bind (.when fun _ => ?_) fun _ => ?_
  · exact .bind (keeps_hpackDecodeLiteralIdx _) fun _ => keeps_hpcNotify _
  · exact keeps_hpackDecodeField hfield

/-- A representation keeps what its insertions and its size updates keep. -/
theorem keeps_hpackDecodeAny {typ : UInt8}
    (hindex : Keeps (InBounds b) (Hpack.Inv P Fld.Ext) hptIndex)
    (hupdate : Keeps (InBounds b) (Hpack.Inv P Fld.Ext) hpackDecodeUpdate) :
    Keeps (InBounds b) (Hpack.Inv P Fld.Ext) (hpackDecodeAny typ) := by
  refine .ite (fun _ => keeps_hpackDecodeIndexed hfield) fun _ => ?_
  refine .ite (fun _ => keeps_hpackDecodeDynamic hfield hindex) fun _ => ?_
  refine .ite (fun _ => hupdate) fun _ => ?_
  exact .ite (fun _ => keeps_hpackDecodeNever hfield) fun _ => keeps_hpackDecodeLiteral hfield

end

/-! ### Invariants that do not depend on the table -/

/-- The table does not matter. -/
def TableFree (P : Core → Prop) : Prop := ∀ (c : Core) (t : Table), P c → P { c with table := t }

/-- Only the table is changed, as on its own. -/
theorem onTable_holds {f : Prog Table α} {hp : Hpack} {R : α → Table → Prop} {E : Table → Prop}
    {S : Stop → Prop} (h : (f hp.toTable).Holds R E S) :
    (onTable f hp).Holds (fun a hp' => R a hp'.toTable ∧ hp' = hp.withTable hp'.toTable)
      (fun hp' => E hp'.toTable ∧ hp' = hp.withTable hp'.toTable) S := by
  unfold onTable
  cases hf : f hp.toTable with
  | ok a t =>
    rw [hf] at h
    exact ⟨h, rfl⟩
  | err t =>
    rw [hf] at h
    exact ⟨h, rfl⟩
  | stop w =>
    rw [hf] at h
    exact h

theorem keeps_onTable (hP : TableFree P) (f : Prog Table α) :
    Keeps (InBounds False) (Hpack.Inv P Q) (onTable f) := by
  intro hp h
  unfold onTable
  split
  · exact ⟨hP _ _ h.1, h.2⟩
  · exact ⟨hP _ _ h.1, h.2⟩
  · exact fun h' => h'.elim

theorem keeps_hpackDecodeUpdate (hP : TableFree P)
    (hupd : ∀ c : Core, P c → P { c with canUpd := false }) :
    Keeps (InBounds False) (Hpack.Inv P Q) hpackDecodeUpdate := by
  refine .bind .get fun hp => .bind (keeps_expect _ _) fun _ => .bind (keeps_hpiDecode _) ?_
  refine fun n => .bind (.bind .get fun hp => .ite (fun _ => ?_) fun _ => ?_) fun _ => ?_
  · refine .bind (keeps_assert _) fun _ => .ite (fun _ => ?_) fun _ => ?_
    · exact .bind (keeps_expect _ _) fun _ => fun hp h => ⟨hP _ _ h.1, h.2⟩
    · refine .bind (keeps_expect _ _) fun _ => .bind (keeps_assert _) fun _ => fun hp h => ?_
      exact ⟨hP _ _ (hupd _ h.1), h.2⟩
  · exact fun hp h => ⟨hupd _ h.1, h.2⟩
  · refine .bind .get fun hp => .bind (keeps_expect _ _) fun _ => ?_
    refine .bind (fun hp h => ⟨hP _ _ h.1, h.2⟩) fun _ => .bind ?_ fun _ => keeps_hpcNotify _
    exact .bind (keeps_onTable hP _) fun evts => keeps_hpcNotifyAll evts

/-! ### Invariants that do not depend on the entries -/

/-- The sizes of a table, its length apart, and of its memory. -/
def Table.limits (t : Table) : Size × ℕ := ({ t.sz with len := 0 }, t.tbl.length)

/-- A function of the table that may change the entries and the length, nothing else. -/
abbrev KeepsLimits (s : Size × ℕ) {β : Type} (x : Prog Table β) : Prop :=
  Keeps (InBounds False) (fun t => t.limits = s) x

section

variable {s : Size × ℕ}

theorem limits_stop {w : Stop} : InBounds False w := fun h => h.elim

theorem limits_reads {β : Type} {x : Prog Table β} (hx : Reads x) : KeepsLimits s x :=
  hx.keeps fun _ => limits_stop

theorem limits_writeTbl (off : ℕ) (bs : Octets) : KeepsLimits s (writeTbl off bs) := by
  intro t h
  unfold writeTbl
  split
  · refine Eq.trans ?_ h
    simp [Table.limits, Octets.length_write ‹_›]
  · exact limits_stop

theorem limits_moveTbl (dst src n : ℕ) : KeepsLimits s (moveTbl dst src n) := by
  intro t h
  unfold moveTbl
  split
  · rename_i hle
    have hread := Octets.length_read src n t.tbl hle.2
    have hwrite : dst + (Octets.read src n t.tbl).length ≤ t.tbl.length := hread.symm ▸ hle.1
    refine Eq.trans ?_ h
    simp [Table.limits, Octets.move, Octets.length_write hwrite]
  · exact limits_stop

theorem limits_assert (c : Prop) [Decidable c] : KeepsLimits s (assert c) :=
  .assert c limits_stop

theorem limits_hptAdjustLoop (lim cnt len he n : ℕ) :
    KeepsLimits s (hptAdjustLoop lim cnt len he n) := by
  induction cnt generalizing len he n with
  | zero => exact .pure n
  | succ cnt ih =>
    refine .ite (fun _ => ?_) fun _ => .pure n
    refine .bind (limits_reads (reads_readEntry _)) fun tmp => .bind (limits_assert _) fun _ => ?_
    exact .bind (limits_assert _) fun _ => .bind (.modify fun _ h => h) fun _ => ih _ _ _

theorem limits_hptAdjust (len : ℕ) : KeepsLimits s (hptAdjust len) := by
  refine .bind .get fun t => .bind (limits_assert _) fun _ => .ite (fun _ => .pure _) fun _ => ?_
  refine .bind (limits_reads (reads_hptDynamic _)) fun he => .bind (limits_hptAdjustLoop _ _ _ _ _) fun n => ?_
  exact .bind .get fun t => .bind (limits_assert _) fun _ => .pure _

theorem limits_hptFit (len : ℕ) : KeepsLimits s (hptFit len) := by
  refine .bind .get fun t => .bind (limits_assert _) fun _ => .bind (limits_hptAdjust _) fun e => ?_
  refine .bind .get fun t => .ite (fun _ => ?_) fun _ => .pure _
  exact .bind (limits_assert _) fun _ => .bind (limits_assert _) fun _ => .pure _

theorem limits_hptMoveEvictedLoop (fuel nam namSz len tblPtr : ℕ) :
    KeepsLimits s (hptMoveEvictedLoop fuel nam namSz len tblPtr) := by
  induction fuel generalizing nam namSz len tblPtr with
  | zero => exact .halt limits_stop
  | succ fuel ih =>
    refine .ite (fun _ => .pure _) fun _ => .bind .get fun t => ?_
    refine .bind (limits_reads (reads_readTbl _ _)) fun tmp => .bind (limits_moveTbl _ _ _) fun _ => ?_
    exact .bind (limits_writeTbl _ _) fun _ => ih _ _ _ _

theorem limits_hptInsert (enc : Bool) (src : Src) (namSz : ℕ) (val : Octets) :
    KeepsLimits s (hptInsert enc src namSz val) := by
  have hshift : ∀ len, KeepsLimits s (hptShift len) := fun len =>
    .bind .get fun _ => .when fun _ => limits_moveTbl _ _ _
  have hovl : KeepsLimits s (hptOverlap src namSz) := by
    refine .bind .get fun t => ?_
    cases src with
    | ext nam => exact .pure _
    | tbl pos => exact .ite (fun _ => .bind (limits_assert _) fun _ => .pure _) fun _ => .pure _
  refine .bind hovl fun ovl => .bind (limits_hptFit _) fun r => ?_
  obtain ⟨fits, evts⟩ := r
  refine .ite (fun _ => .bind (limits_writeTbl _ _) fun _ => ?_) fun _ => .pure _
  have hend : KeepsLimits s (do
      hptFill namSz val
      modify fun hp => { hp with
        sz := { hp.sz with len := hp.sz.len + (hpackOverhead + namSz + val.length) }
        cnt := hp.cnt + 1 }
      pure (evts ++ [Event.index (hpackOverhead + namSz + val.length)])) := by
    refine .bind (.bind (limits_writeTbl _ _) fun _ => ?_) fun _ => .bind (.modify fun _ h => h) ?_
    · refine .bind (limits_writeTbl _ _) fun _ => .bind (limits_writeTbl _ _) fun _ => ?_
      exact .bind (limits_writeTbl _ _) fun _ => limits_writeTbl _ _
    · exact fun _ => .pure _
  split
  · refine .bind (limits_assert _) fun _ => .bind ?_ fun _ => hend
    refine .bind (limits_hptMoveEvictedLoop _ _ _ _ _) fun r => ?_
    exact .bind (limits_assert _) fun _ => .bind .get fun _ => limits_moveTbl _ _ _
  · exact .bind (hshift _) fun _ => .bind (limits_moveTbl _ _ _) fun _ => hend
  · exact .bind (hshift _) fun _ => .bind (limits_writeTbl _ _) fun _ => hend

end

/-- Of the table, only the sizes other than its length matter. -/
def EntriesFree (P : Core → Prop) : Prop :=
  ∀ (c : Core) (t : Table), t.limits = c.table.limits → P c → P { c with table := t }

theorem TableFree.entriesFree (hP : TableFree P) : EntriesFree P := fun c t _ h => hP c t h

theorem keeps_onTable_limits (hP : EntriesFree P) {f : Prog Table α}
    (hf : ∀ s, KeepsLimits s f) : Keeps (InBounds False) (Hpack.Inv P Q) (onTable f) := by
  intro hp h
  have hrun := hf hp.toTable.limits hp.toTable rfl
  unfold onTable
  cases hr : f hp.toTable with
  | ok a t =>
    rw [hr] at hrun
    exact ⟨hP hp.core t hrun h.1, h.2⟩
  | err t =>
    rw [hr] at hrun
    exact ⟨hP hp.core t hrun h.1, h.2⟩
  | stop w => exact limits_stop

theorem keeps_ctxHp : Keeps (InBounds b) (Hpack.Inv P Q) ctxHp :=
  .bind .get fun _ => .when fun _ => keeps_fault

theorem keeps_hptField (hP : EntriesFree P) (idx : ℕ) :
    Keeps (InBounds False) (Hpack.Inv P Q) (hptField idx) := by
  refine .bind (keeps_assert _) fun _ => .ite (fun _ => ?_) fun _ => ?_
  · split
    · exact .pure _
    · exact keeps_fault
  · refine .bind keeps_ctxHp fun _ => .bind .get fun hp => .ite (fun _ => .pure _) fun _ => ?_
    refine .bind (keeps_expect _ _) fun _ => ?_
    refine .bind (keeps_onTable_limits hP fun _ => limits_reads (reads_hptDynamic _)) fun he => ?_
    exact .bind (keeps_onTable_limits hP fun _ => limits_reads (reads_readEntry _)) fun _ => .pure _

theorem keeps_hptIndex (hP : EntriesFree P) :
    Keeps (InBounds False) (Hpack.Inv P Q) hptIndex := by
  refine .bind .get fun hp => .bind (keeps_assert _) fun _ => .bind (keeps_assert _) fun _ => ?_
  refine .bind (keeps_assert _) fun _ => .bind (keeps_assert _) fun _ => ?_
  refine .bind (keeps_assert _) fun _ => .bind (keeps_readStr _ _) fun r => ?_
  refine .bind (keeps_assert _) fun _ => .bind (keeps_readStr _ _) fun r' => ?_
  refine .bind (keeps_assert _) fun _ => .bind (keeps_assert _) fun _ => .bind ?_ fun evts =>
    keeps_hpcNotifyAll evts
  exact keeps_onTable_limits hP fun _ => limits_hptInsert _ _ _ _

end Cashpack
