import Cashpack.Table.Refine

/-!
# Runs of a decoder

The calls an application can make on a decoder, and the states they reach.  An invariant of
the table and the sizes that insertions and size updates keep is kept by `hpack_decode` as a
whole (`keeps_hpackDecode`).
-/

namespace Cashpack

open Prog Fifo

/-- A call on a decoder, with what `realloc` hands back where it is used. -/
inductive DecOp
  | resize (len : ℕ) (re : Option Block)
  | trim (re : Option Block)
  | decode (dec : Decoding)
  | fields (dec : Decoding) (cur : Option (ℕ × ℕ))
  | skip
  | foreach (static dynamic : Bool)

/-- Make a call. -/
def DecOp.exec : DecOp → Cp Res
  | .resize len re => hpackResize len re
  | .trim re => hpackTrim re
  | .decode dec => hpackDecode dec
  | .fields dec cur => do
    let r ← hpackDecodeFields dec cur
    pure r.1
  | .skip => hpackSkip
  | .foreach static dynamic => hpackForeach static dynamic

/-- A codec that `hpack_decoder` or `hpack_monitor` just returned. -/
inductive NewDecoder (hp : Hpack) : Prop
  | decoder {max : ℕ} {rsz : ℤ} {ha : Alloc}
    (new : hpackDecoder max rsz ha () = .ok (some hp) ()) : NewDecoder hp
  | monitor {max : ℕ} {rsz : ℤ} {ha : Alloc}
    (new : hpackMonitor max rsz ha () = .ok (some hp) ()) : NewDecoder hp

/-- A new decoder is an initialised block of memory; a monitor differs by a flag. -/
theorem NewDecoder.init {hp : Hpack} (h : NewDecoder hp) :
    ∃ (mem max : ℕ) (realloc mon : Bool) (blk : Block), max ≤ mem ∧ mem ≤ uint16Max ∧
      hp = { Hpack.init .decoder mem max realloc blk with mon := mon } := by
  cases h with
  | @decoder max rsz ha new =>
    obtain ⟨-, hmem, hle, blk, rfl⟩ := hpackNew_some new
    exact ⟨_, max, ha.realloc, false, blk, hle.resolve_right Magic.noConfusion, hmem, rfl⟩
  | @monitor max rsz ha new =>
    rw [hpackMonitor, bind_apply] at new
    cases hdec : hpackDecoder max rsz ha () with
    | ok hp' _ =>
      rw [hdec, Out.bind_ok, pure_apply, Out.ok.injEq, Option.map_eq_some_iff] at new
      obtain ⟨⟨hp'', rfl, rfl⟩, -⟩ := new
      obtain ⟨-, hmem, hle, blk, rfl⟩ := hpackNew_some hdec
      exact ⟨_, max, ha.realloc, true, blk, hle.resolve_right Magic.noConfusion, hmem, rfl⟩
    | err _ =>
      rw [hdec] at new
      cases new
    | stop w =>
      rw [hdec] at new
      cases new

/-! ### What a call of `hpack_decode` keeps -/

/-- What `hpack_decode` changes apart from decoding representations does not matter. -/
def Stable (P : Core → Prop) : Prop :=
  ∀ (c : Core) (m : Magic) (a : Arg) (u : Bool), (m = c.magic ∨ m = .defunct) → P c →
    P { c with magic := m, arg := a, canUpd := u }

/-- An invariant on the table of a codec that is not an encoder. -/
def OnDecoder (P : Table → Prop) (c : Core) : Prop := P c.table ∧ c.magic ≠ .encoder

theorem stable_onDecoder (P : Table → Prop) : Stable (OnDecoder P) := by
  rintro c m a u hm ⟨hP, hc⟩
  refine ⟨hP, ?_⟩
  rcases hm with rfl | rfl
  · exact hc
  · exact Magic.noConfusion

variable {b : Prop} {P : Core → Prop} {Q : Fld → Prop}

theorem keeps_modify_stable (hP : Stable P) {f : Hpack → Hpack}
    (hf : ∀ hp : Hpack, (f hp).core = { hp.core with
      magic := (f hp).magic, arg := (f hp).ctx.arg, canUpd := (f hp).ctx.canUpd } ∧
      (f hp).ctx.fld = hp.ctx.fld)
    (hm : ∀ hp, (f hp).magic = hp.magic ∨ (f hp).magic = .defunct) :
    Keeps (InBounds b) (Hpack.Inv P Q) (modify f) := by
  intro hp h
  refine ⟨?_, (hf hp).2.symm ▸ h.2⟩
  rw [(hf hp).1]
  exact hP _ _ _ _ (hm hp) h.1

section

variable (hP : Stable P)
  (hfield : ∀ idx, Keeps (InBounds b) (Hpack.Inv P Fld.Ext) (hptField idx))
  (hindex : Keeps (InBounds b) (Hpack.Inv P Fld.Ext) hptIndex)
  (hupdate : Keeps (InBounds b) (Hpack.Inv P Fld.Ext) hpackDecodeUpdate)

include hP hfield hindex hupdate

theorem keeps_hpackDecodeRep (cut : Bool) (typ : UInt8) :
    Keeps (InBounds b) (Hpack.Inv P Fld.Ext) (hpackDecodeRep cut typ) := by
  refine .bind (.attempt (keeps_hpackDecodeAny hfield hindex hupdate)) fun r => ?_
  cases r with
  | some _ =>
    refine .bind (keeps_modify_fld fun _ => ⟨rfl, fun _ => ?_⟩) fun _ => .pure _
    exact ⟨fun _ => Ptr.noConfusion, fun _ => Ptr.noConfusion⟩
  | none =>
    refine .bind .get fun hp => .bind (keeps_assert _) fun _ => .ite (fun _ => ?_) fun _ => ?_
    · exact .bind (keeps_modify fun _ => ⟨rfl, rfl⟩) fun _ => .pure _
    · exact .bind (keeps_modify_stable hP (fun _ => ⟨rfl, rfl⟩) fun _ => Or.inr rfl) fun _ => .pure _

theorem keeps_hpackDecodeTurn (cut : Bool) :
    Keeps (InBounds b) (Hpack.Inv P Fld.Ext) (hpackDecodeTurn cut) := by
  refine .bind (.bind .get fun hp => .when fun _ => ?_) fun _ => .bind .get fun hp => ?_
  · split
    · exact keeps_fault
    · exact keeps_modify fun _ => ⟨rfl, rfl⟩
  · refine .ite (fun _ => ?_) fun _ => .bind (.when fun _ => ?_) fun _ => ?_
    · exact .bind (keeps_modify_stable hP (fun _ => ⟨rfl, rfl⟩) fun _ => Or.inr rfl) fun _ => .pure _
    · refine .bind (keeps_assert _) fun _ => ?_
      exact keeps_modify_stable hP (fun _ => ⟨rfl, rfl⟩) fun _ => Or.inl rfl
    · exact keeps_hpackDecodeRep hP hfield hindex hupdate _ _

theorem keeps_hpackDecodeLoop (cut : Bool) (fuel : ℕ) :
    Keeps (InBounds b) (Hpack.Inv P Fld.Ext) (hpackDecodeLoop cut fuel) := by
  induction fuel with
  | zero => exact keeps_spin
  | succ fuel ih =>
    refine .bind .get fun hp => .ite (fun _ => ?_) fun _ => ?_
    · exact .bind .get fun hp => .bind (keeps_assert _) fun _ => .pure _
    · refine .bind (keeps_hpackDecodeTurn hP hfield hindex hupdate cut) fun r => ?_
      cases r with
      | some r => exact .pure r
      | none => exact ih

theorem keeps_hpackDecode (dec : Decoding) :
    Keeps (InBounds b) (Hpack.Inv P Fld.Ext) (hpackDecode dec) := by
  refine .bind .get fun hp => .ite (fun _ => .pure _) fun _ => ?_
  refine .bind (.attempt (.bind .get fun hp => ?_)) fun r => ?_
  · refine .bind (keeps_assert _) fun _ => .ite (fun _ => ?_) fun _ => ?_
    · exact .bind (keeps_assert _) fun _ => keeps_expect _ _
    · refine .bind (keeps_assert _) fun _ => .bind (keeps_expect _ _) fun _ => ?_
      exact keeps_modify_stable hP (fun _ => ⟨rfl, rfl⟩) fun _ => Or.inl rfl
  · cases r with
    | none => exact .pure _
    | some _ =>
      refine .bind (keeps_modify_stable hP (fun _ => ⟨rfl, rfl⟩) fun _ => Or.inl rfl) fun _ => ?_
      exact keeps_hpackDecodeLoop hP hfield hindex hupdate _ _

theorem keeps_hpackDecodeFields (dec : Decoding) (cur : Option (ℕ × ℕ)) :
    Keeps (InBounds b) (Hpack.Inv P Fld.Ext) (hpackDecodeFields dec cur) := by
  have hread : ∀ p, Keeps (InBounds b) (Hpack.Inv P Fld.Ext) (readBuf p) := by
    intro p hp h
    unfold readBuf
    dsimp only
    split
    · exact h
    · exact InBounds.fault
  have hnext : Keeps (InBounds b) (Hpack.Inv P Fld.Ext) (hpackDecodeFieldsNext dec cur) := by
    refine .bind .get fun hp => .bind (keeps_assert _) fun _ => .bind ?_ fun nam => ?_
    · unfold hpackDecodeFieldsNam
      split
      · exact .pure _
      · refine .bind (hread _) fun s => .bind .get fun hp => ?_
        exact .bind (keeps_assert _) fun _ => .pure _
    · refine .ite (fun _ => ?_) fun _ => .bind (hread _) fun s => ?_
      · exact .bind (keeps_modify fun _ => ⟨rfl, rfl⟩) fun _ => .pure _
      · exact .bind (keeps_assert _) fun _ => .bind (keeps_assert _) fun _ => .pure _
  refine .bind .get fun hp => .ite (fun _ => .pure _) fun _ => .bind (keeps_assert _) fun _ => ?_
  refine .ite (fun _ => .ite (fun _ => ?_) fun _ => ?_) fun _ => hnext
  · exact .bind (keeps_modify_stable hP (fun _ => ⟨rfl, rfl⟩) fun _ => Or.inr rfl) fun _ => .pure _
  · refine .bind (keeps_hpackDecode hP hfield hindex hupdate _) fun r => .bind .get fun hp' => ?_
    refine .bind (keeps_assert _) fun _ => .ite (fun _ => .pure _) fun _ => ?_
    exact .bind (keeps_modify fun _ => ⟨rfl, rfl⟩) fun _ => hnext

end

end Cashpack
