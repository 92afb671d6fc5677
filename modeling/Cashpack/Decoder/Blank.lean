import Cashpack.Decoder.Failure
import Cashpack.Codec.Alike

/-!
# Decoders without a field

`hpack_decode` clears the field it assembles once a representation is decoded.  Between two
blocks a decoder has none left, whatever was done to it.

## Main results

* `decoder_blank` : in any run, a live decoder that is not in a block has no field.
-/

namespace Cashpack

open Prog

variable {hp : Hpack}

/-- A live decoder that is not in the middle of a block has no field. -/
def Hpack.Blank (hp : Hpack) : Prop :=
  hp.magic = .decoder → hp.ctx.res = .ok ∨ hp.ctx.res = .fld → hp.ctx.fld = Fld.zero

theorem Hpack.Blank.congr {hp' : Hpack} (h : hp.Blank) (hres : hp'.ctx.res = hp.ctx.res)
    (hfld : hp'.ctx.fld = hp.ctx.fld) (hm : hp'.magic = hp.magic ∨ hp'.magic = .defunct) :
    hp'.Blank := by
  intro hm' hres'
  rcases hm with hm | hm
  · rw [hfld]
    exact h (hm ▸ hm') (hres ▸ hres')
  · rw [hm] at hm'
    cases hm'

/-! ### Decoding -/

theorem hpackDecodeRep_blank (cut : Bool) (typ : UInt8) (hp : Hpack) :
    (hpackDecodeRep cut typ hp).Holds
      (fun r hp' => hp'.Blank ∧ (r = none → hp'.ctx.fld = Fld.zero)) (fun _ => False)
      fun _ => True := by
  rw [hpackDecodeRep, bind_apply, attempt_apply]
  cases hpackDecodeAny typ hp with
  | ok a hp' => exact ⟨fun _ _ => rfl, fun _ => rfl⟩
  | stop w => trivial
  | err hp' =>
    refine .assert_bind trivial fun _ => ?_
    rw [ite_run]
    split
    · refine ⟨fun _ hres => ?_, fun h => absurd h (Option.some_ne_none _)⟩
      rcases hres with hres | hres <;> cases hres
    · exact ⟨fun hm => Magic.noConfusion hm, fun h => absurd h (Option.some_ne_none _)⟩

theorem hpackDecodeTurn_blank (cut : Bool) (hblk : hp.ctx.blk ≠ []) :
    (hpackDecodeTurn cut hp).Holds
      (fun r hp' => hp'.Blank ∧ (r = none → hp'.ctx.fld = Fld.zero)) (fun _ => False)
      fun _ => True := by
  rw [hpackDecodeTurn, bind_apply, hpackDecodeTyp_eq hblk, Out.bind_ok, bind_apply, get_apply,
    Out.bind_ok, ite_run]
  split
  · exact ⟨fun hm => Magic.noConfusion hm, fun h => absurd h (Option.some_ne_none _)⟩
  rw [bind_apply, when_apply]
  split
  · rw [bind_apply, assert_apply]
    split
    · exact hpackDecodeRep_blank _ _ _
    · trivial
  · exact hpackDecodeRep_blank _ _ _

/-- The loop ends after a representation, or in the middle of one. -/
theorem hpackDecodeLoop_blank (cut : Bool) (n : ℕ) (h : hp.ctx.blk = [] → hp.ctx.fld = Fld.zero) :
    (hpackDecodeLoop cut n hp).Holds (fun _ hp' => hp'.Blank) (fun _ => False)
      fun _ => True := by
  induction n generalizing hp with
  | zero => trivial
  | succ n ih =>
    rw [hpackDecodeLoop, bind_apply, get_apply, Out.bind_ok, ite_run]
    split
    · rename_i hblk
      rw [hpackDecodeEnd, bind_apply, get_apply, Out.bind_ok]
      exact .assert_bind trivial fun _ _ _ => h hblk
    rename_i hblk
    rw [bind_apply]
    refine (hpackDecodeTurn_blank cut hblk).bind fun r hp' h' => ?_
    cases r with
    | none => exact ih fun _ => h'.2 rfl
    | some r => exact h'.1

theorem hpackDecode_blank (dec : Decoding) (h : hp.Blank) :
    (hpackDecode dec hp).Holds (fun _ hp' => hp'.Blank) (fun _ => False) fun _ => True := by
  rw [hpackDecode, bind_apply, get_apply, Out.bind_ok, ite_run]
  split
  · exact h
  rename_i hargs
  have hblk : dec.blk ≠ [] := by tauto
  rw [bind_apply]
  refine (hpackDecodeBegin_holds dec hp).attempt.bind fun r hp₁ h₁ => ?_
  cases r with
  | none =>
    obtain ⟨-, rfl⟩ := h₁
    intro _ hres
    rcases hres with hres | hres <;> cases hres
  | some _ => exact hpackDecodeLoop_blank _ _ fun hnil => absurd hnil hblk

theorem hpackDecodeFieldsNext_blank {dec : Decoding} {cur : Option (ℕ × ℕ)} (h : hp.Blank) :
    (hpackDecodeFieldsNext dec cur hp).Holds (fun _ hp' => hp'.Blank) (fun _ => False)
      fun _ => True := by
  have hnext : (hpackDecodeFieldsNext dec cur hp).Holds
      (fun r hp' => (r.1 = .fld ∧ hp' = hp ∧ hp.ctx.res = .fld) ∨
        (r.1 = .ok ∧ hp' = { hp with ctx.res := .ok } ∧ hp.ctx.res = .fld))
      (fun _ => False) fun _ => True := by
    have h₀ := hpackDecodeFieldsNext_holds dec cur hp
    by_cases hres : hp.ctx.res = .fld
    · exact h₀.mono (fun _ _ h => h.imp id fun h => ⟨h.1, h.2, hres⟩) (fun _ h => h) fun _ h => h
    · rw [hpackDecodeFieldsNext, bind_apply, get_apply, Out.bind_ok, assert_bind_neg hres]
      trivial
  refine hnext.mono (fun _ hp' h' => ?_) (fun _ h => h) fun _ h => h
  rcases h' with ⟨-, rfl, -⟩ | ⟨-, rfl, hres⟩
  · exact h
  · exact fun hm _ => h hm (Or.inr hres)

theorem hpackDecodeFields_blank (dec : Decoding) (cur : Option (ℕ × ℕ)) (h : hp.Blank) :
    (hpackDecodeFields dec cur hp).Holds (fun _ hp' => hp'.Blank) (fun _ => False)
      fun _ => True := by
  rw [hpackDecodeFields, bind_apply, get_apply, Out.bind_ok, ite_run]
  split
  · exact h
  refine .assert_bind trivial fun _ => ?_
  rw [ite_run]
  split
  · rw [ite_run]
    split
    · exact h.congr rfl rfl (Or.inr rfl)
    · rw [bind_apply]
      -- the result is kept in the context of a decoder that goes on
      have hend : (hpackDecode { dec with cb := true } hp).Holds
          (fun r hp' => hp'.Blank ∧ (r = .ok → hp'.magic = .decoder → hp'.ctx.res = .ok))
          (fun _ => False) fun _ => True := by
        have h₁ := hpackDecode_blank { dec with cb := true } h
        have h₂ := hpackDecode_cases { dec with cb := true } hp
        cases hr : hpackDecode { dec with cb := true } hp with
        | ok r hp' =>
          rw [hr] at h₁ h₂
          refine ⟨h₁, ?_⟩
          rintro rfl hm
          rcases h₂ with ⟨hr, -⟩ | ⟨-, hr, -⟩ | ⟨-, hdef | ⟨-, hr | hr⟩⟩
          · cases hr
          · cases hr
          · rw [hdef] at hm
            cases hm
          · exact hr.symm
          · cases hr
        | err hp' => rwa [hr] at h₁
        | stop w => trivial
      refine hend.bind fun r hp' h' => ?_
      rw [bind_apply, get_apply, Out.bind_ok]
      refine .assert_bind trivial fun _ => ?_
      rw [ite_run]
      split
      · exact h'.1
      · rename_i hr
        rw [bind_apply, modify_apply, Out.bind_ok]
        exact hpackDecodeFieldsNext_blank fun hm _ =>
          h'.1 hm (Or.inl (h'.2 (not_not.1 hr) hm))
  · exact hpackDecodeFieldsNext_blank h

/-! ### The other calls -/

/-- The block of `hp₀` was not touched, though the codec may be defunct. -/
def SameBlock (hp₀ hp : Hpack) : Prop :=
  hp.ctx.res = hp₀.ctx.res ∧ hp.ctx.rest = hp₀.ctx.rest ∧
    (hp.magic = hp₀.magic ∨ hp.magic = .defunct)

theorem SameBlock.refl (hp : Hpack) : SameBlock hp hp := ⟨rfl, rfl, Or.inl rfl⟩

theorem SameBlock.blank {hp₀ : Hpack} (h : SameBlock hp₀ hp) (h₀ : hp₀.Blank) : hp.Blank :=
  h₀.congr h.1 (congrArg Rest.fld h.2.1) h.2.2

/-- A function that leaves the block alone. -/
abbrev KeepsBlock {α : Type} (hp₀ : Hpack) (x : Cp α) : Prop :=
  Keeps (fun _ => True) (SameBlock hp₀) x

section

variable {hp₀ : Hpack}

theorem memFree_sameBlock : MemFree (SameBlock hp₀) := by
  rintro hp t a o m hm ⟨hres, hrest, hmagic⟩
  refine ⟨hres, hrest, ?_⟩
  rcases hm with rfl | rfl
  · exact hmagic
  · exact Or.inr rfl

theorem block_hpackSkip : KeepsBlock hp₀ hpackSkip := by
  refine .bind .get fun hp => .ite (fun _ => .pure _) fun _ => ?_
  exact .bind (.modify fun _ h => ⟨h.1, h.2.1, h.2.2⟩) fun _ => .pure _

end

/-- The context that `hpack_foreach` starts from. -/
def Hpack.cleared (hp : Hpack) : Hpack :=
  { hp with ctx := { Ctx.zero with hp := hp.addr, log := hp.ctx.log } }

/-- Listing the tables clears the context, and notifies events. -/
theorem hpackForeach_cleared (static dynamic : Bool) (hp : Hpack) :
    (hpackForeach static dynamic hp).Holds
      (fun r hp' => (r = .arg ∧ hp' = hp) ∨
        (r = .ok ∧ ∃ log, hp' = { hp.cleared with ctx.log := log }))
      (fun _ => True) fun _ => True := by
  rw [hpackForeach, bind_apply, get_apply, Out.bind_ok, ite_run]
  split
  · exact Or.inl ⟨rfl, rfl⟩
  -- what notifications keep
  have hnot : ∀ evts, Keeps (fun _ => True)
      (fun hp' => ∃ log, hp' = { hp.cleared with ctx.log := log }) (hpcNotifyAll evts) := by
    intro evts
    induction evts with
    | nil => exact .pure ()
    | cons e es ih =>
      refine .bind (fun hp' h' => ?_) fun _ => ih
      obtain ⟨log, rfl⟩ := h'
      exact ⟨log ++ [e], rfl⟩
  have hlist : Keeps (fun _ => True) (fun hp' => ∃ log, hp' = { hp.cleared with ctx.log := log })
      (do
        let evts ← onTable hptForeach
        hpcNotifyAll evts) :=
    .bind ((reads_onTable reads_hptForeach).keeps fun _ => trivial) hnot
  rw [bind_apply, modify_apply, Out.bind_ok, bind_apply]
  refine ((Keeps.when fun _ => hnot _) _ ⟨hp.ctx.log, rfl⟩).mono (fun _ _ h => h)
    (fun _ _ => trivial) (fun _ h => h) |>.bind fun _ hp₁ h₁ => ?_
  rw [bind_apply]
  exact ((Keeps.when fun _ => hlist) _ h₁).mono (fun _ _ h => h) (fun _ _ => trivial)
    (fun _ h => h) |>.bind fun _ hp₂ h₂ => Or.inr ⟨rfl, h₂⟩

/-! ### Runs -/

theorem blank_exec (op : DecOp) (h : hp.Blank) :
    (op.exec hp).Holds (fun _ hp' => hp'.Blank) (fun _ => True) fun _ => True := by
  cases op with
  | resize len re =>
    exact (memFree_sameBlock.hpackResize len re hp (.refl hp)).mono (fun _ _ hs => hs.blank h)
      (fun _ _ => trivial) fun _ h => h
  | trim re =>
    exact (memFree_sameBlock.hpackTrim re hp (.refl hp)).mono (fun _ _ hs => hs.blank h)
      (fun _ _ => trivial) fun _ h => h
  | decode dec =>
    exact (hpackDecode_blank dec h).mono (fun _ _ h => h) (fun _ _ => trivial) fun _ h => h
  | fields dec cur =>
    show ((hpackDecodeFields dec cur >>= fun r => pure r.1) hp).Holds _ _ _
    rw [bind_apply]
    exact ((hpackDecodeFields_blank dec cur h).mono (fun _ _ h => h) (fun _ _ => trivial)
      fun _ h => h).bind fun _ _ h => h
  | skip =>
    exact (block_hpackSkip hp (.refl hp)).mono (fun _ _ hs => hs.blank h)
      (fun _ _ => trivial) fun _ h => h
  | foreach static dynamic =>
    refine (hpackForeach_cleared static dynamic hp).mono (fun _ hp' h' => ?_)
      (fun _ _ => trivial) fun _ h => h
    rcases h' with ⟨-, rfl⟩ | ⟨-, log, rfl⟩
    · exact h
    · exact fun _ _ => rfl

/-- **A decoder between two blocks has no field left.** -/
theorem decoder_blank {hp₀ : Hpack} (hnew : NewDecoder hp₀)
    (hrun : Reach DecOp.exec (fun _ _ => True) hp₀ hp) : hp.Blank := by
  have h₀ : hp₀.Blank := by
    obtain ⟨mem, max, realloc, mon, blk, -, -, rfl⟩ := hnew.init
    exact fun _ _ => rfl
  refine hrun.invariant h₀ fun op hp r hp' h _ hr => ?_
  have h' := blank_exec op h
  rwa [hr] at h'

end Cashpack
