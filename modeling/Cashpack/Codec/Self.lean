import Cashpack.Decoder.Blank
import Cashpack.Encoder.Frame
import Cashpack.Search.Dynamic

/-!
# The self reference of a codec

The table operations find the codec through its context, which holds its address (`Own`).
Reallocating and listing the tables restore that address; `hpack_trim` does not, so it has to
leave the codec where it is.

## Main results

* `hpackTrim_own` : when a trim breaks the self reference.
* `self_reference` : in every run in which trims leave the codec in place, the context points
  back to it.
-/

namespace Cashpack

open Prog

variable {hp : Hpack}

/-! ### Moves -/

/-- `hpack_trim` gives memory back when it is called on this codec. -/
def Hpack.Trims (hp : Hpack) : Prop :=
  hp.realloc = true ∧ (hp.magic = .decoder ∨ hp.magic = .encoder) ∧ hp.ctx.res = .ok ∧
    (if hp.magic = .encoder then hp.sz.limit else hp.sz.max) < hp.sz.mem

/-- `realloc` hands the same block back to `hpack_trim`, if it is called. -/
def Unmoved (re : Option Block) (hp : Hpack) : Prop :=
  hp.Trims → ∀ blk, re = some blk → blk.addr = hp.addr

/-- A trim keeps the self reference exactly when it leaves the codec where it is. -/
theorem hpackTrim_own (re : Option Block) (h : hp.ctx.hp = hp.addr) :
    (hpackTrim re hp).Holds (fun _ hp' => hp'.ctx.hp = hp'.addr ↔ Unmoved re hp)
      (fun _ => False) fun _ => True := by
  unfold hpackTrim Unmoved Hpack.Trims
  rw [bind_apply, get_apply, Out.bind_ok]
  generalize (if hp.magic = .encoder then hp.sz.limit else hp.sz.max) = max
  rw [ite_run]
  split
  · rename_i hrea
    exact ⟨fun _ ht => absurd ht.1 (by simp [hrea]), fun _ => h⟩
  rename_i hrea
  rw [ite_run]
  split
  · rename_i hm
    exact ⟨fun _ ht => (ht.2.1.elim hm.1 hm.2).elim, fun _ => h⟩
  rename_i hm
  rw [ite_run]
  split
  · rename_i hres
    refine .assert_bind trivial fun _ => ?_
    exact ⟨fun _ ht => absurd ht.2.2.1 hres, fun _ => h⟩
  rename_i hres
  refine .assert_bind trivial fun _ => ?_
  rw [ite_run]
  split
  swap
  · rename_i hmem
    exact ⟨fun _ ht => absurd ht.2.2.2 hmem, fun _ => h⟩
  rename_i hmem
  have hlive : hp.magic = .decoder ∨ hp.magic = .encoder := by
    by_contra hno
    exact hm ⟨fun h => hno (Or.inl h), fun h => hno (Or.inr h)⟩
  cases re with
  | none => exact ⟨fun _ _ blk hblk => absurd hblk.symm (Option.some_ne_none blk), fun _ => h⟩
  | some blk =>
    -- the context still holds the old address
    show hp.ctx.hp = blk.addr ↔ _
    refine ⟨fun heq _ blk' hblk => ?_, fun hput => ?_⟩
    · obtain rfl := Option.some.inj hblk
      rw [← heq, h]
    · rw [h, hput ⟨by simpa using hrea, hlive, not_not.1 hres, hmem⟩ blk rfl]

theorem own_hpackRealloc (mem : ℕ) (re : Option Block) :
    Keeps (fun _ => True) (fun hp => hp.ctx.hp = hp.addr) (hpackRealloc mem re) := by
  refine .bind .get fun hp => .ite (fun _ => .pure _) fun _ => ?_
  refine .bind (.assert _ trivial) fun _ => .ite (fun _ => .pure _) fun _ => ?_
  cases re with
  | none => exact .pure _
  | some blk => exact .bind (.modify fun _ _ => rfl) fun _ => .pure _

theorem own_hpackResize (len : ℕ) (re : Option Block) :
    Keeps (fun _ => True) (fun hp => hp.ctx.hp = hp.addr) (hpackResize len re) := by
  refine .bind .get fun hp => .ite (fun _ => .pure _) fun _ => ?_
  refine .ite (fun _ => .bind (.assert _ trivial) fun _ => .pure _) fun _ => ?_
  refine .bind ((reads_hpackResizeMem _ _).keeps fun _ => trivial) fun mem => ?_
  refine .ite (fun _ => .bind (.modify fun _ h => h) fun _ => .pure _) fun _ => ?_
  refine .bind (own_hpackRealloc _ _) fun res => .ite (fun _ => ?_) fun _ => ?_
  · exact .bind (.modify fun _ h => h) fun _ => .pure _
  · refine .bind (.bind .get fun hp => .ite (fun _ => ?_) fun _ => ?_) fun _ => .pure _
    · exact .bind (.assert _ trivial) fun _ => .modify fun _ h => h
    · exact .bind (.assert _ trivial) fun _ => .modify fun _ h => h

theorem own_hpackLimit (len : ℕ) (re : Option Block) :
    Keeps (fun _ => True) (fun hp => hp.ctx.hp = hp.addr) (hpackLimit len re) := by
  refine .bind .get fun hp => .ite (fun _ => .pure _) fun _ => ?_
  refine .ite (fun _ => .bind (.assert _ trivial) fun _ => .pure _) fun _ => ?_
  refine .ite (fun _ => .pure _) fun _ => .bind (own_hpackRealloc _ _) fun res => ?_
  refine .ite (fun _ => .bind (.when fun _ => .modify fun _ h => h) fun _ => .pure _) fun _ => ?_
  exact .bind (.modify fun _ h => h) fun _ => .pure _

/-- Listing the tables writes the address again. -/
theorem hpackForeach_own (static dynamic : Bool) (h : hp.ctx.hp = hp.addr) :
    (hpackForeach static dynamic hp).Holds (fun _ hp' => hp'.ctx.hp = hp'.addr) (fun _ => True)
      fun _ => True := by
  refine (hpackForeach_cleared static dynamic hp).mono ?_ (fun _ h => h) fun _ h => h
  rintro r hp' (⟨-, rfl⟩ | ⟨-, log, rfl⟩)
  · exact h
  · rfl

/-! ### Runs -/

/-- A trim of this decoder leaves it where it is. -/
def DecOp.Unmoved : DecOp → Hpack → Prop
  | .trim re, hp => Cashpack.Unmoved re hp
  | _, _ => True

/-- A trim of this encoder leaves it where it is. -/
def EncOp.Unmoved : EncOp → Hpack → Prop
  | .trim re, hp => Cashpack.Unmoved re hp
  | _, _ => True

theorem DecOp.own {op : DecOp} (hext : hp.ctx.fld.Ext) (h : hp.ctx.hp = hp.addr)
    (hop : op.Unmoved hp) :
    (op.exec hp).Holds (fun _ hp' => hp'.ctx.hp = hp'.addr) (fun _ => True) fun _ => True := by
  have hinv : Hpack.Inv Own Fld.Ext hp := ⟨h, hext⟩
  cases op with
  | resize len re =>
    exact (own_hpackResize len re hp h).mono (fun _ _ h => h) (fun _ _ => trivial) fun _ h => h
  | trim re =>
    exact (hpackTrim_own re h).mono (fun _ _ h' => h'.2 hop) (fun _ h => h.elim) fun _ h => h
  | decode dec =>
    exact (keeps_hpackDecode stable_own (keeps_hptField tableFree_own.entriesFree)
      (keeps_hptIndex tableFree_own.entriesFree) (keeps_hpackDecodeUpdate tableFree_own fun _ h => h)
      dec hp hinv).mono (fun _ _ h => h.1) (fun _ _ => trivial) fun _ _ => trivial
  | fields dec cur =>
    exact ((keeps_hpackDecodeFields stable_own (keeps_hptField tableFree_own.entriesFree)
      (keeps_hptIndex tableFree_own.entriesFree) (keeps_hpackDecodeUpdate tableFree_own fun _ h => h)
      dec cur).bind (fun _ => .pure _) hp hinv).mono (fun _ _ h => h.1) (fun _ _ => trivial)
      fun _ _ => trivial
  | skip =>
    show (hpackSkip hp).Holds _ _ _
    rw [hpackSkip, bind_apply, get_apply, Out.bind_ok, ite_run]
    split
    · exact h
    · exact h
  | foreach static dynamic => exact hpackForeach_own static dynamic h

theorem callFree_own : CallFree Own := fun _ _ _ _ h => h

theorem EncOp.own {op : EncOp} (h : hp.ctx.hp = hp.addr) (hop : op.Unmoved hp) :
    (op.exec hp).Holds (fun _ hp' => hp'.ctx.hp = hp'.addr) (fun _ => True) fun _ => True := by
  cases op with
  | limit len re =>
    exact (own_hpackLimit len re hp h).mono (fun _ _ h => h) (fun _ _ => trivial) fun _ h => h
  | resize len re =>
    exact (own_hpackResize len re hp h).mono (fun _ _ h => h) (fun _ _ => trivial) fun _ h => h
  | trim re =>
    exact (hpackTrim_own re h).mono (fun _ _ h' => h'.2 hop) (fun _ h => h.elim) fun _ h => h
  | encode enc =>
    have hkeeps := (keeps_hpackEncode callFree_own.tableFree.entriesFree (fun _ h => h)
      (keeps_hpackEncodeBegin callFree_own) (keeps_hpackEncodeResize callFree_own)
      (keeps_hpackEncodeLimit callFree_own) (fun _ h => h) enc).bind fun r => .pure r.1
    exact (hkeeps hp ⟨h, trivial⟩).mono (fun _ _ h => h.1) (fun _ _ => trivial) fun _ _ => trivial
  | foreach static dynamic => exact hpackForeach_own static dynamic h

/-- A codec in a state it reaches without being moved by a trim. -/
inductive InPlace (hp : Hpack) : Prop
  | decoder {hp₀ : Hpack} (new : NewDecoder hp₀) (run : Reach DecOp.exec DecOp.Unmoved hp₀ hp) :
      InPlace hp
  | encoder {max : ℕ} {lim : ℤ} {hp₀ : Hpack} (new : NewEncoder max lim hp₀)
      (run : Reach EncOp.exec EncOp.Unmoved hp₀ hp) : InPlace hp

theorem InPlace.own (h : InPlace hp) : hp.ctx.hp = hp.addr := by
  cases h with
  | @decoder hp₀ new run =>
    have h₀ : hp₀.Decoder False ∧ hp₀.ctx.hp = hp₀.addr := by
      refine ⟨decoder_new new, ?_⟩
      obtain ⟨mem, max, realloc, mon, blk, -, -, rfl⟩ := new.init
      rfl
    have hkeep : ∀ op (hp : Hpack) r hp', hp.Decoder False ∧ hp.ctx.hp = hp.addr →
        DecOp.Unmoved op hp → op.exec hp = .ok r hp' →
        hp'.Decoder False ∧ hp'.ctx.hp = hp'.addr := by
      intro op hp r hp' h hop hr
      have hfits := fits_exec op h.1 False.elim
      have hown := op.own h.1.2 h.2 hop
      rw [hr] at hfits hown
      exact ⟨hfits, hown⟩
    exact (run.invariant h₀ hkeep).2
  | encoder new run =>
    have hkeep : ∀ op (hp : Hpack) r hp', hp.ctx.hp = hp.addr → EncOp.Unmoved op hp →
        op.exec hp = .ok r hp' → hp'.ctx.hp = hp'.addr := by
      intro op hp r hp' h hop hr
      have hown := op.own h hop
      rwa [hr] at hown
    obtain ⟨realloc, blk, -, -, rfl⟩ := new.init
    exact run.invariant (I := fun hp => hp.ctx.hp = hp.addr) rfl hkeep

/-- **The context points back to its codec** in every state reached by calls among which no trim
moves the codec, so that table operations find it; and a trim from such a state keeps the self
reference only if it does not move the codec. -/
theorem self_reference (h : InPlace hp) :
    hp.ctx.hp = hp.addr ∧ ctxHp hp = .ok () hp ∧
      ∀ re r hp', hpackTrim re hp = .ok r hp' → (hp'.ctx.hp = hp'.addr ↔ Unmoved re hp) := by
  refine ⟨h.own, ctxHp_eq h.own, fun re r hp' hrun => ?_⟩
  have htrim := hpackTrim_own re h.own
  rwa [hrun] at htrim

theorem roomyDecoder_new :
    hpackDecoder 64 128 ⟨some zeroBlock, true⟩ () = .ok (some roomyDecoder) () := rfl

theorem self_reference_resized : resizedDecoder.ctx.hp = resizedDecoder.addr :=
  (self_reference (.decoder (.decoder smallDecoder_new) (.step (.refl _)
    (show DecOp.Unmoved (.resize 128 (some zeroBlock)) smallDecoder from trivial)
    smallDecoder_resize))).1

/-- A trim moves the codec: its context points to where it was, and the next block aborts. -/
theorem self_reference_false :
    ∃ hp : Hpack, Codec hp ∧ hp.ctx.hp ≠ hp.addr ∧
      hpackDecode ⟨[0x82], 1, 100, true, false⟩ hp = .stop .abort := by
  refine ⟨movedDecoder, .decoder (.decoder roomyDecoder_new) (.step (.refl _) trivial
    (show (DecOp.trim (some ⟨2, fun _ => 0⟩)).exec roomyDecoder = .ok .ok movedDecoder from ?_))
    rfl, by decide, ?_⟩
  · decide +kernel
  · decide +kernel

end Cashpack
