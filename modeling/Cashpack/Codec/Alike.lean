import Cashpack.Codec.Alloc
import Cashpack.Prog.Relate

/-!
# Codecs that behave alike

The events notified before a call do not matter to it, and neither does most of what the
previous block left in the context.  `Alike Q L L'` relates two codecs that differ by these: the
events notified since `L` and `L'` are the same, and `Q` holds of what is left (`Ctx.rest`).
A function is `Unaware` when it does the same on both.
-/

namespace Cashpack

open Prog

/-- The part of the context that belongs to the block being processed. -/
structure Rest where
  arg : Arg
  blk : Octets
  cur : Octets
  org : ℕ
  out : Octets
  bufLen : ℕ
  fld : Fld
  canUpd : Bool

/-- What a context has of the block being processed. -/
def Ctx.rest (ctx : Ctx) : Rest :=
  ⟨ctx.arg, ctx.blk, ctx.cur, ctx.org, ctx.out, ctx.bufLen, ctx.fld, ctx.canUpd⟩

/-- The codec with other events, and with the rest of another block. -/
def Hpack.relog (hp : Hpack) (log : List Event) (r : Rest) : Hpack :=
  { hp with ctx := ⟨hp.ctx.hp, r.arg, r.blk, r.cur, r.org, r.out, r.bufLen, r.fld, hp.ctx.res,
      r.canUpd, hp.ctx.tooBig, log⟩ }

variable {Q : Rest → Rest → Prop} {L L' : List Event} {α β : Type}

/-- Two codecs with the same events since `L` and `L'`, and rests in `Q`. -/
def Alike (Q : Rest → Rest → Prop) (L L' : List Event) (hp hp' : Hpack) : Prop :=
  ∃ (m : List Event) (r : Rest), hp.ctx.log = L ++ m ∧ Q hp.ctx.rest r ∧
    hp' = hp.relog (L' ++ m) r

theorem Alike.mono {Q' : Rest → Rest → Prop} {hp hp' : Hpack} (h : Alike Q L L' hp hp')
    (hQ : ∀ a b, Q a b → Q' a b) : Alike Q' L L' hp hp' := by
  obtain ⟨m, r, hm, hr, rfl⟩ := h
  exact ⟨m, r, hm, hQ _ _ hr, rfl⟩

/-- A function that does the same on codecs that are alike. -/
abbrev Unaware (Q : Rest → Rest → Prop) (L L' : List Event) (x : Cp α) : Prop :=
  Respects (Alike Q L L') (fun _ => False) x

namespace Unaware

/-- What is read is the same in both codecs. -/
theorem get_bind {f : Hpack → Cp β} (hf : ∀ hp log r, f (hp.relog log r) = f hp)
    (h : ∀ hp, Unaware Q L L' (f hp)) : Unaware Q L L' (get >>= f) := by
  refine Agree.get_bind fun hp hp' hr => ?_
  obtain ⟨m, r, hm, hQ, rfl⟩ := hr
  rw [hf hp (L' ++ m) r]
  exact h hp _ _ ⟨m, r, hm, hQ, rfl⟩

/-- What is changed is not the rest of the block. -/
theorem modify {f : Hpack → Hpack} (hf : ∀ hp log r, f (hp.relog log r) = (f hp).relog log r)
    (hk : ∀ hp, (f hp).ctx.log = hp.ctx.log ∧ (f hp).ctx.rest = hp.ctx.rest) :
    Unaware Q L L' (modify f) := by
  refine Agree.modify fun hp hp' hr => ?_
  obtain ⟨m, r, hm, hQ, rfl⟩ := hr
  exact ⟨m, r, (hk hp).1.trans hm, (hk hp).2 ▸ hQ, hf hp _ r⟩

end Unaware

/-! ### Notifications, memory and tables -/

theorem unaware_failWith (r : Res) : Unaware Q L L' (failWith r : Cp α) := by
  rintro hp _ ⟨m, r, hm, hQ, rfl⟩
  exact .err ⟨m, r, hm, hQ, rfl⟩

theorem unaware_expect (r : Res) (c : Prop) [Decidable c] : Unaware Q L L' (expect r c) := by
  intro hp hp' h
  rw [expect_apply, expect_apply]
  split
  · exact .ok () h
  · exact unaware_failWith (α := Unit) r hp hp' h

theorem unaware_hpcNotify (e : Event) : Unaware Q L L' (hpcNotify e) := by
  rintro hp _ ⟨m, r, hm, hQ, rfl⟩
  have hadd : (hpcNotify e (hp.relog (L' ++ m) r)) = if hp.ctx.tooBig then
      if hp.magic = .decoder then .ok () (hp.relog (L' ++ m) r) else .stop .abort
      else .ok () (hp.relog (L' ++ (m ++ [e])) r) := by
    rw [← List.append_assoc]
    rfl
  rw [hadd, hpcNotify]
  split
  · split
    · exact .ok () ⟨m, r, hm, hQ, rfl⟩
    · exact .stop .abort
  · exact .ok () ⟨m ++ [e], r, by simp [hm], hQ, rfl⟩

theorem unaware_hpcNotifyAll (es : List Event) : Unaware Q L L' (hpcNotifyAll es) := by
  induction es with
  | nil => exact .pure ()
  | cons e es ih => exact .bind (unaware_hpcNotify e) fun _ => ih

theorem unaware_readStr {p : Ptr} (n : ℕ)
    (h : (∀ off, p ≠ .out off) ∨ ∀ a b, Q a b → a.out = b.out) :
    Unaware Q L L' (readStr p n) := by
  rintro hp _ ⟨m, r, hm, hQ, rfl⟩
  have hstr : (hp.relog (L' ++ m) r).str p n = hp.str p n := by
    cases p with
    | out off =>
      have hout : hp.ctx.out = r.out := h.resolve_left (fun h => h off rfl) _ _ hQ
      simp only [Hpack.str, Hpack.at, Hpack.relog, hout]
    | _ => rfl
  rw [readStr, readStr, hstr]
  cases hp.str p n with
  | none => exact .stop .fault
  | some c => exact .ok c ⟨m, r, hm, hQ, rfl⟩

theorem unaware_onTable (f : Prog Table α) : Unaware Q L L' (onTable f) := by
  rintro hp _ ⟨m, r, hm, hQ, rfl⟩
  have ht : (hp.relog (L' ++ m) r).toTable = hp.toTable := rfl
  rw [onTable, onTable, ht]
  cases f hp.toTable with
  | ok a t => exact .ok a ⟨m, r, hm, hQ, rfl⟩
  | err t => exact .err ⟨m, r, hm, hQ, rfl⟩
  | stop w => exact .stop w

theorem unaware_hpvValue {str : Ptr} (len : ℕ)
    (h : (∀ off, str ≠ .out off) ∨ ∀ a b, Q a b → a.out = b.out) :
    Unaware Q L L' (hpvValue str len) :=
  .bind (.assert _) fun _ => .bind (unaware_readStr _ h) fun _ => .bind (unaware_expect _ _) fun _ =>
    .bind (.assert _) fun _ => .assert _

theorem unaware_hpvToken {str : Ptr} (len : ℕ)
    (h : (∀ off, str ≠ .out off) ∨ ∀ a b, Q a b → a.out = b.out) :
    Unaware Q L L' (hpvToken str len) := by
  refine .bind (.assert _) fun _ => .bind (.assert _) fun _ => ?_
  refine Unaware.get_bind (fun _ _ _ => rfl) fun hp => .ite (fun _ => .assert _) fun _ => ?_
  refine .bind (unaware_readStr _ h) fun r => .ite (fun _ => .ite (fun _ => .pure _) fun _ => ?_) ?_
  · exact unaware_failWith _
  · exact fun _ => .bind (unaware_expect _ _) fun _ => .assert _

theorem unaware_ctxHp : Unaware Q L L' ctxHp :=
  Unaware.get_bind (fun _ _ _ => rfl) fun _ => .when fun _ => .halt _

theorem unaware_hptField (idx : ℕ) : Unaware Q L L' (hptField idx) := by
  refine .bind (.assert _) fun _ => .ite (fun _ => ?_) fun _ => ?_
  · cases hptStatic[idx - 1]? with
    | some e => exact .pure _
    | none => exact .halt .fault
  · refine .bind unaware_ctxHp fun _ => ?_
    refine Unaware.get_bind (fun _ _ _ => rfl) fun hp => .ite (fun _ => .pure _) fun _ => ?_
    refine .bind (unaware_expect _ _) fun _ => .bind (unaware_onTable _) fun he => ?_
    exact .bind (unaware_onTable _) fun tmp => .pure _

theorem unaware_hpackAdjust (len : ℕ) : Unaware Q L L' (hpackAdjust len) :=
  .bind (unaware_onTable _) fun _ => unaware_hpcNotifyAll _

/-- The field to insert is the same, and its strings are. -/
theorem unaware_hptIndex (hfld : ∀ a b, Q a b → a.fld = b.fld)
    (hout : (∀ a b, Q a b → a.out = b.out) ∨
      ∀ a b, Q a b → ∀ off, a.fld.nam ≠ .out off ∧ a.fld.val ≠ .out off) :
    Unaware Q L L' hptIndex := by
  rintro hp _ ⟨m, ⟨arg, blk, cur, org, out, bufLen, fld, canUpd⟩, hm, hQ, rfl⟩
  obtain rfl : hp.ctx.fld = fld := hfld _ _ hQ
  have hnam : (∀ off, hp.ctx.fld.nam ≠ .out off) ∨ ∀ a b, Q a b → a.out = b.out :=
    hout.symm.imp (fun h off => (h _ _ hQ off).1) fun h => h
  have hval : (∀ off, hp.ctx.fld.val ≠ .out off) ∨ ∀ a b, Q a b → a.out = b.out :=
    hout.symm.imp (fun h off => (h _ _ hQ off).2) fun h => h
  have hbody : Unaware Q L L' (do
      assert (hp.ctx.fld.nam ≠ .null)
      assert (hp.ctx.fld.val ≠ .null)
      assert (0 < hp.ctx.fld.namSz)
      assert (hp.ctx.fld.namSz ≤ uint16Max)
      assert (hp.ctx.fld.valSz ≤ uint16Max)
      let nam ← readStr hp.ctx.fld.nam hp.ctx.fld.namSz
      assert (nam.2 = 0)
      let val ← readStr hp.ctx.fld.val hp.ctx.fld.valSz
      assert (val.2 = 0)
      assert (hp.ctx.fld.val.outside hp.sz.len = true)
      let evts ← onTable (hptInsert (hp.magic = .encoder) (Hpack.src hp.ctx.fld.nam nam.1)
        hp.ctx.fld.namSz val.1)
      hpcNotifyAll evts) := by
    refine .bind (.assert _) fun _ => .bind (.assert _) fun _ => .bind (.assert _) fun _ => ?_
    refine .bind (.assert _) fun _ => .bind (.assert _) fun _ => ?_
    refine .bind (unaware_readStr _ hnam) fun _ => .bind (.assert _) fun _ => ?_
    refine .bind (unaware_readStr _ hval) fun _ => .bind (.assert _) fun _ => ?_
    exact .bind (.assert _) fun _ => .bind (unaware_onTable _) fun _ => unaware_hpcNotifyAll _
  exact hbody hp _ ⟨m, _, hm, hQ, rfl⟩

/-! ### Memory management -/

theorem unaware_hpackRealloc (mem : ℕ) (re : Option Block) :
    Unaware Q L L' (hpackRealloc mem re) := by
  refine Unaware.get_bind (fun _ _ _ => rfl) fun hp => .ite (fun _ => .pure _) fun _ => ?_
  refine .bind (.assert _) fun _ => .ite (fun _ => .pure _) fun _ => ?_
  cases re with
  | none => exact .pure _
  | some blk =>
    exact .bind (Unaware.modify (fun _ _ _ => rfl) fun _ => ⟨rfl, rfl⟩) fun _ => .pure _

theorem unaware_hpackResizeMem (len max : ℕ) : Unaware Q L L' (hpackResizeMem len max) := by
  refine Unaware.get_bind (fun _ _ _ => rfl) fun hp => .ite (fun _ => ?_) fun _ => .pure _
  refine .ite (fun _ => ?_) fun _ => .ite (fun _ => ?_) fun _ => .pure _
  · exact .bind (.assert _) fun _ => .bind (.assert _) fun _ => .bind (.assert _) fun _ => .pure _
  · exact .bind (.assert _) fun _ => .pure _

theorem unaware_hpackResizeRecord (len : ℕ) : Unaware Q L L' (hpackResizeRecord len) := by
  refine Unaware.get_bind (fun _ _ _ => rfl) fun hp => .ite (fun _ => ?_) fun _ => ?_
  · exact .bind (.assert _) fun _ => Unaware.modify (fun _ _ _ => rfl) fun _ => ⟨rfl, rfl⟩
  · exact .bind (.assert _) fun _ => Unaware.modify (fun _ _ _ => rfl) fun _ => ⟨rfl, rfl⟩

theorem unaware_hpackResize (len : ℕ) (re : Option Block) :
    Unaware Q L L' (hpackResize len re) := by
  have hdefunct : Unaware Q L L' (modify fun hp => { hp with magic := .defunct }) :=
    Unaware.modify (fun _ _ _ => rfl) fun _ => ⟨rfl, rfl⟩
  refine Unaware.get_bind (fun _ _ _ => rfl) fun hp => .ite (fun _ => .pure _) fun _ => ?_
  refine .ite (fun _ => .bind (.assert _) fun _ => .pure _) fun _ => ?_
  refine .bind (unaware_hpackResizeMem _ _) fun mem => .ite (fun _ => ?_) fun _ => ?_
  · exact .bind hdefunct fun _ => .pure _
  · refine .bind (unaware_hpackRealloc _ _) fun res => .ite (fun _ => ?_) fun _ => ?_
    · exact .bind hdefunct fun _ => .pure _
    · exact .bind (unaware_hpackResizeRecord _) fun _ => .pure _

theorem unaware_hpackLimit (len : ℕ) (re : Option Block) : Unaware Q L L' (hpackLimit len re) := by
  refine Unaware.get_bind (fun _ _ _ => rfl) fun hp => .ite (fun _ => .pure _) fun _ => ?_
  refine .ite (fun _ => .bind (.assert _) fun _ => .pure _) fun _ => ?_
  refine .ite (fun _ => .pure _) fun _ => .bind (unaware_hpackRealloc _ _) fun res => ?_
  refine .ite (fun _ => .bind (.when fun _ => ?_) fun _ => .pure _) fun _ => ?_
  · exact Unaware.modify (fun _ _ _ => rfl) fun _ => ⟨rfl, rfl⟩
  · exact .bind (Unaware.modify (fun _ _ _ => rfl) fun _ => ⟨rfl, rfl⟩) fun _ => .pure _

theorem unaware_hpackTrim (re : Option Block) : Unaware Q L L' (hpackTrim re) := by
  refine Unaware.get_bind (fun _ _ _ => rfl) fun hp => .ite (fun _ => .pure _) fun _ => ?_
  refine .ite (fun _ => .pure _) fun _ => .ite (fun _ => .bind (.assert _) fun _ => .pure _) ?_
  refine fun _ => .bind (.assert _) fun _ => .ite (fun _ => ?_) fun _ => .pure _
  cases re with
  | none => exact .pure _
  | some blk =>
    exact .bind (Unaware.modify (fun _ _ _ => rfl) fun _ => ⟨rfl, rfl⟩) fun _ => .pure _

theorem unaware_hpackSkip : Unaware Q L L' hpackSkip := by
  refine Unaware.get_bind (fun _ _ _ => rfl) fun hp => .ite (fun _ => .pure _) fun _ => ?_
  exact .bind (Unaware.modify (fun _ _ _ => rfl) fun _ => ⟨rfl, rfl⟩) fun _ => .pure _

end Cashpack
