import Cashpack.Codec.Reads

/-!
# Functions that do not look at the block

Most functions of the decoder work on the field being assembled and on the tables, without a
look at the block, at the decoding state or at the events notified before.  `Blind x` says so:
whatever these are replaced with (`Hpack.reframe`), `x` does the same and leaves them alone, but
for the events it adds.
-/

namespace Cashpack

open Prog

/-! ### Table functions do not fail -/

theorem noFail_writeTbl (off : ℕ) (bs : Octets) : NoFail (writeTbl off bs) := by
  intro t t'
  unfold writeTbl
  split
  · exact Out.ok_ne_err _ _ _
  · exact Out.stop_ne_err _ _

theorem noFail_moveTbl (dst src n : ℕ) : NoFail (moveTbl dst src n) := by
  intro t t'
  unfold moveTbl
  split
  · exact Out.ok_ne_err _ _ _
  · exact Out.stop_ne_err _ _

theorem noFail_hptAdjust (len : ℕ) : NoFail (hptAdjust len) := by
  have hloop : ∀ lim cnt len he n, NoFail (hptAdjustLoop lim cnt len he n) := by
    intro lim cnt
    induction cnt with
    | zero => exact fun _ _ _ => .pure _
    | succ cnt ih =>
      intro len he n
      refine .ite (.bind ((reads_readEntry _).noFail) fun _ => .bind (.assert _) fun _ => ?_) (.pure _)
      exact .bind (.assert _) fun _ => .bind (.modify _) fun _ => ih _ _ _
  refine .bind .get fun _ => .bind (.assert _) fun _ => .ite (.pure _) ?_
  refine .bind ((reads_hptDynamic _).noFail) fun _ => .bind (hloop _ _ _ _ _) fun _ => ?_
  exact .bind .get fun _ => .bind (.assert _) fun _ => .pure _

theorem noFail_hptFit (len : ℕ) : NoFail (hptFit len) := by
  refine .bind .get fun _ => .bind (.assert _) fun _ => .bind (noFail_hptAdjust _) fun _ => ?_
  refine .bind .get fun _ => .ite (.bind (.assert _) fun _ => ?_) (.pure _)
  exact .bind (.assert _) fun _ => .pure _

theorem noFail_hptMoveEvicted (nam namSz len : ℕ) : NoFail (hptMoveEvicted nam namSz len) := by
  have hloop : ∀ fuel nam namSz len tblPtr, NoFail (hptMoveEvictedLoop fuel nam namSz len tblPtr) := by
    intro fuel
    induction fuel with
    | zero => exact fun _ _ _ _ => .halt _
    | succ fuel ih =>
      intro nam namSz len tblPtr
      refine .ite (.pure _) (.bind .get fun _ => .bind ((reads_readTbl _ _).noFail) fun _ => ?_)
      exact .bind (noFail_moveTbl _ _ _) fun _ => .bind (noFail_writeTbl _ _) fun _ => ih _ _ _ _
  refine .bind (hloop _ _ _ _ _) fun _ => .bind (.assert _) fun _ => .bind .get fun _ => ?_
  exact noFail_moveTbl _ _ _

theorem noFail_hptInsert (enc : Bool) (src : Src) (namSz : ℕ) (val : Octets) :
    NoFail (hptInsert enc src namSz val) := by
  have hovl : NoFail (hptOverlap src namSz) := by
    refine .bind .get fun _ => ?_
    cases src with
    | ext nam => exact .pure _
    | tbl pos => exact .ite (.bind (.assert _) fun _ => .pure _) (.pure _)
  have hshift : ∀ len, NoFail (hptShift len) := fun len =>
    .bind .get fun _ => .when (noFail_moveTbl _ _ _)
  have hfill : NoFail (hptFill namSz val) := by
    refine .bind (noFail_writeTbl _ _) fun _ => .bind (noFail_writeTbl _ _) fun _ => ?_
    refine .bind (noFail_writeTbl _ _) fun _ => .bind (noFail_writeTbl _ _) fun _ => ?_
    exact noFail_writeTbl _ _
  have hend : ∀ evts len, NoFail (do
      hptFill namSz val
      modify fun hp : Table =>
        { hp with sz := { hp.sz with len := hp.sz.len + len }, cnt := hp.cnt + 1 }
      Pure.pure (evts ++ [Event.index len])) := fun _ _ =>
    .bind hfill fun _ => .bind (.modify _) fun _ => .pure _
  refine .bind hovl fun ovl => .bind (noFail_hptFit _) fun r => .ite ?_ (.pure _)
  refine .bind (noFail_writeTbl _ _) fun _ => ?_
  cases src with
  | ext nam => exact .bind (hshift _) fun _ => .bind (noFail_writeTbl _ _) fun _ => hend _ _
  | tbl pos =>
    cases ovl with
    | true => exact .bind (.assert _) fun _ => .bind (noFail_hptMoveEvicted _ _ _) fun _ => hend _ _
    | false => exact .bind (hshift _) fun _ => .bind (noFail_moveTbl _ _ _) fun _ => hend _ _

/-! ### Reframing -/

/-- What a blind function does not look at. -/
structure Frame where
  state : State
  blk : Octets
  blkLen : ℕ
  res : Res
  log : List Event

/-- The frame of a codec. -/
def Hpack.frame (hp : Hpack) : Frame :=
  ⟨hp.state, hp.ctx.blk, hp.ctx.arg.blkLen, hp.ctx.res, hp.ctx.log⟩

/-- The codec with another frame. -/
def Hpack.reframe (hp : Hpack) (F : Frame) : Hpack :=
  { hp with
    state := F.state
    ctx.blk := F.blk
    ctx.arg.blkLen := F.blkLen
    ctx.res := F.res
    ctx.log := F.log }

@[simp] theorem Hpack.reframe_frame (hp : Hpack) : hp.reframe hp.frame = hp := rfl

@[simp] theorem Hpack.reframe_reframe (hp : Hpack) (F F' : Frame) :
    (hp.reframe F).reframe F' = hp.reframe F' := rfl

@[simp] theorem Hpack.frame_reframe (hp : Hpack) (F : Frame) : (hp.reframe F).frame = F := rfl

/-- The frame once these events are notified. -/
def Frame.add (F : Frame) (evts : List Event) : Frame := { F with log := F.log ++ evts }

/-- The frame with another result. -/
def Frame.withRes (F : Frame) (r : Res) : Frame := { F with res := r }

/-- A result that ends the decoding for good, unlike BUF. -/
def Res.Fatal (r : Res) : Prop := r.val < Res.buf.val

instance (r : Res) : Decidable r.Fatal := inferInstanceAs (Decidable (_ < _))

/-- `x` does the same in any frame with the same index, adds events to it, and does not ask for
more octets. -/
def Blind {α : Type} (x : Cp α) : Prop :=
  ∀ (hp : Hpack) (F : Frame), F.state.idx = hp.state.idx → match x hp with
    | .ok a hp' => ∃ evts, hp'.frame = hp.frame.add evts ∧
        x (hp.reframe F) = .ok a (hp'.reframe (F.add evts))
    | .err hp' => ∃ evts, hp'.frame = (hp.frame.add evts).withRes hp'.ctx.res ∧
        hp'.ctx.res.Fatal ∧
        x (hp.reframe F) = .err (hp'.reframe ((F.add evts).withRes hp'.ctx.res))
    | .stop w => x (hp.reframe F) = .stop w

namespace Blind

variable {α β : Type}

@[simp] theorem Frame.add_nil (F : Frame) : F.add [] = F := by
  simp [Frame.add]

theorem pure (a : α) : Blind (Pure.pure a : Cp α) := by
  intro hp F _
  exact ⟨[], by simp, by simp⟩

theorem bind {x : Cp α} {f : α → Cp β} (hx : Blind x) (hf : ∀ a, Blind (f a)) :
    Blind (x >>= f) := by
  intro hp F hF
  have h := hx hp F hF
  simp only [bind_apply]
  cases hxp : x hp with
  | ok a hp₁ =>
    rw [hxp] at h
    obtain ⟨evts, hframe, hx'⟩ := h
    have hidx : (F.add evts).state.idx = hp₁.state.idx := by
      rw [show hp₁.state = hp.state from congrArg Frame.state hframe]
      exact hF
    have h := hf a hp₁ (F.add evts) hidx
    simp only [Out.bind_ok, hx']
    have hadd : ∀ (G : Frame) (l l' : List Event), (G.add l).add l' = G.add (l ++ l') :=
      fun G l l' => by simp [Frame.add]
    cases hfp : f a hp₁ with
    | ok b hp₂ =>
      rw [hfp] at h
      obtain ⟨evts', hframe', hf'⟩ := h
      exact ⟨evts ++ evts', by rw [hframe', hframe, hadd], by rw [hf', hadd]⟩
    | err hp₂ =>
      rw [hfp] at h
      obtain ⟨evts', hframe', hres, hf'⟩ := h
      exact ⟨evts ++ evts', by rw [← hadd, ← hframe, ← hframe'], hres, by rw [hf', hadd]⟩
    | stop w =>
      rw [hfp] at h
      exact h
  | err hp₁ =>
    rw [hxp] at h
    obtain ⟨evts, hframe, hres, hx'⟩ := h
    exact ⟨evts, hframe, hres, by rw [hx', Out.bind_err]⟩
  | stop w =>
    rw [hxp] at h
    simp only [h, Out.bind_stop]

/-- What is read must not be in the frame. -/
theorem get_bind {f : Hpack → Cp α}
    (hf : ∀ hp F, F.state.idx = hp.state.idx → f (hp.reframe F) = f hp) (h : ∀ hp, Blind (f hp)) :
    Blind (get >>= f) := by
  intro hp F hF
  simp only [bind_apply, get_apply, Out.bind_ok, hf hp F hF]
  exact h hp hp F hF

theorem modify {f : Hpack → Hpack} (hf : ∀ hp F, f (hp.reframe F) = (f hp).reframe F) :
    Blind (modify f) := by
  intro hp F _
  refine ⟨[], ?_, ?_⟩
  · have := hf hp hp.frame
    rw [Hpack.reframe_frame] at this
    rw [this, Hpack.frame_reframe, Frame.add_nil]
  · rw [modify_apply, hf, Frame.add_nil]

theorem halt (w : Stop) : Blind (halt w : Cp α) := fun _ _ _ => rfl

theorem assert (c : Prop) [Decidable c] : Blind (assert c : Cp Unit) := by
  intro hp F hF
  by_cases hc : c
  · simp only [assert_apply, if_pos hc]
    exact Blind.pure () hp F hF
  · simp only [assert_apply, if_neg hc]

theorem ite {c : Prop} [Decidable c] {x y : Cp α} (hx : c → Blind x) (hy : ¬ c → Blind y) :
    Blind (if c then x else y) := by
  split
  · exact hx ‹_›
  · exact hy ‹_›

theorem when {c : Prop} [Decidable c] {x : Cp Unit} (hx : c → Blind x) : Blind (Prog.when c x) :=
  .ite hx fun _ => .pure ()

end Blind

/-! ### The functions of the decoder -/

theorem blind_failWith {α : Type} {r : Res} (hr : r.Fatal) : Blind (failWith r : Cp α) := by
  intro hp F _
  exact ⟨[], by simp [Hpack.frame, Frame.withRes], hr, by simp [Hpack.reframe, Frame.withRes]⟩

theorem blind_expect {r : Res} (hr : r.Fatal) (c : Prop) [Decidable c] : Blind (expect r c) := by
  intro hp F hF
  by_cases hc : c
  · simp only [expect_apply, if_pos hc]
    exact Blind.pure () hp F hF
  · simp only [expect_apply, if_neg hc]
    exact blind_failWith (α := Unit) hr hp F hF

theorem blind_hpcNotify (e : Event) : Blind (hpcNotify e) := by
  intro hp F hF
  unfold hpcNotify
  by_cases ht : hp.ctx.tooBig = true
  · have ht' : (hp.reframe F).ctx.tooBig = true := ht
    by_cases hm : hp.magic = .decoder
    · have hm' : (hp.reframe F).magic = .decoder := hm
      rw [if_pos ht, if_pos hm, if_pos ht', if_pos hm']
      exact Blind.pure () hp F hF
    · have hm' : ¬ (hp.reframe F).magic = .decoder := hm
      rw [if_pos ht, if_neg hm, if_pos ht', if_neg hm']
  · have ht' : ¬ (hp.reframe F).ctx.tooBig = true := ht
    rw [if_neg ht, if_neg ht']
    exact ⟨[e], rfl, rfl⟩

theorem blind_hpcNotifyAll (evts : List Event) : Blind (hpcNotifyAll evts) := by
  induction evts with
  | nil => exact .pure ()
  | cons e evts ih => exact .bind (blind_hpcNotify e) fun _ => ih

theorem str_reframe (hp : Hpack) (F : Frame) (p : Ptr) (n : ℕ) :
    (hp.reframe F).str p n = hp.str p n := by
  cases p <;> rfl

theorem blind_readStr (p : Ptr) (n : ℕ) : Blind (readStr p n) := by
  intro hp F hF
  unfold readStr
  rw [str_reframe]
  cases hp.str p n with
  | none => rfl
  | some r => exact Blind.pure r hp F hF

theorem blind_onTable {α : Type} {f : Prog Table α} (hf : NoFail f) : Blind (onTable f) := by
  intro hp F hF
  have htbl : (hp.reframe F).toTable = hp.toTable := rfl
  simp only [onTable, htbl]
  cases h : f hp.toTable with
  | ok a t => exact Blind.pure a (hp.withTable t) F hF
  | err t => exact absurd h (hf _ _)
  | stop w => rfl

theorem blind_hpvValue (str : Ptr) (len : ℕ) : Blind (hpvValue str len) := by
  refine .bind (.assert _) fun _ => .bind (blind_readStr _ _) fun r => ?_
  refine .bind (blind_expect (by decide) _) fun _ => ?_
  exact .bind (.assert _) fun _ => .assert _

theorem blind_hpvToken (str : Ptr) (len : ℕ) : Blind (hpvToken str len) := by
  refine .bind (.assert _) fun _ => .bind (.assert _) fun _ => ?_
  refine .get_bind (fun _ _ _ => rfl) fun hp => .ite (fun _ => .assert _) fun _ => ?_
  refine .bind (blind_readStr _ _) fun r => .ite (fun _ => ?_) fun _ => ?_
  · exact .ite (fun _ => .pure _) fun _ => blind_failWith (by decide)
  · exact .bind (blind_expect (by decide) _) fun _ => .assert _

theorem blind_hpdSkip (len : ℕ) : Blind (hpdSkip len) := by
  refine .get_bind (fun _ _ _ => rfl) fun hp => .ite (fun _ => .pure _) fun _ => ?_
  refine .bind (.modify fun _ _ => rfl) fun _ => ?_
  split
  · refine .bind (blind_expect (by decide) _) fun _ => .bind (.assert _) fun _ => ?_
    refine .bind (.assert _) fun _ => .bind (blind_expect (by decide) _) fun _ => ?_
    exact .modify fun _ _ => rfl
  · exact .halt _
  · exact .halt _

theorem blind_hpdWrite (s : Octets) : Blind (hpdWrite s) := by
  intro hp F hF
  unfold hpdWrite
  by_cases h : hp.ctx.arg.buf ≤ hp.ctx.org + hp.ctx.out.length ∧
      hp.ctx.org + hp.ctx.out.length + s.length ≤ hp.ctx.arg.buf + hp.ctx.arg.bufLen
  · rw [if_pos h]
    exact ⟨[], by simp [Hpack.frame, Frame.add], (if_pos h).trans (by simp [Hpack.reframe])⟩
  · rw [if_neg h]
    exact if_neg h

theorem blind_hpdPutc (c : UInt8) : Blind (hpdPutc c) :=
  .bind (blind_hpdSkip 1) fun _ => blind_hpdWrite [c]

theorem blind_hpdCat (s : Octets) : Blind (hpdCat s) :=
  .bind (blind_hpdSkip _) fun _ => blind_hpdWrite s

theorem blind_hpdPuts (str : Ptr) (len : ℕ) : Blind (hpdPuts str len) := by
  refine .get_bind (fun _ _ _ => rfl) fun hp => .ite (fun _ => ?_) fun _ => .ite (fun _ => ?_) ?_
  · refine .bind (.assert _) fun _ => .bind (.assert _) fun _ => .bind (.assert _) fun _ => ?_
    exact .bind (.assert _) fun _ => .modify fun _ _ => rfl
  · refine .bind (.assert _) fun _ => .bind (.assert _) fun _ => .bind (.assert _) fun _ => ?_
    exact .bind (.assert _) fun _ => .modify fun _ _ => rfl
  · intro _
    exact .bind (blind_readStr _ _) fun r => .bind (.assert _) fun _ => blind_hpdCat _

theorem blind_hpdNotify : Blind hpdNotify := by
  refine .get_bind (fun _ _ _ => rfl) fun hp => .bind (.assert _) fun _ => .bind (.assert _) ?_
  intro _
  refine .bind (.assert _) fun _ => .bind (blind_readStr _ _) fun r => .bind (.assert _) ?_
  intro _
  refine .bind (blind_readStr _ _) fun r' => .bind (.assert _) fun _ => ?_
  exact .bind (blind_hpcNotify _) fun _ => blind_hpcNotify _

theorem blind_bufDiff (p : Ptr) : Blind (bufDiff p) := by
  refine .get_bind (fun _ _ _ => rfl) fun hp => ?_
  split
  · exact .bind (.assert _) fun _ => .pure _
  · exact .halt _

theorem blind_hptField (idx : ℕ) : Blind (hptField idx) := by
  refine .bind (.assert _) fun _ => .ite (fun _ => ?_) fun _ => ?_
  · split
    · exact .pure _
    · exact .halt _
  · refine .bind (.get_bind (fun _ _ _ => rfl) fun hp => .when fun _ => .halt _) fun _ => ?_
    refine .get_bind (fun _ _ _ => rfl) fun hp => .ite (fun _ => .pure _) fun _ => ?_
    refine .bind (blind_expect (by decide) _) fun _ => ?_
    refine .bind (blind_onTable ((reads_hptDynamic _).noFail)) fun he => ?_
    exact .bind (blind_onTable ((reads_readEntry _).noFail)) fun _ => .pure _

theorem blind_hptDecode (idx : ℕ) : Blind (hptDecode idx) := by
  refine .bind (blind_expect (by decide) _) fun _ => .bind (blind_hptField _) fun hf => ?_
  refine .bind (.assert _) fun _ => .bind (.assert _) fun _ => .bind (.assert _) fun _ => ?_
  refine .bind (.modify fun _ _ => rfl) fun _ => .bind (blind_hpdPuts _ _) fun _ => ?_
  exact .bind (.modify fun _ _ => rfl) fun _ => .bind (blind_hpdPuts _ _) fun _ => blind_hpdNotify

theorem blind_hptDecodeName : Blind hptDecodeName := by
  refine .get_bind (fun hp F hF => ?_) fun hp => .bind (.assert _) fun _ => .bind (.assert _) ?_
  · obtain ⟨⟨_, _, _, idx, _, _, _⟩, _, _, _, _⟩ := F
    obtain rfl : idx = hp.state.idx := hF
    rfl
  · intro _
    refine .bind (blind_hptField _) fun hf => .bind (.assert _) fun _ => .bind (.assert _) ?_
    exact fun _ => .bind (.modify fun _ _ => rfl) fun _ => blind_hpdPuts _ _

theorem blind_hptIndex : Blind hptIndex := by
  refine .get_bind (fun _ _ _ => rfl) fun hp => .bind (.assert _) fun _ => .bind (.assert _) ?_
  intro _
  refine .bind (.assert _) fun _ => .bind (.assert _) fun _ => .bind (.assert _) fun _ => ?_
  refine .bind (blind_readStr _ _) fun r => .bind (.assert _) fun _ => ?_
  refine .bind (blind_readStr _ _) fun r' => .bind (.assert _) fun _ => .bind (.assert _) fun _ => ?_
  exact .bind (blind_onTable (noFail_hptInsert _ _ _ _)) fun _ => blind_hpcNotifyAll _

theorem blind_hpackDecodeResize (n : ℕ) : Blind (hpackDecodeResize n) := by
  refine .get_bind (fun _ _ _ => rfl) fun hp => .ite (fun _ => ?_) fun _ => .modify fun _ _ => rfl
  refine .bind (.assert _) fun _ => .ite (fun _ => ?_) fun _ => ?_
  · exact .bind (blind_expect (by decide) _) fun _ => .modify fun _ _ => rfl
  · refine .bind (blind_expect (by decide) _) fun _ => .bind (.assert _) fun _ => ?_
    exact .modify fun _ _ => rfl

theorem blind_hpackDecodeLimit (n : ℕ) : Blind (hpackDecodeLimit n) := by
  refine .get_bind (fun _ _ _ => rfl) fun hp => ?_
  refine .bind (blind_expect (by decide) _) fun _ => .bind (.modify fun _ _ => rfl) fun _ => ?_
  refine .bind ?_ fun _ => blind_hpcNotify _
  exact .bind (blind_onTable (noFail_hptAdjust _)) fun _ => blind_hpcNotifyAll _

/-- The decoding state is left alone. -/
theorem Blind.state_eq {α : Type} {x : Cp α} (hx : Blind x) (hp : Hpack) :
    (x hp).Holds (fun _ hp' => hp'.state = hp.state) (fun hp' => hp'.state = hp.state)
      fun _ => True := by
  have h := hx hp hp.frame rfl
  cases hr : x hp with
  | ok a hp' =>
    rw [hr] at h
    obtain ⟨evts, hframe, -⟩ := h
    exact congrArg Frame.state hframe
  | err hp' =>
    rw [hr] at h
    obtain ⟨evts, hframe, -⟩ := h
    exact congrArg Frame.state hframe
  | stop w => trivial

end Cashpack
