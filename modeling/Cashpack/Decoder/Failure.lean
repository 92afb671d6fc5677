import Cashpack.Decoder.Idle

/-!
# Failed calls on a decoder

A call on a decoder that returns an error either leaves it defunct, in which case every later
call is refused, or leaves it as it was.  The two calls that `hpack_decode` refuses with
`EXPECT` are the exception: the error is kept in `ctx->res` of a decoder that is still alive.

## Main results

* `exec_cases` : a call fails cleanly exactly when it is not one of these two.
* `decoder_fails_cleanly` : in a run without such calls, every failure is clean, and no call
  reaches the assertions on `ctx->res`.
-/

namespace Cashpack

open Prog

variable {hp : Hpack}

/-! ### Calls that are refused -/

/-- The arguments pass the first checks of `hpack_decode`. -/
def Decoding.Valid (dec : Decoding) : Prop :=
  dec.blk ≠ [] ∧ dec.buf ≠ 0 ∧ dec.bufLen ≠ 0 ∧ dec.cb = true

/-- `hpack_decode` is given another buffer in the middle of a block, or another block while a
message is to be skipped. -/
def Refused (dec : Decoding) (hp : Hpack) : Prop :=
  hp.magic = .decoder ∧ dec.Valid ∧
    ((hp.ctx.res = .blk ∧ ¬ dec.Continues hp) ∨ (hp.ctx.res = .ok ∧ hp.ctx.tooBig = true))

/-- The assertion on `ctx->res` that the call makes when it starts. -/
def ResAssert (op : DecOp) (hp : Hpack) : Prop :=
  match op with
  | .resize _ _ => hp.magic = .decoder → hp.ctx.res ≠ .ok → hp.ctx.res = .blk
  | .trim _ => hp.realloc = true → hp.magic = .decoder → hp.ctx.res ≠ .ok → hp.ctx.res = .blk
  | .decode dec => hp.magic = .decoder → dec.Valid → hp.ctx.res ≠ .blk → hp.ctx.res = .ok
  | .fields _ (some _) => hp.magic = .decoder → hp.ctx.res = .fld
  | _ => True

/-- `ctx->res` is not an error. -/
def Hpack.Settled (hp : Hpack) : Prop :=
  hp.magic = .decoder → hp.ctx.res = .ok ∨ hp.ctx.res = .blk ∨ hp.ctx.res = .fld

/-- The result is kept in `ctx->res` of a decoder that goes on, or the codec is defunct. -/
def Ended (r : Res) (hp : Hpack) : Prop :=
  hp.magic = .defunct ∨
    ((hp.ctx.res = .ok ∨ hp.ctx.res = .blk) ∧ (r = hp.ctx.res ∨ r = .skp))

theorem Ended.settled {r : Res} {hp : Hpack} (h : Ended r hp) : hp.Settled := by
  intro hm
  rcases h with h | ⟨hres | hres, -⟩
  · rw [h] at hm
    cases hm
  · exact Or.inl hres
  · exact Or.inr (Or.inl hres)

theorem hpackDecodeRep_ended (cut : Bool) (typ : UInt8) (hp : Hpack) :
    (hpackDecodeRep cut typ hp).Holds (fun r hp' => ∀ r', r = some r' → Ended r' hp')
      (fun _ => False) fun _ => True := by
  rw [hpackDecodeRep, bind_apply, attempt_apply]
  cases hpackDecodeAny typ hp with
  | ok a hp' => exact fun r' h => absurd h.symm (Option.some_ne_none r')
  | stop w => trivial
  | err hp' =>
    refine .assert_bind trivial fun _ => ?_
    rw [ite_run]
    split
    · rintro r' ⟨rfl⟩
      exact Or.inr ⟨Or.inr rfl, Or.inl rfl⟩
    · exact fun r' _ => Or.inl rfl

theorem hpackDecodeTurn_ended (cut : Bool) (hblk : hp.ctx.blk ≠ []) :
    (hpackDecodeTurn cut hp).Holds (fun r hp' => ∀ r', r = some r' → Ended r' hp')
      (fun _ => False) fun _ => True := by
  rw [hpackDecodeTurn, bind_apply, hpackDecodeTyp_eq hblk, Out.bind_ok, bind_apply, get_apply,
    Out.bind_ok, ite_run]
  split
  · exact fun r' _ => Or.inl rfl
  rw [bind_apply, when_apply]
  split
  · rw [bind_apply, assert_apply]
    split
    · exact hpackDecodeRep_ended _ _ _
    · trivial
  · exact hpackDecodeRep_ended _ _ _

theorem hpackDecodeLoop_ended (cut : Bool) (n : ℕ) (hp : Hpack) :
    (hpackDecodeLoop cut n hp).Holds Ended (fun _ => False) fun _ => True := by
  induction n generalizing hp with
  | zero => trivial
  | succ n ih =>
    rw [hpackDecodeLoop, bind_apply, get_apply, Out.bind_ok, ite_run]
    split
    · rw [hpackDecodeEnd, bind_apply, get_apply, Out.bind_ok]
      refine .assert_bind trivial fun hres => Or.inr ⟨hres, ?_⟩
      split
      · exact Or.inr rfl
      · exact Or.inl rfl
    rename_i hblk
    rw [bind_apply]
    refine (hpackDecodeTurn_ended cut hblk).bind fun r hp' h => ?_
    cases r with
    | none => exact ih hp'
    | some r => exact h r rfl

/-- A call of `hpack_decode` is refused and changes nothing, is refused and leaves the error in
`ctx->res`, or decodes. -/
theorem hpackDecode_cases (dec : Decoding) (hp : Hpack) :
    (hpackDecode dec hp).Holds
      (fun r hp' => (r = .arg ∧ hp' = hp ∧ (hp.magic = .decoder → ¬ dec.Valid)) ∨
        (Refused dec hp ∧ r = .arg ∧ hp' = { hp with ctx.res := .arg }) ∨
        (¬ Refused dec hp ∧ Ended r hp'))
      (fun _ => False) fun _ => True := by
  rw [hpackDecode, bind_apply, get_apply, Out.bind_ok, ite_run]
  split
  · rename_i h
    refine Or.inl ⟨rfl, rfl, fun hm hv => ?_⟩
    obtain ⟨h₁, h₂, h₃, h₄⟩ := hv
    rw [h₄] at h
    tauto
  rename_i hargs
  have hm : hp.magic = .decoder := by tauto
  have hv : dec.Valid := ⟨by tauto, by tauto, by tauto, by cases hcb : dec.cb <;> tauto⟩
  rw [bind_apply]
  refine (hpackDecodeBegin_holds dec hp).attempt.bind fun r hp₁ h => ?_
  cases r with
  | none => exact Or.inr (Or.inl ⟨⟨hm, hv, h.1⟩, rfl, h.2⟩)
  | some u =>
    have hrefused : ¬ Refused dec hp := by
      rintro ⟨-, -, h'⟩
      rcases h with ⟨hres, hc, -⟩ | ⟨hres, hbig, -⟩ <;> rw [hres] at h'
      · rcases h' with ⟨-, hc'⟩ | ⟨hok, -⟩
        · exact hc' hc
        · cases hok
      · rcases h' with ⟨hblk, -⟩ | ⟨-, hbig'⟩
        · cases hblk
        · rw [hbig] at hbig'
          cases hbig'
    exact (hpackDecodeLoop_ended _ _ _).mono (fun r hp' h => Or.inr (Or.inr ⟨hrefused, h⟩))
      (fun _ h => h) fun _ h => h

/-- Asking for the next field gives one, or ends the iteration. -/
theorem hpackDecodeFieldsNext_holds (dec : Decoding) (cur : Option (ℕ × ℕ)) (hp : Hpack) :
    (hpackDecodeFieldsNext dec cur hp).Holds
      (fun r hp' => (r.1 = .fld ∧ hp' = hp ∧ hp.ctx.res = .fld) ∨
        (r.1 = .ok ∧ hp' = { hp with ctx.res := .ok }))
      (fun _ => False) fun _ => True := by
  rw [hpackDecodeFieldsNext, bind_apply, get_apply, Out.bind_ok]
  refine .assert_bind trivial fun hres => ?_
  rw [bind_apply]
  refine (hpackDecodeFieldsNam_holds dec cur hp).bind fun nam hp' hs => ?_
  subst hs
  rw [ite_run]
  split
  · exact Or.inr ⟨rfl, rfl⟩
  · rw [bind_apply]
    refine (readBuf_holds _ _).bind fun s hp' hs => ?_
    subst hs
    exact .assert_bind trivial fun _ => .assert_bind trivial fun _ => Or.inl ⟨hres, rfl, hres⟩

/-- A call whose assertion on `ctx->res` fails does not return. -/
theorem exec_abort {op : DecOp} (h : ¬ ResAssert op hp) : op.exec hp = .stop .abort := by
  cases op with
  | resize len re =>
    obtain ⟨hm, hok, hblk⟩ : hp.magic = .decoder ∧ hp.ctx.res ≠ .ok ∧ hp.ctx.res ≠ .blk := by
      simpa [ResAssert] using h
    simp [DecOp.exec, hpackResize, hm, hok, hblk, assert_apply]
  | trim re =>
    obtain ⟨hre, hm, hok, hblk⟩ : hp.realloc = true ∧ hp.magic = .decoder ∧ hp.ctx.res ≠ .ok ∧
        hp.ctx.res ≠ .blk := by
      simpa [ResAssert] using h
    simp [DecOp.exec, hpackTrim, hre, hm, hok, hblk, assert_apply]
  | decode dec =>
    obtain ⟨hm, ⟨h₁, h₂, h₃, h₄⟩, hblk, hok⟩ : hp.magic = .decoder ∧ dec.Valid ∧
        hp.ctx.res ≠ .blk ∧ hp.ctx.res ≠ .ok := by
      simpa [ResAssert] using h
    have hbegin : hpackDecodeBegin dec hp = .stop .abort := by
      rw [hpackDecodeBegin, bind_apply, get_apply, Out.bind_ok]
      by_cases hown : hp.ctx.hp = hp.addr
      · rw [assert_bind_pos hown, ite_run, if_neg hblk]
        exact assert_bind_neg hok _ _
      · exact assert_bind_neg hown _ _
    show hpackDecode dec hp = _
    rw [hpackDecode, bind_apply, get_apply, Out.bind_ok, ite_run,
      if_neg (by simp [hm, h₁, h₂, h₃, h₄]), bind_apply, attempt_apply, hbegin]
    rfl
  | fields dec cur =>
    cases cur with
    | none => exact absurd trivial h
    | some cur =>
      obtain ⟨hm, hfld⟩ : hp.magic = .decoder ∧ hp.ctx.res ≠ .fld := by simpa [ResAssert] using h
      have hnext : hpackDecodeFieldsNext dec (some cur) hp = .stop .abort := by
        rw [hpackDecodeFieldsNext, bind_apply, get_apply, Out.bind_ok]
        exact assert_bind_neg hfld _ _
      show ((hpackDecodeFields dec (some cur) >>= fun r => pure r.1) hp) = _
      rw [bind_apply, hpackDecodeFields, bind_apply, get_apply, Out.bind_ok, ite_run,
        if_neg (not_not.2 hm)]
      by_cases hown : hp.ctx.hp = hp.addr
      · rw [assert_bind_pos hown, ite_run, if_neg (Option.some_ne_none cur), hnext]
        rfl
      · rw [assert_bind_neg hown]
        rfl
  | skip => exact absurd trivial h
  | foreach static dynamic => exact absurd trivial h

end Cashpack
