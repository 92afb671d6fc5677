import Cashpack.Decoder.Memory
import Cashpack.Decoder.Progress

/-!
# Idle decoders

Between two blocks a decoder is ready to decode a representation, and its context points back
to it.  This holds in every run in which `hpack_trim` does not move the codec and the tables
are not listed in the middle of a block.
-/

namespace Cashpack

open Prog

/-- A live decoder between two blocks. -/
structure Hpack.Idle (hp : Hpack) : Prop where
  magic : hp.magic = .decoder
  res : hp.ctx.res = .ok
  tooBig : hp.ctx.tooBig = false
  own : hp.ctx.hp = hp.addr
  bsy : hp.state.bsy = false

/-- `hpack_trim` leaves the codec where it is, and the tables are not listed in the middle of a
block. -/
def Steady (op : DecOp) (hp : Hpack) : Prop :=
  match op with
  | .trim (some blk) => blk.addr = hp.addr
  | .foreach _ _ => hp.ctx.res = .ok ∨ hp.ctx.res = .fld
  | _ => True

/-- A live decoder is at the start of a representation, or in the middle of one with a result
that says so. -/
def Hpack.Rests (hp : Hpack) : Prop :=
  hp.magic = .decoder →
    hp.state.AtStart ∨ (hp.ctx.res ≠ .ok ∧ hp.ctx.res ≠ .fld ∧ hp.state.Mid)

theorem Hpack.Rests.atStart {hp : Hpack} (h : hp.Rests) (hm : hp.magic = .decoder)
    (hres : hp.ctx.res = .ok ∨ hp.ctx.res = .fld) : hp.state.AtStart := by
  rcases h hm with h | ⟨h₁, h₂, -⟩
  · exact h
  · rcases hres with hres | hres
    · exact absurd hres h₁
    · exact absurd hres h₂

theorem Hpack.Rests.congr {hp hp' : Hpack} (h : hp.Rests) (hst : hp'.state = hp.state)
    (hm : hp'.magic = hp.magic ∨ hp'.magic = .defunct) (hres : hp'.ctx.res = hp.ctx.res) :
    hp'.Rests := by
  intro hm'
  rcases hm with hm | hm
  · rw [hst, hres]
    exact h (hm ▸ hm')
  · rw [hm] at hm'
    cases hm'

theorem Hpack.Rests.of_atStart {hp : Hpack} (h : hp.state.AtStart) : hp.Rests := fun _ => Or.inl h

/-- The context points back to the codec. -/
def Own (c : Core) : Prop := c.owner = c.addr

theorem stable_own : Stable Own := fun _ _ _ _ _ h => h

theorem tableFree_own : TableFree Own := fun _ _ h => h

/-! ### Decoding -/

theorem DecodeEnd.rests {r : Res} {hp : Hpack} (h : DecodeEnd r hp) :
    hp.Rests ∧ (r = .ok → hp.state.AtStart) := by
  rcases h with ⟨hst, -⟩ | ⟨rfl, hres, hmid⟩ | ⟨hneg, hm⟩
  · exact ⟨.of_atStart hst, fun _ => hst⟩
  · refine ⟨fun _ => Or.inr ⟨?_, ?_, hmid⟩, fun h => by cases h⟩ <;> rw [hres] <;> decide
  · refine ⟨fun hm' => ?_, ?_⟩
    · rw [hm] at hm'
      cases hm'
    · rintro rfl
      exact absurd hneg (by decide)

/-- A codec that starts to decode a block. -/
def Hpack.begin (hp : Hpack) (dec : Decoding) : Hpack :=
  { hp with
    ctx.org := dec.buf
    ctx.out := []
    ctx.bufLen := dec.bufLen
    ctx.canUpd := true
    state.stp := .fldInt }

/-- The buffer ends where the one of the block being decoded does (`hpack_check_buffer`). -/
def Decoding.Continues (dec : Decoding) (hp : Hpack) : Prop :=
  dec.buf + dec.bufLen = hp.ctx.org + hp.ctx.out.length + hp.ctx.bufLen

/-- A call resumes a block, or starts one, or has a wrong argument. -/
theorem hpackDecodeBegin_holds (dec : Decoding) (hp : Hpack) :
    (hpackDecodeBegin dec hp).Holds
      (fun _ hp' => (hp.ctx.res = .blk ∧ dec.Continues hp ∧ hp' = hp) ∨
        (hp.ctx.res = .ok ∧ hp.ctx.tooBig = false ∧ hp' = hp.begin dec))
      (fun hp' => ((hp.ctx.res = .blk ∧ ¬ dec.Continues hp) ∨
        (hp.ctx.res = .ok ∧ hp.ctx.tooBig = true)) ∧ hp' = { hp with ctx.res := .arg })
      fun _ => True := by
  rw [hpackDecodeBegin, bind_apply, get_apply, Out.bind_ok]
  refine .assert_bind trivial fun _ => ?_
  rw [ite_run]
  split
  · rename_i hblk
    refine .assert_bind trivial fun _ => ?_
    rw [expect_apply]
    split
    · exact Or.inl ⟨hblk, ‹_›, rfl⟩
    · exact ⟨Or.inl ⟨hblk, ‹_›⟩, rfl⟩
  · refine .assert_bind trivial fun hok => ?_
    rw [bind_apply, expect_apply]
    split
    · exact Or.inr ⟨hok, ‹_›, rfl⟩
    · rename_i hbig
      exact ⟨Or.inr ⟨hok, by simpa using hbig⟩, rfl⟩

theorem hpackDecode_rests (dec : Decoding) {hp : Hpack} (h : hp.Rests) :
    (hpackDecode dec hp).Holds (fun r hp' => hp'.Rests ∧ (r = .ok → hp'.state.AtStart))
      (fun _ => False) fun _ => True := by
  rw [hpackDecode, bind_apply, get_apply, Out.bind_ok, ite_run]
  split
  · exact ⟨h, fun h => by cases h⟩
  rename_i hargs
  have hm : hp.magic = .decoder := by tauto
  have hblk : dec.blk ≠ [] := by tauto
  -- the loop starts where the last call stopped, or at the start of a representation
  have hloop : ∀ hp₁ : Hpack, hp₁.state.Saved →
      (hpackDecodeLoop dec.cut (dec.blk.length + 1) (hpackDecodeArg dec hp₁)).Holds
        (fun r hp' => hp'.Rests ∧ (r = .ok → hp'.state.AtStart)) (fun _ => False)
        fun _ => True := fun hp₁ h₁ =>
    (hpackDecodeLoop_progress (hpackDecodeArg dec hp₁) h₁ fun hnil => absurd hnil hblk).mono
      (fun _ _ h => h.rests) (fun _ h => h) fun _ h => h
  rw [bind_apply]
  refine (hpackDecodeBegin_holds dec hp).attempt.bind fun r hp₁ h₁ => ?_
  cases r with
  | none =>
    obtain ⟨-, rfl⟩ := h₁
    refine ⟨fun hm' => ?_, fun h => by cases h⟩
    rcases h hm with h | ⟨-, -, h⟩
    · exact Or.inl h
    · exact Or.inr ⟨Res.noConfusion, Res.noConfusion, h⟩
  | some u =>
    rcases h₁ with ⟨hres, -, rfl⟩ | ⟨hres, -, rfl⟩
    · refine hloop _ ?_
      rcases h hm with h | ⟨-, -, h⟩
      · exact Or.inl h
      · exact Or.inr h
    · exact hloop _ (Or.inl ⟨(h.atStart hm (Or.inl hres)).bsy, rfl⟩)

theorem readBuf_holds (p : ℕ) (hp : Hpack) :
    (readBuf p hp).Holds (fun _ hp' => hp' = hp) (fun _ => False) fun _ => True := by
  unfold readBuf
  dsimp only
  split
  · exact rfl
  · trivial

theorem hpackDecodeFieldsNam_holds (dec : Decoding) (cur : Option (ℕ × ℕ)) (hp : Hpack) :
    (hpackDecodeFieldsNam dec cur hp).Holds (fun _ hp' => hp' = hp) (fun _ => False)
      fun _ => True := by
  unfold hpackDecodeFieldsNam
  split
  · exact rfl
  · rw [bind_apply]
    refine (readBuf_holds _ hp).bind fun s hp' hs => ?_
    subst hs
    rw [bind_apply, get_apply, Out.bind_ok]
    exact .assert_bind trivial fun _ => rfl

theorem hpackDecodeFieldsNext_rests {dec : Decoding} {cur : Option (ℕ × ℕ)} {hp : Hpack}
    (h : hp.Rests) :
    (hpackDecodeFieldsNext dec cur hp).Holds (fun _ hp' => hp'.Rests) (fun _ => False)
      fun _ => True := by
  rw [hpackDecodeFieldsNext, bind_apply, get_apply, Out.bind_ok]
  refine .assert_bind trivial fun hres => ?_
  rw [bind_apply]
  refine (hpackDecodeFieldsNam_holds dec cur hp).bind fun nam hp' hs => ?_
  subst hs
  rw [ite_run]
  split
  · exact fun hm => Or.inl (h.atStart hm (Or.inr hres))
  · rw [bind_apply]
    refine (readBuf_holds _ _).bind fun s hp' hs => ?_
    subst hs
    exact .assert_bind trivial fun _ => .assert_bind trivial fun _ => h

theorem hpackDecodeFields_rests (dec : Decoding) (cur : Option (ℕ × ℕ)) {hp : Hpack}
    (h : hp.Rests) :
    (hpackDecodeFields dec cur hp).Holds (fun _ hp' => hp'.Rests) (fun _ => False)
      fun _ => True := by
  rw [hpackDecodeFields, bind_apply, get_apply, Out.bind_ok, ite_run]
  split
  · exact h
  refine .assert_bind trivial fun _ => ?_
  rw [ite_run]
  split
  · rw [ite_run]
    split
    · exact h.congr rfl (Or.inr rfl) rfl
    · rw [bind_apply]
      refine (hpackDecode_rests _ h).bind fun r hp' h' => ?_
      rw [bind_apply, get_apply, Out.bind_ok]
      refine .assert_bind trivial fun _ => ?_
      rw [ite_run]
      split
      · exact h'.1
      · rename_i hr
        rw [bind_apply, modify_apply, Out.bind_ok]
        exact hpackDecodeFieldsNext_rests (.of_atStart (h'.2 (not_not.1 hr)))
  · exact hpackDecodeFieldsNext_rests h

/-! ### The other calls -/

theorem hpackRealloc_rests {mem : ℕ} {re : Option Block} {hp : Hpack} (h : hp.Rests)
    (hown : hp.ctx.hp = hp.addr) :
    (hpackRealloc mem re hp).Holds (fun _ hp' => hp'.Rests ∧ hp'.ctx.hp = hp'.addr)
      (fun _ => False) fun _ => True := by
  unfold hpackRealloc
  rw [bind_apply, get_apply, Out.bind_ok, ite_run]
  split
  · exact ⟨h, hown⟩
  refine .assert_bind trivial fun _ => ?_
  rw [ite_run]
  split
  · exact ⟨h, hown⟩
  · cases re with
    | none => exact ⟨h, hown⟩
    | some blk => exact ⟨h.congr rfl (Or.inl rfl) rfl, rfl⟩

theorem hpackResize_rests {len : ℕ} {re : Option Block} {hp : Hpack} (h : hp.Rests)
    (hown : hp.ctx.hp = hp.addr) :
    (hpackResize len re hp).Holds (fun _ hp' => hp'.Rests ∧ hp'.ctx.hp = hp'.addr)
      (fun _ => False) fun _ => True := by
  unfold hpackResize
  rw [bind_apply, get_apply, Out.bind_ok, ite_run]
  split
  · exact ⟨h, hown⟩
  rw [ite_run]
  split
  · exact .assert_bind trivial fun _ => ⟨h, hown⟩
  generalize (if hp.realloc = false then hp.sz.mem else uint16Max) = max
  rw [bind_apply]
  refine (reads_hpackResizeMem len max hp).bind fun mem hp' hs => ?_
  subst hs
  rw [ite_run]
  split
  · exact ⟨h.congr rfl (Or.inr rfl) rfl, hown⟩
  rw [bind_apply]
  refine (hpackRealloc_rests h hown).bind fun r hp₁ h₁ => ?_
  rw [ite_run]
  split
  · exact ⟨h₁.1.congr rfl (Or.inr rfl) rfl, h₁.2⟩
  rw [bind_apply, hpackResizeRecord, bind_apply, get_apply, Out.bind_ok, ite_run]
  split
  · rw [bind_apply, assert_apply]
    split
    · exact ⟨h₁.1.congr rfl (Or.inl rfl) rfl, h₁.2⟩
    · trivial
  · rw [bind_apply, assert_apply]
    split
    · exact ⟨h₁.1.congr rfl (Or.inl rfl) rfl, h₁.2⟩
    · trivial

theorem hpackTrim_rests {re : Option Block} {hp : Hpack} (h : hp.Rests)
    (hown : hp.ctx.hp = hp.addr) (hop : Steady (.trim re) hp) :
    (hpackTrim re hp).Holds (fun _ hp' => hp'.Rests ∧ hp'.ctx.hp = hp'.addr)
      (fun _ => False) fun _ => True := by
  unfold hpackTrim
  rw [bind_apply, get_apply, Out.bind_ok, ite_run]
  split
  · exact ⟨h, hown⟩
  rw [ite_run]
  split
  · exact ⟨h, hown⟩
  rw [ite_run]
  split
  · exact .assert_bind trivial fun _ => ⟨h, hown⟩
  refine .assert_bind trivial fun _ => ?_
  generalize (if hp.magic = .encoder then hp.sz.limit else hp.sz.max) = max
  rw [ite_run]
  split
  · cases re with
    | none => exact ⟨h, hown⟩
    | some blk => exact ⟨h.congr rfl (Or.inl rfl) rfl, hown.trans (show hp.addr = blk.addr from hop.symm)⟩
  · exact ⟨h, hown⟩

/-! ### Runs -/

/-- What holds of a decoder between two calls. -/
structure Hpack.Ready (hp : Hpack) : Prop where
  sound : hp.Decoder False
  rests : hp.Rests
  own : hp.ctx.hp = hp.addr

theorem ready_exec {op : DecOp} {hp : Hpack} (h : hp.Ready) (hop : Steady op hp) :
    (op.exec hp).Holds (fun _ hp' => hp'.Rests ∧ hp'.ctx.hp = hp'.addr) (fun _ => True)
      fun _ => True := by
  have hinv : Hpack.Inv Own Fld.Ext hp := ⟨h.own, h.sound.2⟩
  cases op with
  | resize len re =>
    exact (hpackResize_rests h.rests h.own).mono (fun _ _ h => h) (fun _ _ => trivial) fun _ h => h
  | trim re =>
    exact (hpackTrim_rests h.rests h.own hop).mono (fun _ _ h => h) (fun _ _ => trivial) fun _ h => h
  | decode dec =>
    have hown := keeps_hpackDecode stable_own (keeps_hptField tableFree_own.entriesFree)
      (keeps_hptIndex tableFree_own.entriesFree) (keeps_hpackDecodeUpdate tableFree_own fun _ h => h)
      dec hp hinv
    have hst := hpackDecode_rests dec h.rests
    show (hpackDecode dec hp).Holds _ _ _
    cases hr : hpackDecode dec hp with
    | ok r hp' =>
      rw [hr] at hown hst
      exact ⟨hst.1, hown.1⟩
    | err hp' => trivial
    | stop w => trivial
  | fields dec cur =>
    have hown := keeps_hpackDecodeFields stable_own (keeps_hptField tableFree_own.entriesFree)
      (keeps_hptIndex tableFree_own.entriesFree) (keeps_hpackDecodeUpdate tableFree_own fun _ h => h)
      dec cur hp hinv
    have hst := hpackDecodeFields_rests dec cur h.rests
    show ((hpackDecodeFields dec cur >>= fun r => pure r.1) hp).Holds _ _ _
    rw [bind_apply]
    cases hr : hpackDecodeFields dec cur hp with
    | ok r hp' =>
      rw [hr] at hown hst
      exact ⟨hst, hown.1⟩
    | err hp' => trivial
    | stop w => trivial
  | skip =>
    show (hpackSkip hp).Holds _ _ _
    rw [hpackSkip, bind_apply, get_apply, Out.bind_ok, ite_run]
    split
    · exact ⟨h.rests, h.own⟩
    · exact ⟨h.rests.congr rfl (Or.inl rfl) rfl, h.own⟩
  | foreach static dynamic =>
    have hpost : Keeps (fun _ => True) (fun hp' : Hpack => hp'.state = hp.state ∧
        hp'.magic = hp.magic ∧ hp'.ctx.hp = hp'.addr) (hpackForeach static dynamic) := by
      have hnot : ∀ evts, Keeps (fun _ => True) (fun hp' : Hpack => hp'.state = hp.state ∧
          hp'.magic = hp.magic ∧ hp'.ctx.hp = hp'.addr) (hpcNotifyAll evts) := by
        intro evts hp' h'
        refine (hpcNotifyAll_holds (b := False) hp' evts).mono (fun _ hp'' h'' => ?_)
          (fun _ h'' => h''.elim) fun _ _ => trivial
        exact h'' ▸ h'
      refine .bind .get fun _ => .ite (fun _ => .pure _) fun _ => ?_
      refine .bind (fun hp' h' => ⟨h'.1, h'.2.1, rfl⟩) fun _ => ?_
      refine .bind (.when fun _ => hnot _) fun _ => .bind (.when fun _ => ?_) fun _ => .pure _
      refine .bind (fun hp' h' => ?_) fun evts => hnot evts
      unfold onTable
      split
      · exact h'
      · exact h'
      · trivial
    refine (hpost hp ⟨rfl, rfl, h.own⟩).mono (fun _ hp' h' => ⟨fun hm => ?_, h'.2.2⟩)
      (fun _ _ => trivial) fun _ h => h
    rw [h'.1]
    exact Or.inl (h.rests.atStart (h'.2.1 ▸ hm) hop)

/-- What holds of a decoder between two calls of a run that leaves it where it is. -/
theorem decoder_ready {hp₀ hp : Hpack} (hnew : NewDecoder hp₀)
    (hrun : Reach DecOp.exec Steady hp₀ hp) : hp.Ready := by
  have h₀ : hp₀.Ready := by
    refine ⟨decoder_new hnew, ?_, ?_⟩
    · obtain ⟨mem, max, realloc, mon, blk, -, -, rfl⟩ := hnew.init
      exact .of_atStart ⟨rfl, rfl⟩
    · obtain ⟨mem, max, realloc, mon, blk, -, -, rfl⟩ := hnew.init
      rfl
  refine hrun.invariant h₀ fun op hp r hp' h hop hr => ?_
  have h₁ := fits_exec op h.sound False.elim
  have h₂ := ready_exec h hop
  rw [hr] at h₁ h₂
  exact ⟨h₁, h₂.1, h₂.2⟩

/-- A live decoder that is not in the middle of a block and has no message to skip is idle. -/
theorem Hpack.Ready.idle {hp : Hpack} (h : hp.Ready) (hm : hp.magic = .decoder)
    (hres : hp.ctx.res = .ok) (hbig : hp.ctx.tooBig = false) : hp.Idle :=
  ⟨hm, hres, hbig, h.own, (h.rests.atStart hm (Or.inl hres)).bsy⟩

end Cashpack
