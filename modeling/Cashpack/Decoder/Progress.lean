import Cashpack.Decoder.Blind
import Cashpack.Decoder.Int
import Cashpack.Prog.Keeps

/-!
# Where decoding stops and resumes

Every representation starts with no integer in progress and at the step `fldInt`, and decoding
it either takes at least one octet and comes back to such a state, or needs more octets and
leaves a state from which it can go on (`State.Saved`).

## Main results

* `hpackDecodeAny_progress` : decoding a representation, or the rest of one.
* `hpackDecodeLoop_fuel` : the loop of `hpack_decode` never runs out of turns.
-/

namespace Cashpack

open Prog

variable {α β : Type}

/-! ### Functions that take no octet -/

/-- The two states are at the same place of the same representation, with the same octets. -/
structure Hpack.Quiet (hp hp' : Hpack) : Prop where
  stp : hp'.state.stp = hp.state.stp
  idx : hp'.state.idx = hp.state.idx
  typ : hp'.state.typ = hp.state.typ
  bsy : hp'.state.bsy = hp.state.bsy
  len : hp'.state.str.len = hp.state.str.len
  blk : hp'.ctx.blk = hp.ctx.blk

theorem Hpack.Quiet.trans {hp hp' hp'' : Hpack} (h : hp.Quiet hp') (h' : hp'.Quiet hp'') :
    hp.Quiet hp'' :=
  ⟨h'.stp.trans h.stp, h'.idx.trans h.idx, h'.typ.trans h.typ, h'.bsy.trans h.bsy,
    h'.len.trans h.len, h'.blk.trans h.blk⟩

/-- `x` stays at the same place and does not ask for more octets. -/
def Calm (x : Cp α) : Prop :=
  ∀ hp, (x hp).Holds (fun _ hp' => hp.Quiet hp') (fun hp' => hp'.ctx.res.Fatal) fun _ => True

/-- An error that is fatal, or asks for more octets in a state where `E` holds. -/
def Asks (E : Hpack → Prop) (hp : Hpack) : Prop := hp.ctx.res.Fatal ∨ (hp.ctx.res = .buf ∧ E hp)

theorem Asks.mono {E E' : Hpack → Prop} {hp : Hpack} (h : Asks E hp) (hE : E hp → E' hp) :
    Asks E' hp :=
  h.imp_right (And.imp_right hE)

namespace Calm

theorem bind {x : Cp α} {f : α → Cp β} (hx : Calm x) (hf : ∀ a, Calm (f a)) :
    Calm (x >>= f) := by
  intro hp
  refine (hx hp).bind fun a hp' h => ?_
  exact (hf a hp').mono (fun _ _ h' => h.trans h') (fun _ h' => h') fun _ _ => trivial

theorem of_blind {x : Cp α} (hx : Blind x) : Calm x := by
  intro hp
  have h := hx hp hp.frame rfl
  cases hr : x hp with
  | ok a hp' =>
    rw [hr] at h
    obtain ⟨evts, hframe, -⟩ := h
    have hst : hp'.state = hp.state := congrArg Frame.state hframe
    have hblk : hp'.ctx.blk = hp.ctx.blk := congrArg Frame.blk hframe
    exact ⟨by rw [hst], by rw [hst], by rw [hst], by rw [hst], by rw [hst], hblk⟩
  | err hp' =>
    rw [hr] at h
    obtain ⟨-, -, hres, -⟩ := h
    exact hres
  | stop w => trivial

theorem get : Calm (get : Cp Hpack) := fun _ => ⟨rfl, rfl, rfl, rfl, rfl, rfl⟩

theorem pure (a : α) : Calm (Pure.pure a : Cp α) := fun _ => ⟨rfl, rfl, rfl, rfl, rfl, rfl⟩

theorem modify {f : Hpack → Hpack} (hf : ∀ hp : Hpack, hp.Quiet (f hp)) : Calm (modify f) := hf

theorem ite {c : Prop} [Decidable c] {x y : Cp α} (hx : Calm x) (hy : Calm y) :
    Calm (if c then x else y) := by
  split
  · exact hx
  · exact hy

/-- What a calm function leaves is where the rest starts. -/
theorem bind_holds {x : Cp α} {f : α → Cp β} {hp : Hpack} {Q : β → Hpack → Prop}
    {E : Hpack → Prop} (hx : Calm x)
    (hf : ∀ a hp', hp.Quiet hp' →
      (f a hp').Holds Q (Asks E) fun _ => True) :
    ((x >>= f) hp).Holds Q (Asks E) fun _ => True :=
  ((hx hp).mono (fun _ _ h => h) (fun _ h => Or.inl h) fun _ h => h).bind hf

end Calm

theorem calm_hphDecodeChr (oct : HphOct) : Calm (hphDecodeChr oct) := by
  unfold hphDecodeChr
  split
  · refine .bind (.of_blind (blind_hpdPutc _)) fun _ => .bind ?_ fun _ => .pure _
    exact .modify fun _ => ⟨rfl, rfl, rfl, rfl, rfl, rfl⟩
  · exact .pure _

theorem calm_hphDecodeLookup (eos : Bool) : Calm (hphDecodeLookup eos) := by
  have hloop : ∀ fuel eos, Calm (hphDecodeLookupLoop fuel eos) := by
    intro fuel
    induction fuel with
    | zero => exact fun _ _ => trivial
    | succ fuel ih =>
      intro eos
      rw [hphDecodeLookupLoop]
      refine .bind .get fun hp => ?_
      dsimp only
      split
      · exact fun _ => trivial
      · refine .ite ?_ (.pure _)
        split
        · exact fun _ => trivial
        · refine .bind (.of_blind (blind_expect (by decide) _)) fun _ => .ite (.pure _) ?_
          refine .bind (.modify fun _ => ⟨rfl, rfl, rfl, rfl, rfl, rfl⟩) fun _ => ?_
          refine .bind (calm_hphDecodeChr _) fun eos => ?_
          exact .bind (.modify fun _ => ⟨rfl, rfl, rfl, rfl, rfl, rfl⟩) fun _ => ih eos
  exact .bind .get fun hp => .bind (.of_blind (.assert _)) fun _ => hloop _ _

theorem calm_hphDecodePad : Calm hphDecodePad := by
  refine .bind .get fun hp => .ite ?_ (.of_blind (.assert _))
  exact .bind (.of_blind (.assert _)) fun _ => .of_blind (blind_expect (by decide) _)

/-! ### Integers -/

/-- The two states are at the same step of the same representation. -/
structure Hpack.Kept (hp hp' : Hpack) : Prop where
  stp : hp'.state.stp = hp.state.stp
  idx : hp'.state.idx = hp.state.idx
  typ : hp'.state.typ = hp.state.typ

theorem Hpack.Quiet.kept {hp hp' : Hpack} (h : hp.Quiet hp') : hp.Kept hp' :=
  ⟨h.stp, h.idx, h.typ⟩

theorem Hpack.Kept.trans {hp hp' hp'' : Hpack} (h : hp.Kept hp') (h' : hp'.Kept hp'') :
    hp.Kept hp'' :=
  ⟨h'.stp.trans h.stp, h'.idx.trans h.idx, h'.typ.trans h.typ⟩

/-- An integer takes at least one octet, or is in progress when there are no more octets. -/
theorem hpiDecode_progress (pfx : ℕ) (hp : Hpack) :
    (hpiDecode pfx hp).Holds
      (fun _ hp' => hp.Kept hp' ∧ hp'.state.bsy = false ∧
        hp'.ctx.blk.length < hp.ctx.blk.length)
      (Asks fun hp' => hp.Kept hp' ∧ hp'.state.bsy = true ∧ hp'.ctx.blk = [])
      fun _ => True := by
  have hloop : ∀ (blk : Octets) (i : IntState) (hp' : Hpack), hp.Kept hp' →
      hp'.state.bsy = true → blk.length ≤ hp.ctx.blk.length →
      (hpiDecodeLoop blk i hp').Holds
        (fun _ hp'' => hp.Kept hp'' ∧ hp''.state.bsy = false ∧
          hp''.ctx.blk.length < hp.ctx.blk.length)
        (Asks fun hp'' => hp.Kept hp'' ∧ hp''.state.bsy = true ∧ hp''.ctx.blk = [])
        fun _ => True := by
    intro blk i hp' hkept hbsy hle
    rw [hpiDecodeLoop_eq]
    cases hi : intLoop blk i with
    | more i' => exact Or.inr ⟨rfl, ⟨hkept.stp, hkept.idx, hkept.typ⟩, hbsy, rfl⟩
    | done i' rest =>
      obtain ⟨cs, rfl, hne⟩ := intLoop_done hi
      have := List.length_pos_of_ne_nil hne
      refine ⟨⟨hkept.stp, hkept.idx, hkept.typ⟩, rfl, ?_⟩
      simp only [List.length_append] at hle
      simp only
      omega
    | bad i' rest => exact Or.inl (show Res.int.Fatal by decide)
  unfold hpiDecode
  rw [bind_apply, assert_apply]
  split
  swap
  · trivial
  rw [Out.bind_ok, bind_apply, get_apply, Out.bind_ok, ite_run]
  split
  · rename_i hbsy
    rw [bind_apply, assert_apply]
    split
    · rw [Out.bind_ok, bind_apply, assert_apply]
      split
      · exact hloop _ _ hp ⟨rfl, rfl, rfl⟩ hbsy (Nat.le_refl _)
      · trivial
    · trivial
  · rename_i hbsy
    cases hblk : hp.ctx.blk with
    | nil => trivial
    | cons b blk =>
      simp only [bind_apply, modify_apply, Out.bind_ok, ite_run]
      split
      · exact ⟨⟨rfl, rfl, rfl⟩, by simpa using hbsy, by simp⟩
      · have := hloop blk ⟨b.toNat &&& hpiMask pfx, 0, 1⟩ { hp with
          state.magic := .int, state.bsy := true, ctx.blk := blk
          state.hpi := ⟨b.toNat &&& hpiMask pfx, 0, 1⟩ } ⟨rfl, rfl, rfl⟩ rfl (by simp [hblk])
        rwa [hblk] at this

/-! ### Strings -/

/-- The loop of `HPH_decode` takes the octets of the string that are there. -/
theorem hphDecodeLoop_progress (strLen len : ℕ) (eos : Bool) (hp : Hpack)
    (hlen : len = min strLen hp.ctx.blk.length) (hstr : hp.state.str.len = strLen) :
    (hphDecodeLoop strLen len eos hp).Holds
      (fun _ hp' => hp.Kept hp' ∧ hp'.state.bsy = hp.state.bsy ∧
        hp'.ctx.blk.length + strLen = hp.ctx.blk.length)
      (Asks fun hp' => hp.Kept hp' ∧ hp'.state.bsy = hp.state.bsy ∧ hp'.ctx.blk = [] ∧ 0 < hp'.state.str.len)
      fun _ => True := by
  induction strLen generalizing len eos hp with
  | zero => exact ⟨⟨rfl, rfl, rfl⟩, rfl, rfl⟩
  | succ strLen ih =>
    rw [hphDecodeLoop, bind_apply, expect_apply]
    split
    swap
    · rename_i h0
      refine Or.inr ⟨rfl, ⟨rfl, rfl, rfl⟩, rfl, ?_, ?_⟩
      · exact List.length_eq_zero_iff.1 (by simp only; omega)
      · simp only
        omega
    rw [Out.bind_ok, bind_apply, get_apply, Out.bind_ok, bind_apply, assert_apply]
    split
    swap
    · trivial
    rw [Out.bind_ok]
    cases hblk : hp.ctx.blk with
    | nil => trivial
    | cons b blk =>
      dsimp only
      rw [bind_apply, modify_apply, Out.bind_ok]
      refine (calm_hphDecodeLookup eos).bind_holds fun eos' hp' hq => ?_
      have hblk' : hp'.ctx.blk = blk := hq.blk
      refine (ih (len - 1) eos' hp' ?_ hq.len).mono ?_ ?_ fun _ h => h
      · rw [hblk'] at *
        rw [hlen, hblk, List.length_cons]
        omega
      · rintro _ hp'' ⟨hkept, hbsy, hl⟩
        refine ⟨⟨hkept.stp.trans hq.stp, hkept.idx.trans hq.idx, hkept.typ.trans hq.typ⟩,
          hbsy.trans hq.bsy, ?_⟩
        rw [hblk'] at hl
        rw [List.length_cons]
        omega
      · refine fun hp'' h => h.mono ?_
        rintro ⟨hkept, hbsy, hnil, hpos⟩
        exact ⟨⟨hkept.stp.trans hq.stp, hkept.idx.trans hq.idx, hkept.typ.trans hq.typ⟩,
          hbsy.trans hq.bsy, hnil, hpos⟩

/-- Decoding the octets of a string takes as many as it has, or all there are. -/
theorem hphDecode_progress (hp : Hpack) :
    (hphDecode hp.state.str.len hp).Holds
      (fun _ hp' => hp.Kept hp' ∧ hp'.state.bsy = hp.state.bsy ∧
        hp'.ctx.blk.length + hp.state.str.len = hp.ctx.blk.length)
      (Asks fun hp' => hp.Kept hp' ∧ hp'.state.bsy = hp.state.bsy ∧ hp'.ctx.blk = [] ∧ 0 < hp'.state.str.len)
      fun _ => True := by
  rw [hphDecode, bind_apply, get_apply, Out.bind_ok]
  have hwhen : Calm (Prog.when (hp.state.str.dec = none)
      (modify fun hp => { hp with state.str.dec := some hphDec0 })) :=
    .ite (.modify fun _ => ⟨rfl, rfl, rfl, rfl, rfl, rfl⟩) (.pure _)
  refine hwhen.bind_holds fun _ hp₁ hq => ?_
  rw [bind_apply]
  refine ((hphDecodeLoop_progress _ _ false hp₁ ?_ hq.len).mono (fun _ _ h => h) ?_
    fun _ h => h).bind ?_
  · rw [hq.blk]
  · refine fun hp₂ h => h.mono ?_
    rintro ⟨hkept, hbsy, hnil, hpos⟩
    exact ⟨hq.kept.trans hkept, hbsy.trans hq.bsy, hnil, hpos⟩
  rintro eos hp₂ ⟨hkept, hbsy, hl⟩
  have hend : Calm (do expect .huf (eos = false); hphDecodePad; hpdPutc 0) :=
    .bind (.of_blind (blind_expect (by decide) _)) fun _ => .bind calm_hphDecodePad fun _ =>
      .of_blind (blind_hpdPutc 0)
  refine (hend hp₂).mono (fun _ hp₃ hq' => ?_) (fun _ h => Or.inl h) fun _ h => h
  exact ⟨hq.kept.trans (hkept.trans hq'.kept), hq'.bsy.trans (hbsy.trans hq.bsy), by
    rw [hq'.blk, hl, hq.blk]⟩

theorem hpackDecodeRawString_progress (hp : Hpack) :
    (hpackDecodeRawString hp.state.str.len hp).Holds
      (fun _ hp' => hp.Kept hp' ∧ hp'.state.bsy = hp.state.bsy ∧
        hp'.ctx.blk.length + hp.state.str.len = hp.ctx.blk.length)
      (Asks fun hp' => hp.Kept hp' ∧ hp'.state.bsy = hp.state.bsy ∧ hp'.ctx.blk = [] ∧ 0 < hp'.state.str.len)
      fun _ => True := by
  rw [hpackDecodeRawString, bind_apply, get_apply, Out.bind_ok]
  have hcat := blind_hpdCat (hp.ctx.blk.take (min hp.state.str.len hp.ctx.blk.length))
  have hputc := Blind.when (c := hp.state.str.len ≤ hp.ctx.blk.length) fun _ => blind_hpdPutc 0
  refine (Calm.of_blind hcat).bind_holds fun _ hp₀ hq₀ => ?_
  refine (Calm.of_blind hputc).bind_holds fun _ hp₁ hq₁ => ?_
  rw [bind_apply, modify_apply, Out.bind_ok, bind_apply, get_apply, Out.bind_ok, expect_apply]
  have hq := hq₀.trans hq₁
  have hl := hq.len
  have hb := congrArg List.length hq.blk
  split
  · rename_i h0
    refine ⟨⟨hq.stp, hq.idx, hq.typ⟩, hq.bsy, ?_⟩
    simp only [List.length_drop] at h0 ⊢
    omega
  · rename_i h0
    refine Or.inr ⟨rfl, ⟨hq.stp, hq.idx, hq.typ⟩, hq.bsy, List.drop_eq_nil_of_le ?_, ?_⟩
    · simp only at h0
      omega
    · exact Nat.pos_of_ne_zero h0

/-- The step that decodes the length of a string. -/
def StrEvt.lenStp : StrEvt → Step
  | .name => .namLen
  | .value => .valLen

/-- The step that decodes the octets of a string. -/
def StrEvt.strStp : StrEvt → Step
  | .name => .namStr
  | .value => .valStr

/-- A string is being decoded: its length, or its octets, of which some are missing. -/
def State.InStr (evt : StrEvt) (st : State) : Prop :=
  st.stp = evt.lenStp ∨ (st.stp = evt.strStp ∧ st.bsy = false ∧ 0 < st.str.len)

theorem hpackDecodeStringLen_progress {evt : StrEvt} {hp : Hpack}
    (hstp : hp.state.stp = evt.lenStp) :
    (hpackDecodeStringLen evt hp).Holds
      (fun _ hp' => hp'.state.stp = evt.strStp ∧ hp'.state.bsy = false ∧
        hp'.state.idx = hp.state.idx ∧ hp'.state.typ = hp.state.typ ∧
        hp'.ctx.blk.length < hp.ctx.blk.length)
      (Asks fun hp' => hp'.state.InStr evt ∧ hp'.state.idx = hp.state.idx ∧ hp'.state.typ = hp.state.typ ∧
        hp'.ctx.blk = [])
      fun _ => True := by
  have hnext : evt.lenStp.next = evt.strStp := by cases evt <;> rfl
  rw [hpackDecodeStringLen, bind_apply, get_apply, Out.bind_ok, bind_apply]
  refine ((hpiDecode_progress _ hp).mono (fun _ _ h => h) ?_ fun _ h => h).bind ?_
  · refine fun hp₁ h => h.mono ?_
    rintro ⟨hkept, hbsy, hnil⟩
    exact ⟨Or.inl (hkept.stp.trans hstp), hkept.idx, hkept.typ, hnil⟩
  rintro len hp₁ ⟨hkept, hbsy, hlt⟩
  rw [bind_apply, modify_apply, Out.bind_ok]
  have hhuf : Calm (Prog.when (hp.ctx.blk.headD 0 &&& Hpp.huf.pat ≠ 0) <| modify fun hp =>
      { hp with state.str.dec := none, state.str.blen := 0, state.str.bits := 0 }) :=
    .ite (.modify fun _ => ⟨rfl, rfl, rfl, rfl, rfl, rfl⟩) (.pure _)
  have hname := Blind.when (c := evt = .name) fun _ => blind_expect (r := .len) (by decide)
    (0 < len)
  refine hhuf.bind_holds fun _ hp₂ hq₂ => (Calm.of_blind hname).bind_holds fun _ hp₃ hq₃ => ?_
  have hq := hq₂.trans hq₃
  have hstp₃ : hp₃.state.stp = evt.strStp := hq.stp.trans (by rw [← hnext, ← hstp, ← hkept.stp])
  have hbsy₃ : hp₃.state.bsy = false := hq.bsy.trans hbsy
  have hblk₃ : hp₃.ctx.blk = hp₁.ctx.blk := hq.blk
  have hidx₃ : hp₃.state.idx = hp.state.idx := hq.idx.trans hkept.idx
  have htyp₃ : hp₃.state.typ = hp.state.typ := hq.typ.trans hkept.typ
  rw [when_apply]
  split
  · rename_i hlen
    rw [bind_apply, get_apply, Out.bind_ok, expect_apply]
    split
    · exact ⟨hstp₃, hbsy₃, hidx₃, htyp₃, hblk₃ ▸ hlt⟩
    · rename_i hnil
      exact Or.inr ⟨rfl, Or.inr ⟨hstp₃, hbsy₃, hq.len.symm ▸ hlen⟩, hidx₃, htyp₃, not_not.1 hnil⟩
  · exact ⟨hstp₃, hbsy₃, hidx₃, htyp₃, hblk₃ ▸ hlt⟩

/-- The end of `hpack_decode_string`, which decodes the octets. -/
theorem hpackDecodeString_end (evt : StrEvt) (hp : Hpack) :
    ((do
        let hp ← get
        assert (0 < hp.state.str.len ∨ evt ≠ .name)
        if hp.state.magic = .huf then hphDecode hp.state.str.len
        else do
          assert (hp.state.magic = .str)
          hpackDecodeRawString hp.state.str.len : Cp Unit) hp).Holds
      (fun _ hp' => hp.Kept hp' ∧ hp'.state.bsy = hp.state.bsy ∧
        hp'.ctx.blk.length + hp.state.str.len = hp.ctx.blk.length)
      (Asks fun hp' => hp.Kept hp' ∧ hp'.state.bsy = hp.state.bsy ∧ hp'.ctx.blk = [] ∧ 0 < hp'.state.str.len)
      fun _ => True := by
  rw [bind_apply, get_apply, Out.bind_ok]
  refine .assert_bind trivial fun _ => ?_
  rw [ite_run]
  split
  · exact hphDecode_progress hp
  · exact .assert_bind trivial fun _ => hpackDecodeRawString_progress hp

/-- A string takes at least one octet, or is being decoded when there are no more octets. -/
theorem hpackDecodeString_progress {evt : StrEvt} {hp : Hpack} (h : hp.state.InStr evt) :
    (hpackDecodeString evt hp).Holds
      (fun _ hp' => hp'.state.stp = evt.strStp ∧ hp'.state.bsy = false ∧
        hp'.state.idx = hp.state.idx ∧ hp'.state.typ = hp.state.typ ∧
        hp'.ctx.blk.length < hp.ctx.blk.length)
      (Asks fun hp' => hp'.state.InStr evt ∧ hp'.state.idx = hp.state.idx ∧ hp'.state.typ = hp.state.typ ∧
        hp'.ctx.blk = [])
      fun _ => True := by
  have hlens : evt.lenStp = .namLen ∨ evt.lenStp = .valLen := by
    cases evt
    · exact Or.inl rfl
    · exact Or.inr rfl
  have hstrs : ¬ (evt.strStp = .namLen ∨ evt.strStp = .valLen) := by
    cases evt <;> simp [StrEvt.strStp]
  rw [hpackDecodeString, bind_apply, get_apply, Out.bind_ok, bind_apply, expect_apply]
  split
  swap
  · exact Or.inr ⟨rfl, h, rfl, rfl, not_not.1 ‹_›⟩
  refine .assert_bind trivial fun _ => ?_
  rw [bind_apply, when_apply]
  rcases h with h | ⟨h, hbsy, hlen⟩
  · rw [if_pos (h ▸ hlens)]
    refine (hpackDecodeStringLen_progress h).bind fun _ hp₁ h₁ => ?_
    obtain ⟨hstp, hbsy, hidx, htyp, hlt⟩ := h₁
    refine (hpackDecodeString_end evt hp₁).mono ?_ ?_ fun _ h => h
    · rintro _ hp' ⟨hkept, hb, hl⟩
      exact ⟨hkept.stp.trans hstp, hb.trans hbsy, hkept.idx.trans hidx, hkept.typ.trans htyp,
        by omega⟩
    · refine fun hp' h' => h'.mono ?_
      rintro ⟨hkept, hb, hnil, hpos⟩
      exact ⟨Or.inr ⟨hkept.stp.trans hstp, hb.trans hbsy, hpos⟩, hkept.idx.trans hidx,
        hkept.typ.trans htyp, hnil⟩
  · rw [if_neg (h ▸ hstrs), Out.bind_ok]
    refine (hpackDecodeString_end evt hp).mono ?_ ?_ fun _ h => h
    · rintro _ hp' ⟨hkept, hb, hl⟩
      exact ⟨hkept.stp.trans h, hb.trans hbsy, hkept.idx, hkept.typ, by omega⟩
    · refine fun hp' h' => h'.mono ?_
      rintro ⟨hkept, hb, hnil, hpos⟩
      exact ⟨Or.inr ⟨hkept.stp.trans h, hb.trans hbsy, hpos⟩, hkept.idx, hkept.typ, hnil⟩

/-! ### Fields -/

/-- No representation is in progress. -/
structure State.AtStart (st : State) : Prop where
  bsy : st.bsy = false
  stp : st.stp = .fldInt

/-- The first octet of a representation with a literal value. -/
def IsLiteral (typ : UInt8) : Prop :=
  Hpp.idx.matches typ = false ∧ (Hpp.dyn.matches typ = true ∨ Hpp.upd.matches typ = false)

/-- A name that is not in a table, or a value, is being decoded. -/
def State.InField (st : State) : Prop :=
  (st.idx = 0 ∧ st.InStr .name) ∨ st.InStr .value

theorem hpackDecodeFieldName_progress {hp : Hpack}
    (h : (hp.state.idx = 0 ∧ hp.state.InStr .name) ∨
      (hp.state.idx ≠ 0 ∧ hp.state.bsy = false)) :
    (hpackDecodeFieldName hp).Holds
      (fun _ hp' => hp'.state.stp = .valLen ∧ hp'.state.typ = hp.state.typ ∧
        hp'.ctx.blk.length ≤ hp.ctx.blk.length)
      (Asks fun hp' => (hp'.state.idx = 0 ∧ hp'.state.InStr .name) ∧ hp'.state.typ = hp.state.typ ∧
        hp'.ctx.blk = [])
      fun _ => True := by
  have hend : ∀ hp' : Hpack, ((do
      let hp ← get
      hpvToken hp.ctx.fld.nam hp.ctx.fld.namSz
      modify fun hp => { hp with
        ctx.fld.val := .out hp.ctx.out.length, state.stp := .valLen } : Cp Unit) hp').Holds
      (fun _ hp'' => hp''.state.stp = .valLen ∧ hp''.state.typ = hp'.state.typ ∧
        hp''.ctx.blk = hp'.ctx.blk)
      (fun hp'' => hp''.ctx.res.Fatal) fun _ => True := by
    intro hp'
    rw [bind_apply, get_apply, Out.bind_ok]
    refine ((Calm.of_blind (blind_hpvToken _ _)) hp').bind fun _ hp'' hq => ?_
    exact ⟨rfl, hq.typ, hq.blk⟩
  rw [hpackDecodeFieldName, bind_apply, get_apply, Out.bind_ok, bind_apply, ite_run]
  rcases h with ⟨h0, h⟩ | ⟨h0, hbsy⟩
  · rw [if_pos h0]
    have hnew : (hpackDecodeNewName hp).Holds
        (fun _ hp' => hp'.state.typ = hp.state.typ ∧ hp'.ctx.blk.length < hp.ctx.blk.length)
        (Asks fun hp' => (hp'.state.idx = 0 ∧ hp'.state.InStr .name) ∧ hp'.state.typ = hp.state.typ ∧
          hp'.ctx.blk = [])
        fun _ => True := by
      rw [hpackDecodeNewName, bind_apply]
      refine ((hpackDecodeString_progress h).mono (fun _ _ h => h) ?_ fun _ h => h).bind ?_
      · refine fun hp' h' => h'.mono ?_
        rintro ⟨hin, hidx, htyp, hnil⟩
        exact ⟨⟨hidx.trans h0, hin⟩, htyp, hnil⟩
      · rintro _ hp₁ ⟨-, -, -, htyp, hlt⟩
        rw [bind_apply, get_apply, Out.bind_ok]
        refine (Calm.of_blind (blind_bufDiff _)).bind_holds fun _ hp₂ hq => ?_
        exact ⟨hq.typ.trans htyp, hq.blk.symm ▸ hlt⟩
    refine hnew.bind fun _ hp₁ h₁ => (hend hp₁).mono ?_ (fun _ h => Or.inl h) fun _ h => h
    rintro _ hp' ⟨hstp, htyp, hblk⟩
    exact ⟨hstp, htyp.trans h₁.1, hblk.symm ▸ Nat.le_of_lt h₁.2⟩
  · rw [if_neg h0]
    refine (((Calm.of_blind blind_hptDecodeName) hp).mono (fun _ _ h => h)
      (fun _ h => Or.inl h) fun _ h => h).bind fun _ hp₁ hq => ?_
    refine (hend hp₁).mono ?_ (fun _ h => Or.inl h) fun _ h => h
    rintro _ hp' ⟨hstp, htyp, hblk⟩
    exact ⟨hstp, htyp.trans hq.typ, (hblk.trans hq.blk) ▸ Nat.le_refl _⟩

theorem hpackDecodeFieldValue_progress {hp : Hpack} (h : hp.state.InStr .value) :
    (hpackDecodeFieldValue hp).Holds
      (fun _ hp' => hp'.state.AtStart ∧ hp'.state.typ = hp.state.typ ∧
        hp'.ctx.blk.length < hp.ctx.blk.length)
      (Asks fun hp' => hp'.state.InField ∧ hp'.state.typ = hp.state.typ ∧ hp'.ctx.blk = [])
      fun _ => True := by
  rw [hpackDecodeFieldValue, bind_apply]
  refine ((hpackDecodeString_progress h).mono (fun _ _ h => h) ?_ fun _ h => h).bind ?_
  · refine fun hp' h' => h'.mono ?_
    rintro ⟨hin, -, htyp, hnil⟩
    exact ⟨Or.inr hin, htyp, hnil⟩
  rintro _ hp₁ ⟨-, hbsy, -, htyp, hlt⟩
  rw [bind_apply, get_apply, Out.bind_ok]
  refine (Calm.of_blind (blind_bufDiff _)).bind_holds fun d hp₂ hq₂ => ?_
  rw [bind_apply, modify_apply, Out.bind_ok, bind_apply, get_apply, Out.bind_ok]
  refine (Calm.of_blind (blind_hpvValue _ _)).bind_holds fun _ hp₃ hq₃ => ?_
  refine (Calm.of_blind blind_hpdNotify).bind_holds fun _ hp₄ hq₄ => ?_
  exact ⟨⟨(hq₄.bsy.trans hq₃.bsy).trans (hq₂.bsy.trans hbsy), rfl⟩,
    (hq₄.typ.trans hq₃.typ).trans (hq₂.typ.trans htyp),
    ((hq₄.blk.trans hq₃.blk).trans hq₂.blk).symm ▸ hlt⟩

theorem hpackDecodeField_progress {hp : Hpack}
    (h : hp.state.AtStart ∨ hp.state.InField) :
    (hpackDecodeField hp).Holds
      (fun _ hp' => hp'.state.AtStart ∧ hp'.state.typ = hp.state.typ ∧
        hp'.ctx.blk.length < hp.ctx.blk.length)
      (Asks fun hp' => hp'.state.InField ∧ hp'.state.typ = hp.state.typ ∧ hp'.ctx.blk = [])
      fun _ => True := by
  -- the name first, when it is the next step
  have hname : ∀ hp₁ : Hpack, (hp₁.state.stp = .namLen ∨ hp₁.state.stp = .namStr) →
      ((hp₁.state.idx = 0 ∧ hp₁.state.InStr .name) ∨
        (hp₁.state.idx ≠ 0 ∧ hp₁.state.bsy = false)) →
      hp₁.state.typ = hp.state.typ → hp₁.ctx.blk = hp.ctx.blk →
      ((do
        let hp ← get
        Prog.when (hp.state.stp = .namLen ∨ hp.state.stp = .namStr) hpackDecodeFieldName
        hpackDecodeFieldValue : Cp Unit) hp₁).Holds
        (fun _ hp' => hp'.state.AtStart ∧ hp'.state.typ = hp.state.typ ∧
          hp'.ctx.blk.length < hp.ctx.blk.length)
        (Asks fun hp' => hp'.state.InField ∧ hp'.state.typ = hp.state.typ ∧ hp'.ctx.blk = [])
        fun _ => True := by
    intro hp₁ hstp h₁ htyp hblk
    rw [bind_apply, get_apply, Out.bind_ok, bind_apply, when_apply, if_pos hstp]
    refine ((hpackDecodeFieldName_progress h₁).mono (fun _ _ h => h) ?_ fun _ h => h).bind ?_
    · refine fun hp' h' => h'.mono ?_
      rintro ⟨hin, ht, hnil⟩
      exact ⟨Or.inl hin, ht.trans htyp, hnil⟩
    · rintro _ hp₂ ⟨hstp₂, htyp₂, hle⟩
      refine (hpackDecodeFieldValue_progress (Or.inl hstp₂)).mono ?_ ?_ fun _ h => h
      · rintro _ hp' ⟨hst, ht, hlt⟩
        exact ⟨hst, ht.trans (htyp₂.trans htyp), by rw [hblk] at hle; omega⟩
      · refine fun hp' h' => h'.mono ?_
        rintro ⟨hin, ht, hnil⟩
        exact ⟨hin, ht.trans (htyp₂.trans htyp), hnil⟩
  rw [hpackDecodeField, bind_apply, get_apply, Out.bind_ok, bind_apply, when_apply]
  rcases h with h | ⟨h0, h⟩ | h
  · rw [if_pos h.stp, modify_apply, Out.bind_ok]
    by_cases h0 : hp.state.idx = 0
    · exact hname _ (Or.inl rfl) (Or.inl ⟨h0, Or.inl rfl⟩) rfl rfl
    · exact hname _ (Or.inl rfl) (Or.inr ⟨h0, h.bsy⟩) rfl rfl
  · have hstp : hp.state.stp = .namLen ∨ hp.state.stp = .namStr := h.imp id And.left
    have hne : ¬ hp.state.stp = .fldInt := by rcases hstp with h | h <;> simp [h]
    rw [if_neg hne, Out.bind_ok]
    exact hname hp hstp (Or.inl ⟨h0, h⟩) rfl rfl
  · have hstp : hp.state.stp = .valLen ∨ hp.state.stp = .valStr := h.imp id And.left
    have hne : ¬ hp.state.stp = .fldInt := by rcases hstp with h | h <;> simp [h]
    have hne' : ¬ (hp.state.stp = .namLen ∨ hp.state.stp = .namStr) := by
      rcases hstp with h | h <;> simp [h]
    rw [if_neg hne, Out.bind_ok, bind_apply, get_apply, Out.bind_ok, bind_apply, when_apply,
      if_neg hne', Out.bind_ok]
    exact hpackDecodeFieldValue_progress h

/-! ### Representations -/

/-- What is left of a representation can be decoded from this state, and another one cannot
start before. -/
structure State.Mid (st : State) : Prop where
  notStart : ¬ st.AtStart
  lit : st.stp ≠ .fldInt → IsLiteral st.typ ∧ st.InField

/-- Decoding can go on from this state: a representation starts, or goes on. -/
def State.Saved (st : State) : Prop := st.AtStart ∨ st.Mid

theorem State.InField.mid {st : State} (h : st.InField) (hlit : IsLiteral st.typ) : st.Mid where
  notStart hst := by
    rcases h with ⟨-, h | h⟩ | h | h <;> rw [hst.stp] at h <;> simp [StrEvt.lenStp, StrEvt.strStp] at h
  lit _ := ⟨hlit, h⟩

/-- What decoding a representation does to the state. -/
def Progress (x : Cp Unit) (hp : Hpack) : Prop :=
  (x hp).Holds
    (fun _ hp' => hp'.state.AtStart ∧ hp'.state.typ = hp.state.typ ∧
      hp'.ctx.blk.length < hp.ctx.blk.length)
    (Asks fun hp' => hp'.state.Mid ∧ hp'.state.typ = hp.state.typ ∧ hp'.ctx.blk = [])
    fun _ => True

/-- An integer in progress is the first of its representation. -/
theorem mid_of_int {st : State} (hstp : st.stp = .fldInt) (hbsy : st.bsy = true) : st.Mid where
  notStart h := by simp [h.bsy] at hbsy
  lit h := absurd hstp h

theorem calm_hpackDecoderField (idx : ℕ) : Calm (hpackDecoderField idx) :=
  .bind .get fun _ => .bind (.of_blind (.assert _)) fun _ => .of_blind (blind_hpcNotify _)

theorem hpackDecodeIndexed_progress {hp : Hpack} (hstp : hp.state.stp = .fldInt) :
    Progress hpackDecodeIndexed hp := by
  unfold Progress
  rw [hpackDecodeIndexed, bind_apply]
  refine ((hpiDecode_progress _ hp).mono (fun _ _ h => h) ?_ fun _ h => h).bind ?_
  · refine fun hp' h => h.mono ?_
    rintro ⟨hkept, hbsy, hnil⟩
    exact ⟨mid_of_int (hkept.stp.trans hstp) hbsy, hkept.typ, hnil⟩
  rintro idx hp₁ ⟨hkept, hbsy, hlt⟩
  have hend : Calm (do hpackDecoderField idx; hptDecode idx) :=
    .bind (calm_hpackDecoderField idx) fun _ => .of_blind (blind_hptDecode idx)
  refine (hend hp₁).mono (fun _ hp' hq => ?_) (fun _ h => Or.inl h) fun _ h => h
  exact ⟨⟨hq.bsy.trans hbsy, hq.stp.trans (hkept.stp.trans hstp)⟩, hq.typ.trans hkept.typ,
    hq.blk.symm ▸ hlt⟩

theorem hpackDecodeUpdate_progress {hp : Hpack} (hstp : hp.state.stp = .fldInt) :
    Progress hpackDecodeUpdate hp := by
  unfold Progress
  rw [hpackDecodeUpdate, bind_apply, get_apply, Out.bind_ok]
  refine (Calm.of_blind (blind_expect (by decide) _)).bind_holds fun _ hp₀ hq₀ => ?_
  rw [bind_apply]
  refine ((hpiDecode_progress _ hp₀).mono (fun _ _ h => h) ?_ fun _ h => h).bind ?_
  · refine fun hp' h => h.mono ?_
    rintro ⟨hkept, hbsy, hnil⟩
    exact ⟨mid_of_int (hkept.stp.trans (hq₀.stp.trans hstp)) hbsy, hkept.typ.trans hq₀.typ, hnil⟩
  rintro n hp₁ ⟨hkept, hbsy, hlt⟩
  have hend : Calm (do hpackDecodeResize n; hpackDecodeLimit n) :=
    .bind (.of_blind (blind_hpackDecodeResize n)) fun _ => .of_blind (blind_hpackDecodeLimit n)
  refine (hend hp₁).mono (fun _ hp' hq => ?_) (fun _ h => Or.inl h) fun _ h => h
  exact ⟨⟨hq.bsy.trans hbsy, hq.stp.trans (hkept.stp.trans (hq₀.stp.trans hstp))⟩,
    hq.typ.trans (hkept.typ.trans hq₀.typ), by rw [hq.blk, ← hq₀.blk]; exact hlt⟩

/-- The start of a literal, when it is the next step. -/
theorem hpackDecodeLiteralIdx_progress {hp : Hpack} (p : Hpp) (hstp : hp.state.stp = .fldInt) :
    (hpackDecodeLiteralIdx p hp).Holds
      (fun _ hp' => hp'.state.AtStart ∧ hp'.state.typ = hp.state.typ ∧
        hp'.ctx.blk.length < hp.ctx.blk.length)
      (Asks fun hp' => hp'.state.Mid ∧ hp'.state.typ = hp.state.typ ∧ hp'.ctx.blk = [])
      fun _ => True := by
  rw [hpackDecodeLiteralIdx, bind_apply]
  refine ((hpiDecode_progress _ hp).mono (fun _ _ h => h) ?_ fun _ h => h).bind ?_
  · refine fun hp' h => h.mono ?_
    rintro ⟨hkept, hbsy, hnil⟩
    exact ⟨mid_of_int (hkept.stp.trans hstp) hbsy, hkept.typ, hnil⟩
  rintro idx hp₁ ⟨hkept, hbsy, hlt⟩
  rw [bind_apply, modify_apply, Out.bind_ok]
  refine ((calm_hpackDecoderField 0) _).mono (fun _ hp' hq => ?_) (fun _ h => Or.inl h)
    fun _ h => h
  exact ⟨⟨hq.bsy.trans hbsy, hq.stp.trans (hkept.stp.trans hstp)⟩, hq.typ.trans hkept.typ,
    hq.blk.symm ▸ hlt⟩

/-- A literal is its start `start`, the field, then `finish`. -/
theorem literal_progress {hp : Hpack} {start finish : Cp Unit} (hlit : IsLiteral hp.state.typ)
    (hsaved : hp.state.Saved) (hstart : hp.state.stp = .fldInt → Progress start hp)
    (hfinish : Calm finish) :
    Progress (do
      let hp ← get
      Prog.when (hp.state.stp = .fldInt) start
      hpackDecodeField
      finish) hp := by
  have hend : ∀ hp₁ : Hpack, (hp₁.state.AtStart ∨ hp₁.state.InField) →
      hp₁.state.typ = hp.state.typ → hp₁.ctx.blk.length ≤ hp.ctx.blk.length →
      ((do hpackDecodeField; finish : Cp Unit) hp₁).Holds
        (fun _ hp' => hp'.state.AtStart ∧ hp'.state.typ = hp.state.typ ∧
          hp'.ctx.blk.length < hp.ctx.blk.length)
        (Asks fun hp' => hp'.state.Mid ∧ hp'.state.typ = hp.state.typ ∧ hp'.ctx.blk = [])
        fun _ => True := by
    intro hp₁ h₁ htyp hle
    rw [bind_apply]
    refine ((hpackDecodeField_progress h₁).mono (fun _ _ h => h) ?_ fun _ h => h).bind ?_
    · refine fun hp' h => h.mono ?_
      rintro ⟨hin, ht, hnil⟩
      have ht' := ht.trans htyp
      exact ⟨hin.mid (ht'.symm ▸ hlit), ht', hnil⟩
    · rintro _ hp₂ ⟨hst, ht, hlt⟩
      refine (hfinish hp₂).mono (fun _ hp' hq => ?_) (fun _ h => Or.inl h) fun _ h => h
      exact ⟨⟨hq.bsy.trans hst.bsy, hq.stp.trans hst.stp⟩, hq.typ.trans (ht.trans htyp), by
        rw [hq.blk]; omega⟩
  unfold Progress
  rw [bind_apply, get_apply, Out.bind_ok, bind_apply, when_apply]
  by_cases hstp : hp.state.stp = .fldInt
  · rw [if_pos hstp]
    refine Out.Holds.bind (hstart hstp) fun _ hp₁ h₁ => ?_
    exact hend hp₁ (Or.inl h₁.1) h₁.2.1 (Nat.le_of_lt h₁.2.2)
  · rw [if_neg hstp, Out.bind_ok]
    refine hend hp (Or.inr ?_) rfl (Nat.le_refl _)
    rcases hsaved with h | h
    · exact absurd h.stp hstp
    · exact (h.lit hstp).2

/-- **Decoding a representation**, or the rest of one, ends at the start of the next one and
took at least one octet, or took all the octets and can go on with others. -/
theorem hpackDecodeAny_progress {hp : Hpack} (h : hp.state.Saved) :
    Progress (hpackDecodeAny hp.state.typ) hp := by
  have hstp : ¬ IsLiteral hp.state.typ → hp.state.stp = .fldInt := by
    intro hlit
    rcases h with h | h
    · exact h.stp
    · by_contra hne
      exact hlit (h.lit hne).1
  have hstart : ∀ p, hp.state.stp = .fldInt → Progress (hpackDecodeLiteralIdx p) hp :=
    fun p hstp => hpackDecodeLiteralIdx_progress p hstp
  unfold hpackDecodeAny
  split
  · rename_i hidx
    exact hpackDecodeIndexed_progress (hstp fun hlit => by simp [IsLiteral, hidx] at hlit)
  rename_i hidx
  split
  · rename_i hdyn
    exact literal_progress ⟨by simpa using hidx, Or.inl hdyn⟩ h (hstart .dyn) (.of_blind blind_hptIndex)
  rename_i hdyn
  split
  · rename_i hupd
    exact hpackDecodeUpdate_progress (hstp fun hlit => by simp [IsLiteral, hdyn, hupd] at hlit)
  rename_i hupd
  have hlit : IsLiteral hp.state.typ := ⟨by simpa using hidx, Or.inr (by simpa using hupd)⟩
  split
  · have hnvr : hp.state.stp = .fldInt →
        Progress (do hpackDecodeLiteralIdx .nvr; hpcNotify .never) hp := by
      intro hstp
      unfold Progress
      rw [bind_apply]
      refine (hstart .nvr hstp).bind fun _ hp₁ h₁ => ?_
      refine ((Calm.of_blind (blind_hpcNotify _)) hp₁).mono (fun _ hp' hq => ?_)
        (fun _ h => Or.inl h) fun _ h => h
      exact ⟨⟨hq.bsy.trans h₁.1.bsy, hq.stp.trans h₁.1.stp⟩, hq.typ.trans h₁.2.1,
        hq.blk.symm ▸ h₁.2.2⟩
    have := literal_progress hlit h hnvr (.pure ())
    simp only [bind_pure_unit] at this
    exact this
  · have := literal_progress hlit h (hstart .lit) (.pure ())
    simp only [bind_pure_unit] at this
    exact this

/-! ### Blocks -/

/-- The first octet of the representation to decode in this state. -/
def Hpack.typ (hp : Hpack) : UInt8 :=
  if hp.state.bsy = false ∧ hp.state.stp = .fldInt then hp.ctx.blk.headD 0 else hp.state.typ

/-- Before a turn, the first octet of a new representation is saved. -/
theorem hpackDecodeTyp_eq {hp : Hpack} (hblk : hp.ctx.blk ≠ []) :
    hpackDecodeTyp hp = .ok () { hp with state.typ := hp.typ } := by
  rw [hpackDecodeTyp, bind_apply, get_apply, Out.bind_ok, when_apply, Hpack.typ]
  split
  · cases hb : hp.ctx.blk with
    | nil => exact absurd hb hblk
    | cons b blk => rfl
  · rfl

theorem Hpack.saved_typ {hp : Hpack} (h : hp.state.Saved) :
    State.Saved { hp.state with typ := hp.typ } := by
  rcases h with h | h
  · exact Or.inl ⟨h.bsy, h.stp⟩
  · have hst : ¬ (hp.state.bsy = false ∧ hp.state.stp = .fldInt) := fun h' => h.notStart ⟨h'.1, h'.2⟩
    rw [Hpack.typ, if_neg hst]
    exact Or.inr h

/-- Where a turn of the loop ends: it goes on with another representation, and fewer octets; it
took all the octets and needs more; or it leaves a defunct codec. -/
def TurnEnd (n : ℕ) (r : Option Res) (hp : Hpack) : Prop :=
  match r with
  | none => hp.state.AtStart ∧ hp.ctx.blk.length < n
  | some .blk => hp.state.Mid ∧ hp.ctx.blk = [] ∧ hp.ctx.res = .blk
  | some r => r.val < 0 ∧ hp.magic = .defunct

theorem TurnEnd.of_neg {n : ℕ} {r : Res} {hp : Hpack} (h : r.val < 0) (hm : hp.magic = .defunct) :
    TurnEnd n (some r) hp := by
  cases r <;> first | exact ⟨h, hm⟩ | exact absurd h (by decide)

theorem hpackDecodeRep_progress (cut : Bool) (hp : Hpack) (h : hp.state.Saved) :
    (hpackDecodeRep cut hp.state.typ hp).Holds (TurnEnd hp.ctx.blk.length) (fun _ => False)
      fun _ => True := by
  have hany := hpackDecodeAny_progress h
  unfold Progress at hany
  rw [hpackDecodeRep, bind_apply, attempt_apply]
  cases hr : hpackDecodeAny hp.state.typ hp with
  | ok a hp' =>
    rw [hr] at hany
    exact ⟨⟨hany.1.bsy, hany.1.stp⟩, hany.2.2⟩
  | stop w => trivial
  | err hp' =>
    rw [hr] at hany
    refine .assert_bind trivial fun _ => ?_
    rw [ite_run]
    split
    · rename_i hbuf
      rcases hany with hf | ⟨-, hmid, -, hnil⟩
      · exact absurd hf (by rw [hbuf.2]; decide)
      · exact ⟨hmid, hnil, rfl⟩
    · refine .of_neg ?_ rfl
      rcases hany with hf | ⟨hbuf, -⟩
      · exact Int.lt_trans hf (by decide)
      · rw [hbuf]
        decide

theorem hpackDecodeTurn_progress (cut : Bool) {hp : Hpack} (h : hp.state.Saved)
    (hblk : hp.ctx.blk ≠ []) :
    (hpackDecodeTurn cut hp).Holds (TurnEnd hp.ctx.blk.length) (fun _ => False)
      fun _ => True := by
  rw [hpackDecodeTurn, bind_apply, hpackDecodeTyp_eq hblk, Out.bind_ok, bind_apply, get_apply,
    Out.bind_ok]
  have h₀ : State.Saved { hp.state with typ := hp.typ } := Hpack.saved_typ h
  rw [ite_run]
  split
  · exact (TurnEnd.of_neg (n := hp.ctx.blk.length) (r := .rsz) (by decide) rfl)
  rw [bind_apply, when_apply]
  split
  · rw [bind_apply, assert_apply]
    split
    · exact hpackDecodeRep_progress cut
        { hp with state.typ := hp.typ, ctx.canUpd := false } h₀
    · trivial
  · exact hpackDecodeRep_progress cut { hp with state.typ := hp.typ } h₀

/-- The bound on the number of turns of the loop does not matter once it exceeds the number of
octets. -/
theorem hpackDecodeLoop_fuel {cut : Bool} {n n' : ℕ} {hp : Hpack} (h : hp.state.Saved)
    (hn : hp.ctx.blk.length < n) (hn' : hp.ctx.blk.length < n') :
    hpackDecodeLoop cut n hp = hpackDecodeLoop cut n' hp := by
  induction n generalizing n' hp with
  | zero => omega
  | succ n ih =>
    obtain ⟨n', rfl⟩ : ∃ k, n' = k + 1 := ⟨n' - 1, by omega⟩
    rw [hpackDecodeLoop, hpackDecodeLoop, bind_apply, bind_apply, get_apply, Out.bind_ok,
      Out.bind_ok, ite_run, ite_run]
    split
    · rfl
    rename_i hblk
    have hturn := hpackDecodeTurn_progress cut h hblk
    rw [bind_apply, bind_apply]
    cases hr : hpackDecodeTurn cut hp with
    | ok r hp' =>
      rw [hr] at hturn
      cases r with
      | none =>
        have hlt : hp'.ctx.blk.length < hp.ctx.blk.length := hturn.2
        exact ih (Or.inl hturn.1) (by omega) (by omega)
      | some r => rfl
    | err hp' => rfl
    | stop w => rfl

/-- Where `hpack_decode` ends: at the start of a representation, in the middle of one when the
rest is to come, or with an error and a defunct codec. -/
def DecodeEnd (r : Res) (hp : Hpack) : Prop :=
  (hp.state.AtStart ∧ (r = .ok → hp.ctx.res = .ok)) ∨
    (r = .blk ∧ hp.ctx.res = .blk ∧ hp.state.Mid) ∨ (r.val < 0 ∧ hp.magic = .defunct)

theorem hpackDecodeLoop_progress {cut : Bool} {n : ℕ} (hp : Hpack) (h : hp.state.Saved)
    (hblk : hp.ctx.blk = [] → hp.state.AtStart) :
    (hpackDecodeLoop cut n hp).Holds DecodeEnd (fun _ => False) fun _ => True := by
  induction n generalizing hp with
  | zero => trivial
  | succ n ih =>
    rw [hpackDecodeLoop, bind_apply, get_apply, Out.bind_ok, ite_run]
    split
    · rename_i hnil
      rw [hpackDecodeEnd, bind_apply, get_apply, Out.bind_ok]
      refine .assert_bind trivial fun _ => Or.inl ⟨hblk hnil, fun hr => ?_⟩
      split at hr
      · cases hr
      · exact hr
    rename_i hne
    rw [bind_apply]
    refine ((hpackDecodeTurn_progress cut h hne).mono (fun _ _ h => h) (fun _ h => h.elim)
      fun _ h => h).bind fun r hp' hend => ?_
    cases r with
    | none => exact ih _ (Or.inl hend.1) fun _ => hend.1
    | some r =>
      by_cases hr : r = .blk
      · subst hr
        exact Or.inr (Or.inl ⟨rfl, hend.2.2, hend.1⟩)
      · refine Or.inr (Or.inr ?_)
        cases r <;> first | exact hend | exact absurd rfl hr

end Cashpack
