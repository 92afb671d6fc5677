import Cashpack.Decoder.Block
import Cashpack.Decoder.Blind

/-!
# The order of size updates

Size updates come before the fields of a block, and all of those that signal a resize must be
there.  `hpack_decode` tells a field from an update with one bit of its first octet, which an
indexed field and a literal with indexing may have too.

## Main results

* `InBlock.ordered` : what a decoder remembers of the representations it decoded, as long as
  no field had that bit.
* `updates_come_first` : an update after a field is refused with UPD, a field before the
  updates of a resize is refused with RSZ, and both leave a defunct decoder.
-/

namespace Cashpack

open Prog

variable {hp hp₀ : Hpack} {typ : UInt8}

/-- The first octet of a dynamic table size update. -/
def IsUpdate (typ : UInt8) : Prop :=
  Hpp.idx.matches typ = false ∧ Hpp.dyn.matches typ = false ∧ Hpp.upd.matches typ = true

instance : DecidablePred IsUpdate := fun _ => inferInstanceAs (Decidable (_ ∧ _))

/-- The first octet of a field that has the bit looked at to recognize an update. -/
def Mistaken (typ : UInt8) : Prop := ¬ IsUpdate typ ∧ Hpp.upd.matches typ = true

instance : DecidablePred Mistaken := fun _ => inferInstanceAs (Decidable (_ ∧ _))

/-- The number of updates among these first octets. -/
def updates (fs : List UInt8) : ℕ := (fs.filter fun f => IsUpdate f).length

/-- The number of updates a decoder waits for. -/
def Size.required (sz : Size) : ℕ :=
  if sz.nxt < 0 then 0 else if sz.min < sz.nxt then 2 else 1

/-- The resizes not signalled yet. -/
def Size.Pend (sz : Size) : Prop := (sz.min < 0 ∧ sz.nxt < 0) ∨ (0 ≤ sz.min ∧ sz.min ≤ sz.nxt)

/-! ### One representation -/

theorem hpackDecodeAny_update (h : IsUpdate typ) : hpackDecodeAny typ = hpackDecodeUpdate := by
  simp [hpackDecodeAny, h.1, h.2.1, h.2.2]

theorem keeps_hpackDecodeAny_field {P : Core → Prop} (hP : EntriesFree P) (h : ¬ IsUpdate typ) :
    Keeps (InBounds False) (Hpack.Inv P Fld.Ext) (hpackDecodeAny typ) := by
  have hfield : ∀ idx, Keeps (InBounds False) (Hpack.Inv P Fld.Ext) (hptField idx) :=
    keeps_hptField hP
  refine .ite (fun _ => keeps_hpackDecodeIndexed hfield) fun hidx => ?_
  refine .ite (fun _ => keeps_hpackDecodeDynamic hfield (keeps_hptIndex hP)) fun hdyn => ?_
  refine .ite (fun hupd => ?_) fun _ => .ite (fun _ => keeps_hpackDecodeNever hfield) fun _ =>
    keeps_hpackDecodeLiteral hfield
  exact absurd ⟨by simpa using hidx, by simpa using hdyn, hupd⟩ h

/-- What a size update does to the resize that is being signalled. -/
structure Updated (hp hp' : Hpack) : Prop where
  pend : hp'.sz.Pend
  required : hp'.sz.required = hp.sz.required - 1
  canUpd : hp.ctx.canUpd = false → hp'.ctx.canUpd = false
  last : hp.sz.required ≤ 1 → hp'.ctx.canUpd = false

theorem ResizeStep.updated {n : ℕ} {hp' : Hpack} (h : ResizeStep n hp hp') (hpend : hp.sz.Pend) :
    Updated hp hp' := by
  unfold Size.Pend at hpend
  cases h with
  | none hmin =>
    have hnxt : hp.sz.nxt < 0 := by omega
    refine ⟨hpend, ?_, fun _ => rfl, fun _ => rfl⟩
    simp [Size.required, hnxt]
  | min hmin hlt hn =>
    have hnxt : ¬ hp.sz.nxt < 0 := by omega
    have hreq : hp.sz.required = 2 := by simp [Size.required, hnxt, hlt]
    refine ⟨Or.inr ⟨?_, le_refl _⟩, ?_, fun h => h, fun h => ?_⟩
    · show 0 ≤ hp.sz.nxt
      omega
    · rw [hreq]
      simp [Size.required, hnxt]
    · omega
  | nxt hmin heq hn =>
    have hnxt : ¬ hp.sz.nxt < 0 := by omega
    have hlt : ¬ hp.sz.min < hp.sz.nxt := by omega
    refine ⟨Or.inl ⟨neg_one_lt_zero, neg_one_lt_zero⟩, ?_, fun _ => rfl, fun _ => rfl⟩
    simp [Size.required, hnxt, hlt]

/-- The resize that is being signalled is the same. -/
structure SameResize (hp hp' : Hpack) : Prop where
  min : hp'.sz.min = hp.sz.min
  nxt : hp'.sz.nxt = hp.sz.nxt
  canUpd : hp'.ctx.canUpd = hp.ctx.canUpd

namespace SameResize

variable {hp' hp'' : Hpack}

theorem of_core (h : hp'.core = hp.core) : SameResize hp hp' :=
  ⟨congrArg (fun c : Core => c.table.sz.min) h, congrArg (fun c : Core => c.table.sz.nxt) h,
    congrArg Core.canUpd h⟩

theorem of_limits (h : hp'.toTable.limits = hp.toTable.limits)
    (hu : hp'.ctx.canUpd = hp.ctx.canUpd) : SameResize hp hp' :=
  ⟨(congrArg (fun s => s.1.min) h :), (congrArg (fun s => s.1.nxt) h :), hu⟩

theorem trans (h : SameResize hp hp') (h' : SameResize hp' hp'') : SameResize hp hp'' :=
  ⟨h'.min.trans h.min, h'.nxt.trans h.nxt, h'.canUpd.trans h.canUpd⟩

theorem pend (h : SameResize hp hp') (hpend : hp.sz.Pend) : hp'.sz.Pend := by
  unfold Size.Pend
  rw [h.min, h.nxt]
  exact hpend

theorem required (h : SameResize hp hp') : hp'.sz.required = hp.sz.required := by
  unfold Size.required
  rw [h.min, h.nxt]

theorem updated (h : SameResize hp' hp'') (hu : Updated hp hp') : Updated hp hp'' where
  pend := h.pend hu.pend
  required := h.required.trans hu.required
  canUpd hc := h.canUpd.trans (hu.canUpd hc)
  last hr := h.canUpd.trans (hu.last hr)

theorem then_updated (h : SameResize hp hp') (hu : Updated hp' hp'') : Updated hp hp'' where
  pend := hu.pend
  required := by rw [hu.required, h.required]
  canUpd hc := hu.canUpd (h.canUpd.trans hc)
  last hr := hu.last (by rw [h.required]; exact hr)

end SameResize

theorem hpackAdjust_same (len : ℕ) (hp : Hpack) :
    (hpackAdjust len hp).Holds (fun _ hp' => SameResize hp hp') (fun _ => False)
      fun _ => True := by
  have hlim : KeepsLimits hp.toTable.limits (hptAdjust len) := limits_hptAdjust len
  rw [hpackAdjust, bind_apply, onTable]
  cases hadj : hptAdjust len hp.toTable with
  | err t => exact noFail_hptAdjust len _ _ hadj
  | stop w => trivial
  | ok evts t =>
    have ht : t.limits = hp.toTable.limits := by
      have := hlim hp.toTable rfl
      rwa [hadj] at this
    refine (hpcNotifyAll_holds (b := False) (hp.withTable t) evts).mono (fun _ hp' h => ?_)
      (fun _ h => h) fun _ _ => trivial
    subst h
    exact .of_limits ht rfl

theorem hpackDecodeLimit_same (n : ℕ) (hp : Hpack) :
    (hpackDecodeLimit n hp).Holds (fun _ hp' => SameResize hp hp')
      (fun hp' => hp'.ctx.res = .len) fun _ => True := by
  rw [hpackDecodeLimit, bind_apply, get_apply, Out.bind_ok, bind_apply, expect_apply]
  split
  · rw [Out.bind_ok, bind_apply, modify_apply, Out.bind_ok, bind_apply]
    refine ((hpackAdjust_same _ _).mono (fun _ _ h => h) (fun _ h => h.elim)
      fun _ h => h).bind fun _ hp₁ h₁ => ?_
    refine (hpcNotify_holds (b := False) _).mono (fun _ hp' h => ?_) (fun _ h => h.elim)
      fun _ _ => trivial
    subst h
    exact ⟨h₁.min, h₁.nxt, h₁.canUpd⟩
  · exact rfl

/-- An update that is applied moves the resize on, and one that is cut leaves it. -/
theorem hpackDecodeUpdate_updated (hpend : hp.sz.Pend) :
    (hpackDecodeUpdate hp).Holds (fun _ hp' => Updated hp hp')
      (fun hp' => hp'.ctx.res = .buf → SameResize hp hp') fun _ => True := by
  rw [hpackDecodeUpdate, bind_apply, get_apply, Out.bind_ok, bind_apply, expect_apply]
  split
  swap
  · exact fun h => by cases h
  rw [Out.bind_ok]
  have hint : Keeps (InBounds False) (Hpack.Inv (fun c => c = hp.core) fun _ => True)
      (hpiDecode Hpp.upd.pfx) := keeps_hpiDecode _
  refine hint.bind_holds ⟨rfl, trivial⟩ (fun n hp₁ h₁ => ?_)
    (fun hp₁ h₁ _ => .of_core h₁.1) fun _ _ => trivial
  have hsame : SameResize hp hp₁ := .of_core h₁.1
  rw [bind_apply]
  refine ((hpackDecodeResize_cases (b := False) n hp₁).mono (fun _ _ h => h) (fun _ h hbuf => ?_)
    fun _ _ => trivial).bind fun _ hp₂ h₂ => ?_
  · rw [h] at hbuf
    cases hbuf
  have hupd : Updated hp hp₂ := hsame.then_updated (h₂.updated (hsame.pend hpend))
  refine (hpackDecodeLimit_same n hp₂).mono (fun _ _ h => h.updated hupd) (fun _ h hbuf => ?_)
    fun _ h => h
  rw [h] at hbuf
  cases hbuf

theorem hpackDecodeAny_same (h : ¬ IsUpdate typ) (hext : hp.ctx.fld.Ext) :
    (hpackDecodeAny typ hp).Holds (fun _ hp' => SameResize hp hp') (SameResize hp)
      fun _ => True := by
  have hfree : EntriesFree fun c => c.table.limits = hp.toTable.limits ∧
      c.canUpd = hp.ctx.canUpd := fun c t ht h => ⟨ht.trans h.1, h.2⟩
  have hsame : ∀ hp' : Hpack, Hpack.Inv (fun c => c.table.limits = hp.toTable.limits ∧
      c.canUpd = hp.ctx.canUpd) Fld.Ext hp' → SameResize hp hp' := fun hp' h' =>
    .of_limits h'.1.1 h'.1.2
  exact (keeps_hpackDecodeAny_field hfree h hp ⟨⟨rfl, rfl⟩, hext⟩).mono (fun _ => hsame) hsame
    fun _ _ => trivial

/-! ### One turn -/

/-- Where a turn that starts with this octet leaves the resize that is being signalled, in a
decoder that can be used. -/
def TurnResize (typ : UInt8) (hp : Hpack) (r : Option Res) (hp' : Hpack) : Prop :=
  (r ≠ none → hp'.magic ≠ .defunct) →
    if IsUpdate typ ∧ r = none then Updated hp hp' else SameResize hp hp'

theorem hpackDecodeRep_resize (cut : Bool) (typ : UInt8) (hpend : hp.sz.Pend)
    (hext : hp.ctx.fld.Ext) :
    (hpackDecodeRep cut typ hp).Holds (TurnResize typ hp) (fun _ => False) fun _ => True := by
  have hany : (hpackDecodeAny typ hp).Holds
      (fun _ hp' => if IsUpdate typ then Updated hp hp' else SameResize hp hp')
      (fun hp' => hp'.ctx.res = .buf → SameResize hp hp') fun _ => True := by
    by_cases h : IsUpdate typ
    · rw [hpackDecodeAny_update h]
      refine (hpackDecodeUpdate_updated hpend).mono (fun _ _ h' => ?_) (fun _ h' => h')
        fun _ h' => h'
      rwa [if_pos h]
    · refine (hpackDecodeAny_same h hext).mono (fun _ _ h' => ?_) (fun _ h' _ => h') fun _ h' => h'
      rwa [if_neg h]
  rw [hpackDecodeRep, bind_apply]
  refine hany.attempt.bind fun r hp₁ h₁ => ?_
  cases r with
  | some _ =>
    have hz : SameResize hp₁ { hp₁ with ctx.fld := Fld.zero } := ⟨rfl, rfl, rfl⟩
    intro _
    by_cases h : IsUpdate typ
    · rw [if_pos ⟨h, rfl⟩]
      simp only [Option.elim_some, if_pos h] at h₁
      exact hz.updated h₁
    · rw [if_neg fun h' => h h'.1]
      simp only [Option.elim_some, if_neg h] at h₁
      exact h₁.trans hz
  | none =>
    refine .assert_bind trivial fun _ => ?_
    rw [ite_run]
    split
    · rename_i hbuf
      have hsame : SameResize hp hp₁ := h₁ hbuf.2
      intro _
      rw [if_neg fun h' => by cases h'.2]
      exact ⟨hsame.min, hsame.nxt, hsame.canUpd⟩
    · exact fun hm => absurd rfl (hm (Option.some_ne_none _))

/-- A turn on a field that does not look like an update is only made once no resize is left to
signal, and no update may follow it. -/
theorem hpackDecodeTurn_resize (cut : Bool) (hblk : hp.ctx.blk ≠ []) (hpend : hp.sz.Pend)
    (hext : hp.ctx.fld.Ext) :
    (hpackDecodeTurn cut hp).Holds
      (fun r hp' => ∃ hp₁ : Hpack, hp₁.sz = hp.sz ∧
        hp₁.ctx.canUpd = (hp.ctx.canUpd && Hpp.upd.matches hp.typ) ∧
        TurnResize hp.typ hp₁ r hp')
      (fun _ => False) fun _ => True := by
  rw [hpackDecodeTurn, bind_apply, hpackDecodeTyp_eq hblk, Out.bind_ok, bind_apply, get_apply,
    Out.bind_ok, ite_run]
  split
  · refine ⟨{ hp with ctx.canUpd := hp.ctx.canUpd && Hpp.upd.matches hp.typ }, rfl, rfl, ?_⟩
    exact fun hm => absurd rfl (hm (Option.some_ne_none _))
  rw [bind_apply, when_apply]
  split
  · rename_i hfield
    have hfalse : Hpp.upd.matches hp.typ = false := hfield
    rw [bind_apply, assert_apply]
    split
    · let hp₁ : Hpack := { hp with state.typ := hp.typ, ctx.canUpd := false }
      have hrep := @hpackDecodeRep_resize hp₁ cut hp.typ hpend hext
      exact hrep.mono (fun r hp' h => ⟨hp₁, rfl, by simp [hp₁, hfalse], h⟩) (fun _ h => h)
        fun _ h => h
    · trivial
  · rename_i hfield
    have htrue : Hpp.upd.matches hp.typ = true := by simpa using hfield
    let hp₁ : Hpack := { hp with state.typ := hp.typ }
    have hrep := @hpackDecodeRep_resize hp₁ cut hp.typ hpend hext
    exact hrep.mono (fun r hp' h => ⟨hp₁, rfl, by simp [hp₁, htrue], h⟩) (fun _ h => h)
      fun _ h => h

/-! ### Blocks -/

/-- What a decoder remembers of the representations decoded since the state `hp₀`, of which `fs`
are the first octets. -/
structure Ordered (hp₀ : Hpack) (fs : List UInt8) (hp : Hpack) : Prop where
  pend : hp.sz.Pend
  required : hp.sz.required = hp₀.sz.required - updates fs
  field : (∃ f ∈ fs, ¬ IsUpdate f ∧ ¬ Mistaken f) → hp.ctx.canUpd = false
  last : 0 < updates fs → hp₀.sz.required ≤ updates fs → hp.ctx.canUpd = false

theorem updates_append (fs : List UInt8) (f : UInt8) :
    updates (fs ++ [f]) = updates fs + if IsUpdate f then 1 else 0 := by
  unfold updates
  by_cases h : IsUpdate f <;> simp [List.filter_append, h]

namespace Ordered

variable {hp' : Hpack} {fs : List UInt8}

/-- Octets of a representation that is not complete do not matter. -/
theorem same (h : Ordered hp₀ fs hp) (hsz : hp'.sz.min = hp.sz.min ∧ hp'.sz.nxt = hp.sz.nxt)
    (hu : hp.ctx.canUpd = false → hp'.ctx.canUpd = false) : Ordered hp₀ fs hp' where
  pend := by
    unfold Size.Pend
    rw [hsz.1, hsz.2]
    exact h.pend
  required := by
    rw [← h.required]
    unfold Size.required
    rw [hsz.1, hsz.2]
  field hf := hu (h.field hf)
  last h₁ h₂ := hu (h.last h₁ h₂)

theorem update (h : Ordered hp₀ fs hp) (hf : IsUpdate typ) (hu : Updated hp hp') :
    Ordered hp₀ (fs ++ [typ]) hp' where
  pend := hu.pend
  required := by
    rw [hu.required, h.required, updates_append, if_pos hf]
    omega
  field := by
    rintro ⟨f, hmem, hnot, hmis⟩
    rcases List.mem_append.1 hmem with hmem | hmem
    · exact hu.canUpd (h.field ⟨f, hmem, hnot, hmis⟩)
    · rw [List.mem_singleton] at hmem
      exact absurd (hmem ▸ hf) hnot
  last _ hle := by
    rw [updates_append, if_pos hf] at hle
    refine hu.last ?_
    rw [h.required]
    omega

theorem append_field (h : Ordered hp₀ fs hp) (hf : ¬ IsUpdate typ)
    (hu : ¬ Mistaken typ → hp.ctx.canUpd = false) : Ordered hp₀ (fs ++ [typ]) hp where
  pend := h.pend
  required := by
    rw [h.required, updates_append, if_neg hf, Nat.add_zero]
  field := by
    rintro ⟨f, hmem, hnot, hmis⟩
    rcases List.mem_append.1 hmem with hmem | hmem
    · exact h.field ⟨f, hmem, hnot, hmis⟩
    · rw [List.mem_singleton] at hmem
      exact hu (hmem ▸ hmis)
  last := by
    rw [updates_append, if_neg hf, Nat.add_zero]
    exact h.last

end Ordered

/-- A decoder remembers the updates and the fields of a block. -/
theorem InBlock.ordered {hc hl : Hpack} {fs : List UInt8} {dec : Decoding}
    (h : InBlock hp₀ fs dec hc hl) (hbsy : hp₀.state.bsy = false) (hpend : hp₀.sz.Pend)
    (hext : hp₀.ctx.fld.Ext) :
    Ordered hp₀ fs hl := by
  -- what the checks before a loop do, when they do not start a block
  have henter : ∀ {fs dec hc hl}, Enters dec hc hl → Ordered hp₀ fs hc → hc.ctx.res = .blk →
      Ordered hp₀ fs hl := by
    intro fs dec hc hl h hord hres
    obtain ⟨hb, hbegin, rfl⟩ := h.enter
    have hb' := hpackDecodeBegin_holds dec hc
    rw [hbegin] at hb'
    rcases hb' with ⟨-, -, rfl⟩ | ⟨hok, -, -⟩
    · exact hord.same ⟨rfl, rfl⟩ fun h => h
    · rw [hres] at hok
      cases hok
  induction h with
  | @start dec hl hres h =>
    obtain ⟨hb, hbegin, rfl⟩ := h.enter
    have hb' := hpackDecodeBegin_holds dec hp₀
    rw [hbegin] at hb'
    rcases hb' with ⟨hblk, -, -⟩ | ⟨-, -, rfl⟩
    · rw [hres] at hblk
      cases hblk
    · refine ⟨hpend, rfl, ?_, fun h => absurd h (Nat.lt_irrefl 0)⟩
      rintro ⟨f, hf, -⟩
      cases hf
  | @turn fs dec hc hl hl' before hblk h ih =>
    have hturn := hpackDecodeTurn_resize dec.cut hblk ih.pend (before.ext hext)
    rw [h] at hturn
    obtain ⟨hp₁, hsz, hu, hend⟩ := hturn
    have hstep := hend fun h => absurd rfl h
    have hord : Ordered hp₀ fs hp₁ := ih.same ⟨by rw [hsz], by rw [hsz]⟩ fun hc => by
      rw [hu, hc, Bool.false_and]
    by_cases hupd : IsUpdate hl.typ
    · rw [if_pos ⟨hupd, rfl⟩] at hstep
      exact hord.update hupd hstep
    · rw [if_neg fun h => hupd h.1] at hstep
      refine (hord.append_field hupd fun hmis => ?_).same ⟨hstep.min, hstep.nxt⟩ fun hc =>
        hstep.canUpd.trans hc
      have hbit : Hpp.upd.matches hl.typ = false := by
        simpa using fun hbit => hmis ⟨hupd, hbit⟩
      rw [hu, hbit, Bool.and_false]
  | @resume fs dec dec' hc hl hl' before hblk hres h ih => exact henter h ih hres
  | @within fs dec dec' hc hl hc' hl' before hblk hend h ih =>
    have hmid := hpackDecodeTurn_progress dec.cut (before.saved hbsy).1 hblk
    have hturn := hpackDecodeTurn_resize dec.cut hblk ih.pend (before.ext hext)
    rw [hend] at hmid hturn
    obtain ⟨hp₁, hsz, hu, hend'⟩ := hturn
    have hsame := hend' fun _ => by
      rw [h.magic]
      exact Magic.noConfusion
    rw [if_neg fun h => Option.some_ne_none _ h.2] at hsame
    refine henter h (ih.same ⟨?_, ?_⟩ fun hc => ?_) hmid.2.2
    · rw [hsame.min, hsz]
    · rw [hsame.nxt, hsz]
    · rw [hsame.canUpd, hu, hc, Bool.false_and]

/-- An update that may not come is refused. -/
theorem hpackDecodeTurn_upd (cut : Bool) (hblk : hp.ctx.blk ≠ []) (hf : IsUpdate hp.typ)
    (hu : hp.ctx.canUpd = false) :
    ∃ hp', hpackDecodeTurn cut hp = .ok (some .upd) hp' ∧ hp'.magic = .defunct := by
  have hany : hpackDecodeAny hp.typ { hp with state.typ := hp.typ } =
      .err { hp with state.typ := hp.typ, ctx.res := .upd } := by
    rw [hpackDecodeAny_update hf, hpackDecodeUpdate, bind_apply, get_apply, Out.bind_ok,
      bind_apply, expect_apply, if_neg (by simp [hu]), Out.bind_err]
  refine ⟨{ hp with state.typ := hp.typ, ctx.res := .upd, magic := .defunct }, ?_, rfl⟩
  rw [hpackDecodeTurn, bind_apply, hpackDecodeTyp_eq hblk, Out.bind_ok, bind_apply, get_apply,
    Out.bind_ok, ite_run, if_neg (by simp [hf.2.2]), bind_apply, when_apply,
    if_neg (by simp [hf.2.2]), Out.bind_ok]
  rw [hpackDecodeRep, bind_apply, attempt_apply, hany]
  cases cut <;> rfl

/-- A field that may not come yet is refused. -/
theorem hpackDecodeTurn_early (cut : Bool) (hblk : hp.ctx.blk ≠ [])
    (hf : Hpp.upd.matches hp.typ = false) (hn : 0 ≤ hp.sz.nxt) :
    hpackDecodeTurn cut hp =
      .ok (some .rsz) { hp with state.typ := hp.typ, magic := .defunct } := by
  rw [hpackDecodeTurn, bind_apply, hpackDecodeTyp_eq hblk, Out.bind_ok, bind_apply, get_apply,
    Out.bind_ok, ite_run, if_pos ⟨hf, hn⟩]
  rfl

theorem hpackDecodeTurn_rsz (cut : Bool) (hblk : hp.ctx.blk ≠ [])
    (hf : Hpp.upd.matches hp.typ = false) (hn : 0 ≤ hp.sz.nxt) :
    ∃ hp', hpackDecodeTurn cut hp = .ok (some .rsz) hp' ∧ hp'.magic = .defunct :=
  ⟨_, hpackDecodeTurn_early cut hblk hf hn, rfl⟩

/-- **Updates come first**: a block decoded since the state `hp₀` of an idle decoder is at the
representation that starts with the octet `b`.  An update is refused with UPD after a field
without the bit that tells updates apart, or when all the updates were received; a field
without that bit is refused with RSZ until all the updates of a resize were received.  Both
leave a defunct decoder. -/
theorem updates_come_first {hpn hc hl : Hpack} {fs : List UInt8} {dec : Decoding} {b : UInt8}
    (hnew : NewDecoder hpn) (hrun : Reach DecOp.exec (fun _ _ => True) hpn hp₀) (hidle : hp₀.Idle)
    (hblock : InBlock hp₀ fs dec hc hl) (hstart : hl.state.AtStart)
    (hb : hl.ctx.blk.head? = some b) :
    (IsUpdate b → ((∃ f ∈ fs, ¬ IsUpdate f ∧ ¬ Mistaken f) ∨
      (0 < updates fs ∧ hp₀.sz.required ≤ updates fs)) →
      ∃ hp', hpackDecode dec hc = .ok .upd hp' ∧ hp'.magic = .defunct) ∧
    (¬ IsUpdate b → ¬ Mistaken b → updates fs < hp₀.sz.required →
      ∃ hp', hpackDecode dec hc = .ok .rsz hp' ∧ hp'.magic = .defunct) := by
  have hdec : hp₀.Decoder False := decoder_sound hnew hrun
  have hord := hblock.ordered hidle.bsy hdec.1.1.pend hdec.2
  have hblk : hl.ctx.blk ≠ [] := fun h => by
    rw [h] at hb
    cases hb
  have htyp : hl.typ = b := by
    rw [Hpack.typ, if_pos ⟨hstart.bsy, hstart.stp⟩, List.headD_eq_head?_getD, hb]
    rfl
  refine ⟨fun hupd hdone => ?_, fun hupd hmis hreq => ?_⟩
  · have hu : hl.ctx.canUpd = false := hdone.elim hord.field fun h => hord.last h.1 h.2
    obtain ⟨hp', hturn, hm⟩ := hpackDecodeTurn_upd dec.cut hblk (htyp ▸ hupd) hu
    exact ⟨hp', hblock.ends hidle.bsy hblk hturn, hm⟩
  · have hbit : Hpp.upd.matches hl.typ = false := by
      rw [htyp]
      simpa using fun hbit => hmis ⟨hupd, hbit⟩
    have hn : 0 ≤ hl.sz.nxt := by
      by_contra hneg
      have hzero : hl.sz.required = 0 := if_pos (by omega)
      have := hord.required
      omega
    obtain ⟨hp', hturn, hm⟩ := hpackDecodeTurn_rsz dec.cut hblk hbit hn
    exact ⟨hp', hblock.ends hidle.bsy hblk hturn, hm⟩

/-- The field `:method: GET`, then an update that comes too late. -/
def lateUpdate : Decoding := ⟨[0x82, 0x20], 1, 100, true, false⟩

/-- The decoder at the second representation of this block. -/
def lateDecoder : Hpack := { smallDecoder with
  state.typ := 0x82
  state.magic := .int
  state.hpi := ⟨2, 0, 1⟩
  ctx.arg := ⟨1, 100, 2⟩
  ctx.blk := [0x20]
  ctx.org := 1
  ctx.out := ascii ":method" ++ [0] ++ ascii "GET" ++ [0]
  ctx.bufLen := 88
  ctx.log := [.field (some 0) 2, .name (ascii ":method"), .value (ascii "GET")] }

theorem lateDecoder_block : InBlock smallDecoder [0x82] lateUpdate smallDecoder lateDecoder := by
  have hval : lateUpdate.Valid := ⟨by decide, by decide, by decide, rfl⟩
  have hstart : InBlock smallDecoder [] lateUpdate smallDecoder
      (hpackDecodeArg lateUpdate (smallDecoder.begin lateUpdate)) :=
    .start rfl ⟨rfl, hval, _, rfl, rfl⟩
  exact hstart.turn (by decide) (by decide +kernel)

theorem updates_come_first_late :
    ∃ hp', hpackDecode lateUpdate smallDecoder = .ok .upd hp' ∧ hp'.magic = .defunct := by
  have h := updates_come_first (.decoder smallDecoder_new) (.refl _) ⟨rfl, rfl, rfl, rfl, rfl⟩
    lateDecoder_block ⟨rfl, rfl⟩ rfl
  exact h.1 (by decide) (Or.inl ⟨0x82, by decide, by decide, by decide⟩)

/-- A decoder that was given the field `cookie`, in a block of `n` octets. -/
def cookieDecoder (hp : Hpack) (n : ℕ) : Hpack := { hp with
  state.typ := 0xa0
  state.magic := .int
  state.hpi := ⟨32, 0, 1⟩
  ctx.arg := ⟨1, 100, n⟩
  ctx.org := 1
  ctx.out := ascii "cookie" ++ [0, 0]
  ctx.bufLen := 92
  ctx.canUpd := true
  ctx.log := [.field (some 0) 32, .name (ascii "cookie"), .value []] }

/-- The entry 32 of the static table is taken for an update: a size update is accepted after
it, and it is accepted while a resize is pending. -/
theorem updates_come_first_false :
    (∃ hp', (DecOp.decode ⟨[0xa0, 0x20], 1, 100, true, false⟩).exec smallDecoder = .ok .ok hp' ∧
      hp'.magic = .decoder ∧
      hp'.ctx.log = [.field (some 0) 32, .name (ascii "cookie"), .value [], .table 0]) ∧
    (0 < resizedDecoder.sz.required ∧
      ∃ hp', (DecOp.decode ⟨[0xa0], 1, 100, true, false⟩).exec resizedDecoder = .ok .ok hp' ∧
        hp'.magic = .decoder ∧ hp'.sz = resizedDecoder.sz ∧
        hp'.ctx.log = [.field (some 0) 32, .name (ascii "cookie"), .value []]) := by
  refine ⟨⟨{ cookieDecoder smallDecoder 2 with
      state.typ := 0x20, state.hpi := ⟨0, 0, 1⟩, sz.lim := 0, ctx.canUpd := false
      ctx.log := [.field (some 0) 32, .name (ascii "cookie"), .value [], .table 0] },
    ?_, rfl, rfl⟩, by decide, ⟨cookieDecoder resizedDecoder 1, ?_, rfl, rfl, rfl⟩⟩
  · decide +kernel
  · decide +kernel

end Cashpack
