import Cashpack.Decoder.Block
import Cashpack.Decoder.Blank
import Cashpack.Decoder.Write

/-!
# The strings of a decoder

A decoder that is not a monitor checks a name before it decodes the value that follows, maybe in
another call, and a value before it notifies the field and inserts it.  A name that passed the
check stays where it is found (`Laid`), whatever is written after it and even when the field is
moved.  Indexed fields are not checked again: their strings come from the tables, where only
checked strings are inserted.

## Main results

* `decoder_strings` : in every state a decoder reaches, and in every call it makes, the strings
  of the events and of the dynamic table are valid.
-/

namespace Cashpack

open Prog Fifo

variable {hp hp' : Hpack} {s : Octets}

/-! ### Valid strings -/

/-- Both strings of the entry are valid. -/
def Entry.Valid (e : Entry) : Prop := ValidName e.nam ∧ ValidValue e.val

/-- The string of the event is valid. -/
def Event.Valid : Event → Prop
  | .name s => ValidName s
  | .value s => ValidValue s
  | _ => True

/-- The table holds valid entries. -/
def Table.Valid (t : Table) : Prop := ∃ l, t.Rep l ∧ ∀ e ∈ l, e.Valid

/-- A codec that is neither an encoder nor a monitor, with a table of valid entries. -/
structure Core.Valid (c : Core) : Prop where
  fits : OnDecoder (Table.Fits False) c
  mon : c.mon = false
  table : c.table.Valid

/-- Its events had valid strings. -/
structure Hpack.Sound (hp : Hpack) : Prop where
  inv : Hpack.Inv Core.Valid Fld.Ext hp
  log : ∀ evt ∈ hp.ctx.log, evt.Valid

theorem notify_valid {evts : List Event} (h : ∀ evt ∈ hp.ctx.log, evt.Valid)
    (hv : ∀ evt ∈ evts, evt.Valid) : ∀ evt ∈ (hp.notify evts).ctx.log, evt.Valid := by
  intro evt hmem
  unfold Hpack.notify at hmem
  split at hmem
  · exact h evt hmem
  · exact (List.mem_append.1 hmem).elim (h evt) (hv evt)

namespace Hpack.Sound

theorem mon (h : hp.Sound) : hp.mon = false := h.inv.1.mon

theorem notify (h : hp.Sound) {evts : List Event} (hv : ∀ evt ∈ evts, evt.Valid) :
    (hp.notify evts).Sound := ⟨h.inv, notify_valid h.log hv⟩

/-- What the invariant does not mention may change. -/
theorem congr (h : hp.Sound) (hcore : hp'.core = hp.core) (hfld : hp'.ctx.fld.Ext)
    (hlog : hp'.ctx.log = hp.ctx.log) : hp'.Sound :=
  ⟨⟨hcore ▸ h.inv.1, hfld⟩, hlog ▸ h.log⟩

theorem wrote (h : hp.Sound) (hw : Wrote s hp hp') : hp'.Sound := by
  cases hw with
  | append _ => exact h.congr rfl h.inv.2 rfl
  | slide hs =>
    refine h.congr rfl ⟨Ptr.out_ext 0, fun off => ?_⟩ rfl
    show (if hp.ctx.fld.val = .null then Ptr.null else _) ≠ _
    split <;> exact Ptr.noConfusion

end Hpack.Sound

theorem stateFree_sound : StateFree Hpack.Sound := fun _ _ _ _ h => ⟨h.inv, h.log⟩

theorem sound_hpdCat (s : Octets) : Keeps (fun _ => True) Hpack.Sound (hpdCat s) := by
  intro hp h
  refine (hpdCat_holds s hp).mono (fun _ _ hw => h.wrote hw) (fun _ he => ?_) fun _ _ => trivial
  exact he.2 ▸ ⟨h.inv, h.log⟩

/-- A valid name was decoded. -/
def NameSet (hp : Hpack) : Prop := ∃ nam c tail, ValidName nam ∧ Laid nam (c :: tail) hp

theorem NameSet.congr (h : NameSet hp) (hnam : hp'.ctx.fld.nam = hp.ctx.fld.nam)
    (hsz : hp'.ctx.fld.namSz = hp.ctx.fld.namSz) (hout : hp'.ctx.out = hp.ctx.out) : NameSet hp' := by
  obtain ⟨nam, c, tail, hv, n, h₁, h₂, h₃⟩ := h
  exact ⟨nam, c, tail, hv, n, hnam.trans h₁, hout ▸ h₂, hsz.trans h₃⟩

theorem stateFree_named : StateFree fun hp => hp.Sound ∧ NameSet hp :=
  fun hp st blk r h => ⟨stateFree_sound hp st blk r h.1, h.2⟩

/-- A name that was decoded stays in place. -/
theorem named_hpdCat (s : Octets) :
    Keeps (fun _ => True) (fun hp => hp.Sound ∧ NameSet hp) (hpdCat s) := by
  intro hp h
  refine (hpdCat_holds s hp).mono (fun _ hp' hw => ?_) (fun _ he => ?_) fun _ _ => trivial
  · obtain ⟨nam, c, tail, hv, hl⟩ := h.2
    exact ⟨h.1.wrote hw, nam, c, tail ++ s, hv, hl.wrote (List.cons_ne_nil _ _) hw⟩
  · exact he.2 ▸ ⟨⟨h.1.inv, h.1.log⟩, h.2⟩

/-- The field that was decoded is valid. -/
def FldValid (hp : Hpack) : Prop :=
  ∃ nam val, hp.str hp.ctx.fld.nam hp.ctx.fld.namSz = some (nam, 0) ∧
    hp.str hp.ctx.fld.val hp.ctx.fld.valSz = some (val, 0) ∧ ValidName nam ∧ ValidValue val

/-! ### The tables -/

theorem hpsTable_valid (e : HdrEntry) (h : e ∈ hptStatic) : ValidName e.nam ∧ ValidValue e.val := by
  have hall : ∀ e ∈ hptStatic, ValidName e.nam ∧ ValidValue e.val := by decide +kernel
  exact hall e h

/-- `HPT_field` gives valid strings. -/
theorem hptField_sound (h : hp.Sound) (idx : ℕ) :
    (hptField idx hp).Holds
      (fun hf hp' => hp' = hp ∧ hf.nam.Lasting ∧ hf.val.Lasting ∧ ∃ nam val,
        hp.str hf.nam hf.namSz = some (nam, 0) ∧ hp.str hf.val hf.valSz = some (val, 0) ∧
        ValidName nam ∧ ValidValue val)
      (fun hp' => hp' = { hp with ctx.res := .idx }) fun _ => True := by
  obtain ⟨l, hrep', hv⟩ := h.inv.1.table
  have hrep : hp.toTable.Rep l := hrep'
  by_cases hs : idx ≤ hpackStatic
  · cases idx with
    | zero => trivial
    | succ i =>
      obtain ⟨e, he, hf⟩ := hptField_static hp (i := i) hs
      obtain ⟨hn, hval⟩ := hpsTable_valid e (List.mem_of_getElem? he)
      rw [hf]
      exact ⟨rfl, trivial, trivial, e.nam, e.val, hp.str_str _, hp.str_str _, hn, hval⟩
  · obtain ⟨i, rfl⟩ : ∃ i, idx = hpackStatic + (i + 1) := ⟨idx - hpackStatic - 1, by omega⟩
    by_cases hown : hp.ctx.hp = hp.addr
    · by_cases hi : i < l.length
      · rw [hptField_dynamic hrep hown hi]
        obtain ⟨hn, hval⟩ := str_entryField hrep hi
        have he := hv l[i] (List.getElem_mem hi)
        exact ⟨rfl, trivial, trivial, _, _, hn, hval, he.1, he.2⟩
      · rw [hptField_beyond hrep hown (Nat.le_of_not_lt hi), h.mon]
        exact rfl
    · rw [hptField_moved hown]
      trivial

theorem evictEvents_valid (n : ℕ) : ∀ evt ∈ evictEvents n, evt.Valid := by
  intro evt hmem
  unfold evictEvents at hmem
  split at hmem
  · obtain rfl := List.mem_singleton.1 hmem
    trivial
  · cases hmem

theorem insertEvents_valid (limit : ℕ) (l : List Entry) (e : Entry) :
    ∀ evt ∈ insertEvents limit l e, evt.Valid := by
  intro evt hmem
  rw [insertEvents, List.mem_append] at hmem
  rcases hmem with hmem | hmem
  · exact evictEvents_valid _ evt hmem
  · split at hmem
    · obtain rfl := List.mem_singleton.1 hmem
      trivial
    · cases hmem

/-- `HPT_index` inserts a field that was checked. -/
theorem hptIndex_sound (h : hp.Sound) (hf : FldValid hp) :
    (hptIndex hp).Holds (fun _ hp' => hp'.Sound) (fun _ => False) fun _ => True := by
  obtain ⟨l, hrep', hv⟩ := h.inv.1.table
  have hrep : hp.toTable.Rep l := hrep'
  have hfits : hp.toTable.Fits False := h.inv.1.fits.1
  obtain ⟨nam, val, hnam, hval, hvn, hvv⟩ := hf
  refine (hptIndex_holds (b := False) hrep h.inv.2 hfits.lim_le False.elim).mono ?_
    (fun _ h' => h') fun _ _ => trivial
  rintro _ _ ⟨e, t, hn, hv', rfl, hrep', hlen, hsz⟩
  obtain rfl : nam = e.nam := (Prod.mk.inj (Option.some.inj (hnam.symm.trans hn))).1
  obtain rfl : val = e.val := (Prod.mk.inj (Option.some.inj (hval.symm.trans hv'))).1
  have hcore : Core.Valid (hp.withTable t).core :=
    ⟨⟨hfits.of_rep hrep' (total_fit_le _ _) hlen hsz, h.inv.1.fits.2⟩, h.mon, _, hrep', by
      intro e' hmem
      rcases List.mem_cons.1 ((fit_isPrefix _ _).subset hmem) with rfl | hmem
      · exact ⟨hvn, hvv⟩
      · exact hv e' hmem⟩
  have hs : (hp.withTable t).Sound := ⟨⟨hcore, h.inv.2⟩, h.log⟩
  exact hs.notify (insertEvents_valid _ _ _)

/-- A size update only drops entries. -/
theorem hpackDecodeUpdate_sound : Keeps (fun _ => True) Hpack.Sound hpackDecodeUpdate := by
  refine .bind .get fun _ => .bind (stateFree_sound.expect _ _) fun _ => ?_
  refine .bind (stateFree_sound.hpiDecode (fun _ _ => trivial) _) fun n => ?_
  intro hp h
  obtain ⟨l, hrep', hv⟩ := h.inv.1.table
  have hrep : hp.toTable.Rep l := hrep'
  have hfits := fits_hpackDecodeSize (b := False) (Q := Fld.Ext) n hp ⟨h.inv.1.fits, h.inv.2⟩
  -- the entries that are left and the events
  have hsize : ((do hpackDecodeResize n; hpackDecodeLimit n : Cp Unit) hp).Holds
      (fun _ hp' => hp'.mon = hp.mon ∧ hp'.toTable.Valid ∧ ∀ evt ∈ hp'.ctx.log, evt.Valid)
      (fun hp' => hp'.mon = hp.mon ∧ hp'.toTable.Valid ∧ hp'.ctx.log = hp.ctx.log)
      fun _ => True := by
    rw [bind_apply]
    refine ((hpackDecodeResize_cases (b := False) n hp).mono (fun _ _ h' => h') (fun hp' h' => ?_)
      fun _ _ => trivial).bind fun _ hp₁ hs => ?_
    · exact h' ▸ ⟨rfl, ⟨l, hrep, hv⟩, rfl⟩
    obtain ⟨hrep₁, hmon, hlog⟩ : hp₁.toTable.Rep l ∧ hp₁.mon = hp.mon ∧ hp₁.ctx.log = hp.ctx.log := by
      cases hs <;> exact ⟨⟨hrep.cnt, hrep.len, hrep.mem⟩, rfl, rfl⟩
    refine (hpackDecodeLimit_holds (b := False) hrep₁).mono ?_ ?_ fun _ _ => trivial
    · rintro _ _ ⟨-, rfl⟩
      refine ⟨hmon, ⟨_, hrep₁.limitTo n, fun e he => hv e ((fit_isPrefix _ _).subset he)⟩, ?_⟩
      have hlog₁ : ∀ evt ∈ (hp₁.withTable (hp₁.toTable.limitTo n l)).ctx.log, evt.Valid :=
        fun evt hmem => h.log evt (hlog ▸ hmem)
      refine notify_valid hlog₁ ?_
      intro evt hmem
      rcases List.mem_append.1 hmem with hmem | hmem
      · exact evictEvents_valid _ evt hmem
      · obtain rfl := List.mem_singleton.1 hmem
        trivial
    · rintro _ ⟨-, rfl⟩
      exact ⟨hmon, ⟨l, hrep₁, hv⟩, hlog⟩
  refine (hfits.mono (fun _ _ h => h) (fun _ h => h) fun _ _ => trivial).and hsize |>.mono ?_ ?_
    fun _ h => h
  · rintro _ hp' ⟨hinv, hmon, htab, hlog⟩
    exact ⟨⟨⟨hinv.1, hmon.trans h.mon, htab⟩, hinv.2⟩, hlog⟩
  · rintro hp' ⟨hinv, hmon, htab, hlog⟩
    exact ⟨⟨⟨hinv.1, hmon.trans h.mon, htab⟩, hinv.2⟩, hlog ▸ h.log⟩

/-! ### Fields -/

theorem Hpack.Sound.withFld (h : hp.Sound) {fld : Fld} (hfld : fld.Ext) :
    ({ hp with ctx.fld := fld } : Hpack).Sound := h.congr rfl hfld rfl

/-- Decoding the field is over, or another octet is needed and a name that was checked is still
there. -/
def Paused (hp : Hpack) : Prop :=
  hp.ctx.res = .buf → hp.state.stp = .valLen ∨ hp.state.stp = .valStr → NameSet hp

theorem Paused.of_fatal (h : hp.ctx.res.Fatal) : Paused hp := by
  intro hbuf
  rw [hbuf] at h
  exact absurd h (by decide)

theorem Hpack.Sound.tooBig (h : hp.Sound) :
    ({ hp with ctx.tooBig := true, ctx.res := .big } : Hpack).Sound := ⟨h.inv, h.log⟩

/-- An indexed field is copied from the tables, where its strings are valid. -/
theorem hptDecode_sound (idx : ℕ) (h : hp.Sound) :
    (hptDecode idx hp).Holds (fun _ hp' => hp'.Sound) (fun hp' => hp'.Sound) fun _ => True := by
  by_cases hidx : 0 < idx
  swap
  · rw [hptDecode, bind_apply, expect_apply, if_neg hidx]
    exact ⟨h.inv, h.log⟩
  have hfield := hptField_sound h idx
  cases hr : hptField idx hp with
  | stop w =>
    rw [hptDecode, bind_apply, expect_apply, if_pos hidx, Out.bind_ok, bind_apply, hr]
    trivial
  | err hp₁ =>
    rw [hr] at hfield
    rw [hptDecode, bind_apply, expect_apply, if_pos hidx, Out.bind_ok, bind_apply, hr]
    exact hfield ▸ ⟨h.inv, h.log⟩
  | ok hf hp₁ =>
    rw [hr] at hfield
    obtain ⟨rfl, hlnam, hlval, nam, val, hnam, hval, hvn, hvv⟩ := hfield
    have h₀ : (hp₁.startName nam.length).Sound := h.withFld (h.inv.2.nam _ (Ptr.out_ext _))
    have hval₀ : ∀ hp₂ : Hpack, hp₂.Sound → (hp₂.startValue val.length).Sound :=
      fun hp₂ h₂ => h₂.withFld (h₂.inv.2.val _ (Ptr.out_ext _))
    refine (hptDecode_holds hidx hr hlnam hlval hnam hval).mono ?_ ?_ fun _ h' => h'
    · rintro _ _ ⟨hp₂, hp₃, hw₁, hw₂, rfl⟩
      refine ((hval₀ _ (h₀.wrote hw₁)).wrote hw₂).notify fun evt hmem => ?_
      simp only [List.mem_cons, List.not_mem_nil, or_false] at hmem
      rcases hmem with rfl | rfl
      · exact hvn
      · exact hvv
    · rintro _ ⟨hp₂, rfl | ⟨hp₃, hw₁, rfl⟩, rfl⟩
      · exact h₀.tooBig
      · exact (hval₀ _ (h₀.wrote hw₁)).tooBig

/-- A name found in a table is copied. -/
theorem hptDecodeName_sound (h : hp.Sound) :
    (hptDecodeName hp).Holds (fun _ hp' => hp'.Sound ∧ ∃ n, hp'.ctx.fld.nam = .out n)
      (fun hp' => hp'.Sound) fun _ => True := by
  rw [hptDecodeName, bind_apply, get_apply, Out.bind_ok]
  refine .assert_bind trivial fun hnam => .assert_bind trivial fun _ => ?_
  rw [bind_apply]
  refine ((hptField_sound h _).mono (fun _ _ h' => h') (fun _ h' => ?_) fun _ h' => h').bind ?_
  · exact h' ▸ ⟨h.inv, h.log⟩
  rintro hf hp ⟨rfl, hlnam, -⟩
  refine .assert_bind trivial fun _ => .assert_bind trivial fun _ => ?_
  rw [bind_apply, modify_apply, Out.bind_ok]
  have h₀ : ({ hp with ctx.fld.namSz := hf.namSz } : Hpack).Sound := h.withFld h.inv.2
  refine (hpdPuts_holds _ hlnam _).mono ?_ (fun _ h' => h' ▸ h₀.tooBig) fun _ h' => h'
  rintro _ hp₁ ⟨s, -, hw⟩
  refine ⟨h₀.wrote hw, ?_⟩
  cases hw with
  | append _ => exact ⟨_, hnam⟩
  | slide _ => exact ⟨0, rfl⟩

theorem hpackDecodeNewName_sound (h : hp.Sound) :
    (hpackDecodeNewName hp).Holds (fun _ hp' => hp'.Sound ∧ ∃ n, hp'.ctx.fld.nam = .out n)
      (fun hp' => hp'.Sound) fun _ => True := by
  rw [hpackDecodeNewName, bind_apply]
  refine (stateFree_sound.hpackDecodeString (fun _ _ => trivial) sound_hpdCat .name hp h).bind ?_
  intro _ hp₁ h₁
  rw [bind_apply, get_apply, Out.bind_ok, bind_apply]
  refine ((bufDiff_holds _ hp₁).mono (fun _ _ h' => h') (fun _ h' => h'.elim) fun _ h' => h').bind ?_
  rintro d hp₁ ⟨rfl, n, hnam, -, -⟩
  exact ⟨h₁.withFld h₁.inv.2, n, hnam⟩

/-- A name is checked once it is decoded. -/
theorem hpackDecodeFieldName_sound (h : hp.Sound) :
    (hpackDecodeFieldName hp).Holds (fun _ hp' => hp'.Sound ∧ NameSet hp') (fun hp' => hp'.Sound)
      fun _ => True := by
  rw [hpackDecodeFieldName, bind_apply, get_apply, Out.bind_ok, bind_apply]
  have hname : ((if hp.state.idx = 0 then hpackDecodeNewName else hptDecodeName) hp).Holds
      (fun _ hp' => hp'.Sound ∧ ∃ n, hp'.ctx.fld.nam = .out n) (fun hp' => hp'.Sound)
      fun _ => True := by
    rw [ite_run]
    split
    · exact hpackDecodeNewName_sound h
    · exact hptDecodeName_sound h
  refine hname.bind ?_
  rintro _ hp₁ ⟨h₁, n, hnam⟩
  rw [bind_apply, get_apply, Out.bind_ok, bind_apply]
  refine ((hpvToken_holds _ _ h₁.mon).mono (fun _ _ h' => h') (fun _ h' => ?_) fun _ h' => h').bind ?_
  · rcases h' with rfl | rfl <;> exact ⟨h₁.inv, h₁.log⟩
  rintro _ _ ⟨rfl, s, c, hs, hv⟩
  obtain ⟨tail, hlaid⟩ := laid_of_str hnam hs
  exact ⟨h₁.congr rfl ⟨h₁.inv.2.1, Ptr.out_ext _⟩ rfl, s, c, tail, hv, hlaid⟩

/-- A value is checked once it is decoded, and the field is notified. -/
theorem hpackDecodeFieldValue_sound (h : hp.Sound) (hn : NameSet hp) :
    (hpackDecodeFieldValue hp).Holds (fun _ hp' => hp'.Sound ∧ FldValid hp')
      (fun hp' => hp'.Sound ∧ NameSet hp') fun _ => True := by
  rw [hpackDecodeFieldValue, bind_apply]
  refine (stateFree_named.hpackDecodeString (fun _ _ => trivial) named_hpdCat .value hp ⟨h, hn⟩).bind ?_
  rintro _ hp₁ ⟨h₁, hn₁⟩
  rw [bind_apply, get_apply, Out.bind_ok, bind_apply]
  refine ((bufDiff_holds _ hp₁).mono (fun _ _ h' => h') (fun _ h' => h'.elim) fun _ h' => h').bind ?_
  rintro d hp₁ ⟨rfl, n, hval, -, -⟩
  rw [bind_apply, modify_apply, Out.bind_ok, bind_apply, get_apply, Out.bind_ok, bind_apply]
  have h₂ : ({ hp₁ with ctx.fld.valSz := d - 1 } : Hpack).Sound := h₁.withFld h₁.inv.2
  have hn₂ : NameSet { hp₁ with ctx.fld.valSz := d - 1 } := hn₁
  refine ((hpvValue_holds _ _ _).mono (fun _ _ h' => h') (fun _ h' => ?_) fun _ h' => h').bind ?_
  · exact h' ▸ ⟨⟨h₂.inv, h₂.log⟩, hn₂⟩
  rintro _ hp₂ ⟨hs, val, hstr, hvv⟩
  subst hs
  rw [bind_apply]
  refine ((hpdNotify_holds _).mono (fun _ _ h' => h') (fun _ h' => h'.elim) fun _ h' => h').bind ?_
  rintro _ _ ⟨-, nam, val', hnam', hval', rfl⟩
  obtain ⟨nam', c, tail, hvn, hlaid⟩ := hn₂
  obtain rfl : nam' = nam := (Prod.mk.inj (Option.some.inj (hlaid.str.symm.trans hnam'))).1
  obtain rfl : val = val' := (Prod.mk.inj (Option.some.inj (hstr.symm.trans hval'))).1
  have hevts : ∀ evt ∈ [Event.name nam', .value val], evt.Valid := by
    simp only [List.mem_cons, List.not_mem_nil, or_false, forall_eq_or_imp, forall_eq]
    exact ⟨hvn, hvv⟩
  exact ⟨(h₂.notify hevts).congr rfl h₂.inv.2 rfl, nam', val, hnam', hval', hvn, hvv⟩

/-- A name is missing octets before it is checked. -/
theorem paused_name (hin : hp.state.InStr .name) : Paused hp := by
  intro _ hstp
  rcases hin with h | ⟨h, -⟩ <;> rw [h] at hstp <;> simp [StrEvt.lenStp, StrEvt.strStp] at hstp

/-- A decoder in a state from which a field can be decoded. -/
structure InField (hp : Hpack) : Prop where
  sound : hp.Sound
  state : hp.state.AtStart ∨ hp.state.InField
  named : hp.state.stp = .valLen ∨ hp.state.stp = .valStr → NameSet hp

theorem hpackDecodeField_sound (h : InField hp) :
    (hpackDecodeField hp).Holds (fun _ hp' => hp'.Sound ∧ FldValid hp')
      (fun hp' => hp'.Sound ∧ Paused hp') fun _ => True := by
  have hvalue : ∀ hp₁ : Hpack, hp₁.Sound → NameSet hp₁ →
      (hpackDecodeFieldValue hp₁).Holds (fun _ hp' => hp'.Sound ∧ FldValid hp')
        (fun hp' => hp'.Sound ∧ Paused hp') fun _ => True := fun hp₁ h₁ hn₁ =>
    (hpackDecodeFieldValue_sound h₁ hn₁).mono (fun _ _ h => h) (fun _ h => ⟨h.1, fun _ _ => h.2⟩)
      fun _ h => h
  -- the name first, when it is the next step
  have hname : ∀ hp₁ : Hpack, hp₁.Sound → (hp₁.state.stp = .namLen ∨ hp₁.state.stp = .namStr) →
      ((hp₁.state.idx = 0 ∧ hp₁.state.InStr .name) ∨ (hp₁.state.idx ≠ 0 ∧ hp₁.state.bsy = false)) →
      ((do
        let hp ← get
        Prog.when (hp.state.stp = .namLen ∨ hp.state.stp = .namStr) hpackDecodeFieldName
        hpackDecodeFieldValue : Cp Unit) hp₁).Holds (fun _ hp' => hp'.Sound ∧ FldValid hp')
        (fun hp' => hp'.Sound ∧ Paused hp') fun _ => True := by
    intro hp₁ h₁ hstp hstate
    rw [bind_apply, get_apply, Out.bind_ok, bind_apply, when_apply, if_pos hstp]
    have hfield := (hpackDecodeFieldName_sound h₁).and (hpackDecodeFieldName_progress hstate)
    refine (hfield.mono (fun _ _ h => h.1) (fun hp' h => ?_) fun _ h => h).bind fun _ hp' h =>
      hvalue hp' h.1 h.2
    obtain ⟨hs, hfatal | ⟨-, ⟨-, hin⟩, -⟩⟩ := h
    · exact ⟨hs, .of_fatal hfatal⟩
    · exact ⟨hs, paused_name hin⟩
  rw [hpackDecodeField, bind_apply, get_apply, Out.bind_ok, bind_apply, when_apply]
  rcases h.state with hst | ⟨hidx, hin⟩ | hin
  · rw [if_pos hst.stp, modify_apply, Out.bind_ok]
    refine hname _ (h.sound.congr rfl ⟨Ptr.out_ext _, h.sound.inv.2.2⟩ rfl) (Or.inl rfl) ?_
    by_cases hidx : hp.state.idx = 0
    · exact Or.inl ⟨hidx, Or.inl rfl⟩
    · exact Or.inr ⟨hidx, hst.bsy⟩
  · have hstp : hp.state.stp = .namLen ∨ hp.state.stp = .namStr := hin.imp id And.left
    have hne : hp.state.stp ≠ .fldInt := by
      rcases hstp with h | h <;> rw [h] <;> exact Step.noConfusion
    rw [if_neg hne, Out.bind_ok]
    exact hname hp h.sound hstp (Or.inl ⟨hidx, hin⟩)
  · have hstp : hp.state.stp = .valLen ∨ hp.state.stp = .valStr := hin.imp id And.left
    have hne : hp.state.stp ≠ .fldInt ∧ ¬ (hp.state.stp = .namLen ∨ hp.state.stp = .namStr) := by
      rcases hstp with h | h <;> simp [h]
    rw [if_neg hne.1, Out.bind_ok, bind_apply, get_apply, Out.bind_ok, bind_apply, when_apply,
      if_neg hne.2, Out.bind_ok]
    exact hvalue hp h.sound (h.named hstp)

/-! ### Representations -/

theorem sound_hpackDecoderField (idx : ℕ) :
    Keeps (fun _ => True) Hpack.Sound (hpackDecoderField idx) := by
  refine .bind .get fun hp => .bind (.assert _ trivial) fun _ hp' h => ?_
  refine (hpcNotify_holds (b := False) _).mono (fun _ hp'' hs => ?_) (fun _ hf => hf.elim)
    fun _ _ => trivial
  refine hs ▸ h.notify fun evt hmem => ?_
  obtain rfl := List.mem_singleton.1 hmem
  trivial

theorem sound_hpiDecode (pfx : ℕ) : Keeps (fun _ => True) Hpack.Sound (hpiDecode pfx) :=
  stateFree_sound.hpiDecode (fun _ _ => trivial) pfx

theorem hpackDecodeIndexed_sound : Keeps (fun _ => True) Hpack.Sound hpackDecodeIndexed :=
  .bind (sound_hpiDecode _) fun idx => .bind (sound_hpackDecoderField idx) fun _ _ h =>
    hptDecode_sound idx h

theorem sound_hpackDecodeLiteralIdx (p : Hpp) :
    Keeps (fun _ => True) Hpack.Sound (hpackDecodeLiteralIdx p) := by
  refine .bind (sound_hpiDecode _) fun idx => .bind ?_ fun _ => sound_hpackDecoderField 0
  exact stateFree_sound.modify fun _ => rfl

/-- A decoder in a state from which decoding can go on. -/
structure Ready (hp : Hpack) : Prop where
  sound : hp.Sound
  saved : hp.state.Saved
  named : hp.state.stp = .valLen ∨ hp.state.stp = .valStr → NameSet hp

theorem Ready.inField (h : Ready hp) (hstp : hp.state.stp ≠ .fldInt) : InField hp where
  sound := h.sound
  state := h.saved.imp id fun hmid => (hmid.lit hstp).2
  named := h.named

/-- A literal is its start, the field, then what is done of it. -/
theorem literal_sound {start : Cp Unit} {finish : Cp Unit} (h : Ready hp)
    (hstart : Keeps (fun _ => True) Hpack.Sound start)
    (hprog : hp.state.stp = .fldInt → (start hp).Holds (fun _ hp' => hp'.state.AtStart)
      (Asks fun hp' => hp'.state.stp = .fldInt) fun _ => True)
    (hfinish : ∀ hp₁ : Hpack, hp₁.Sound → FldValid hp₁ →
      (finish hp₁).Holds (fun _ hp' => hp'.Sound) (fun _ => False) fun _ => True) :
    ((do
      let hp ← get
      Prog.when (hp.state.stp = .fldInt) start
      hpackDecodeField
      finish : Cp Unit) hp).Holds (fun _ hp' => hp'.Sound) (fun hp' => hp'.Sound ∧ Paused hp')
      fun _ => True := by
  have hend : ∀ hp₁ : Hpack, InField hp₁ → ((do hpackDecodeField; finish : Cp Unit) hp₁).Holds
      (fun _ hp' => hp'.Sound) (fun hp' => hp'.Sound ∧ Paused hp') fun _ => True := by
    intro hp₁ h₁
    rw [bind_apply]
    exact (hpackDecodeField_sound h₁).bind fun _ hp₂ h₂ =>
      (hfinish hp₂ h₂.1 h₂.2).mono (fun _ _ h => h) (fun _ h => h.elim) fun _ h => h
  rw [bind_apply, get_apply, Out.bind_ok, bind_apply, when_apply]
  split
  · rename_i hstp
    have hboth := (hstart hp h.sound).and (hprog hstp)
    refine (hboth.mono (fun _ _ h => h) (fun hp' h => ?_) fun _ h => h).bind fun _ hp₁ h₁ => ?_
    · obtain ⟨hs, hfatal | ⟨-, hstp'⟩⟩ := h
      · exact ⟨hs, .of_fatal hfatal⟩
      · refine ⟨hs, fun _ hval => ?_⟩
        rw [hstp'] at hval
        simp at hval
    · refine hend hp₁ ⟨h₁.1, Or.inl h₁.2, fun hval => ?_⟩
      rw [h₁.2.stp] at hval
      simp at hval
  · exact hend hp (h.inField ‹_›)

theorem hpackDecodeLiteralIdx_waits (p : Hpp) (hstp : hp.state.stp = .fldInt) :
    (hpackDecodeLiteralIdx p hp).Holds (fun _ hp' => hp'.state.AtStart)
      (Asks fun hp' => hp'.state.stp = .fldInt) fun _ => True := by
  rw [hpackDecodeLiteralIdx, bind_apply]
  refine ((hpiDecode_progress _ hp).mono (fun _ _ h => h) (fun hp' h => ?_) fun _ h => h).bind ?_
  · exact h.mono fun h => h.1.stp.trans hstp
  rintro idx hp₁ ⟨hkept, hbsy, -⟩
  rw [bind_apply, modify_apply, Out.bind_ok]
  refine ((calm_hpackDecoderField 0) _).mono (fun _ hp' hq => ?_) (fun _ h => Or.inl h) fun _ h => h
  exact ⟨hq.bsy.trans hbsy, hq.stp.trans (hkept.stp.trans hstp)⟩

theorem hpackDecodeNever_waits (hstp : hp.state.stp = .fldInt) :
    ((do hpackDecodeLiteralIdx .nvr; hpcNotify .never : Cp Unit) hp).Holds
      (fun _ hp' => hp'.state.AtStart) (Asks fun hp' => hp'.state.stp = .fldInt)
      fun _ => True := by
  rw [bind_apply]
  refine (hpackDecodeLiteralIdx_waits .nvr hstp).bind fun _ hp₁ h₁ => ?_
  refine ((Calm.of_blind (blind_hpcNotify _)) hp₁).mono (fun _ hp' hq => ?_) (fun _ h => Or.inl h)
    fun _ h => h
  exact ⟨hq.bsy.trans h₁.bsy, hq.stp.trans h₁.stp⟩

theorem sound_hpcNotify {evt : Event} (hv : evt.Valid) :
    Keeps (fun _ => True) Hpack.Sound (hpcNotify evt) := by
  intro hp h
  refine (hpcNotify_holds (b := False) _).mono (fun _ hp' hs => ?_) (fun _ hf => hf.elim)
    fun _ _ => trivial
  refine hs ▸ h.notify fun evt hmem => ?_
  obtain rfl := List.mem_singleton.1 hmem
  exact hv

/-- **Decoding a representation**, or the rest of one, only lets valid strings through. -/
theorem hpackDecodeAny_sound (h : Ready hp) :
    (hpackDecodeAny hp.state.typ hp).Holds (fun _ hp' => hp'.Sound)
      (fun hp' => hp'.Sound ∧ Paused hp') fun _ => True := by
  -- an integer is all that an indexed field or an update can wait for
  have hint : ∀ x : Cp Unit, ¬ IsLiteral hp.state.typ → Keeps (fun _ => True) Hpack.Sound x →
      Progress x hp → (x hp).Holds (fun _ hp' => hp'.Sound) (fun hp' => hp'.Sound ∧ Paused hp')
        fun _ => True := by
    intro x hlit hx hprog
    refine ((hx hp h.sound).and hprog).mono (fun _ _ h => h.1) (fun hp' h' => ?_) fun _ h => h
    obtain ⟨hs, hfatal | ⟨-, hmid, htyp, -⟩⟩ := h'
    · exact ⟨hs, .of_fatal hfatal⟩
    · refine ⟨hs, fun _ hval => absurd (hmid.lit ?_).1 (htyp ▸ hlit)⟩
      rcases hval with hval | hval <;> rw [hval] <;> exact Step.noConfusion
  have hprog := hpackDecodeAny_progress h.saved
  have hnone : ∀ hp₁ : Hpack, hp₁.Sound → FldValid hp₁ →
      ((Pure.pure () : Cp Unit) hp₁).Holds (fun _ hp' => hp'.Sound) (fun _ => False)
        fun _ => True := fun _ h₁ _ => h₁
  unfold hpackDecodeAny at hprog ⊢
  split
  · rename_i hidx
    rw [if_pos hidx] at hprog
    exact hint _ (fun hlit => by simp [IsLiteral, hidx] at hlit) hpackDecodeIndexed_sound hprog
  rename_i hidx
  rw [if_neg hidx] at hprog
  split
  · exact literal_sound h (sound_hpackDecodeLiteralIdx .dyn) (hpackDecodeLiteralIdx_waits .dyn)
      fun hp₁ h₁ hf => hptIndex_sound h₁ hf
  rename_i hdyn
  rw [if_neg hdyn] at hprog
  split
  · rename_i hupd
    rw [if_pos hupd] at hprog
    exact hint _ (fun hlit => by simp [IsLiteral, hdyn, hupd] at hlit) hpackDecodeUpdate_sound hprog
  split
  · have hlit := literal_sound h (.bind (sound_hpackDecodeLiteralIdx .nvr) fun _ =>
      sound_hpcNotify (show Event.never.Valid from trivial)) hpackDecodeNever_waits hnone
    simp only [bind_pure_unit] at hlit
    exact hlit
  · have hlit := literal_sound h (sound_hpackDecodeLiteralIdx .lit)
      (hpackDecodeLiteralIdx_waits .lit) hnone
    simp only [bind_pure_unit] at hlit
    exact hlit

/-! ### Blocks -/

/-- A decoder between two calls: in the middle of a block, decoding can go on. -/
def Resumes (hp : Hpack) : Prop :=
  hp.Sound ∧ (hp.magic = .decoder → hp.ctx.res = .blk →
    hp.state.Saved ∧ (hp.state.stp = .valLen ∨ hp.state.stp = .valStr → NameSet hp))

theorem Hpack.Sound.defunct (h : hp.Sound) : ({ hp with magic := .defunct } : Hpack).Sound :=
  ⟨⟨⟨⟨h.inv.1.fits.1, Magic.noConfusion⟩, h.inv.1.mon, h.inv.1.table⟩, h.inv.2⟩, h.log⟩

theorem resumes_defunct (h : hp.Sound) : Resumes { hp with magic := .defunct } :=
  ⟨h.defunct, fun hm => Magic.noConfusion hm⟩

theorem hpackDecodeRep_sound (cut : Bool) (h : Ready hp) :
    (hpackDecodeRep cut hp.state.typ hp).Holds
      (fun r hp' => if r = none then Ready hp' else Resumes hp') (fun _ => False)
      fun _ => True := by
  rw [hpackDecodeRep, bind_apply]
  refine ((hpackDecodeAny_sound h).and (hpackDecodeAny_progress h.saved)).attempt.bind fun r hp₁ h₁ => ?_
  cases r with
  | some _ =>
    obtain ⟨hs, hst, -⟩ := h₁
    refine ⟨hs.withFld ⟨fun _ => Ptr.noConfusion, fun _ => Ptr.noConfusion⟩, Or.inl hst, fun hval => ?_⟩
    have hstp : hp₁.state.stp = .fldInt := hst.stp
    have hval : hp₁.state.stp = .valLen ∨ hp₁.state.stp = .valStr := hval
    rw [hstp] at hval
    simp at hval
  | none =>
    obtain ⟨⟨hs, hpause⟩, hasks⟩ := h₁
    refine .assert_bind trivial fun _ => ?_
    rw [ite_run]
    split
    · rename_i hbuf
      refine ⟨⟨hs.inv, hs.log⟩, fun _ _ => ?_⟩
      obtain hfatal | ⟨-, hmid, -⟩ := hasks
      · exact absurd hfatal (by rw [hbuf.2]; decide)
      · exact ⟨Or.inr hmid, hpause hbuf.2⟩
    · exact resumes_defunct hs

theorem Ready.typ (h : Ready hp) (u : Bool) :
    Ready { hp with state.typ := hp.typ, ctx.canUpd := u } := by
  refine ⟨⟨⟨⟨⟨h.sound.inv.1.fits.1, h.sound.inv.1.fits.2⟩, h.sound.inv.1.mon,
    h.sound.inv.1.table⟩, h.sound.inv.2⟩, h.sound.log⟩, Hpack.saved_typ h.saved, h.named⟩

theorem hpackDecodeTurn_sound (cut : Bool) (h : Ready hp) (hblk : hp.ctx.blk ≠ []) :
    (hpackDecodeTurn cut hp).Holds
      (fun r hp' => if r = none then Ready hp' else Resumes hp') (fun _ => False)
      fun _ => True := by
  rw [hpackDecodeTurn, bind_apply, hpackDecodeTyp_eq hblk, Out.bind_ok, bind_apply, get_apply,
    Out.bind_ok, ite_run]
  split
  · exact resumes_defunct (h.typ hp.ctx.canUpd).sound
  rw [bind_apply, when_apply]
  split
  · rw [bind_apply, assert_apply]
    split
    · exact hpackDecodeRep_sound cut (h.typ false)
    · trivial
  · exact hpackDecodeRep_sound cut (h.typ hp.ctx.canUpd)

theorem hpackDecodeLoop_sound (cut : Bool) (n : ℕ) (h : Ready hp) :
    (hpackDecodeLoop cut n hp).Holds (fun _ hp' => Resumes hp') (fun _ => False)
      fun _ => True := by
  induction n generalizing hp with
  | zero => trivial
  | succ n ih =>
    rw [hpackDecodeLoop, bind_apply, get_apply, Out.bind_ok, ite_run]
    split
    · rw [hpackDecodeEnd, bind_apply, get_apply, Out.bind_ok]
      exact .assert_bind trivial fun _ => ⟨h.sound, fun _ _ => ⟨h.saved, h.named⟩⟩
    rename_i hblk
    rw [bind_apply]
    refine (hpackDecodeTurn_sound cut h hblk).bind fun r hp' h' => ?_
    cases r with
    | none => exact ih h'
    | some r => exact h'

/-- A call that passes its checks starts to decode, or goes on. -/
theorem Enters.ready {dec : Decoding} {hc hl : Hpack} (h : Enters dec hc hl) (hc' : Resumes hc) :
    Ready hl := by
  obtain ⟨hb, hbegin, rfl⟩ := h.enter
  have hb' := hpackDecodeBegin_holds dec hc
  rw [hbegin] at hb'
  have hs := hc'.1
  have hsound : ∀ hp₁ : Hpack, hp₁.toTable = hc.toTable → hp₁.magic = hc.magic →
      hp₁.mon = hc.mon → hp₁.ctx.fld = hc.ctx.fld → hp₁.ctx.log = hc.ctx.log → hp₁.Sound := by
    intro hp₁ htab hmagic hmon hfld hlog
    have hfits : hp₁.toTable.Fits False := htab ▸ hs.inv.1.fits.1
    have hvalid : hp₁.toTable.Valid := htab ▸ hs.inv.1.table
    have hm : hp₁.magic ≠ .encoder := hmagic ▸ hs.inv.1.fits.2
    exact ⟨⟨⟨⟨hfits, hm⟩, hmon.trans hs.mon, hvalid⟩, hfld ▸ hs.inv.2⟩, hlog ▸ hs.log⟩
  rcases hb' with ⟨hres, -, rfl⟩ | ⟨-, -, rfl⟩
  · obtain ⟨hsaved, hnamed⟩ := hc'.2 h.magic hres
    exact ⟨hsound _ rfl rfl rfl rfl rfl, hsaved, hnamed⟩
  · refine ⟨hsound _ rfl rfl rfl rfl rfl, ?_, fun hval => ?_⟩
    · by_cases hbsy : hc.state.bsy = false
      · exact Or.inl ⟨hbsy, rfl⟩
      · have hbsy : hc.state.bsy = true := by simpa using hbsy
        exact Or.inr (mid_of_int rfl hbsy)
    · have hval : Step.fldInt = .valLen ∨ Step.fldInt = .valStr := hval
      simp at hval

/-! ### Calls -/

theorem Resumes.withRes (h : Resumes hp) {r : Res} (hr : r ≠ .blk) :
    Resumes { hp with ctx.res := r } :=
  ⟨⟨h.1.inv, h.1.log⟩, fun _ hres => absurd hres hr⟩

theorem hpackDecode_sound (dec : Decoding) (h : Resumes hp) :
    (hpackDecode dec hp).Holds (fun _ hp' => Resumes hp') (fun _ => False) fun _ => True := by
  rw [hpackDecode, bind_apply, get_apply, Out.bind_ok, ite_run]
  split
  · exact h
  rename_i hargs
  have hm : hp.magic = .decoder := by tauto
  have hv : dec.Valid := ⟨by tauto, by tauto, by tauto, by cases hcb : dec.cb <;> tauto⟩
  rw [bind_apply, attempt_apply]
  have hbegin := hpackDecodeBegin_holds dec hp
  cases hr : hpackDecodeBegin dec hp with
  | ok u hb =>
    exact hpackDecodeLoop_sound _ _ (Enters.ready ⟨hm, hv, hb, hr, rfl⟩ h)
  | err hp' =>
    rw [hr] at hbegin
    exact hbegin.2 ▸ h.withRes Res.noConfusion
  | stop w => trivial

theorem hpackDecodeFields_sound (dec : Decoding) (cur : Option (ℕ × ℕ)) (h : Resumes hp) :
    (hpackDecodeFields dec cur hp).Holds (fun _ hp' => Resumes hp') (fun _ => False)
      fun _ => True := by
  have hnext : ∀ hp₁ : Hpack, Resumes hp₁ → (hpackDecodeFieldsNext dec cur hp₁).Holds
      (fun _ hp' => Resumes hp') (fun _ => False) fun _ => True := by
    intro hp₁ h₁
    refine (hpackDecodeFieldsNext_holds dec cur hp₁).mono (fun _ hp' h' => ?_) (fun _ h' => h')
      fun _ h' => h'
    rcases h' with ⟨-, rfl, -⟩ | ⟨-, rfl⟩
    · exact h₁
    · exact h₁.withRes Res.noConfusion
  rw [hpackDecodeFields, bind_apply, get_apply, Out.bind_ok, ite_run]
  split
  · exact h
  refine .assert_bind trivial fun _ => ?_
  rw [ite_run]
  split
  swap
  · exact hnext hp h
  rw [ite_run]
  split
  · exact resumes_defunct h.1
  rw [bind_apply]
  refine (hpackDecode_sound _ h).bind fun r hp₁ h₁ => ?_
  rw [bind_apply, get_apply, Out.bind_ok]
  refine .assert_bind trivial fun _ => ?_
  rw [ite_run]
  split
  · exact h₁
  · rw [bind_apply, modify_apply, Out.bind_ok]
    exact hnext _ (h₁.withRes Res.noConfusion)

/-- The strings of a decoder, its table apart. -/
def Resumes.Elsewhere (hp : Hpack) : Prop :=
  (hp.mon = false ∧ hp.ctx.fld.Ext ∧ ∀ evt ∈ hp.ctx.log, evt.Valid) ∧
    (hp.magic = .decoder → hp.ctx.res = .blk →
      hp.state.Saved ∧ (hp.state.stp = .valLen ∨ hp.state.stp = .valStr → NameSet hp))

theorem memFree_elsewhere : MemFree Resumes.Elsewhere := by
  rintro hp t a o m (rfl | rfl) ⟨hs, hrest⟩
  · exact ⟨hs, hrest⟩
  · exact ⟨hs, fun hm => Magic.noConfusion hm⟩

/-- A call that leaves the entries of the table and the block alone. -/
theorem Resumes.of_memory {op : DecOp} (h : Resumes hp)
    (helse : Keeps (fun _ => True) Resumes.Elsewhere op.exec)
    (hrep : ∀ l, hp.toTable.Rep l → (op.exec hp).Holds (fun _ hp' => hp'.toTable.Rep l)
      (fun _ => True) fun _ => True) :
    (op.exec hp).Holds (fun _ hp' => Resumes hp') (fun _ => True) fun _ => True := by
  obtain ⟨l, hl', hv⟩ := h.1.inv.1.table
  have hl : hp.toTable.Rep l := hl'
  have hfits := fits_exec (b := False) op ⟨h.1.inv.1.fits, h.1.inv.2⟩ False.elim
  have helse' := helse hp ⟨⟨h.1.mon, h.1.inv.2, h.1.log⟩, h.2⟩
  refine ((hrep l hl).and (hfits.and helse')).mono ?_ (fun _ _ => trivial) fun _ h' => h'
  rintro _ hp' ⟨hl₁, hinv, ⟨hmon, hext, hlog⟩, hrest⟩
  exact ⟨⟨⟨⟨hinv.1, hmon, l, hl₁, hv⟩, hext⟩, hlog⟩, hrest⟩

theorem entryEvents_valid {l : List Entry} (h : ∀ e ∈ l, e.Valid) :
    ∀ evt ∈ entryEvents l, evt.Valid := by
  intro evt hmem
  obtain ⟨e, he, hevt⟩ := List.mem_flatMap.1 hmem
  simp only [List.mem_cons, List.not_mem_nil, or_false] at hevt
  rcases hevt with rfl | rfl | rfl
  · trivial
  · exact (h e he).1
  · exact (h e he).2

theorem hptStaticEvents_valid : ∀ evt ∈ hptStaticEvents, evt.Valid := by
  intro evt hmem
  obtain ⟨e, he, hevt⟩ := List.mem_flatMap.1 hmem
  simp only [List.mem_cons, List.not_mem_nil, or_false] at hevt
  rcases hevt with rfl | rfl | rfl
  · trivial
  · exact (hpsTable_valid e he).1
  · exact (hpsTable_valid e he).2

theorem hpackForeach_sound (static dynamic : Bool) (h : hp.Sound) :
    (hpackForeach static dynamic hp).Holds (fun _ hp' => hp'.Sound) (fun _ => True)
      fun _ => True := by
  have hnot : ∀ evts : List Event, (∀ evt ∈ evts, evt.Valid) →
      Keeps (fun _ => True) Hpack.Sound (hpcNotifyAll evts) := by
    intro evts hv hp₁ h₁
    refine (hpcNotifyAll_holds (b := False) hp₁ evts).mono (fun _ hp' hs => ?_)
      (fun _ hf => hf.elim) fun _ _ => trivial
    exact hs ▸ h₁.notify hv
  have hlist : Keeps (fun _ => True) Hpack.Sound (do
      let evts ← onTable hptForeach
      hpcNotifyAll evts) := by
    intro hp₁ h₁
    obtain ⟨l, hl', hv⟩ := h₁.inv.1.table
    have hl : hp₁.toTable.Rep l := hl'
    rw [bind_apply, onTable_eq (hptForeach_eq hl)]
    exact hnot _ (entryEvents_valid hv) _ h₁
  have hkeeps : Keeps (fun _ => True) Hpack.Sound (do
      Prog.when (static = true) (hpcNotifyAll hptStaticEvents)
      Prog.when (dynamic = true) do
        let evts ← onTable hptForeach
        hpcNotifyAll evts
      pure Res.ok) :=
    .bind (.when fun _ => hnot _ hptStaticEvents_valid) fun _ =>
      .bind (.when fun _ => hlist) fun _ => .pure _
  rw [hpackForeach, bind_apply, get_apply, Out.bind_ok, ite_run]
  split
  · exact h
  rw [bind_apply, modify_apply, Out.bind_ok]
  refine (hkeeps _ ?_).mono (fun _ _ h => h) (fun _ _ => trivial) fun _ h => h
  exact ⟨⟨⟨⟨h.inv.1.fits.1, h.inv.1.fits.2⟩, h.mon, h.inv.1.table⟩, fun _ => Ptr.noConfusion,
    fun _ => Ptr.noConfusion⟩, h.log⟩

theorem exec_sound (op : DecOp) (h : Resumes hp) :
    (op.exec hp).Holds (fun _ hp' => Resumes hp') (fun _ => True) fun _ => True := by
  cases op with
  | resize len re =>
    refine @Resumes.of_memory hp (.resize len re) h (memFree_elsewhere.hpackResize len re) fun l hl => ?_
    exact (rep_hpackResize l len re hp hl).mono (fun _ _ h => h) (fun _ _ => trivial) fun _ h => h
  | trim re =>
    refine @Resumes.of_memory hp (.trim re) h (memFree_elsewhere.hpackTrim re) fun l hl => ?_
    have hfits : hp.toTable.Fits False := h.1.inv.1.fits.1
    have hm : hp.magic ≠ .encoder := h.1.inv.1.fits.2
    refine (hpackTrim_rep hl ?_).mono (fun _ _ h => h) (fun _ _ => trivial) fun _ h => h
    rw [if_neg hm]
    exact hfits.len_le.trans (Size.limit_le_max hfits.lim_le)
  | decode dec => exact (hpackDecode_sound dec h).mono (fun _ _ h => h) (fun _ h => h.elim) fun _ h => h
  | fields dec cur =>
    show ((hpackDecodeFields dec cur >>= fun r => pure r.1) hp).Holds _ _ _
    rw [bind_apply]
    exact ((hpackDecodeFields_sound dec cur h).mono (fun _ _ h => h) (fun _ h => h.elim)
      fun _ h => h).bind fun _ _ h => h
  | skip =>
    show (hpackSkip hp).Holds _ _ _
    rw [hpackSkip, bind_apply, get_apply, Out.bind_ok, ite_run]
    split
    · exact h
    · exact ⟨⟨h.1.inv, h.1.log⟩, h.2⟩
  | foreach static dynamic =>
    refine ((hpackForeach_sound static dynamic h.1).and
      ((hpackForeach_cleared static dynamic hp).mono (fun _ _ h => h) (fun _ h => h) fun _ h => h)).mono
      ?_ (fun _ _ => trivial) fun _ h => h
    rintro r hp' ⟨hs, ⟨-, rfl⟩ | ⟨-, log, rfl⟩⟩
    · exact h
    · exact ⟨hs, fun _ hres => Res.noConfusion hres⟩

/-! ### Runs -/

theorem resumes_new {max : ℕ} {rsz : ℤ} {ha : Alloc}
    (h : hpackDecoder max rsz ha () = .ok (some hp) ()) : Resumes hp := by
  have hfits := decoder_new (b := False) (.decoder h)
  obtain ⟨-, -, -, blk, rfl⟩ := hpackNew_some h
  refine ⟨⟨⟨⟨hfits.1, rfl, [], ⟨rfl, rfl, [], _, rfl, .nil 0⟩, ?_⟩, hfits.2⟩, ?_⟩, fun _ hres => ?_⟩
  · exact fun e he => absurd he List.not_mem_nil
  · exact fun evt he => absurd he List.not_mem_nil
  · cases hres

/-- The call `dec` of `hpack_decode`, made in the state `hc`, comes to a turn of its loop. -/
inductive Turns (dec : Decoding) (hc : Hpack) : Hpack → Prop
  | enter {hl : Hpack} (h : Enters dec hc hl) : Turns dec hc hl
  | turn {hl hl' : Hpack} (before : Turns dec hc hl) (hblk : hl.ctx.blk ≠ [])
      (h : hpackDecodeTurn dec.cut hl = .ok none hl') : Turns dec hc hl'

/-- It comes to a turn of its loop, or to `HPT_index` with the field that was decoded. -/
inductive Through (dec : Decoding) (hc : Hpack) : Hpack → Prop
  | turn {hl : Hpack} (h : Turns dec hc hl) : Through dec hc hl
  | index {hl hf : Hpack} {u : Bool} (before : Turns dec hc hl)
      (hdyn : hpackDecodeAny hl.typ = hpackDecodeDynamic)
      (h : (do
        let hp ← get
        Prog.when (hp.state.stp = .fldInt) (hpackDecodeLiteralIdx .dyn)
        hpackDecodeField : Cp Unit) { hl with state.typ := hl.typ, ctx.canUpd := u } = .ok () hf) :
      Through dec hc hf

theorem Turns.ready {dec : Decoding} {hc hl : Hpack} (h : Turns dec hc hl) (hc' : Resumes hc) :
    Ready hl := by
  induction h with
  | enter h => exact h.ready hc'
  | turn _ hblk h ih =>
    have hturn := hpackDecodeTurn_sound dec.cut ih hblk
    rwa [h] at hturn

theorem Through.sound {dec : Decoding} {hc hf : Hpack} (h : Through dec hc hf) (hc' : Resumes hc) :
    hf.Sound := by
  cases h with
  | turn h => exact (h.ready hc').sound
  | @index hl _ u before _ h =>
    have hnone : ∀ hp₁ : Hpack, hp₁.Sound → FldValid hp₁ →
        ((Pure.pure () : Cp Unit) hp₁).Holds (fun _ hp' => hp'.Sound) (fun _ => False)
          fun _ => True := fun _ h₁ _ => h₁
    have hlit := literal_sound ((before.ready hc').typ u) (sound_hpackDecodeLiteralIdx .dyn)
      (hpackDecodeLiteralIdx_waits .dyn) hnone
    simp only [bind_pure_unit] at hlit
    rwa [h] at hlit

/-- The strings of the events and of the dynamic table are valid. -/
structure Hpack.Strings (hp : Hpack) : Prop where
  name : ∀ s, .name s ∈ hp.ctx.log → ValidName s ∧ NoBreak s
  value : ∀ s, .value s ∈ hp.ctx.log → ValidValue s ∧ NoBreak s
  table : ∃ l, hp.toTable.Rep l ∧ ∀ e ∈ l,
    ValidName e.nam ∧ NoBreak e.nam ∧ ValidValue e.val ∧ NoBreak e.val

theorem Hpack.Sound.strings (h : hp.Sound) : hp.Strings where
  name s hs := by
    have hv : ValidName s := h.log _ hs
    exact ⟨hv, hv.noBreak⟩
  value s hs := by
    have hv : ValidValue s := h.log _ hs
    exact ⟨hv, hv.noBreak⟩
  table := by
    obtain ⟨l, hl, hv⟩ := h.inv.1.table
    exact ⟨l, hl, fun e he => ⟨(hv e he).1, (hv e he).1.noBreak, (hv e he).2, (hv e he).2.noBreak⟩⟩

/-- **Only valid strings are delivered or stored**: in every state a decoder reaches, and at every
turn of the calls made from there, the events and the dynamic table have valid strings. -/
theorem decoder_strings {max : ℕ} {rsz : ℤ} {ha : Alloc} {hp₀ : Hpack}
    (hnew : hpackDecoder max rsz ha () = .ok (some hp₀) ())
    (hrun : Reach DecOp.exec (fun _ _ => True) hp₀ hp) :
    hp.Strings ∧ ∀ dec hf, Through dec hp hf → hf.Strings := by
  have h : Resumes hp := by
    refine hrun.invariant (resumes_new hnew) fun op hp r hp' h _ hr => ?_
    have h' := exec_sound op h
    rwa [hr] at h'
  exact ⟨h.1.strings, fun dec hf hthrough => (hthrough.sound h).strings⟩

/-- A literal with incremental indexing, name `a` and value `b`, then the entry it inserts. -/
def indexedBlock : Decoding := ⟨[0x40, 0x01, 0x61, 0x01, 0x62, 0xbe], 1, 100, true, false⟩

/-- A decoder that was given this block. -/
def indexedDecoder : Hpack :=
  match (DecOp.decode indexedBlock).exec smallDecoder with
  | .ok _ hp => hp
  | _ => smallDecoder

theorem decoder_strings_indexed : Event.name (ascii "a") ∈ indexedDecoder.ctx.log ∧
    ValidName (ascii "a") ∧ NoBreak (ascii "a") := by
  have hrun : (DecOp.decode indexedBlock).exec smallDecoder = .ok .ok indexedDecoder := by
    decide +kernel
  have hmem : Event.name (ascii "a") ∈ indexedDecoder.ctx.log := by decide +kernel
  obtain ⟨h, -⟩ := decoder_strings smallDecoder_new
    (.step (.refl _) (i := DecOp.decode indexedBlock) trivial hrun)
  exact ⟨hmem, h.name _ hmem⟩

end Cashpack
