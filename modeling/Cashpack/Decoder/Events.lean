import Cashpack.Decoder.Address

/-!
# The events of a field

The events of a field come from several functions.  A field is announced with its FIELD event
(`hpackDecodeOpen`); then its strings are decoded without an event, and notified together once
they are in the working buffer (`hpackDecodeBody`).  A field that overflows the buffer is not
notified any further.

## Main results

* `hpackDecodeTurn_field` : the events of a turn on a field, or on what is left of one.
* `hpackDecodeTurn_update` : the events of a turn on a size update.
-/

namespace Cashpack

open Prog Fifo

variable {hp hp' hp'' hp₀ : Hpack} {typ : UInt8} {α : Type}

/-! ### What is notified -/

/-- The kinds of events. -/
inductive EvtKind
  | field | never | index | name | value | data | evict | table
deriving DecidableEq, Repr

/-- The kind of an event. -/
def Event.kind : Event → EvtKind
  | .field _ _ => .field
  | .never => .never
  | .index _ => .index
  | .name _ => .name
  | .value _ => .value
  | .data _ => .data
  | .evict _ => .evict
  | .table _ => .table

/-- Events of the kinds `ks` are notified at the end of a sequence of steps, unless one of the
steps made room in the working buffer. -/
structure Told (ks : List EvtKind) (hp hp' : Hpack) : Prop where
  tooBig : hp.ctx.tooBig = true → hp'.ctx.tooBig = true
  log : ∃ evts, evts.map Event.kind = ks ∧
    hp'.ctx.log = if hp'.ctx.tooBig = true then hp.ctx.log else hp.ctx.log ++ evts

namespace Told

variable {ks ks' : List EvtKind}

theorem refl (hp : Hpack) : Told [] hp hp :=
  ⟨id, [], rfl, by simp⟩

/-- Nothing of this is looked at. -/
theorem congr (h : Told ks hp hp') {hp₁ hp₂ : Hpack} (hlog : hp₁.ctx.log = hp.ctx.log)
    (hb : hp₁.ctx.tooBig = hp.ctx.tooBig) (hlog' : hp₂.ctx.log = hp'.ctx.log)
    (hb' : hp₂.ctx.tooBig = hp'.ctx.tooBig) : Told ks hp₁ hp₂ := by
  obtain ⟨htoo, evts, hks, hevts⟩ := h
  exact ⟨by rwa [hb, hb'], evts, hks, by rw [hlog', hlog, hb']; exact hevts⟩

/-- Nothing is notified before. -/
theorem after (h : Told [] hp hp') (h' : Told ks hp' hp'') : Told ks hp hp'' := by
  obtain ⟨htoo, evts, hks, hlog⟩ := h
  obtain ⟨htoo', evts', hks', hlog'⟩ := h'
  obtain rfl := List.map_eq_nil_iff.1 hks
  refine ⟨fun hb => htoo' (htoo hb), evts', hks', ?_⟩
  rw [hlog', hlog, List.append_nil, ite_self]

end Told

/-- Events of the kinds `ks` are notified, and no room is made in the working buffer. -/
def Tells (ks : List EvtKind) (hp hp' : Hpack) : Prop :=
  Told ks hp hp' ∧ hp'.ctx.tooBig = hp.ctx.tooBig

theorem Tells.refl (hp : Hpack) : Tells [] hp hp := ⟨.refl hp, rfl⟩

/-- Other events are notified next. -/
theorem Told.tells {ks ks' : List EvtKind} (h : Told ks hp hp') (h' : Tells ks' hp' hp'') :
    Told (ks ++ ks') hp hp'' := by
  obtain ⟨htoo, evts, rfl, hlog⟩ := h
  obtain ⟨⟨-, evts', rfl, hlog'⟩, hb⟩ := h'
  refine ⟨fun h => hb.trans (htoo h), evts ++ evts', List.map_append, ?_⟩
  rw [hlog', hlog, hb]
  split
  · rfl
  · rw [List.append_assoc]

theorem tells_notify (hp : Hpack) (evts : List Event) :
    Tells (evts.map Event.kind) hp (hp.notify evts) :=
  ⟨⟨id, evts, rfl, rfl⟩, rfl⟩

/-- The events were notified before a message to skip. -/
theorem Tells.log {ks : List EvtKind} (h : Tells ks hp hp') (hb : hp.ctx.tooBig = false) :
    ∃ evts, evts.map Event.kind = ks ∧ hp'.ctx.log = hp.ctx.log ++ evts := by
  obtain ⟨⟨-, evts, hks, hlog⟩, hb'⟩ := h
  rw [hb', hb, if_neg Bool.false_ne_true] at hlog
  exact ⟨evts, hks, hlog⟩

/-! ### Strings -/

/-- Nothing is notified until the strings are in the working buffer. -/
theorem writes_told (hp₀ : Hpack) : Writes (Told [] hp₀) where
  only hp hp' _ hout _ h :=
    h.congr rfl rfl (congrArg Output.log hout) (congrArg Output.tooBig hout)
  skip len hp h := by
    refine (hpdSkip_holds len hp).mono (fun _ hp' hs => ?_) (fun hp' hs => ?_) fun _ h => h
    · rcases hs with ⟨-, rfl⟩ | ⟨n, -, rfl⟩
      · exact h
      · exact h.after ⟨fun _ => rfl, [], rfl, rfl⟩
    · obtain ⟨-, rfl⟩ := hs
      exact h.after ⟨fun _ => rfl, [], rfl, rfl⟩
  write s hp h := by
    unfold hpdWrite
    split
    · exact h.congr rfl rfl rfl rfl
    · trivial

theorem hpdNotify_told (h : Told [] hp₀ hp) :
    (hpdNotify hp).Holds (fun _ hp' => Told [.name, .value] hp₀ hp') (fun _ => False)
      fun _ => True := by
  rw [hpdNotify, bind_apply, get_apply, Out.bind_ok]
  refine .assert_bind trivial fun _ => .assert_bind trivial fun _ => .assert_bind trivial fun _ => ?_
  refine holds_readStr fun nam c _ => .assert_bind trivial fun _ => ?_
  refine holds_readStr fun val c' _ => .assert_bind trivial fun _ => ?_
  have hall := hpcNotifyAll_holds (b := False) hp [.name nam, .value val]
  simp only [hpcNotifyAll, bind_pure_unit] at hall
  refine hall.mono (fun _ hp' hs => ?_) (fun _ hf => hf.elim) fun _ _ => trivial
  exact hs ▸ h.tells (tells_notify hp [.name nam, .value val])

/-- A step without an event, then others. -/
theorem told_bind {β : Type} {ks : List EvtKind} {x : Cp α} {f : α → Cp β}
    (hx : Keeps (fun _ => True) (Told [] hp₀) x) (h : Told [] hp₀ hp)
    (hf : ∀ a hp', Told [] hp₀ hp' → (f a hp').Holds (fun _ hp'' => Told ks hp₀ hp'')
      (Told [] hp₀) fun _ => True) :
    ((x >>= f) hp).Holds (fun _ hp'' => Told ks hp₀ hp'') (Told [] hp₀) fun _ => True :=
  hx.bind_holds h hf (fun _ h => h) fun _ h => h

/-- An entry of the tables is notified once it was copied. -/
theorem hptDecode_told (idx : ℕ) (hp : Hpack) :
    (hptDecode idx hp).Holds (fun _ hp' => Told [.name, .value] hp hp') (Told [] hp)
      fun _ => True := by
  have hW := writes_told hp
  refine told_bind (output_expect hW _ _) (.refl hp) fun _ hp₁ h₁ => ?_
  refine told_bind (output_hptField hW idx) h₁ fun hf hp₂ h₂ => ?_
  refine .assert_bind trivial fun _ => .assert_bind trivial fun _ => .assert_bind trivial fun _ => ?_
  refine told_bind (output_same hW fun _ => ⟨rfl, rfl, id⟩) h₂ fun _ hp₃ h₃ => ?_
  refine told_bind (output_hpdPuts hW _ _) h₃ fun _ hp₄ h₄ => ?_
  refine told_bind (output_same hW fun _ => ⟨rfl, rfl, id⟩) h₄ fun _ hp₅ h₅ => ?_
  refine told_bind (output_hpdPuts hW _ _) h₅ fun _ hp₆ h₆ => ?_
  exact (hpdNotify_told h₆).mono (fun _ _ h => h) (fun _ h => h.elim) fun _ h => h

/-- A literal is notified once its strings were decoded. -/
theorem hpackDecodeField_told (hp : Hpack) :
    (hpackDecodeField hp).Holds (fun _ hp' => Told [.name, .value] hp hp') (Told [] hp)
      fun _ => True := by
  have hW := writes_told hp
  refine told_bind .get (.refl hp) fun hp₁ hp₂ h₂ => ?_
  refine told_bind (.when fun _ => output_same hW fun _ => ⟨rfl, rfl, id⟩) h₂ fun _ hp₃ h₃ => ?_
  refine told_bind .get h₃ fun hp₄ hp₅ h₅ => ?_
  refine told_bind (.when fun _ => output_hpackDecodeFieldName hW) h₅ fun _ hp₆ h₆ => ?_
  refine told_bind (output_hpackDecodeString hW _) h₆ fun _ hp₇ h₇ => ?_
  refine told_bind .get h₇ fun hp₈ hp₉ h₉ => told_bind (output_bufDiff _) h₉ fun d hq hq₀ => ?_
  refine told_bind (output_same hW fun _ => ⟨rfl, rfl, id⟩) hq₀ fun _ hq₁ hq₂ => ?_
  refine told_bind .get hq₂ fun hq₃ hq₄ hq₅ => ?_
  refine told_bind (output_hpvValue hW _ _) hq₅ fun _ hq₆ hq₇ => ?_
  rw [bind_apply]
  refine ((hpdNotify_told hq₇).mono (fun _ _ h => h) (fun _ h => h.elim) fun _ h => h).bind ?_
  exact fun _ hq₈ hq₉ => hq₉.congr rfl rfl rfl rfl

/-! ### Representations -/

/-- The start of a field, with all the events that announce it. -/
def hpackDecodeOpen (typ : UInt8) : Cp ℕ := do
  let idx ← hpackDecodeAnnounce typ
  Prog.when (fieldHpp typ = .nvr) (hpcNotify .never)
  pure idx

/-- The field itself, once it was announced. -/
def hpackDecodeBody (typ : UInt8) (idx : ℕ) : Cp Unit :=
  if fieldHpp typ = .idx then hptDecode idx
  else do
    hpackDecodeField
    Prog.when (fieldHpp typ = .dyn) hptIndex

/-- The kinds of the events that announce a field. -/
def opening (typ : UInt8) : List EvtKind :=
  .field :: if fieldHpp typ = .nvr then [.never] else []

theorem hpackDecodeAnnounced_eq (typ : UInt8) (idx : ℕ) :
    hpackDecodeAnnounced typ idx = (do
      Prog.when (fieldHpp typ = .nvr) (hpcNotify .never)
      hpackDecodeBody typ idx : Cp Unit) := by
  unfold hpackDecodeAnnounced hpackDecodeBody fieldHpp
  by_cases hidx : Hpp.idx.matches typ = true
  · simp [hidx, Prog.when]
  by_cases hdyn : Hpp.dyn.matches typ = true
  · simp [hidx, hdyn, Prog.when]
  by_cases hnvr : Hpp.nvr.matches typ = true
  · simp [hidx, hdyn, hnvr, Prog.when]
  · simp [hidx, hdyn, hnvr, Prog.when]

/-- A field that starts is announced first. -/
theorem hpackDecodeAny_open (hf : ¬ IsUpdate typ) (hstp : hp.state.stp = .fldInt) :
    hpackDecodeAny typ hp = (do
      let idx ← hpackDecodeOpen typ
      hpackDecodeBody typ idx : Cp Unit) hp := by
  rw [hpackDecodeAny_announce hf hstp]
  simp only [hpackDecodeOpen, bind_assoc, pure_bind, hpackDecodeAnnounced_eq]

/-- What is left of a literal is decoded in the same way. -/
theorem hpackDecodeAny_body (hf : ¬ IsUpdate typ) (hlit : IsLiteral typ)
    (hstp : hp.state.stp ≠ .fldInt) : hpackDecodeAny typ hp = hpackDecodeBody typ 0 hp := by
  have hwhen : ∀ x y : Cp Unit, (do
      let hp ← get
      Prog.when (hp.state.stp = .fldInt) x
      y : Cp Unit) hp = y hp := by
    intro x y
    rw [bind_apply, get_apply, Out.bind_ok, bind_apply, when_apply, if_neg hstp, Out.bind_ok]
  have hidx : ¬ Hpp.idx.matches typ = true := by simpa using hlit.1
  unfold hpackDecodeAny
  rw [if_neg hidx]
  by_cases hdyn : Hpp.dyn.matches typ = true
  · have hk : fieldHpp typ = .dyn := by rw [fieldHpp, if_neg hidx, if_pos hdyn]
    have hbody : hpackDecodeBody typ 0 = (do hpackDecodeField; hptIndex) := by
      rw [hpackDecodeBody, hk]
      rfl
    rw [if_pos hdyn, hbody]
    exact hwhen (hpackDecodeLiteralIdx .dyn) _
  have hupd : ¬ Hpp.upd.matches typ = true := fun h => hf ⟨by simpa using hidx, by simpa using hdyn, h⟩
  have hbody : hpackDecodeBody typ 0 = hpackDecodeField := by
    have hk : fieldHpp typ ≠ .idx ∧ fieldHpp typ ≠ .dyn := by
      rw [fieldHpp, if_neg hidx, if_neg hdyn]
      split <;> decide
    rw [hpackDecodeBody, if_neg hk.1, Prog.when, if_neg hk.2]
    exact bind_pure_unit
  rw [if_neg hdyn, if_neg hupd, hbody]
  by_cases hnvr : Hpp.nvr.matches typ = true
  · rw [if_pos hnvr]
    exact hwhen (do hpackDecodeLiteralIdx .nvr; hpcNotify .never) _
  · rw [if_neg hnvr]
    exact hwhen (hpackDecodeLiteralIdx .lit) _

/-- An integer is decoded without an event, and leaves the step where it is. -/
theorem hpiDecode_tells (pfx : ℕ) (hp : Hpack) :
    (hpiDecode pfx hp).Holds
      (fun _ hp' => Tells [] hp hp' ∧ hp'.state.stp = hp.state.stp ∧ hp'.state.bsy = false)
      (fun hp' => Tells [] hp hp' ∧ (hp'.ctx.res = .buf → hp'.state.stp = hp.state.stp))
      fun _ => True := by
  have hfree : StateFree (Tells [] hp) := fun _ _ _ _ h => ⟨h.1.congr rfl rfl rfl rfl, h.2⟩
  have htells := hfree.hpiDecode (S := fun _ => True) (fun _ _ => trivial) pfx hp (.refl hp)
  refine (htells.and (hpiDecode_progress pfx hp)).mono (fun _ hp' h => ⟨h.1, h.2.1.stp, h.2.2.1⟩)
    (fun hp' h => ⟨h.1, fun hbuf => ?_⟩) fun _ h => h
  rcases h.2 with hfatal | ⟨-, hkept, -⟩
  · rw [hbuf] at hfatal
    exact absurd hfatal (by decide)
  · exact hkept.stp

/-- Announcing a field makes no room, and leaves the step where it is. -/
theorem hpackDecodeOpen_tells (typ : UInt8) (hp : Hpack) :
    (hpackDecodeOpen typ hp).Holds
      (fun _ hp' => Tells (opening typ) hp hp' ∧ hp'.state.stp = hp.state.stp ∧
        hp'.state.bsy = false)
      (fun hp' => Tells [] hp hp' ∧ (hp'.ctx.res = .buf → hp'.state.stp = hp.state.stp))
      fun _ => True := by
  have hfield : ∀ idx (hp₁ : Hpack), Tells [] hp hp₁ → hp₁.state.stp = hp.state.stp →
      hp₁.state.bsy = false → (hpackDecoderField idx hp₁).Holds
        (fun _ hp' => Tells [.field] hp hp' ∧ hp'.state.stp = hp.state.stp ∧
          hp'.state.bsy = false) (fun _ => False) fun _ => True := by
    intro idx hp₁ h₁ hstp hbsy
    rw [hpackDecoderField, bind_apply, get_apply, Out.bind_ok]
    refine .assert_bind trivial fun _ => (hpcNotify_holds (b := False) _).mono (fun _ hp' hs => ?_)
      (fun _ hf => hf.elim) fun _ _ => trivial
    exact hs ▸ ⟨⟨h₁.1.tells (tells_notify hp₁ [.field _ idx]), h₁.2⟩, hstp, hbsy⟩
  have hann : (hpackDecodeAnnounce typ hp).Holds
      (fun _ hp' => Tells [.field] hp hp' ∧ hp'.state.stp = hp.state.stp ∧ hp'.state.bsy = false)
      (fun hp' => Tells [] hp hp' ∧ (hp'.ctx.res = .buf → hp'.state.stp = hp.state.stp))
      fun _ => True := by
    rw [hpackDecodeAnnounce, ite_run]
    split
    · rw [bind_apply]
      refine (hpiDecode_tells _ hp).bind fun idx hp₁ h₁ => ?_
      rw [bind_apply]
      refine ((hfield idx hp₁ h₁.1 h₁.2.1 h₁.2.2).mono (fun _ _ h => h) (fun _ h => h.elim)
        fun _ h => h).bind ?_
      exact fun _ hp₂ h₂ => h₂
    · rw [bind_apply]
      refine Out.Holds.bind ?_ fun _ hp' h => h
      rw [hpackDecodeLiteralIdx, bind_apply]
      refine (hpiDecode_tells _ hp).bind fun idx hp₁ h₁ => ?_
      rw [bind_apply, modify_apply, Out.bind_ok]
      have h₂ : Tells [] hp { hp₁ with state.idx := idx } :=
        ⟨h₁.1.1.congr rfl rfl rfl rfl, h₁.1.2⟩
      exact (hfield 0 _ h₂ h₁.2.1 h₁.2.2).mono (fun _ hp₂ h₃ => h₃) (fun _ h => h.elim) fun _ h => h
  rw [hpackDecodeOpen, bind_apply]
  refine hann.bind fun idx hp₁ h₁ => ?_
  rw [bind_apply, when_apply]
  split
  · rename_i hnvr
    refine ((hpcNotify_holds (b := False) _).mono (fun _ _ h => h) (fun _ hf => hf.elim)
      fun _ _ => trivial).bind fun _ hp₂ h₂ => ?_
    rw [opening, if_pos hnvr]
    exact h₂ ▸ ⟨⟨h₁.1.1.tells (tells_notify hp₁ [.never]), h₁.1.2⟩, h₁.2⟩
  · rename_i hnvr
    rw [opening, if_neg hnvr]
    exact h₁

/-! ### Insertions -/

/-- The kinds of the events of an insertion. -/
def insertKinds (evicts : Bool) (fits : Bool) : List EvtKind :=
  (if evicts then [.evict] else []) ++ if fits then [.index] else []

/-- The field that was decoded is not inserted without an eviction. -/
def Hpack.Evicting (hp : Hpack) : Prop :=
  hp.cnt ≠ 0 ∧ hp.sz.limit < hp.sz.len + (hpackOverhead + hp.ctx.fld.namSz + hp.ctx.fld.valSz)

instance (hp : Hpack) : Decidable hp.Evicting := inferInstanceAs (Decidable (_ ∧ _))

/-- Entries are evicted exactly when there is not enough room. -/
theorem evictEvents_room (limit k : ℕ) (l : List Entry) :
    (evictEvents (l.length - (room Entry.size limit k l).length)).map Event.kind =
      if l ≠ [] ∧ limit < total Entry.size l + k then [.evict] else [] := by
  have hle := (room_isPrefix (w := Entry.size) limit k l).length_le
  by_cases hroom : room Entry.size limit k l = l
  · have hnot : ¬ (l ≠ [] ∧ limit < total Entry.size l + k) := by
      rintro ⟨hne, hlt⟩
      by_cases hk : k ≤ limit
      · have := total_room_le (w := Entry.size) l hk
        rw [hroom] at this
        omega
      · rw [room, if_neg hk] at hroom
        exact hne hroom.symm
    rw [hroom, Nat.sub_self, if_neg hnot]
    rfl
  · have hlt : (room Entry.size limit k l).length < l.length := by
      refine lt_of_le_of_ne hle fun heq => hroom ?_
      exact (room_isPrefix (w := Entry.size) limit k l).eq_of_length heq
    have hmore : l ≠ [] ∧ limit < total Entry.size l + k := by
      refine ⟨List.ne_nil_of_length_pos (by omega), ?_⟩
      by_contra hno
      exact hroom (room_of_le (by omega))
    rw [evictEvents, if_pos (by omega), if_pos hmore]
    rfl

/-- `HPT_index` notifies an eviction when the field does not fit with the entries. -/
theorem hptIndex_tells (h : hp.Decoder False) :
    (hptIndex hp).Holds
      (fun _ hp' => ∃ fits, Tells (insertKinds (decide hp.Evicting) fits) hp hp' ∧
        hp'.state = hp.state)
      (fun _ => False) fun _ => True := by
  obtain ⟨l, hl'⟩ := h.1.1.rep
  have hl : hp.toTable.Rep l := hl'
  have hlim : hp.sz.lim ≤ hp.sz.max := h.1.1.lim_le
  refine (hptIndex_holds (b := False) hl h.2 hlim False.elim).mono (fun _ hp' h' => ?_)
    (fun _ h' => h'.elim) fun _ _ => trivial
  obtain ⟨e, t, hnam, hval, rfl, -, -, -⟩ := h'
  refine ⟨decide (e.size ≤ hp.sz.limit), ?_, rfl⟩
  have hsize : e.size = hpackOverhead + hp.ctx.fld.namSz + hp.ctx.fld.valSz := by
    rw [← Hpack.str_length hnam, ← Hpack.str_length hval]
    rfl
  have hcnt : hp.cnt = l.length := hl.cnt
  have hlen : hp.sz.len = total Entry.size l := hl.len
  have hevict : (l ≠ [] ∧ hp.sz.limit < total Entry.size l + e.size) ↔ hp.Evicting := by
    rw [Hpack.Evicting, hcnt, hlen, hsize, ne_eq, ne_eq, List.length_eq_zero_iff]
  have hkinds : (insertEvents hp.sz.limit l e).map Event.kind =
      insertKinds (decide hp.Evicting) (decide (e.size ≤ hp.sz.limit)) := by
    rw [insertEvents, List.map_append, evictEvents_room, insertKinds]
    congr 1
    · by_cases hev : hp.Evicting
      · rw [if_pos (hevict.2 hev), if_pos (decide_eq_true hev)]
      · rw [if_neg (mt hevict.1 hev), if_neg (by simpa using hev)]
    · by_cases hfit : e.size ≤ hp.sz.limit
      · rw [if_pos hfit, if_pos (decide_eq_true hfit)]
        rfl
      · rw [if_neg hfit, if_neg (by simpa using hfit)]
        rfl
  have htells := tells_notify (hp.withTable t) (insertEvents hp.sz.limit l e)
  rw [hkinds] at htells
  exact ⟨htells.1.congr rfl rfl rfl rfl, htells.2⟩

/-! ### Fields -/

/-- `hpack_decode_dynamic`, up to `HPT_index`. -/
def hpackDecodeIndexable : Cp Unit := do
  let hp ← get
  Prog.when (hp.state.stp = .fldInt) (hpackDecodeLiteralIdx .dyn)
  hpackDecodeField

theorem hpackDecodeDynamic_eq : hpackDecodeDynamic = (do hpackDecodeIndexable; hptIndex) := by
  simp only [hpackDecodeDynamic, hpackDecodeIndexable, bind_assoc]

/-- The field that goes on, or starts, in this state is inserted with an eviction. -/
def Hpack.Evicts (hp : Hpack) : Prop :=
  fieldHpp hp.typ = .dyn ∧ ∃ hf, hpackDecodeIndexable hp.turn = .ok () hf ∧ hf.Evicting

/-- The kinds of the events that follow the name and the value of a field. -/
def Hpack.Inserting (hp : Hpack) (ks : List EvtKind) : Prop :=
  if fieldHpp hp.typ = .dyn then
    ∃ evicts fits, (evicts = true ↔ hp.Evicts) ∧ ks = insertKinds evicts fits
  else ks = []

/-- Announcing a field that will be inserted only decodes its index. -/
theorem hpackDecodeOpen_dyn {idx : ℕ} (hdyn : fieldHpp typ = .dyn)
    (h : hpackDecodeOpen typ hp = .ok idx hp') : hpackDecodeLiteralIdx .dyn hp = .ok () hp' := by
  have hidx : ¬ Hpp.idx.matches typ = true := by
    intro h
    rw [fieldHpp, if_pos h] at hdyn
    cases hdyn
  obtain ⟨idx₁, hp₁, hann, hend⟩ := bind_eq_ok h
  rw [hpackDecodeAnnounce, if_neg hidx, hdyn] at hann
  obtain ⟨u, hp₂, hlit, hpure⟩ := bind_eq_ok hann
  obtain ⟨-, rfl⟩ := Out.ok.inj hpure
  have hnvr : ¬ fieldHpp typ = .nvr := by
    rw [hdyn]
    exact Hpp.noConfusion
  rw [bind_apply, when_apply, if_neg hnvr] at hend
  obtain ⟨-, rfl⟩ := Out.ok.inj hend
  exact hlit

theorem keeps_hpackDecodeOpen (typ : UInt8) :
    Keeps (InBounds False) (Hpack.Decoder False) (hpackDecodeOpen typ) := by
  refine .bind (.ite (fun _ => ?_) fun _ => ?_) fun idx => ?_
  · refine .bind (keeps_hpiDecode _) fun idx => ?_
    exact .bind (keeps_hpackDecoderField idx) fun _ => .pure _
  · exact .bind (keeps_hpackDecodeLiteralIdx _) fun _ => .pure _
  · exact .bind (.when fun _ => keeps_hpcNotify _) fun _ => .pure _

theorem State.InField.stp_ne {st : State} (h : st.InField) : st.stp ≠ .fldInt := by
  rcases h with ⟨-, h | h⟩ | h | h <;> simp [h, StrEvt.lenStp, StrEvt.strStp]

/-- What is left of a field that was announced needs more octets, or is refused. -/
def Hpack.Lacks (hp hp' : Hpack) : Prop :=
  Told [] hp hp' ∧ (hp'.ctx.res = .buf → hp'.state.stp ≠ .fldInt)

/-- The events of a field once it was announced. -/
theorem hpackDecodeBody_told (typ : UInt8) (idx : ℕ) (hd : hp.Decoder False)
    (hst : hp.state.AtStart ∨ hp.state.InField) :
    (hpackDecodeBody typ idx hp).Holds
      (fun _ hp' => ∃ ks, Told ([.name, .value] ++ ks) hp hp' ∧
        if fieldHpp typ = .dyn then ∃ hf fits, hpackDecodeField hp = .ok () hf ∧
          ks = insertKinds (decide hf.Evicting) fits
        else ks = [])
      hp.Lacks fun _ => True := by
  rw [hpackDecodeBody, ite_run]
  by_cases hidx : fieldHpp typ = .idx
  · rw [if_pos hidx]
    have hcalm := Calm.of_blind (blind_hptDecode idx) hp
    refine ((hptDecode_told idx hp).and hcalm).mono (fun _ hp' h => ⟨[], h.1, ?_⟩)
      (fun hp' h => ⟨h.1, fun hbuf => ?_⟩) fun _ h => h
    · rw [hidx]
      exact rfl
    · have hfatal := h.2
      rw [hbuf] at hfatal
      exact absurd hfatal (by decide)
  rw [if_neg hidx, bind_apply]
  have hkeep : (hpackDecodeField hp).Holds (fun _ => Hpack.Decoder False) (Hpack.Decoder False)
      fun _ => True :=
    (keeps_hpackDecodeField fits_hptField hp hd).mono (fun _ _ h => h) (fun _ h => h)
      fun _ _ => trivial
  have hboth := (hpackDecodeField_told hp).and ((hpackDecodeField_progress hst).and hkeep)
  cases hr : hpackDecodeField hp with
  | ok u hf =>
    rw [hr] at hboth
    obtain ⟨htold, -, hdf⟩ := hboth
    rw [Out.bind_ok, when_apply]
    split
    · rename_i hdyn
      refine (hptIndex_tells hdf).mono (fun _ hp' h => ?_) (fun _ h => h.elim) fun _ h => h
      obtain ⟨fits, htells, -⟩ := h
      exact ⟨_, htold.tells htells, hf, fits, rfl, rfl⟩
    · exact ⟨[], htold, rfl⟩
  | err hp' =>
    rw [hr] at hboth
    obtain ⟨htold, hasks, -⟩ := hboth
    refine ⟨htold, fun hbuf => ?_⟩
    rcases hasks with hfatal | ⟨-, hin, -⟩
    · rw [hbuf] at hfatal
      exact absurd hfatal (by decide)
    · exact hin.stp_ne
  | stop w => trivial

/-! ### Turns -/

/-- The events that announce the field that starts, or goes on, in this state. -/
def Hpack.opens (hp : Hpack) : List EvtKind :=
  if hp.state.stp = .fldInt then opening hp.typ else []

/-- What a turn on a field notifies. -/
inductive FieldTurn (hl : Hpack) : Option Res → Hpack → Prop
  /-- The field was announced, and notified to its end unless it overflows. -/
  | done {hp₁ hp' : Hpack} {ks : List EvtKind} (announced : Tells hl.opens hl hp₁)
    (told : Told ([.name, .value] ++ ks) hp₁ hp') (hks : hl.Inserting ks) : FieldTurn hl none hp'
  /-- Its index goes on. -/
  | index {hp' : Hpack} (stp : hp'.state.stp = .fldInt) (hstp : hl.state.stp = .fldInt)
    (told : Tells [] hl hp') : FieldTurn hl (some .blk) hp'
  /-- Its strings go on. -/
  | strings {hp₁ hp' : Hpack} (stp : hp'.state.stp ≠ .fldInt) (typ : hp'.state.typ = hl.typ)
    (announced : Tells hl.opens hl hp₁) (told : Told [] hp₁ hp') : FieldTurn hl (some .blk) hp'
  /-- It is refused. -/
  | refused {r : Res} {hp' : Hpack} (hr : r ≠ .blk)
    (told : Tells [] hl hp' ∨ ∃ hp₁, Tells hl.opens hl hp₁ ∧ Told [] hp₁ hp') :
    FieldTurn hl (some r) hp'

theorem Hpack.Inserting.of_field {hl hf : Hpack} {ks : List EvtKind} {fits : Bool}
    (hdyn : fieldHpp hl.typ = .dyn) (hrun : hpackDecodeIndexable hl.turn = .ok () hf)
    (hks : ks = insertKinds (decide hf.Evicting) fits) : hl.Inserting ks := by
  rw [Hpack.Inserting, if_pos hdyn]
  refine ⟨decide hf.Evicting, fits, ?_, hks⟩
  rw [decide_eq_true_iff]
  refine ⟨fun hev => ⟨hdyn, hf, hrun, hev⟩, fun hev => ?_⟩
  obtain ⟨-, hf', hrun', hev⟩ := hev
  rw [hrun] at hrun'
  exact (Out.ok.inj hrun').2 ▸ hev

/-- An error in a field comes before it is announced, or after. -/
inductive FieldError (hl hp' : Hpack) : Prop
  | index (stp : hp'.ctx.res = .buf → hp'.state.stp = .fldInt ∧ hl.state.stp = .fldInt)
    (told : Tells [] hl hp')
  | strings {hp₁ : Hpack} (stp : hp'.ctx.res = .buf → hp'.state.stp ≠ .fldInt)
    (announced : Tells hl.opens hl hp₁) (told : Told [] hp₁ hp')

/-- What decoding a field notifies, or what is left of one. -/
theorem hpackDecodeAny_field {hl : Hpack} (hd : hl.Decoder False) (hs : hl.state.Saved)
    (hf : ¬ IsUpdate hl.typ) :
    (hpackDecodeAny hl.typ hl.turn).Holds
      (fun _ hp' => ∃ hp₁ ks, Tells hl.opens hl hp₁ ∧ Told ([.name, .value] ++ ks) hp₁ hp' ∧
        hl.Inserting ks)
      (FieldError hl)
      fun _ => True := by
  have hturn : Tells [] hl hl.turn := ⟨(Told.refl hl).congr rfl rfl rfl rfl, rfl⟩
  have hdt : hl.turn.Decoder False := ⟨⟨hd.1.1, hd.1.2⟩, hd.2⟩
  -- the field itself, from the state in which it was announced
  have hbody : ∀ idx hp₁, hp₁.Decoder False → (hp₁.state.AtStart ∨ hp₁.state.InField) →
      Tells hl.opens hl hp₁ → (∀ hf, fieldHpp hl.typ = .dyn → hpackDecodeField hp₁ = .ok () hf →
        hpackDecodeIndexable hl.turn = .ok () hf) →
      (hpackDecodeBody hl.typ idx hp₁).Holds
        (fun _ hp' => ∃ hp₁ ks, Tells hl.opens hl hp₁ ∧ Told ([.name, .value] ++ ks) hp₁ hp' ∧
          hl.Inserting ks)
        (FieldError hl)
        fun _ => True := by
    intro idx hp₁ hd₁ hst₁ htells hindex
    refine (hpackDecodeBody_told hl.typ idx hd₁ hst₁).mono (fun _ hp' h => ?_)
      (fun hp' h => .strings h.2 htells h.1) fun _ h => h
    obtain ⟨ks, htold, hks⟩ := h
    refine ⟨hp₁, ks, htells, htold, ?_⟩
    by_cases hdyn : fieldHpp hl.typ = .dyn
    · rw [if_pos hdyn] at hks
      obtain ⟨hf', fits, hrun, hks⟩ := hks
      exact .of_field hdyn (hindex hf' hdyn hrun) hks
    · rw [if_neg hdyn] at hks
      rwa [Hpack.Inserting, if_neg hdyn]
  by_cases hstp : hl.state.stp = .fldInt
  · have hopens : hl.opens = opening hl.typ := if_pos hstp
    have hstp' : hl.turn.state.stp = .fldInt := hstp
    rw [hpackDecodeAny_open hf hstp', bind_apply]
    have hkeep := keeps_hpackDecodeOpen hl.typ hl.turn hdt
    have htells := hpackDecodeOpen_tells hl.typ hl.turn
    cases hr : hpackDecodeOpen hl.typ hl.turn with
    | ok idx hp₁ =>
      rw [hr] at hkeep htells
      obtain ⟨htells, hstp₁, hbsy₁⟩ := htells
      refine hbody idx hp₁ hkeep (Or.inl ⟨hbsy₁, hstp₁.trans hstp⟩) ?_ fun hf hdyn hrun => ?_
      · rw [hopens]
        exact ⟨hturn.1.after htells.1, htells.2⟩
      · rw [hpackDecodeIndexable, bind_apply, get_apply, Out.bind_ok, bind_apply, when_apply,
          if_pos hstp', hpackDecodeOpen_dyn hdyn hr, Out.bind_ok, hrun]
    | err hp' =>
      rw [hr] at htells
      refine .index (fun hbuf => ⟨(htells.2 hbuf).trans hstp, hstp⟩) ?_
      exact ⟨hturn.1.after htells.1.1, htells.1.2⟩
    | stop w => trivial
  · have hopens : hl.opens = [] := if_neg hstp
    have hmid : hl.state.Mid := hs.resolve_left fun hst => hstp hst.stp
    have htyp : hl.typ = hl.state.typ := if_neg fun h => hstp h.2
    have hlit : IsLiteral hl.typ := htyp ▸ (hmid.lit hstp).1
    have hstp' : hl.turn.state.stp ≠ .fldInt := hstp
    rw [hpackDecodeAny_body hf hlit hstp']
    refine hbody 0 hl.turn hdt (Or.inr (hmid.lit hstp).2) (hopens ▸ hturn) fun hf _ hrun => ?_
    rw [hpackDecodeIndexable, bind_apply, get_apply, Out.bind_ok, bind_apply, when_apply,
      if_neg hstp', Out.bind_ok, hrun]

/-- An error that ends a turn for good is not BLK, and one that does not leaves the octet the
representation starts with. -/
theorem hpackDecodeAny_err {hl hp₁ : Hpack} (hs : hl.state.Saved)
    (hrun : hpackDecodeAny hl.typ hl.turn = .err hp₁) :
    hp₁.ctx.res ≠ .blk ∧ (hp₁.ctx.res = .buf → hp₁.state.typ = hl.typ) := by
  have hprog := @hpackDecodeAny_progress hl.turn (Hpack.saved_typ hs)
  have hprog' : Progress (hpackDecodeAny hl.typ) hl.turn := hprog
  rw [Progress, hrun] at hprog'
  rcases hprog' with hfatal | ⟨hbuf, -, htyp, -⟩
  · refine ⟨fun hres => ?_, fun hres => ?_⟩ <;> rw [hres] at hfatal
    · exact absurd hfatal (by decide)
    · exact absurd hfatal (by decide)
  · refine ⟨fun hres => ?_, fun _ => htyp⟩
    rw [hres] at hbuf
    cases hbuf

/-- **The events of a turn** on a field. -/
theorem hpackDecodeTurn_field {cut : Bool} {hl : Hpack} {r : Option Res} (hd : hl.Decoder False)
    (hs : hl.state.Saved) (hblk : hl.ctx.blk ≠ []) (hf : ¬ IsUpdate hl.typ)
    (h : hpackDecodeTurn cut hl = .ok r hp') : FieldTurn hl r hp' := by
  have hany := hpackDecodeAny_field hd hs hf
  cases hpackDecodeTurn_of hblk hd.1.1.pend h with
  | decoded hrun =>
    rw [hrun] at hany
    obtain ⟨hp₁, ks, htells, htold, hks⟩ := hany
    exact .done htells (htold.congr rfl rfl rfl rfl) hks
  | lacking hrun _ hres =>
    rw [hrun] at hany
    cases hany with
    | index hstp htells =>
      exact .index (hstp hres).1 (hstp hres).2 ⟨htells.1.congr rfl rfl rfl rfl, htells.2⟩
    | strings hstp htells htold =>
      exact .strings (hstp hres) ((hpackDecodeAny_err hs hrun).2 hres) htells
        (htold.congr rfl rfl rfl rfl)
  | failed hrun =>
    rw [hrun] at hany
    refine .refused (hpackDecodeAny_err hs hrun).1 ?_
    cases hany with
    | index _ htells => exact Or.inl ⟨htells.1.congr rfl rfl rfl rfl, htells.2⟩
    | strings _ htells htold => exact Or.inr ⟨_, htells, htold.congr rfl rfl rfl rfl⟩
  | early => exact .refused Res.noConfusion (Or.inl ⟨(Told.refl hl).congr rfl rfl rfl rfl, rfl⟩)

/-- What a turn on a size update notifies. -/
inductive UpdateTurn (hl : Hpack) : Option Res → Hpack → Prop
  | done {hp' : Hpack} {evicts : Bool}
    (told : Tells ((if evicts then [.evict] else []) ++ [.table]) hl hp') : UpdateTurn hl none hp'
  | index {hp' : Hpack} (stp : hp'.state.stp = .fldInt) (told : Tells [] hl hp') :
    UpdateTurn hl (some .blk) hp'
  | refused {r : Res} {hp' : Hpack} (hr : r ≠ .blk) (told : Tells [] hl hp') :
    UpdateTurn hl (some r) hp'

theorem evictEvents_kinds (n : ℕ) :
    (evictEvents n).map Event.kind = if decide (0 < n) then [.evict] else [] := by
  rw [evictEvents]
  by_cases h : 0 < n <;> simp [h, Event.kind]

/-- What a size update notifies. -/
theorem hpackDecodeUpdate_tells (hd : hp.Decoder False) :
    (hpackDecodeUpdate hp).Holds
      (fun _ hp' => ∃ evicts : Bool, Tells ((if evicts then [.evict] else []) ++ [.table]) hp hp')
      (fun hp' => Tells [] hp hp' ∧ (hp'.ctx.res = .buf → hp'.state.stp = hp.state.stp))
      fun _ => True := by
  rw [hpackDecodeUpdate, bind_apply, get_apply, Out.bind_ok, bind_apply, expect_apply]
  split
  swap
  · exact ⟨⟨(Told.refl hp).congr rfl rfl rfl rfl, rfl⟩, fun hbuf => Res.noConfusion hbuf⟩
  rw [Out.bind_ok, bind_apply]
  have hkeep : (hpiDecode Hpp.upd.pfx hp).Holds (fun _ => Hpack.Decoder False)
      (Hpack.Decoder False) fun _ => True :=
    (keeps_hpiDecode (b := False) _ hp hd).mono (fun _ _ h => h) (fun _ h => h) fun _ _ => trivial
  refine (((hpiDecode_tells _ hp).and hkeep).mono (fun _ _ h => h) (fun hp' h => h.1)
    fun _ h => h).bind ?_
  rintro n hp₁ ⟨⟨htells, hstp, -⟩, hd₁⟩
  obtain ⟨l, hl'⟩ := hd₁.1.1.rep
  have hl : hp₁.toTable.Rep l := hl'
  rw [bind_apply]
  refine ((hpackDecodeResize_cases (b := False) n hp₁).mono (fun _ _ h => h) (fun hp' h => ?_)
    fun _ _ => trivial).bind fun _ hp₂ hstep => ?_
  · subst h
    exact ⟨⟨htells.1.congr rfl rfl rfl rfl, htells.2⟩, fun hbuf => Res.noConfusion hbuf⟩
  obtain ⟨hl₂, htells₂⟩ : hp₂.toTable.Rep l ∧ Tells [] hp hp₂ := by
    cases hstep <;> exact ⟨⟨hl.cnt, hl.len, hl.mem⟩, htells.1.congr rfl rfl rfl rfl, htells.2⟩
  refine (hpackDecodeLimit_holds (b := False) hl₂).mono (fun _ hp' h => ?_) (fun hp' h => ?_)
    fun _ _ => trivial
  · obtain ⟨-, rfl⟩ := h
    refine ⟨decide (0 < l.length - (fit Entry.size n l).length), ?_⟩
    have hnot := tells_notify (hp₂.withTable (hp₂.toTable.limitTo n l))
      (evictEvents (l.length - (fit Entry.size n l).length) ++ [.table n])
    rw [List.map_append, evictEvents_kinds] at hnot
    have htable : Tells [] hp (hp₂.withTable (hp₂.toTable.limitTo n l)) :=
      ⟨htells₂.1.congr rfl rfl rfl rfl, htells₂.2⟩
    exact ⟨htable.1.tells hnot, hnot.2.trans htable.2⟩
  · obtain ⟨-, rfl⟩ := h
    exact ⟨⟨htells₂.1.congr rfl rfl rfl rfl, htells₂.2⟩, fun hbuf => Res.noConfusion hbuf⟩

/-- A size update is never resumed after its integer. -/
theorem IsUpdate.stp {hl : Hpack} (hf : IsUpdate hl.typ) (hs : hl.state.Saved) :
    hl.state.stp = .fldInt := by
  by_contra hstp
  have hmid : hl.state.Mid := hs.resolve_left fun hst => hstp hst.stp
  have htyp : hl.typ = hl.state.typ := if_neg fun h => hstp h.2
  obtain ⟨-, hdyn | hupd⟩ := (hmid.lit hstp).1
  · rw [← htyp, hf.2.1] at hdyn
    cases hdyn
  · rw [← htyp, hf.2.2] at hupd
    cases hupd

/-- The events of a turn on a size update. -/
theorem hpackDecodeTurn_update {cut : Bool} {hl : Hpack} {r : Option Res} (hd : hl.Decoder False)
    (hs : hl.state.Saved) (hblk : hl.ctx.blk ≠ []) (hf : IsUpdate hl.typ)
    (h : hpackDecodeTurn cut hl = .ok r hp') : UpdateTurn hl r hp' := by
  have hdt : hl.turn.Decoder False := ⟨⟨hd.1.1, hd.1.2⟩, hd.2⟩
  have hany := hpackDecodeUpdate_tells hdt
  rw [← hpackDecodeAny_update hf] at hany
  have hstp : hl.state.stp = .fldInt := hf.stp hs
  cases hpackDecodeTurn_of hblk hd.1.1.pend h with
  | decoded hrun =>
    rw [hrun] at hany
    obtain ⟨evicts, htells⟩ := hany
    exact .done ⟨htells.1.congr rfl rfl rfl rfl, htells.2⟩
  | lacking hrun _ hres =>
    rw [hrun] at hany
    obtain ⟨htells, hstp'⟩ := hany
    exact .index ((hstp' hres).trans hstp) ⟨htells.1.congr rfl rfl rfl rfl, htells.2⟩
  | failed hrun =>
    rw [hrun] at hany
    exact .refused (hpackDecodeAny_err hs hrun).1 ⟨hany.1.1.congr rfl rfl rfl rfl, hany.1.2⟩
  | early => exact .refused Res.noConfusion ⟨(Told.refl hl).congr rfl rfl rfl rfl, rfl⟩

end Cashpack
