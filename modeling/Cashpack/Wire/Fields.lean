import Cashpack.Wire.Decode

/-!
# Decoding without a callback

`hpack_decode_fields` decodes a block, then gives its header fields one at a time.  It has nothing
to go by but the terminators of the strings in the working buffer: the fields it gives are those of
the block because they were written there one after the other, and none of them holds a null octet.

## Main definitions

* `Iterates` : the calls of `hpack_decode_fields` on a block, up to the one that gives no field.

## Main results

* `Peer.Block.asserted` : no event of a block fails the assertions of `hpack_assert_cb`.
* `Peer.Block.strings` : the NAME and VALUE events of a block are those of its fields.
* `hpackDecodeFields_block` : the calls give the fields of the block.
-/

namespace Cashpack

open Prog Fifo

variable {hp hp' hp₀ : Hpack} {p p' : Peer} {off : ℕ} {os : Octets} {r : Rep} {evts : List Event}
  {h : Header} {hs : List Header} {dec : Decoding} {cur : Option (ℕ × ℕ)} {a b s : Octets}

/-! ### Fields and events without null octets -/

/-- The strings of the field end with their terminators. -/
def Header.NoNul (h : Header) : Prop := 0 ∉ h.nam ∧ 0 ∉ h.val

theorem noNul_of_valid (hn : ValidName h.nam) (hv : ValidValue h.val) : h.NoNul :=
  ⟨hn.noBreak.1, hv.noBreak.1⟩

theorem assertCb_evict (n : ℕ) : (evictEvents n).all hpackAssertCb = true := by
  unfold evictEvents
  split
  · rename_i hn
    simpa [hpackAssertCb] using hn
  · rfl

theorem assertCb_insert (limit : ℕ) (l : List Entry) {e : Entry} (he : e.Valid) :
    (insertEvents limit l e).all hpackAssertCb = true := by
  rw [insertEvents, List.all_append, assertCb_evict, Bool.true_and]
  split
  · have hpos := he.1.pos
    have hsize : hpackOverhead < e.size := by
      unfold Entry.size
      omega
    simpa [hpackAssertCb] using hsize
  · rfl

/-- What a representation does to tables whose entries are valid. -/
theorem Peer.Step.valid (hst : p.Step off r evts hs p') (hv : ∀ e ∈ p.entries, e.Valid) :
    (∀ e ∈ p'.entries, e.Valid) ∧ (∀ h ∈ hs, h.NoNul) ∧ evts.all hpackAssertCb = true := by
  have hone : ∀ {h : Header}, h.NoNul → ∀ h' ∈ [h], h'.NoNul := by
    intro h hh h' hmem
    exact List.mem_singleton.1 hmem ▸ hh
  cases hst with
  | @indexed i h settled found =>
    obtain ⟨hn, hval⟩ := lookup_valid hv found
    have hno := noNul_of_valid hn hval
    refine ⟨hv, hone hno, ?_⟩
    simpa [hpackAssertCb] using And.intro hno.1 hno.2
  | @literal nam h settled name valid =>
    have hno := noNul_of_valid valid.1 valid.2
    refine ⟨hv, hone hno, ?_⟩
    simpa [hpackAssertCb] using And.intro hno.1 hno.2
  | @never nam h settled name valid =>
    have hno := noNul_of_valid valid.1 valid.2
    refine ⟨hv, hone hno, ?_⟩
    simpa [hpackAssertCb] using And.intro hno.1 hno.2
  | @dynamic nam e settled name valid =>
    have hno : e.field.NoNul := noNul_of_valid valid.1 valid.2
    refine ⟨fun e' he' => ?_, hone hno, ?_⟩
    · have hmem := (fit_isPrefix p.limit (e :: p.entries)).subset he'
      rcases List.mem_cons.1 hmem with rfl | hmem
      · exact valid
      · exact hv e' hmem
    · rw [List.all_append, assertCb_insert _ _ valid]
      have hstr : 0 ∉ e.nam ∧ 0 ∉ e.val := ⟨hno.1, hno.2⟩
      simpa [hpackAssertCb] using hstr
  | @update n p' allowed upd =>
    refine ⟨fun e he => ?_, fun h hmem => absurd hmem List.not_mem_nil, ?_⟩
    · rw [upd.entries.1] at he
      exact hv e ((fit_isPrefix _ _).subset he)
    · rw [List.all_append, assertCb_evict]
      rfl

/-- The events of a block pass the assertions, and its fields have no null octet. -/
theorem Peer.Block.asserted (hb : p.Block off os evts hs p') (hv : ∀ e ∈ p.entries, e.Valid) :
    (∀ h ∈ hs, h.NoNul) ∧ evts.all hpackAssertCb = true := by
  induction hb with
  | nil => exact ⟨fun h hmem => absurd hmem List.not_mem_nil, rfl⟩
  | cons _ step _ ih =>
    obtain ⟨hv', hno, hall⟩ := step.valid hv
    obtain ⟨hno', hall'⟩ := ih hv'
    refine ⟨fun h hmem => ?_, ?_⟩
    · rcases List.mem_append.1 hmem with hmem | hmem
      · exact hno h hmem
      · exact hno' h hmem
    · rw [List.all_append, hall, hall']
      rfl

/-- The events that give the strings of a field. -/
def Event.isString : Event → Bool
  | .name _ | .value _ => true
  | _ => false

theorem Peer.Step.strings (hst : p.Step off r evts hs p') :
    evts.filter Event.isString = hs.flatMap fun h => [.name h.nam, .value h.val] := by
  cases hst with
  | indexed _ _ | literal _ _ _ | never _ _ _ => rfl
  | dynamic _ _ _ =>
    rw [List.filter_append]
    unfold insertEvents evictEvents
    split <;> split <;> rfl
  | update _ _ =>
    rw [List.filter_append]
    unfold evictEvents
    split <;> rfl

/-- The strings of a block are those of its fields, in their order. -/
theorem Peer.Block.strings (hb : p.Block off os evts hs p') :
    evts.filter Event.isString = hs.flatMap fun h => [.name h.nam, .value h.val] := by
  induction hb with
  | nil => rfl
  | cons _ step _ ih => rw [List.filter_append, List.flatMap_append, step.strings, ih]

/-! ### The iterator -/

/-- The calls of `hpack_decode_fields` that follow the one which gave `cur`, with the strings they
give, up to the one that gives none. -/
inductive Iterates (dec : Decoding) : Option (ℕ × ℕ) → Hpack → List Header → Hpack → Prop
  | done {cur : Option (ℕ × ℕ)} {hp hp' : Hpack}
    (run : hpackDecodeFields dec cur hp = .ok (.ok, none) hp') : Iterates dec cur hp [] hp'
  | next {cur : Option (ℕ × ℕ)} {nam val : ℕ} {h : Header} {hs : List Header} {hp hp₁ hp' : Hpack}
    (run : hpackDecodeFields dec cur hp = .ok (.fld, some (nam, val)) hp₁)
    (isNam : readBuf nam hp₁ = .ok h.nam hp₁) (isVal : readBuf val hp₁ = .ok h.val hp₁)
    (rest : Iterates dec (some (nam, val)) hp₁ hs hp') : Iterates dec cur hp (h :: hs) hp'

theorem Header.octets_nam (h : Header) :
    a ++ (h.octets ++ b) = a ++ (h.nam ++ 0 :: (h.val ++ [0] ++ b)) := by
  simp only [Header.octets, List.append_assoc, List.cons_append, List.nil_append]

theorem Header.octets_val (h : Header) :
    a ++ (h.octets ++ b) = (a ++ (h.nam ++ [0])) ++ (h.val ++ 0 :: b) := by
  simp only [Header.octets, List.append_assoc, List.cons_append, List.nil_append]

/-- What is given only depends on the decoder and on the block. -/
theorem Iterates.unique (h : Iterates dec cur hp hs hp') :
    ∀ {hs' hp''}, Iterates dec cur hp hs' hp'' → hs = hs' ∧ hp' = hp'' := by
  induction h with
  | done run =>
    intro hs' hp'' h'
    cases h' with
    | done run' =>
      rw [run] at run'
      cases run'
      exact ⟨rfl, rfl⟩
    | next run' _ _ _ =>
      rw [run] at run'
      cases run'
  | @next _ _ _ h _ _ _ _ run isNam isVal _ ih =>
    intro hs' hp'' h'
    cases h' with
    | done run' =>
      rw [run] at run'
      cases run'
    | @next _ _ _ h' _ _ _ _ run' isNam' isVal' rest' =>
      rw [run] at run'
      cases run'
      rw [isNam] at isNam'
      rw [isVal] at isVal'
      obtain ⟨nam, val⟩ := h
      obtain ⟨nam', val'⟩ := h'
      cases isNam'
      cases isVal'
      obtain ⟨rfl, rfl⟩ := ih rest'
      exact ⟨rfl, rfl⟩

/-- The string at an address of the working buffer. -/
theorem readBuf_eq (hout : hp.ctx.out = a ++ (s ++ 0 :: b)) (hs : 0 ∉ s) :
    readBuf (hp.ctx.org + a.length) hp = .ok s hp := by
  have hdrop : hp.ctx.out.drop (hp.ctx.org + a.length - hp.ctx.org) = s ++ 0 :: b := by
    rw [Nat.add_sub_cancel_left, hout, List.drop_left]
  have hmem : (0 : UInt8) ∈ s ++ 0 :: b := by simp
  have htake : (s ++ 0 :: b).takeWhile (· ≠ 0) = s := by
    rw [List.takeWhile_append_of_pos, List.takeWhile_cons_of_neg, List.append_nil]
    · simp
    · intro x hx
      have hne : x ≠ 0 := fun h => hs (h ▸ hx)
      simpa using hne
  rw [readBuf, hdrop, if_pos ⟨Nat.le_add_right _ _, hmem⟩, htake]

/-- A codec that gives the fields of its working buffer. -/
structure Hpack.Gives (hp : Hpack) (dec : Decoding) : Prop where
  magic : hp.magic = .decoder
  own : hp.ctx.hp = hp.addr
  res : hp.ctx.res = .fld
  room : dec.buf + dec.bufLen = hp.ctx.org + hp.ctx.out.length + hp.ctx.bufLen

theorem Hpack.Gives.again (hg : hp.Gives dec) (c : ℕ × ℕ) :
    hpackDecodeFields dec (some c) hp = hpackDecodeFieldsNext dec (some c) hp := by
  have hne : ¬ (some c = none) := fun hc => by cases hc
  rw [hpackDecodeFields, bind_apply, get_apply, Out.bind_ok, ite_run,
    if_neg (not_not_intro hg.magic), assert_bind_pos hg.own, ite_run, if_neg hne]

/-- The next field is found where the last one ends. -/
theorem hpackDecodeFieldsNext_give (hg : hp.Gives dec) (hh : h.NoNul)
    (hout : hp.ctx.out = a ++ (h.octets ++ b))
    (hnam : hpackDecodeFieldsNam dec cur hp = .ok (hp.ctx.org + a.length) hp) :
    hpackDecodeFieldsNext dec cur hp = .ok (.fld, some (hp.ctx.org + a.length,
      hp.ctx.org + (a ++ (h.nam ++ [0])).length)) hp := by
  have hlen : hp.ctx.out.length
      = a.length + (h.nam.length + 1 + (h.val.length + 1) + b.length) := by
    simp only [hout, Header.octets, List.length_append, List.length_singleton]
  have hne : ¬ hp.ctx.org + a.length = hp.ctx.org + hp.ctx.out.length := by omega
  have hval : hp.ctx.org + a.length + h.nam.length + 1
      = hp.ctx.org + (a ++ (h.nam ++ [0])).length := by
    simp only [List.length_append, List.length_singleton]
    omega
  have hlt : hp.ctx.org + a.length + h.nam.length + 1 < hp.ctx.org + hp.ctx.out.length := by omega
  rw [hpackDecodeFieldsNext, bind_apply, get_apply, Out.bind_ok, assert_bind_pos hg.res, bind_apply,
    hnam, Out.bind_ok, ite_run, if_neg hne, bind_apply, readBuf_eq (hout.trans h.octets_nam) hh.1,
    Out.bind_ok]
  rw [assert_bind_pos (by omega), assert_bind_pos hlt, pure_apply, hg.res, hval]

/-- No field is left at the end of the working buffer. -/
theorem hpackDecodeFieldsNext_end (hg : hp.Gives dec)
    (hnam : hpackDecodeFieldsNam dec cur hp = .ok (hp.ctx.org + hp.ctx.out.length) hp) :
    hpackDecodeFieldsNext dec cur hp = .ok (.ok, none) { hp with ctx.res := .ok } := by
  rw [hpackDecodeFieldsNext, bind_apply, get_apply, Out.bind_ok, assert_bind_pos hg.res, bind_apply,
    hnam, Out.bind_ok, ite_run, if_pos rfl]
  rfl

/-- After a field, the next name follows its value. -/
theorem hpackDecodeFieldsNam_after (hg : hp.Gives dec) (hh : h.NoNul) (n : ℕ)
    (hout : hp.ctx.out = a ++ (h.octets ++ b)) :
    hpackDecodeFieldsNam dec (some (n, hp.ctx.org + (a ++ (h.nam ++ [0])).length)) hp
      = .ok (hp.ctx.org + (a ++ h.octets).length) hp := by
  have hlen : hp.ctx.org + (a ++ (h.nam ++ [0])).length + h.val.length + 1
      = hp.ctx.org + (a ++ h.octets).length := by
    simp only [Header.octets, List.length_append, List.length_singleton]
    omega
  rw [hpackDecodeFieldsNam, bind_apply, readBuf_eq (hout.trans h.octets_val) hh.2, Out.bind_ok,
    bind_apply, get_apply, Out.bind_ok, assert_bind_pos hg.room, pure_apply, hlen]

/-- The calls give what is left in the working buffer. -/
theorem iterates_left (hg : hp.Gives dec) (hno : ∀ h ∈ hs, h.NoNul)
    (hrun : hpackDecodeFields dec cur hp₀ = hpackDecodeFieldsNext dec cur hp)
    (hnam : hpackDecodeFieldsNam dec cur hp = .ok (hp.ctx.org + a.length) hp)
    (hout : hp.ctx.out = a ++ headerOctets hs) :
    Iterates dec cur hp₀ hs { hp with ctx.res := .ok } := by
  induction hs generalizing cur a hp₀ with
  | nil =>
    have hall : hp.ctx.out = a := by rw [hout]; exact List.append_nil a
    refine .done (hrun.trans (hpackDecodeFieldsNext_end hg ?_))
    rw [hnam, hall]
  | cons h hs ih =>
    have hout' : hp.ctx.out = a ++ (h.octets ++ headerOctets hs) := hout
    have hh := hno h List.mem_cons_self
    refine .next (hrun.trans (hpackDecodeFieldsNext_give hg hh hout' hnam))
      (readBuf_eq (hout'.trans h.octets_nam) hh.1) (readBuf_eq (hout'.trans h.octets_val) hh.2) ?_
    refine ih (fun h' hmem => hno h' (List.mem_cons_of_mem _ hmem)) (hg.again _)
      (hpackDecodeFieldsNam_after hg hh _ hout') ?_
    rw [hout', List.append_assoc]

/-- A decoder between two blocks gives the fields of the next one, and stops where `hpack_decode`
would have left it. -/
theorem hpackDecodeFields_wire (dec : Decoding) (hf : hp.Follows p) (hidle : hp.Idle)
    (hv : ({ dec with cb := true } : Decoding).Valid) (hcut : dec.cut = false)
    (hblock : p.opened.Block 0 dec.blk evts hs p') (hroom : (headerOctets hs).length ≤ dec.bufLen) :
    ∃ hp', hpackDecode { dec with cb := true } hp = .ok .ok hp' ∧ Iterates dec none hp hs hp' ∧
      hp'.ctx.log = hp.ctx.log ++ evts ∧ hp'.Follows p' ∧ hp'.Idle := by
  obtain ⟨hp₁, hdec, hf₁, hlog, horg, hout, hlen, hstart, hres⟩ :=
    hpackDecode_wire hf hidle hv hblock hroom
  have hend : (if ({ dec with cb := true } : Decoding).cut then Res.blk else .ok) = .ok :=
    if_neg (by rw [show ({ dec with cb := true } : Decoding).cut = _ from hcut]; decide)
  have hok : hpackDecode { dec with cb := true } hp = .ok .ok hp₁ := by rw [hdec, hend]
  have hres₁ : hp₁.ctx.res = .ok := hres.trans hend
  obtain ⟨hno, hall⟩ := hblock.asserted hf.valid
  have hasserted : (hp₁.ctx.log.drop hp.ctx.log.length).all hpackAssertCb = true := by
    rw [hlog, List.drop_left]
    exact hall
  -- the decoder once the block was decoded, before the first field is given
  have hg : ({ hp₁ with ctx.res := .fld } : Hpack).Gives dec := by
    refine ⟨hf₁.decoder, hf₁.own, rfl, ?_⟩
    show dec.buf + dec.bufLen = hp₁.ctx.org + hp₁.ctx.out.length + hp₁.ctx.bufLen
    rw [horg, hout, hlen]
    show dec.buf + dec.bufLen = dec.buf + (headerOctets hs).length +
      (dec.bufLen - (headerOctets hs).length)
    omega
  have hfirst : hpackDecodeFields dec none hp
      = hpackDecodeFieldsNext dec none { hp₁ with ctx.res := .fld } := by
    have hstands : ¬ (hp.ctx.res ≠ .ok ∧ hp.ctx.res ≠ .blk) := fun hc => hc.1 hidle.res
    rw [hpackDecodeFields, bind_apply, get_apply, Out.bind_ok, ite_run,
      if_neg (not_not_intro hidle.magic), assert_bind_pos hidle.own, ite_run, if_pos rfl, ite_run,
      if_neg hstands, bind_apply, hok, Out.bind_ok, bind_apply, get_apply, Out.bind_ok,
      assert_bind_pos hasserted, ite_run, if_neg (not_not_intro rfl), bind_apply, modify_apply,
      Out.bind_ok]
  have hnam : hpackDecodeFieldsNam dec none { hp₁ with ctx.res := .fld }
      = .ok (hp₁.ctx.org + ([] : Octets).length) { hp₁ with ctx.res := .fld } := by
    rw [horg]
    rfl
  -- the last call takes back the result that the iteration stands on
  have hback : ({ hp₁ with ctx.res := .ok } : Hpack) = hp₁ := by
    rw [← hres₁]
  have hiter := iterates_left hg hno hfirst hnam hout
  have hiter' : Iterates dec none hp hs { hp₁ with ctx.res := .ok } := hiter
  rw [hback] at hiter'
  exact ⟨hp₁, hok, hiter', hlog, hf₁, ⟨hf₁.decoder, hres₁, hf₁.fits, hf₁.own, hstart.1⟩⟩

/-- **The fields of a block are given one by one**: an idle decoder that is asked for the fields of
a block of the format gives each of them, with the strings of the NAME and VALUE events, and no
other; it then is as `hpack_decode` would have left it. -/
theorem hpackDecodeFields_block {max : ℕ} {rsz : ℤ} {ha : Alloc}
    (hnew : hpackDecoder max rsz ha () = .ok (some hp₀) ())
    (hrun : Reach DecOp.exec InMemory hp₀ hp) (hidle : hp.Idle) :
    ∃ p : Peer, hp.Follows p ∧ ∀ (dec : Decoding) evts hs p',
      ({ dec with cb := true } : Decoding).Valid → dec.cut = false →
      p.opened.Block 0 dec.blk evts hs p' → (headerOctets hs).length ≤ dec.bufLen →
      ∃ hp', hpackDecode { dec with cb := true } hp = .ok .ok hp' ∧ Iterates dec none hp hs hp' ∧
        hp'.ctx.log = hp.ctx.log ++ evts ∧
        evts.filter Event.isString = hs.flatMap (fun h => [.name h.nam, .value h.val]) ∧
        hp'.Follows p' := by
  obtain ⟨l, hf⟩ := decoder_follows hnew hrun hidle.magic hidle.tooBig
  refine ⟨hp.peer l, hf, fun dec evts hs p' hv hcut hblock hroom => ?_⟩
  obtain ⟨hp', hdec, hiter, hlog, hf', -⟩ :=
    hpackDecodeFields_wire dec hf hidle hv hcut hblock hroom
  exact ⟨hp', hdec, hiter, hlog, hblock.strings, hf'⟩

/-- The second entry of the static table. -/
theorem hpackDecodeFields_block_indexed :
    ∃ hp', Iterates ⟨[0x82], 1, 100, false, false⟩ none smallDecoder
      [⟨ascii ":method", ascii "GET"⟩] hp' := by
  obtain ⟨p, hf, h⟩ :=
    hpackDecodeFields_block smallDecoder_new (.refl _) ⟨rfl, rfl, rfl, rfl, rfl⟩
  obtain ⟨hp', -, hrun, -⟩ := h ⟨[0x82], 1, 100, false, false⟩ _ _ _
    ⟨by decide, by decide, by decide, rfl⟩ rfl (methodBlock (smallDecoder_settled hf))
    (by decide)
  exact ⟨hp', hrun⟩

end Cashpack
