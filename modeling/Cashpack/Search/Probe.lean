import Cashpack.Decoder.Alike
import Cashpack.Decoder.Blank
import Cashpack.Decoder.Block
import Cashpack.Encoder.Alike
import Cashpack.Search.Dynamic

/-!
# Probing a codec between its calls

An application may list the tables, look an entry up or search for one between two calls.  Two
runs are compared, with and without the probes: `observe` is what the calls give in a run, and
`Similar` relates the codecs that no later call tells apart.

Listing the tables clears the context of the codec.  Nothing is lost between two blocks, unless
there is a message to skip; in the middle of a block, the state to resume from is.

## Main results

* `foreach_similar_iff` : listing the tables has no effect exactly when it is harmless.
* `probes_change_nothing` : in any run, harmless probes do not change what the calls give.
-/

namespace Cashpack

open Prog

/-! ### Runs with probes -/

/-- A call that makes the codec work. -/
inductive Call
  | decode (dec : Decoding)
  | encode (enc : Encoding)
  | resize (len : ℕ) (re : Option Block)
  | limit (len : ℕ) (re : Option Block)
  | trim (re : Option Block)
  | skip

/-- Make a call; the fields are given back as `hpack_encode` rewrites them. -/
def Call.exec : Call → Cp (Res × List Field)
  | .decode dec => do let r ← hpackDecode dec; pure (r, [])
  | .encode enc => hpackEncode enc
  | .resize len re => do let r ← hpackResize len re; pure (r, [])
  | .limit len re => do let r ← hpackLimit len re; pure (r, [])
  | .trim re => do let r ← hpackTrim re; pure (r, [])
  | .skip => do let r ← hpackSkip; pure (r, [])

/-- A call that only looks at the tables. -/
inductive Probe
  | dynamic
  | tables
  | entry (idx : ℕ)
  | search (nam val : Option CStr)

/-- Make a probe. -/
def Probe.exec : Probe → Cp Res
  | .dynamic => hpackDynamic
  | .tables => hpackTables
  | .entry idx => do let r ← hpackEntry idx; pure r.1
  | .search nam val => do let r ← hpackSearch nam val; pure r.1

/-- The probe lists the tables. -/
def Probe.Lists (p : Probe) : Prop := p = .dynamic ∨ p = .tables

/-- What an application does with a codec. -/
inductive Act
  | call (c : Call)
  | probe (p : Probe)

/-- A run, seen through its calls: the results, and the events of each. -/
def observe : List Act → Cp (List ((Res × List Field) × List Event))
  | [] => pure []
  | .call c :: acts => do
    let hp ← get
    let r ← c.exec
    let hp' ← get
    let obs ← observe acts
    pure ((r, hp'.ctx.log.drop hp.ctx.log.length) :: obs)
  | .probe p :: acts => do
    let _ ← p.exec
    observe acts

/-- The same run without its probes. -/
def calls : List Act → List Act
  | [] => []
  | .call c :: acts => .call c :: calls acts
  | .probe _ :: acts => calls acts

/-- Nothing is lost when the context is cleared: the codec is between two blocks, has no message
to skip, and its context belongs to it. -/
def Probe.Harmless (p : Probe) (hp : Hpack) : Prop :=
  match p with
  | .dynamic | .tables => hp.ctx.res = .ok ∧ hp.ctx.tooBig = false ∧ hp.ctx.hp = hp.addr
  | _ => True

/-- Every probe of the run returns, and is harmless where it is made. -/
def Probed : List Act → Hpack → Prop
  | [], _ => True
  | .call c :: acts, hp => ∀ r hp', c.exec hp = .ok r hp' → Probed acts hp'
  | .probe p :: acts, hp =>
    p.Harmless hp ∧ ∃ r hp', p.exec hp = .ok r hp' ∧ Probed acts hp'

/-- The codecs differ by the events of the past, and by what no call reads again: all that is
left of the last block between two blocks, the buffer of an encoder in a decoder, and the
context of a decoder in an encoder. -/
def Similar (hp hp' : Hpack) : Prop :=
  ∃ (log : List Event) (r : Rest), hp' = hp.relog log r ∧
    (hp.magic = .decoder → hp.ctx.fld = r.fld) ∧
    (hp.ctx.res = .blk → (hp.magic = .decoder → SameDec hp.ctx.rest r) ∧
      (hp.magic = .encoder → SameEnc hp.ctx.rest r))

variable {hp hp' : Hpack}

theorem Similar.refl (hp : Hpack) : Similar hp hp :=
  ⟨hp.ctx.log, hp.ctx.rest, rfl, fun _ => rfl, fun _ => ⟨fun _ => rfl, fun _ => ⟨rfl, rfl, rfl⟩⟩⟩

/-! ### One call -/

/-- Similar codecs, with the same events since those of `hp` and `hp'`. -/
def SimilarSince (hp hp' s s' : Hpack) : Prop :=
  Similar s s' ∧ s.ctx.log.drop hp.ctx.log.length = s'.ctx.log.drop hp'.ctx.log.length

/-- Codecs that are alike are similar, with the same events since. -/
theorem SimilarSince.of_alike {Q : Rest → Rest → Prop} {s s' : Hpack}
    (h : Alike Q hp.ctx.log hp'.ctx.log s s')
    (hfld : s.magic = .decoder → ∀ a b, Q a b → a.fld = b.fld)
    (hdec : s.ctx.res = .blk → s.magic = .decoder → ∀ a b, Q a b → SameDec a b)
    (henc : s.ctx.res = .blk → s.magic = .encoder → ∀ a b, Q a b → SameEnc a b) :
    SimilarSince hp hp' s s' := by
  obtain ⟨m, r, hm, hQ, rfl⟩ := h
  refine ⟨⟨_, r, rfl, fun hd => hfld hd _ _ hQ, fun hblk => ?_⟩, ?_⟩
  · exact ⟨fun hd => hdec hblk hd _ _ hQ, fun he => henc hblk he _ _ hQ⟩
  · rw [hm, List.drop_left]
    exact List.drop_left.symm

theorem SimilarSince.refl (h : Similar hp hp') : SimilarSince hp hp' hp hp' := by
  refine ⟨h, ?_⟩
  rw [List.drop_length, List.drop_length]

/-- A function that returns in the state it was run in, from both codecs. -/
theorem rel_same {α : Type} {x : Cp α} {a : α} (h : Similar hp hp') (hx : x hp = .ok a hp)
    (hx' : x hp' = .ok a hp') :
    (x hp).Rel (SimilarSince hp hp') (fun _ => False) (x hp') := by
  rw [hx, hx']
  exact .ok a (.refl h)

theorem rel_stop {α : Type} {x : Cp α} {w : Stop} (hx : x hp = .stop w) (hx' : x hp' = .stop w) :
    (x hp).Rel (SimilarSince hp hp') (fun _ => False) (x hp') := by
  rw [hx, hx']
  exact .stop w

/-- Memory management does not look at the block, and leaves it alone. -/
theorem rel_memory {x : Cp Res} (hx : ∀ Q L L', Unaware Q L L' x) (hb : KeepsBlock hp x)
    (h : Similar hp hp') :
    (x hp).Rel (SimilarSince hp hp') (fun _ => False) (x hp') := by
  obtain ⟨log, r, rfl, hfld, hbusy⟩ := h
  have hrel := hx (fun a b => a = hp.ctx.rest ∧ b = r) hp.ctx.log log hp (hp.relog log r)
    ⟨[], r, (List.append_nil _).symm, ⟨rfl, rfl⟩, by rw [List.append_nil]⟩
  refine (hrel.and (hb hp (.refl hp))).mono (fun s s' hs => ?_) fun _ h => h
  obtain ⟨halike, hsame⟩ := hs
  have hsame : SameBlock hp s := hsame.elim (fun h => h.elim fun _ h => h) id
  have hmagic : ∀ m, m ≠ .defunct → s.magic = m → hp.magic = m := by
    intro m hm hs
    rcases hsame.2.2 with heq | hdef
    · exact heq ▸ hs
    · exact absurd (hs.symm.trans hdef) hm
  refine @SimilarSince.of_alike hp (hp.relog log r) _ s s' halike ?_ ?_ ?_
  · rintro hd _ _ ⟨rfl, rfl⟩
    exact hfld (hmagic _ Magic.noConfusion hd)
  · rintro hblk hd _ _ ⟨rfl, rfl⟩
    exact (hbusy (hsame.1 ▸ hblk)).1 (hmagic _ Magic.noConfusion hd)
  · rintro hblk he _ _ ⟨rfl, rfl⟩
    exact (hbusy (hsame.1 ▸ hblk)).2 (hmagic _ Magic.noConfusion he)

/-! ### Decoding -/

/-- A decoder that is about to decode a block, as if it was in the middle of it. -/
def Hpack.opened (hp : Hpack) (dec : Decoding) : Hpack :=
  { hpackDecodeArg dec (hp.begin dec) with ctx.res := .blk }

section

variable {dec : Decoding} (hm : hp.magic = .decoder) (hv : dec.Valid)

include hm hv

theorem hpackDecode_err (h : hpackDecodeBegin dec hp = .err hp') :
    hpackDecode dec hp = .ok .arg hp' := by
  obtain ⟨h₁, h₂, h₃, h₄⟩ := hv
  rw [hpackDecode, bind_apply, get_apply, Out.bind_ok, ite_run,
    if_neg (by simp [hm, h₁, h₂, h₃, h₄]), bind_apply, attempt_apply, h]
  rfl

theorem hpackDecode_stop {w : Stop} (h : hpackDecodeBegin dec hp = .stop w) :
    hpackDecode dec hp = .stop w := by
  obtain ⟨h₁, h₂, h₃, h₄⟩ := hv
  rw [hpackDecode, bind_apply, get_apply, Out.bind_ok, ite_run,
    if_neg (by simp [hm, h₁, h₂, h₃, h₄]), bind_apply, attempt_apply, h]
  rfl

/-- Between two blocks, a block is refused or opened. -/
theorem hpackDecode_idle (hres : hp.ctx.res ≠ .blk) :
    hpackDecode dec hp =
      if hp.ctx.hp = hp.addr ∧ hp.ctx.res = .ok then
        if hp.ctx.tooBig = false then hpackDecode dec (hp.opened dec)
        else .ok .arg { hp with ctx.res := .arg }
      else .stop .abort := by
  by_cases hown : hp.ctx.hp = hp.addr
  · by_cases hok : hp.ctx.res = .ok
    · rw [if_pos ⟨hown, hok⟩]
      have hbegin : hpackDecodeBegin dec hp = if hp.ctx.tooBig = false then .ok () (hp.begin dec)
          else .err { hp with ctx.res := .arg } := by
        rw [hpackDecodeBegin, bind_apply, get_apply, Out.bind_ok, assert_bind_pos hown, ite_run,
          if_neg hres, assert_bind_pos hok, bind_apply, expect_apply]
        split <;> rfl
      by_cases hbig : hp.ctx.tooBig = false
      · -- the block that is opened is the one that starts
        have hopened : hpackDecodeBegin dec (hp.opened dec) = .ok () (hp.opened dec) := by
          have hown' : (hp.opened dec).ctx.hp = (hp.opened dec).addr := hown
          have hbuf : (hp.opened dec).ctx.org + (hp.opened dec).ctx.out.length ≠ 0 := hv.2.1
          rw [hpackDecodeBegin, bind_apply, get_apply, Out.bind_ok, assert_bind_pos hown', ite_run,
            if_pos (show (hp.opened dec).ctx.res = .blk from rfl), assert_bind_pos hbuf,
            expect_apply]
          exact if_pos rfl
        rw [if_pos hbig] at hbegin
        have henter : Enters dec (hp.opened dec) (hpackDecodeArg dec (hp.opened dec)) :=
          ⟨hm, hv, _, hopened, rfl⟩
        rw [if_pos hbig, henter.decode_eq]
        exact Enters.decode_eq ⟨hm, hv, _, hbegin, rfl⟩
      · rw [if_neg hbig] at hbegin
        rw [if_neg hbig, hpackDecode_err hm hv hbegin]
    · rw [if_neg fun h => hok h.2]
      refine hpackDecode_stop hm hv ?_
      rw [hpackDecodeBegin, bind_apply, get_apply, Out.bind_ok, assert_bind_pos hown, ite_run,
        if_neg hres, assert_bind_neg hok]
  · rw [if_neg fun h => hown h.1]
    refine hpackDecode_stop hm hv ?_
    rw [hpackDecodeBegin, bind_apply, get_apply, Out.bind_ok, assert_bind_neg hown]

end

theorem hpackDecode_arg {dec : Decoding} (hargs : hp.magic ≠ .decoder ∨ dec.blk = [] ∨
    dec.buf = 0 ∨ dec.bufLen = 0 ∨ dec.cb = false) : hpackDecode dec hp = .ok .arg hp := by
  rw [hpackDecode, bind_apply, get_apply, Out.bind_ok, ite_run, if_pos hargs, pure_apply]

/-- Decoding does not make an encoder. -/
theorem hpackDecode_not_encoder (dec : Decoding) (hm : hp.magic = .decoder)
    (hext : hp.ctx.fld.Ext) :
    (hpackDecode dec hp).Holds (fun _ hp' => hp'.magic ≠ .encoder)
      (fun hp' => hp'.magic ≠ .encoder) fun _ => True := by
  have hP : TableFree fun c => c.magic ≠ .encoder := fun _ _ h => h
  have hstable : Stable fun c => c.magic ≠ .encoder := by
    rintro c m a u (rfl | rfl) h
    · exact h
    · exact Magic.noConfusion
  have hne : hp.core.magic ≠ .encoder := by
    rw [show hp.core.magic = .decoder from hm]
    exact Magic.noConfusion
  exact (keeps_hpackDecode hstable (keeps_hptField hP.entriesFree) (keeps_hptIndex hP.entriesFree)
    (keeps_hpackDecodeUpdate hP fun _ h => h) dec hp ⟨hne, hext⟩).mono (fun _ _ h => h.1)
    (fun _ h => h.1) fun _ _ => trivial

/-- A block is decoded alike by similar codecs. -/
theorem rel_hpackDecode (dec : Decoding) (hext : hp.magic = .decoder → hp.ctx.fld.Ext)
    (h : Similar hp hp') :
    (hpackDecode dec hp).Rel (SimilarSince hp hp') (fun _ => False) (hpackDecode dec hp') := by
  have h' := h
  obtain ⟨log, r, rfl, hfld, hbusy⟩ := h'
  by_cases hargs : hp.magic ≠ .decoder ∨ dec.blk = [] ∨ dec.buf = 0 ∨ dec.bufLen = 0 ∨
      dec.cb = false
  · -- the arguments are refused
    exact rel_same h (hpackDecode_arg hargs) (@hpackDecode_arg (hp.relog log r) dec hargs)
  have hm : hp.magic = .decoder := by tauto
  have hv : dec.Valid := ⟨by tauto, by tauto, by tauto, by cases hcb : dec.cb <;> tauto⟩
  -- decoders in the middle of the same block
  have hmid : ∀ s s' : Hpack, s.magic = .decoder → s.ctx.fld.Ext →
      Alike SameDec hp.ctx.log log s s' →
      (hpackDecode dec s).Rel (SimilarSince hp (hp.relog log r)) (fun _ => False)
        (hpackDecode dec s') := by
    intro s s' hs hext halike
    have hrel := unaware_hpackDecode dec s s' halike
    refine (hrel.and (hpackDecode_not_encoder dec hs hext)).mono (fun s₁ s₁' h₁ => ?_) fun _ h => h
    have hne : s₁.magic ≠ .encoder := h₁.2.elim (fun h => h.elim fun _ h => h) id
    refine @SimilarSince.of_alike hp (hp.relog log r) _ s₁ s₁' h₁.1 ?_ ?_ ?_
    · exact fun _ a b hab => SameDec.fld hab
    · exact fun _ _ a b hab => hab
    · exact fun _ he => absurd he hne
  by_cases hres : hp.ctx.res = .blk
  · refine hmid _ _ hm (hext hm) ⟨[], r, (List.append_nil _).symm, (hbusy hres).1 hm, ?_⟩
    rw [List.append_nil]
  · rw [hpackDecode_idle hm hv hres, @hpackDecode_idle (hp.relog log r) dec hm hv hres]
    by_cases hok : hp.ctx.hp = hp.addr ∧ hp.ctx.res = .ok
    · have hok' : (hp.relog log r).ctx.hp = (hp.relog log r).addr ∧
          (hp.relog log r).ctx.res = .ok := hok
      rw [if_pos hok, if_pos hok']
      by_cases hbig : hp.ctx.tooBig = false
      · rw [if_pos hbig, if_pos (show (hp.relog log r).ctx.tooBig = false from hbig)]
        refine hmid _ _ hm (hext hm) ⟨[], ((hp.relog log r).opened dec).ctx.rest, ?_, ?_, ?_⟩
        · exact (List.append_nil _).symm
        · simp only [SameDec, Ctx.rest, Hpack.opened, Hpack.begin, hpackDecodeArg, Hpack.relog,
            hfld hm]
        · rw [List.append_nil]
          rfl
      · rw [if_neg hbig, if_neg (show ¬ (hp.relog log r).ctx.tooBig = false from hbig)]
        refine .ok _ ⟨⟨log, r, rfl, hfld, fun hblk => by cases hblk⟩, ?_⟩
        rw [List.drop_length]
        exact List.drop_length.symm
    · have hok' : ¬ ((hp.relog log r).ctx.hp = (hp.relog log r).addr ∧
          (hp.relog log r).ctx.res = .ok) := hok
      rw [if_neg hok, if_neg hok']
      exact .stop .abort

/-! ### Encoding -/

/-- An encoder that is about to encode a block, as if it was in the middle of it. -/
def Hpack.started (hp : Hpack) (enc : Encoding) : Hpack :=
  { hp with
    ctx.canUpd := true, ctx.tooBig := false, ctx.res := .blk
    ctx.arg := ⟨enc.buf, enc.bufLen, 0⟩, ctx.cur := [] }

theorem hpackEncode_arg {enc : Encoding} (hargs : hp.magic ≠ .encoder ∨ enc.fld = [] ∨
    enc.buf = 0 ∨ enc.bufLen = 0 ∨ enc.cb = false) : hpackEncode enc hp = .ok (.arg, enc.fld) hp := by
  rw [hpackEncode, bind_apply, get_apply, Out.bind_ok, ite_run, if_pos hargs, pure_apply]

/-- Between two blocks, a block is started. -/
theorem hpackEncode_idle {enc : Encoding} (hargs : ¬ (hp.magic ≠ .encoder ∨ enc.fld = [] ∨
    enc.buf = 0 ∨ enc.bufLen = 0 ∨ enc.cb = false)) (hres : hp.ctx.res ≠ .blk) :
    hpackEncode enc hp =
      if hp.ctx.hp = hp.addr ∧ hp.ctx.res = .ok then hpackEncode enc (hp.started enc)
      else .stop .abort := by
  rw [hpackEncode, bind_apply, get_apply, Out.bind_ok, ite_run, if_neg hargs, bind_apply]
  by_cases hown : hp.ctx.hp = hp.addr
  · by_cases hok : hp.ctx.res = .ok
    · have hargs' : ¬ ((hp.started enc).magic ≠ .encoder ∨ enc.fld = [] ∨
          enc.buf = 0 ∨ enc.bufLen = 0 ∨ enc.cb = false) := hargs
      have hown' : (hp.started enc).ctx.hp = (hp.started enc).addr := hown
      have hbegin : hpackEncodeBegin enc hp = .ok () (hp.started enc) := by
        rw [hpackEncodeBegin, bind_apply, get_apply, Out.bind_ok, assert_bind_pos hown,
          bind_apply, when_apply, if_pos hres, assert_bind_pos hok]
        rfl
      have hbegin' : hpackEncodeBegin enc (hp.started enc) = .ok () (hp.started enc) := by
        rw [hpackEncodeBegin, bind_apply, get_apply, Out.bind_ok, assert_bind_pos hown',
          bind_apply, when_apply,
          if_neg (show ¬ (hp.started enc).ctx.res ≠ .blk from not_not.2 rfl)]
        rfl
      have hyes : hp.ctx.hp = hp.addr ∧ hp.ctx.res = .ok := ⟨hown, hok⟩
      rw [if_pos hyes, bind_apply, get_apply, Out.bind_ok, ite_run,
        if_neg hargs', bind_apply, hbegin, hbegin']
    · have hno : ¬ (hp.ctx.hp = hp.addr ∧ hp.ctx.res = .ok) := fun h => hok h.2
      rw [if_neg hno, hpackEncodeBegin, bind_apply, get_apply, Out.bind_ok, assert_bind_pos hown,
        bind_apply, when_apply, if_pos hres, assert_bind_neg hok]
      rfl
  · have hno : ¬ (hp.ctx.hp = hp.addr ∧ hp.ctx.res = .ok) := fun h => hown h.1
    rw [if_neg hno, hpackEncodeBegin, bind_apply, get_apply, Out.bind_ok, assert_bind_neg hown]
    rfl

/-- The codec is not a decoder. -/
theorem callFree_not_decoder : CallFree fun c => c.magic ≠ .decoder := fun _ _ _ _ h => h

/-- Encoding does not make a decoder. -/
theorem hpackEncode_not_decoder (enc : Encoding) (hm : hp.magic = .encoder) :
    (hpackEncode enc hp).Holds (fun _ hp' => hp'.magic ≠ .decoder)
      (fun hp' => hp'.magic ≠ .decoder) fun _ => True := by
  have hne : hp.core.magic ≠ .decoder := by
    rw [show hp.core.magic = .encoder from hm]
    exact Magic.noConfusion
  exact (keeps_hpackEncode callFree_not_decoder.tableFree.entriesFree
    (fun _ _ => Magic.noConfusion) (keeps_hpackEncodeBegin callFree_not_decoder)
    (keeps_hpackEncodeResize callFree_not_decoder) (keeps_hpackEncodeLimit callFree_not_decoder)
    (fun _ h => h) enc hp ⟨hne, trivial⟩).mono (fun _ _ h => h.1) (fun _ h => h.1) fun _ _ => trivial

/-- A block is encoded alike by similar codecs. -/
theorem rel_hpackEncode (enc : Encoding) (h : Similar hp hp') :
    (hpackEncode enc hp).Rel (SimilarSince hp hp') (fun _ => False) (hpackEncode enc hp') := by
  have h' := h
  obtain ⟨log, r, rfl, hfld, hbusy⟩ := h'
  by_cases hargs : hp.magic ≠ .encoder ∨ enc.fld = [] ∨ enc.buf = 0 ∨ enc.bufLen = 0 ∨
      enc.cb = false
  · exact rel_same h (hpackEncode_arg hargs) (@hpackEncode_arg (hp.relog log r) enc hargs)
  have hm : hp.magic = .encoder := by tauto
  -- encoders in the middle of the same block
  have hmid : ∀ s s' : Hpack, s.magic = .encoder → Alike SameEnc hp.ctx.log log s s' →
      (hpackEncode enc s).Rel (SimilarSince hp (hp.relog log r)) (fun _ => False)
        (hpackEncode enc s') := by
    intro s s' hs halike
    have hrel := unaware_hpackEncode enc s s' halike
    refine (hrel.and (hpackEncode_not_decoder enc hs)).mono (fun s₁ s₁' h₁ => ?_) fun _ h => h
    have hne : s₁.magic ≠ .decoder := h₁.2.elim (fun h => h.elim fun _ h => h) id
    refine @SimilarSince.of_alike hp (hp.relog log r) _ s₁ s₁' h₁.1 ?_ ?_ ?_
    · exact fun hd => absurd hd hne
    · exact fun _ hd => absurd hd hne
    · exact fun _ _ a b hab => hab
  by_cases hres : hp.ctx.res = .blk
  · refine hmid _ _ hm ⟨[], r, (List.append_nil _).symm, (hbusy hres).2 hm, ?_⟩
    rw [List.append_nil]
  · rw [hpackEncode_idle hargs hres, @hpackEncode_idle (hp.relog log r) enc hargs hres]
    by_cases hok : hp.ctx.hp = hp.addr ∧ hp.ctx.res = .ok
    · have hok' : (hp.relog log r).ctx.hp = (hp.relog log r).addr ∧
          (hp.relog log r).ctx.res = .ok := hok
      rw [if_pos hok, if_pos hok']
      refine hmid _ _ hm ⟨[], ((hp.relog log r).started enc).ctx.rest, ?_, ⟨rfl, rfl, rfl⟩, ?_⟩
      · exact (List.append_nil _).symm
      · rw [List.append_nil]
        rfl
    · have hok' : ¬ ((hp.relog log r).ctx.hp = (hp.relog log r).addr ∧
          (hp.relog log r).ctx.res = .ok) := hok
      rw [if_neg hok, if_neg hok']
      exact .stop .abort

/-! ### Runs -/

/-- What holds of a codec that is probed: nothing is known of an encoder. -/
def Hpack.Sane (hp : Hpack) : Prop := hp.magic = .decoder → hp.Decoder False ∧ hp.Blank

theorem Codec.sane (h : Codec hp) : hp.Sane := by
  intro hm
  cases h with
  | decoder new run _ => exact ⟨decoder_sound new run, decoder_blank new run⟩
  | encoder _ _ live =>
    rw [live] at hm
    cases hm

/-- A call on a decoder. -/
theorem sane_decOp (op : DecOp) (h : hp.Sane) (hm : hp.magic = .decoder) :
    (op.exec hp).Holds (fun _ hp' => hp'.Sane) (fun _ => True) fun _ => True := by
  have h₁ := fits_exec op (h hm).1 False.elim
  have h₂ := blank_exec op (h hm).2
  cases hr : op.exec hp with
  | ok r hp' =>
    rw [hr] at h₁ h₂
    exact fun _ => ⟨h₁, h₂⟩
  | err _ => trivial
  | stop w => trivial

/-- What leaves the block alone does not make a decoder. -/
theorem sane_memory {x : Cp Res} (hb : KeepsBlock hp x) (hm : hp.magic ≠ .decoder) :
    (x hp).Holds (fun _ hp' => hp'.Sane) (fun _ => True) fun _ => True := by
  refine (hb hp (.refl hp)).mono (fun _ hp' h' hd => ?_) (fun _ _ => trivial) fun _ h => h
  rcases h'.2.2 with heq | hdef
  · exact absurd (heq.symm.trans hd) hm
  · rw [hdef] at hd
    cases hd

theorem Call.sane (c : Call) (h : hp.Sane) :
    (c.exec hp).Holds (fun _ hp' => hp'.Sane) (fun _ => True) fun _ => True := by
  -- the result of a call is given with no field
  have hres : ∀ {x : Cp Res},
      (x hp).Holds (fun _ hp' => hp'.Sane) (fun _ => True) (fun _ => True) →
      ((do let r ← x; pure (r, ([] : List Field)) : Cp (Res × List Field)) hp).Holds
        (fun _ hp' => hp'.Sane) (fun _ => True) fun _ => True := by
    intro x hx
    rw [bind_apply]
    exact hx.bind fun _ _ h => h
  by_cases hm : hp.magic = .decoder
  · have he : hp.magic ≠ .encoder := by
      rw [hm]
      exact Magic.noConfusion
    cases c with
    | decode dec => exact hres (sane_decOp (.decode dec) h hm)
    | encode enc =>
      show (hpackEncode enc hp).Holds _ _ _
      rw [hpackEncode_arg (Or.inl he)]
      exact h
    | resize len re => exact hres (sane_decOp (.resize len re) h hm)
    | limit len re =>
      refine hres ?_
      rw [hpackLimit, bind_apply, get_apply, Out.bind_ok, ite_run, if_pos he]
      exact h
    | trim re => exact hres (sane_decOp (.trim re) h hm)
    | skip => exact hres (sane_decOp .skip h hm)
  · cases c with
    | decode dec =>
      refine hres ?_
      rw [hpackDecode_arg (Or.inl hm)]
      exact h
    | encode enc =>
      show (hpackEncode enc hp).Holds _ _ _
      by_cases he : hp.magic = .encoder
      · exact (hpackEncode_not_decoder enc he).mono (fun _ _ h hd => absurd hd h)
          (fun _ _ => trivial) fun _ h => h
      · rw [hpackEncode_arg (Or.inl he)]
        exact h
    | resize len re => exact hres (sane_memory (memFree_sameBlock.hpackResize len re) hm)
    | limit len re => exact hres (sane_memory (memFree_sameBlock.hpackLimit len re) hm)
    | trim re => exact hres (sane_memory (memFree_sameBlock.hpackTrim re) hm)
    | skip => exact hres (sane_memory block_hpackSkip hm)

/-- A call does the same on similar codecs. -/
theorem Call.rel (c : Call) (hs : hp.Sane) (h : Similar hp hp') :
    (c.exec hp).Rel (SimilarSince hp hp') (fun _ => False) (c.exec hp') := by
  have hres : ∀ {x : Cp Res}, (x hp).Rel (SimilarSince hp hp') (fun _ => False) (x hp') →
      ((do let r ← x; pure (r, ([] : List Field)) : Cp (Res × List Field)) hp).Rel
        (SimilarSince hp hp') (fun _ => False) ((do let r ← x; pure (r, [])) hp') := by
    intro x hx
    rw [bind_apply, bind_apply]
    exact hx.bind fun r _ _ h => .ok _ h
  cases c with
  | decode dec => exact hres (rel_hpackDecode dec (fun hm => (hs hm).1.2) h)
  | encode enc => exact rel_hpackEncode enc h
  | resize len re =>
    exact hres (rel_memory (fun _ _ _ => unaware_hpackResize len re) (memFree_sameBlock.hpackResize len re) h)
  | limit len re =>
    exact hres (rel_memory (fun _ _ _ => unaware_hpackLimit len re) (memFree_sameBlock.hpackLimit len re) h)
  | trim re =>
    exact hres (rel_memory (fun _ _ _ => unaware_hpackTrim re) (memFree_sameBlock.hpackTrim re) h)
  | skip => exact hres (rel_memory (fun _ _ _ => unaware_hpackSkip) block_hpackSkip h)

/-- A probe changes nothing, or lists the tables of a live codec. -/
theorem Probe.cases (p : Probe) {r : Res} (hrun : p.exec hp = .ok r hp') :
    (hp' = hp ∧ (p.Lists → r = .arg)) ∨ (p.Lists ∧ r = .ok ∧
      (∃ log, hp' = { hp.cleared with ctx.log := log }) ∧
      ∃ op : DecOp, op.exec hp = .ok r hp') := by
  have hlist : ∀ static dynamic, hpackForeach static dynamic hp = .ok r hp' →
      (hp' = hp ∧ r = .arg) ∨ (r = .ok ∧ (∃ log, hp' = { hp.cleared with ctx.log := log }) ∧
        ∃ op : DecOp, op.exec hp = .ok r hp') := by
    intro static dynamic hrun
    have h := hpackForeach_cleared static dynamic hp
    rw [hrun] at h
    rcases h with ⟨hr, rfl⟩ | ⟨hr, hlog⟩
    · exact Or.inl ⟨rfl, hr⟩
    · exact Or.inr ⟨hr, hlog, .foreach static dynamic, hrun⟩
  cases p with
  | dynamic => exact (hlist _ _ hrun).imp (fun h => ⟨h.1, fun _ => h.2⟩) fun h => ⟨Or.inl rfl, h⟩
  | tables => exact (hlist _ _ hrun).imp (fun h => ⟨h.1, fun _ => h.2⟩) fun h => ⟨Or.inr rfl, h⟩
  | entry idx =>
    refine Or.inl ⟨((reads_hpackEntry idx).bind fun _ => .pure _).ok hrun, fun h => ?_⟩
    rcases h with h | h <;> cases h
  | search nam val =>
    refine Or.inl ⟨((reads_hpackSearch nam val).bind fun _ => .pure _).ok hrun, fun h => ?_⟩
    rcases h with h | h <;> cases h

theorem Probe.sane (p : Probe) (hs : hp.Sane) {r : Res} (hrun : p.exec hp = .ok r hp') :
    hp'.Sane := by
  rcases p.cases hrun with ⟨rfl, -⟩ | ⟨-, -, ⟨log, heq⟩, op, hop⟩
  · exact hs
  · intro hm
    have hm₀ : hp.magic = .decoder := by
      rw [heq] at hm
      exact hm
    have h := sane_decOp op hs hm₀
    rw [hop] at h
    exact h hm

/-- A harmless probe leaves a similar codec. -/
theorem Probe.similar {p : Probe} (hs : hp.Sane) (hno : p.Harmless hp) {s : Hpack} {r : Res}
    (hrun : p.exec hp = .ok r s) (h : Similar hp hp') : Similar s hp' := by
  rcases p.cases hrun with ⟨rfl, -⟩ | ⟨hlist, -, ⟨log, rfl⟩, -⟩
  · exact h
  · obtain ⟨hres, hbig, hown⟩ : hp.ctx.res = .ok ∧ hp.ctx.tooBig = false ∧ hp.ctx.hp = hp.addr := by
      rcases hlist with rfl | rfl <;> exact hno
    obtain ⟨log', r', rfl, hfld, -⟩ := h
    refine ⟨log', r', ?_, fun hm => ?_, fun hblk => by cases hblk⟩
    · -- what is cleared was so, or is the rest of the last block
      simp only [Hpack.relog, Hpack.cleared, Ctx.zero, hres, hbig, hown]
    · exact ((hs hm).2 hm (Or.inl hres)).symm.trans (hfld hm)

/-- Listing the tables has no effect exactly when it is harmless. -/
theorem foreach_similar_iff {p : Probe} (hs : hp.Sane) (hp' : p.Lists) {s : Hpack}
    (hrun : p.exec hp = .ok .ok s) : Similar s hp ↔ p.Harmless hp := by
  constructor
  · rintro ⟨log, r, heq, -⟩
    rcases p.cases hrun with ⟨-, hr⟩ | ⟨-, -, ⟨log', rfl⟩, -⟩
    · cases hr hp'
    · have hall : hp.ctx.res = .ok ∧ hp.ctx.tooBig = false ∧ hp.ctx.hp = hp.addr := by
        rw [heq]
        exact ⟨rfl, rfl, rfl⟩
      rcases hp' with rfl | rfl <;> exact hall
  · exact fun hno => p.similar hs hno hrun (.refl hp)

/-- Probes that are harmless do not change the run of a codec in a sane state. -/
theorem observe_rel {acts : List Act} (hs : hp.Sane) (h : Similar hp hp') (hacts : Probed acts hp) :
    (observe acts hp).Rel Similar (fun _ => False) (observe (calls acts) hp') := by
  induction acts generalizing hp hp' with
  | nil => exact .ok [] h
  | cons act acts ih =>
    cases act with
    | probe p =>
      obtain ⟨hno, r, s, hrun, hacts⟩ := hacts
      rw [observe, bind_apply, hrun, Out.bind_ok]
      exact ih (p.sane hs hrun) (p.similar hs hno hrun h) hacts
    | call c =>
      have hrel := c.rel hs h
      have hsane := c.sane hs
      rw [calls, observe, observe, bind_apply, get_apply, Out.bind_ok, bind_apply, bind_apply,
        get_apply, Out.bind_ok, bind_apply]
      generalize hrun : c.exec hp = o at hrel hsane
      generalize c.exec hp' = o' at hrel
      cases hrel with
      | ok r hsince =>
        obtain ⟨hsim, hevts⟩ := hsince
        rw [Out.bind_ok, Out.bind_ok, bind_apply, get_apply, Out.bind_ok, bind_apply, bind_apply,
          get_apply, Out.bind_ok, bind_apply, hevts]
        refine (ih hsane hsim (hacts r _ hrun)).bind fun obs _ _ h => ?_
        exact .ok _ h
      | err hsince => exact .err hsince.1
      | stop w => exact .stop w
      | exit _ h => exact h.elim

/-- **Probing a codec has no effect**, as long as the tables are only listed between two blocks,
with no message to skip, and before the codec is moved: the calls of the run give the same
results and events with and without the probes, and leave similar codecs. -/
theorem probes_change_nothing {acts : List Act} (hcodec : Codec hp) (hacts : Probed acts hp) :
    (observe acts hp).Rel Similar (fun _ => False) (observe (calls acts) hp) :=
  observe_rel hcodec.sane (.refl hp) hacts

/-- The stored decoder once its entry was listed. -/
def listedDecoder : Hpack :=
  match Probe.exec .dynamic storedDecoder with
  | .ok _ hp => hp
  | _ => storedDecoder

/-- A block that refers to the stored entry. -/
def storedBlock : Call := .decode ⟨[0xbe], 1, 100, true, false⟩

theorem probes_change_nothing_stored :
    (observe [.probe .dynamic, .call storedBlock] storedDecoder).Rel Similar (fun _ => False)
      (observe [.call storedBlock] storedDecoder) := by
  have hacts : Probed [.probe .dynamic, .call storedBlock] storedDecoder := by
    refine ⟨?_, .ok, listedDecoder, ?_, fun _ _ _ => trivial⟩
    · exact show storedDecoder.ctx.res = .ok ∧ storedDecoder.ctx.tooBig = false ∧
        storedDecoder.ctx.hp = storedDecoder.addr by decide +kernel
    · decide +kernel
  exact probes_change_nothing storedDecoder_codec hacts

/-- A decoder that was sent the beginning of a field. -/
def busyDecoder : Hpack :=
  match hpackDecode ⟨[0x40, 1], 1, 100, true, true⟩ smallDecoder with
  | .ok _ hp => hp
  | _ => smallDecoder

/-- The end of the field. -/
def busyBlock : Call := .decode ⟨[97, 1, 98], 1, 100, true, false⟩

/-- Listing the tables in the middle of a block makes the decoder forget it: what follows is
decoded as another block. -/
theorem probes_change_nothing_false :
    ∃ hp s : Hpack, Codec hp ∧ Probe.exec .dynamic hp = .ok .ok s ∧
      ¬ (observe [.probe .dynamic, .call busyBlock] hp).Rel Similar (fun _ => False)
        (observe [.call busyBlock] hp) := by
  have hrun : (DecOp.decode ⟨[0x40, 1], 1, 100, true, true⟩).exec smallDecoder
      = .ok .blk busyDecoder := by decide +kernel
  refine ⟨busyDecoder, busyDecoder.cleared, .decoder
    (.decoder smallDecoder_new) (.step (.refl _) trivial hrun) (by decide +kernel),
    by decide +kernel, fun h => ?_⟩
  have hne : (observe [.probe .dynamic, .call busyBlock] busyDecoder).value
      ≠ (observe [.call busyBlock] busyDecoder).value := by decide +kernel
  exact hne h.value_eq

end Cashpack
