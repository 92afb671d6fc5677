import Cashpack.Encoder.Alike
import Cashpack.Encoder.Runs
import Cashpack.Encoder.Sending
import Mathlib.Data.List.Forall2

/-!
# The values that are never indexed

The value of a field that is never indexed is only looked at when its octets are sent.  So two
encoders that are given the same fields, up to such values, stay the same but for the octets they
sent: their tables, their sizes and the representations they choose do not tell the values apart.

## Main definitions

* `Veiled` : two encoders that are the same but for what they sent.
* `Field.Twin` : two fields that are the same but for a value that is never indexed.
* `Sessions` : the encoders of two sessions made of such fields.

## Main results

* `twins_hpackEncodeTurn`, `twins_hpackEncodeLoop` : fields are encoded the same way.
* `never_indexed` : nothing that two sessions do depends on the values that are never indexed.
-/

namespace Cashpack

open Prog

variable {A A' : Octets} {hp hp' : Hpack} {fld fld' : Field} {L L' : List Event} {α β : Type}

/-! ### Two encoders -/

/-- A DATA event. -/
def Event.isData : Event → Bool
  | .data _ => true
  | _ => false

/-- The events besides the DATA events. -/
def notData (es : List Event) : List Event := es.filter fun e => !e.isData

/-- The encoder, had it sent something else. -/
def Hpack.resend (hp : Hpack) (log : List Event) (cur : Octets) : Hpack :=
  { hp with ctx := { hp.ctx with log := log, cur := cur } }

/-- The same encoders, up to what they sent. -/
def Veiled (hp hp' : Hpack) : Prop :=
  ∃ log cur, hp' = hp.resend log cur ∧ notData log = notData hp.ctx.log

theorem Veiled.refl (hp : Hpack) : Veiled hp hp := ⟨_, _, rfl, rfl⟩

theorem Veiled.symm (h : Veiled hp hp') : Veiled hp' hp := by
  obtain ⟨log, cur, rfl, hn⟩ := h
  exact ⟨hp.ctx.log, hp.ctx.cur, rfl, hn.symm⟩

theorem Veiled.trans {hp'' : Hpack} (h : Veiled hp hp') (h' : Veiled hp' hp'') :
    Veiled hp hp'' := by
  obtain ⟨log, cur, rfl, hn⟩ := h
  obtain ⟨log', cur', rfl, hn'⟩ := h'
  exact ⟨log', cur', rfl, hn'.trans hn⟩

/-- The rests of two such encoders. -/
def SameRest (a b : Rest) : Prop := ∃ cur, b = { a with cur := cur }

theorem Veiled.alike (h : Veiled hp hp') : Alike SameRest hp.ctx.log hp'.ctx.log hp hp' := by
  obtain ⟨log, cur, rfl, -⟩ := h
  refine ⟨[], { hp.ctx.rest with cur := cur }, (List.append_nil _).symm, ⟨cur, rfl⟩, ?_⟩
  rw [List.append_nil]
  rfl

theorem Alike.veiled (h : Alike SameRest L L' hp hp') (hL : notData L' = notData L) :
    Veiled hp hp' := by
  obtain ⟨m, r, hm, ⟨cur, rfl⟩, rfl⟩ := h
  refine ⟨L' ++ m, cur, rfl, ?_⟩
  rw [hm, notData, notData, List.filter_append, List.filter_append]
  exact congrArg (· ++ _) hL

theorem Veiled.notData_eq (h : Veiled hp hp') : notData hp'.ctx.log = notData hp.ctx.log := by
  obtain ⟨log, cur, rfl, hn⟩ := h
  exact hn

/-- Two such encoders between two calls: events can be notified. -/
structure Paired (hp hp' : Hpack) : Prop where
  veiled : Veiled hp hp'
  fits : hp.ctx.tooBig = false

theorem Paired.fits' (h : Paired hp hp') : hp'.ctx.tooBig = false := by
  obtain ⟨log, cur, rfl, -⟩ := h.veiled
  exact h.fits

theorem Paired.magic_eq (h : Paired hp hp') : hp'.magic = hp.magic := by
  obtain ⟨log, cur, rfl, -⟩ := h.veiled
  rfl

/-- Two such encoders in the middle of a block, that first sent `A` and `A'`. -/
structure Twins (A A' : Octets) (hp hp' : Hpack) : Prop where
  veiled : Veiled hp hp'
  left : Sending A hp
  right : Sending A' hp'

theorem Twins.paired (h : Twins A A' hp hp') : Paired hp hp' := ⟨h.veiled, h.left.opened.fits⟩

/-- Two functions that do the same on two such encoders. -/
abbrev AgreeTwins (A A' : Octets) (x y : Cp α) : Prop := Agree (Twins A A') (fun _ => False) x y

/-- A function that looks at nothing that was sent. -/
theorem twins_unaware {x : Cp α} (hx : ∀ L L', Unaware SameRest L L' x)
    (hs : ∀ A, KeepsSending A x) : AgreeTwins A A' x x := by
  intro hp hp' h
  have hn := h.veiled.notData_eq
  refine ((hx _ _ hp hp' h.veiled.alike).keep (hs A hp h.left) (hs A' hp' h.right)).mono ?_
    fun _ h => h
  rintro s s' ⟨hr, hA, hA'⟩
  exact ⟨hr.veiled hn, hA, hA'⟩

theorem paired_unaware {x : Cp α} (hx : ∀ L L', Unaware SameRest L L' x)
    (hk : Keeps (fun _ => True) (fun hp => hp.ctx.tooBig = false) x) :
    Respects Paired (fun _ => False) x := by
  intro hp hp' h
  have hn := h.veiled.notData_eq
  have hfits' : hp'.ctx.tooBig = false := h.fits'
  refine ((hx _ _ hp hp' h.veiled.alike).keep (hk hp h.fits) (hk hp' hfits')).mono ?_ fun _ h => h
  rintro s s' ⟨hr, hfits, -⟩
  exact ⟨hr.veiled hn, hfits⟩

/-- What is read does not depend on what was sent. -/
theorem twins_get_bind {f g : Hpack → Cp β} (hg : ∀ hp log cur, g (hp.resend log cur) = g hp)
    (h : ∀ hp, AgreeTwins A A' (f hp) (g hp)) : AgreeTwins A A' (get >>= f) (get >>= g) := by
  refine Agree.get_bind fun hp hp' hr => ?_
  obtain ⟨log, cur, rfl, -⟩ := hr.veiled
  rw [hg hp log cur]
  exact h hp _ _ hr

theorem twins_modify {f : Hpack → Hpack}
    (hf : ∀ hp log cur, f (hp.resend log cur) = (f hp).resend log cur)
    (hk : ∀ hp : Hpack, (f hp).magic = hp.magic ∧ (f hp).ctx.log = hp.ctx.log ∧
      (f hp).ctx.cur = hp.ctx.cur ∧ (f hp).ctx.arg = hp.ctx.arg ∧
      (f hp).ctx.tooBig = hp.ctx.tooBig) : AgreeTwins A A' (modify f) (modify f) := by
  refine Agree.modify fun hp hp' h => ?_
  have hA : Sending A (f hp) := sending_modify hk hp h.left
  have hA' : Sending A' (f hp') := sending_modify hk hp' h.right
  obtain ⟨log, cur, rfl, hn⟩ := h.veiled
  exact ⟨⟨log, cur, hf hp log cur, hn.trans (congrArg notData (hk hp).2.1.symm)⟩, hA, hA'⟩

/-! ### The working buffer -/

/-- A function that only puts octets in the buffer. -/
structure Puts (x : Cp Unit) : Prop where
  runs : ∀ hp, hp.magic = .encoder → hp.Open → ∃ hp', x hp = .ok () hp'
  veils : ∀ hp₀, Keeps (fun _ => True) (Veiled hp₀) x
  sends : ∀ A, KeepsSending A x

/-- Whatever two such functions put. -/
theorem Puts.twins {x y : Cp Unit} (hx : Puts x) (hy : Puts y) : AgreeTwins A A' x y := by
  intro hp hp' h
  obtain ⟨hp₁, hrun⟩ := hx.runs hp h.left.magic h.left.opened
  obtain ⟨hp₁', hrun'⟩ := hy.runs hp' h.right.magic h.right.opened
  have hv := hx.veils hp hp (.refl hp)
  have hv' := hy.veils hp' hp' (.refl hp')
  have hs := hx.sends A hp h.left
  have hs' := hy.sends A' hp' h.right
  rw [hrun] at hv hs ⊢
  rw [hrun'] at hv' hs' ⊢
  exact .ok () ⟨(hv.symm.trans h.veiled).trans hv', hs, hs'⟩

theorem veiled_hpeSend (hp₀ : Hpack) : Keeps (fun _ => True) (Veiled hp₀) hpeSend := by
  refine .bind .get fun hp => .when fun _ => .bind (fun hp₁ h => ?_) fun _ => .modify fun hp₁ h => ?_
  · rw [hpcNotify]
    split
    · split
      · exact h
      · trivial
    · refine h.trans ⟨_, hp₁.ctx.cur, rfl, ?_⟩
      simp [notData, Event.isData]
  · exact h.trans ⟨hp₁.ctx.log, [], rfl, rfl⟩

theorem veiled_put {hp₀ : Hpack} {f : Hpack → Octets} :
    Keeps (fun _ => True) (Veiled hp₀) (modify fun hp => { hp with ctx.cur := f hp }) :=
  .modify fun hp h => h.trans ⟨hp.ctx.log, f hp, rfl, rfl⟩

theorem veiled_hpeFlush (hp₀ : Hpack) : Keeps (fun _ => True) (Veiled hp₀) hpeFlush :=
  .bind .get fun _ => .when fun _ => veiled_hpeSend hp₀

theorem veiled_hpePuts (hp₀ : Hpack) (bs : Octets) :
    Keeps (fun _ => True) (Veiled hp₀) (hpePuts bs) := by
  induction bs with
  | nil => exact .pure ()
  | cons b bs ih =>
    refine .bind (.bind .get fun hp => .bind (.assert _ trivial) fun _ => ?_) fun _ => ih
    exact .bind veiled_put fun _ => veiled_hpeFlush hp₀

theorem veiled_hpeBcatLoop (hp₀ : Hpack) (buf : Octets) (fuel len : ℕ) :
    Keeps (fun _ => True) (Veiled hp₀) (hpeBcatLoop buf fuel len) := by
  induction fuel generalizing len with
  | zero =>
    cases len with
    | zero => exact .pure ()
    | succ len => exact .halt trivial
  | succ fuel ih =>
    cases len with
    | zero => exact .pure ()
    | succ len =>
      refine .bind .get fun hp => .bind (.assert _ trivial) fun _ => .bind veiled_put fun _ => ?_
      exact .bind (veiled_hpeFlush hp₀) fun _ => ih _

theorem puts_hpiEncode (p : Hpp) (val : ℕ) : Puts (hpiEncode p val) where
  runs hp hm ho := by
    obtain ⟨hp', hrun, -⟩ := (emits_hpiEncode p val).run hm ho
    exact ⟨hp', hrun⟩
  veils hp₀ := .bind .get fun _ => .bind (.assert _ trivial) fun _ => veiled_hpePuts hp₀ _
  sends _ := (emits_hpiEncode p val).sending

theorem puts_putString (huf : Bool) (str : Octets) : Puts (putString huf str) where
  runs hp hm ho := by
    have h := putString_sends huf str hm
    cases hrun : putString huf str hp with
    | ok _ hp' => exact ⟨hp', rfl⟩
    | err _ =>
      rw [hrun] at h
      exact h.elim
    | stop _ =>
      rw [hrun] at h
      exact absurd ho h
  veils hp₀ := by
    refine .ite (fun _ => .bind ((puts_hpiEncode _ _).veils hp₀) fun _ => veiled_hpePuts hp₀ _) ?_
    exact fun _ => .bind ((puts_hpiEncode _ _).veils hp₀) fun _ => veiled_hpeBcatLoop hp₀ _ _ _
  sends _ := sending_putString huf str

theorem twins_hpiEncode (p : Hpp) (val : ℕ) :
    AgreeTwins A A' (hpiEncode p val) (hpiEncode p val) :=
  (puts_hpiEncode p val).twins (puts_hpiEncode p val)

/-! ### Fields -/

/-- A value that passes the checks of `hpack_encode_string`. -/
def CStr.Valid (s : CStr) : Prop :=
  s.bytes.length ≤ uint16Max ∧ s.bytes.all isValueChar = true

/-- The same field, but for the value of one that is never indexed. -/
inductive Field.Twin : Field → Field → Prop
  | same (fld : Field) : Twin fld fld
  | value {fld : Field} (v v' : CStr) (hnvr : fld.typNvr = true) (hval : fld.val = some v)
      (hv : v.Valid) (hv' : v'.Valid) : Twin fld { fld with val := some v' }

theorem isFieldValue_of_valid {s : CStr} (h : s.Valid) : s.bytes.all isFieldValue = true := by
  refine List.all_eq_true.2 fun b hb => ?_
  have hchr : ∀ b, isValueChar b = true → isFieldValue b = true :=
    Octets.forall_octet (p := fun b => isValueChar b = true → isFieldValue b = true)
      (by decide +kernel)
  exact hchr b (List.all_eq_true.1 h.2 b hb)

theorem twins_userStr (s : Option CStr) : AgreeTwins A A' (userStr s) (userStr s) := by
  cases s with
  | some s => exact .pure _
  | none => exact .halt .fault

theorem twins_expect (r : Res) (c : Prop) [Decidable c] :
    AgreeTwins A A' (expect r c) (expect r c) :=
  twins_unaware (fun _ _ => unaware_expect r c) fun _ => sending_expect r c

theorem twins_hpackEncodeString (fld : Field) (evt : StrEvt) :
    AgreeTwins A A' (hpackEncodeString fld evt) (hpackEncodeString fld evt) := by
  refine .bind (.when fun _ => .assert _) fun _ => .bind (twins_userStr _) fun str => ?_
  refine .bind (twins_expect _ _) fun _ => .bind (.ite (fun _ => ?_) fun _ => ?_) fun _ => ?_
  · refine twins_unaware (fun _ _ => ?_) fun _ => sending_hpvToken _ _
    exact unaware_hpvToken _ (Or.inl fun _ => Ptr.noConfusion)
  · refine twins_unaware (fun _ _ => ?_) fun _ => sending_hpvValue _ _
    exact unaware_hpvValue _ (Or.inl fun _ => Ptr.noConfusion)
  · exact (puts_putString _ _).twins (puts_putString _ _)

/-- The value is only looked at to be sent. -/
theorem twins_value (h : fld.Twin fld') :
    AgreeTwins A A' (hpackEncodeString fld .value) (hpackEncodeString fld' .value) := by
  cases h with
  | same => exact twins_hpackEncodeString fld .value
  | value v v' hnvr hval hv hv' =>
    intro hp hp' ht
    rw [hpackEncodeString_value hval hv.1 hv.2 (isFieldValue_of_valid hv),
      @hpackEncodeString_value hp' { fld with val := some v' } v' rfl hv'.1 hv'.2
        (isFieldValue_of_valid hv')]
    exact (puts_putString _ _).twins (puts_putString _ _) hp hp' ht

theorem twins_hpackEncodeField (h : fld.Twin fld') (p : Hpp) :
    AgreeTwins A A' (hpackEncodeField fld p) (hpackEncodeField fld' p) := by
  have hname : hpackEncodeString fld' .name = hpackEncodeString fld .name := by
    cases h <;> rfl
  have hval := fun A A' => @twins_value A A' _ _ h
  cases h with
  | same =>
    refine twins_get_bind (fun _ _ _ => rfl) fun hp => .bind (.when fun _ => twins_expect _ _) ?_
    refine fun _ => .bind (twins_hpiEncode _ _) fun _ => .bind (.when fun _ => ?_) fun _ => hval _ _
    exact twins_hpackEncodeString fld .name
  | value v v' hnvr hv =>
    refine twins_get_bind (fun _ _ _ => rfl) fun hp => .bind (.when fun _ => twins_expect _ _) ?_
    refine fun _ => .bind (twins_hpiEncode _ _) fun _ => .bind (.when fun _ => ?_) fun _ => hval _ _
    rw [hname]
    exact twins_hpackEncodeString fld .name

theorem twins_hpackEncodeIndexed (fld : Field) :
    AgreeTwins A A' (hpackEncodeIndexed fld) (hpackEncodeIndexed fld) :=
  twins_get_bind (fun _ _ _ => rfl) fun _ => .bind (twins_expect _ _) fun _ => twins_hpiEncode _ _

theorem twins_hpackEncodeDynamic (fld : Field) :
    AgreeTwins A A' (hpackEncodeDynamic fld) (hpackEncodeDynamic fld) := by
  refine .bind (twins_hpackEncodeField (.same fld) .dyn) fun _ => ?_
  refine .bind (.ite (fun _ => ?_) fun _ => ?_) fun _ => .bind (twins_userStr _) fun val => ?_
  · refine .bind (.attempt (twins_unaware (fun _ _ => unaware_hptField _) fun _ => ?_)) fun hf => ?_
    · exact sending_hptField _
    · refine twins_get_bind (fun _ _ _ => rfl) fun hp => .bind (.assert _) fun _ => ?_
      cases hf with
      | none => exact .halt .fault
      | some hf => exact twins_modify (fun _ _ _ => rfl) fun _ => ⟨rfl, rfl, rfl, rfl, rfl⟩
  · refine .bind (twins_userStr _) fun nam => ?_
    exact twins_modify (fun _ _ _ => rfl) fun _ => ⟨rfl, rfl, rfl, rfl, rfl⟩
  · refine .bind (twins_modify (fun _ _ _ => rfl) fun _ => ⟨rfl, rfl, rfl, rfl, rfl⟩) fun _ => ?_
    refine twins_unaware (fun _ _ => unaware_hptIndex ?_ (Or.inl ?_)) fun _ => sending_hptIndex
    · rintro a _ ⟨cur, rfl⟩
      rfl
    · rintro a _ ⟨cur, rfl⟩
      rfl

/-- Such fields have the same types. -/
theorem hpackEncodeAny_twin (h : fld.Twin fld') :
    hpackEncodeAny fld = none ↔ hpackEncodeAny fld' = none := by
  cases h with
  | same => exact Iff.rfl
  | value v v' hnvr =>
    obtain ⟨i, d, l, n, _⟩ := fld
    obtain rfl : n = true := hnvr
    cases i <;> cases d <;> cases l <;> simp [hpackEncodeAny]

/-- The same representation is chosen for both fields. -/
theorem twins_hpackEncodeAny (h : fld.Twin fld') {enc : Cp Unit}
    (henc : hpackEncodeAny fld = some enc) :
    ∃ enc', hpackEncodeAny fld' = some enc' ∧ ∀ A A', AgreeTwins A A' enc enc' := by
  have hfield := fun p A A' => @twins_hpackEncodeField A A' _ _ h p
  cases h with
  | same =>
    refine ⟨enc, henc, fun A A' => ?_⟩
    unfold hpackEncodeAny at henc
    split at henc
    · exact Option.some.inj henc ▸ twins_hpackEncodeIndexed fld
    · exact Option.some.inj henc ▸ twins_hpackEncodeDynamic fld
    · exact Option.some.inj henc ▸ hfield .nvr A A'
    · exact Option.some.inj henc ▸ hfield .lit A A'
    · cases henc
  | value v v' hnvr hval hv hv' =>
    have hiff := hpackEncodeAny_twin (.value v v' hnvr hval hv hv')
    rcases hpackEncodeAny_nvr hnvr with ⟨hany, -⟩ | hany
    · obtain rfl : hpackEncodeField fld .nvr = enc := Option.some.inj (hany.symm.trans henc)
      rcases @hpackEncodeAny_nvr { fld with val := some v' } hnvr with ⟨hany', -⟩ | hany'
      · exact ⟨_, hany', fun A A' => hfield .nvr A A'⟩
      · exact absurd (hiff.2 hany') (by simp [hany])
    · rw [hany] at henc
      cases henc

/-! ### Automatic indexing -/

theorem reads_hpackAutoIndex (fld : Field) : Reads (hpackAutoIndex fld) := by
  refine .ite (.pure _) (.bind (reads_hpackSearch _ _) fun r => ?_)
  obtain ⟨res, idx⟩ := r
  dsimp only
  split
  · exact .pure _
  · exact .pure _
  · exact .bind (.assert _) fun _ => .pure _
  · exact .pure _
  · exact .halt .abort

/-- A function that changes nothing, on two encoders. -/
theorem Veiled.both_of_reads {x : Cp α} (h : Veiled hp hp')
    (hx : ∀ L L', Unaware SameRest L L' x) (hr : Reads x) :
    (x hp).Both (fun a b s s' => a = b ∧ s = hp ∧ s' = hp') (fun _ _ => False) (x hp') :=
  ((hx _ _ hp hp' h.alike).both.and (hr hp) (hr hp')).mono
    (fun _ _ _ _ h => ⟨h.1.1, h.2.1, h.2.2⟩) fun _ _ h => h.2.1

/-- The value of a field that is never indexed is not looked up. -/
theorem twins_hpackAutoIndex (h : fld.Twin fld') (hv : Veiled hp hp') :
    (hpackAutoIndex fld hp).Both
      (fun r r' s s' => (r.1.Twin r'.1 ∧ r.2 = r'.2) ∧ s = hp ∧ s' = hp') (fun _ _ => False)
      (hpackAutoIndex fld' hp') := by
  cases h with
  | same =>
    refine (hv.both_of_reads (fun _ _ => unaware_hpackAutoIndex fld)
      (reads_hpackAutoIndex fld)).mono ?_ fun _ _ h => h
    rintro r _ s s' ⟨rfl, h⟩
    exact ⟨⟨.same _, rfl⟩, h⟩
  | value v v' hnvr hval hvalid hvalid' =>
    rw [hpackAutoIndex, hpackAutoIndex, ite_run, ite_run]
    dsimp only
    by_cases htyp : fld.typIdx = true ∨ fld.namIdxF = true
    · rw [if_pos htyp, if_pos htyp]
      exact .ok ⟨⟨.value v v' hnvr hval hvalid hvalid', rfl⟩, rfl, rfl⟩
    rw [if_neg htyp, if_neg htyp, if_pos hnvr, if_pos hnvr, bind_apply, bind_apply]
    refine (hv.both_of_reads (fun _ _ => unaware_hpackSearch _ _)
      (reads_hpackSearch _ _)).bind ?_
    rintro ⟨res, idx⟩ _ s s' ⟨rfl, rfl, rfl⟩
    -- the other fields are rewritten alike
    have htwin : ∀ f : Field, f.typNvr = true → f.val = some v →
        f.Twin { f with val := some v' } := fun f hf hfv => .value v v' hf hfv hvalid hvalid'
    dsimp only
    split
    · exact .ok ⟨⟨htwin _ hnvr hval, rfl⟩, rfl, rfl⟩
    · exact .ok ⟨⟨htwin _ hnvr hval, rfl⟩, rfl, rfl⟩
    · rw [assert_bind_neg (by simp [hnvr]), assert_bind_neg (by simp [hnvr])]
      exact .stop .abort
    · exact .ok ⟨⟨htwin _ hnvr hval, rfl⟩, rfl, rfl⟩
    · exact .stop .abort

/-! ### Blocks -/

/-- How the turns of two such fields end, when they return. -/
structure TurnTwins (A A' : Octets) (r r' : Field × Option Res) (hp hp' : Hpack) : Prop where
  twin : r.1.Twin r'.1
  result : r.2 = r'.2
  paired : Paired hp hp'
  busy : r.2 = none → Twins A A' hp hp'

theorem twins_hpackEncodeRest (h : fld.Twin fld') (ht : Twins A A' hp hp') :
    (hpackEncodeRest fld hp).Both (TurnTwins A A') Paired (hpackEncodeRest fld' hp') := by
  have hnot : AgreeTwins A A' (hpcNotify (.field none 0)) (hpcNotify (.field none 0)) :=
    twins_unaware (fun _ _ => unaware_hpcNotify _) fun _ => sending_hpcNotify rfl
  rw [hpackEncodeRest, hpackEncodeRest, bind_apply, bind_apply]
  refine ((hnot hp hp' ht).both.mono (fun _ _ _ _ h => h) fun _ _ h => h.paired).bind ?_
  rintro _ _ hp₁ hp₁' ⟨-, ht₁⟩
  -- a field that is not of one type, or that fails, makes the encoder defunct
  have hdefunct : ∀ {hp hp' : Hpack} (r : Option Res), Paired hp hp' → r ≠ none →
      TurnTwins A A' (fld, r) (fld', r) { hp with magic := .defunct }
        { hp' with magic := .defunct } := by
    intro hp hp' r hpair hr
    refine ⟨h, rfl, ⟨?_, hpair.fits⟩, fun h => (hr h).elim⟩
    obtain ⟨log, cur, rfl, hn⟩ := hpair.veiled
    exact ⟨log, cur, rfl, hn⟩
  cases henc : hpackEncodeAny fld with
  | none =>
    rw [(hpackEncodeAny_twin h).1 henc]
    exact .ok (hdefunct _ ht₁.paired (Option.some_ne_none _))
  | some enc =>
    obtain ⟨enc', henc', hagree⟩ := twins_hpackEncodeAny h henc
    rw [henc']
    dsimp only
    rw [bind_apply, bind_apply]
    have hatt : AgreeTwins A A' (attempt enc) (attempt enc') := .attempt (hagree A A')
    refine ((hatt hp₁ hp₁' ht₁).both.mono (fun _ _ _ _ h => h) fun _ _ h => h.paired).bind ?_
    rintro r _ hp₂ hp₂' ⟨rfl, ht₂⟩
    cases r with
    | some _ => exact .ok ⟨h, rfl, ht₂.paired, fun _ => ht₂⟩
    | none =>
      have hres : hp₂'.ctx.res = hp₂.ctx.res := by
        obtain ⟨log, cur, rfl, -⟩ := ht₂.veiled
        rfl
      dsimp only
      rw [bind_apply, bind_apply, get_apply, get_apply, Out.bind_ok, Out.bind_ok, hres]
      by_cases hok : hp₂.ctx.res ≠ .ok
      swap
      · rw [assert_bind_neg hok, assert_bind_neg hok]
        exact .stop .abort
      by_cases hblk : hp₂.ctx.res ≠ .blk
      swap
      · rw [assert_bind_pos hok, assert_bind_pos hok, assert_bind_neg hblk, assert_bind_neg hblk]
        exact .stop .abort
      rw [assert_bind_pos hok, assert_bind_pos hok, assert_bind_pos hblk, assert_bind_pos hblk]
      exact .ok (hdefunct _ ht₂.paired (Option.some_ne_none _))

theorem twins_hpackEncodeTurn (h : fld.Twin fld') (ht : Twins A A' hp hp') :
    (hpackEncodeTurn fld hp).Both (TurnTwins A A') Paired (hpackEncodeTurn fld' hp') := by
  have haut : fld'.autIdx = fld.autIdx := by cases h <;> rfl
  have hindex : ((if fld.autIdx then hpackAutoIndex fld else pure (fld, false)) hp).Both
      (fun r r' s s' => (r.1.Twin r'.1 ∧ r.2 = r'.2) ∧ s = hp ∧ s' = hp') (fun _ _ => False)
      ((if fld'.autIdx then hpackAutoIndex fld' else pure (fld', false)) hp') := by
    rw [haut, ite_run, ite_run]
    split
    · exact twins_hpackAutoIndex h ht.veiled
    · exact .ok ⟨⟨h, rfl⟩, rfl, rfl⟩
  rw [hpackEncodeTurn_eq, hpackEncodeTurn_eq, bind_apply, bind_apply]
  refine (hindex.mono (fun _ _ _ _ h => h) fun _ _ h => h.elim).bind ?_
  rintro ⟨f, arg⟩ ⟨f', _⟩ s s' ⟨⟨htwin, rfl⟩, rfl, rfl⟩
  dsimp only
  rw [ite_run, ite_run]
  split
  · exact .ok ⟨htwin, rfl, ht.paired, fun h => (Option.some_ne_none _ h).elim⟩
  · exact twins_hpackEncodeRest htwin ht

/-- How the loops over two lists of such fields end, when they return. -/
structure LoopTwins (r r' : List Field × Option Res) (hp hp' : Hpack) : Prop where
  twin : List.Forall₂ Field.Twin r.1 r'.1
  result : r.2 = r'.2
  paired : Paired hp hp'
  busy : r.2 = none → Twins [] [] hp hp'

theorem twins_hpackEncodeLoop {flds flds' : List Field} (h : List.Forall₂ Field.Twin flds flds')
    (ht : Twins [] [] hp hp') :
    (hpackEncodeLoop flds hp).Both LoopTwins Paired (hpackEncodeLoop flds' hp') := by
  induction h generalizing hp hp' with
  | nil => exact .ok ⟨.nil, rfl, ht.paired, fun _ => ht⟩
  | @cons fld fld' flds flds' hfld hflds ih =>
    rw [hpackEncodeLoop, hpackEncodeLoop, bind_apply, bind_apply]
    refine (twins_hpackEncodeTurn hfld ht).bind ?_
    rintro ⟨f, r⟩ ⟨f', _⟩ hp₁ hp₁' ⟨htwin, rfl, hpair, hbusy⟩
    cases r with
    | some r => exact .ok ⟨.cons htwin hflds, rfl, hpair, fun h => (Option.some_ne_none _ h).elim⟩
    | none =>
      dsimp only
      rw [bind_apply, bind_apply]
      refine (ih (hbusy rfl)).bind ?_
      rintro ⟨fs, r⟩ ⟨fs', _⟩ hp₂ hp₂' ⟨hfs, rfl, hpair, hbusy⟩
      exact .ok ⟨.cons htwin hfs, rfl, hpair, hbusy⟩

/-! ### Size updates -/

theorem twins_hpackEncodeUpdated : AgreeTwins A A' hpackEncodeUpdated hpackEncodeUpdated := by
  refine twins_get_bind (fun _ _ _ => rfl) fun hp => .ite (fun _ => ?_) fun _ => .when fun _ => ?_
  · refine .bind (.assert _) fun _ => ?_
    exact twins_modify (fun _ _ _ => rfl) fun _ => ⟨rfl, rfl, rfl, rfl, rfl⟩
  · refine .bind (.assert _) fun _ => ?_
    exact twins_modify (fun _ _ _ => rfl) fun _ => ⟨rfl, rfl, rfl, rfl, rfl⟩

theorem twins_hpackEncodeUpdate (lim : ℤ) :
    AgreeTwins A A' (hpackEncodeUpdate lim) (hpackEncodeUpdate lim) := by
  refine twins_get_bind (fun _ _ _ => rfl) fun hp => .bind (.assert _) fun _ => ?_
  refine .bind (.assert _) fun _ => .bind (.assert _) fun _ => .bind ?_ fun lim => ?_
  · exact twins_unaware (fun _ _ => unaware_hpackEncodeSettle _) fun _ => sending_hpackEncodeSettle _
  refine .bind (.assert _) fun _ => twins_get_bind (fun _ _ _ => rfl) fun hp => .bind ?_ fun _ => ?_
  · exact twins_unaware (fun _ _ => unaware_hpackAdjust _) fun _ => sending_hpackAdjust _
  refine .bind (twins_hpiEncode _ _) fun _ => .bind ?_ fun _ => ?_
  · exact twins_unaware (fun _ _ => unaware_hpcNotify _) fun _ => sending_hpcNotify rfl
  refine .bind twins_hpackEncodeUpdated fun _ => twins_get_bind (fun _ _ _ => rfl) fun hp => ?_
  exact .assert _

theorem twins_hpackEncodeResize : AgreeTwins A A' hpackEncodeResize hpackEncodeResize := by
  refine twins_get_bind (fun _ _ _ => rfl) fun hp => .when fun _ => .bind (.assert _) fun _ => ?_
  refine .bind (twins_hpackEncodeUpdate _) fun _ => twins_get_bind (fun _ _ _ => rfl) fun hp => ?_
  refine .bind (.assert _) fun _ => .bind (.when fun _ => twins_hpackEncodeUpdate _) fun _ => ?_
  exact twins_get_bind (fun _ _ _ => rfl) fun hp => .assert _

theorem twins_hpackEncodeLimit : AgreeTwins A A' hpackEncodeLimit hpackEncodeLimit := by
  refine twins_get_bind (fun _ _ _ => rfl) fun hp => .when fun _ => .bind (.assert _) fun _ => ?_
  refine .when fun _ => .bind (twins_hpackEncodeUpdate _) fun _ => ?_
  exact twins_modify (fun _ _ _ => rfl) fun _ => ⟨rfl, rfl, rfl, rfl, rfl⟩

theorem veiled_hpackEncodeBegin (enc : Encoding) :
    Respects Veiled (fun _ => False) (hpackEncodeBegin enc) := by
  refine Agree.get_bind fun hp hp' hv => ?_
  obtain ⟨log, cur, rfl, hn⟩ := hv
  refine Agree.bind (.assert _) (fun _ => .bind (.when fun _ => .bind (.assert _) fun _ => ?_)
    fun _ => ?_) hp _ ⟨log, cur, rfl, hn⟩
  · refine .modify ?_
    rintro hp _ ⟨log, cur, rfl, hn⟩
    exact ⟨log, cur, rfl, hn⟩
  · refine .modify ?_
    rintro hp _ ⟨log, cur, rfl, hn⟩
    exact ⟨log, [], rfl, hn⟩

theorem twins_hpackEncodeBegin {enc : Encoding} (h : Paired hp hp') (hm : hp.magic = .encoder)
    (hlen : 0 < enc.bufLen) :
    (hpackEncodeBegin enc hp).Rel (Twins [] []) (fun _ => False) (hpackEncodeBegin enc hp') := by
  have hs := hpackEncodeBegin_sending hm h.fits hlen
  have hs' := hpackEncodeBegin_sending (h.magic_eq.trans hm) h.fits' hlen
  refine ((veiled_hpackEncodeBegin enc hp hp' h.veiled).keep
    (hs.mono (fun _ _ h => h) (fun _ h => h.elim) fun _ h => h)
    (hs'.mono (fun _ _ h => h) (fun _ h => h.elim) fun _ h => h)).mono ?_ fun _ h => h
  rintro s s' ⟨hv, hl, hr⟩
  exact ⟨hv, hl, hr⟩

theorem twins_hpackEncodeStart {enc : Encoding} (h : Paired hp hp') (hm : hp.magic = .encoder)
    (hlen : 0 < enc.bufLen) :
    (hpackEncodeStart enc hp).Rel (Twins [] []) (fun _ => False) (hpackEncodeStart enc hp') := by
  have hrest : AgreeTwins [] [] (do
      hpackEncodeResize
      hpackEncodeLimit
      modify fun hp => { hp with ctx.canUpd := false }) _ :=
    .bind twins_hpackEncodeResize fun _ => .bind twins_hpackEncodeLimit fun _ =>
      twins_modify (fun _ _ _ => rfl) fun _ => ⟨rfl, rfl, rfl, rfl, rfl⟩
  rw [hpackEncodeStart, bind_apply, bind_apply]
  exact (twins_hpackEncodeBegin h hm hlen).bind fun _ hp hp' ht => hrest hp hp' ht

/-! ### Calls -/

/-- The same block, but for values that are never indexed. -/
structure Encoding.Twin (enc enc' : Encoding) : Prop where
  fld : List.Forall₂ Field.Twin enc.fld enc'.fld
  same : enc' = { enc with fld := enc'.fld }

/-- The same call, but for values that are never indexed. -/
inductive EncOp.Twin : EncOp → EncOp → Prop
  | same (op : EncOp) : Twin op op
  | encode {enc enc' : Encoding} (h : enc.Twin enc') : Twin (.encode enc) (.encode enc')

theorem Field.Twin.list (flds : List Field) : List.Forall₂ Field.Twin flds flds :=
  List.forall₂_same.2 fun fld _ => .same fld

/-- Two blocks are encoded the same way. -/
theorem twins_hpackEncode {enc enc' : Encoding} (he : enc.Twin enc') (h : Paired hp hp') :
    (hpackEncode enc hp).Both (fun r r' s s' => r.1 = r'.1 ∧ List.Forall₂ Field.Twin r.2 r'.2 ∧
      Paired s s') Paired (hpackEncode enc' hp') := by
  obtain ⟨hfld, hsame⟩ := he
  generalize enc'.fld = flds at hfld hsame
  subst hsame
  by_cases hbad : hp.magic ≠ .encoder ∨ enc.fld = [] ∨ enc.buf = 0 ∨ enc.bufLen = 0 ∨ enc.cb = false
  · have hbad' : hp'.magic ≠ .encoder ∨ flds = [] ∨ enc.buf = 0 ∨ enc.bufLen = 0 ∨
        enc.cb = false := by
      rw [h.magic_eq]
      refine hbad.imp_right fun hb => hb.imp_left fun hnil => ?_
      rw [hnil] at hfld
      exact List.forall₂_nil_left_iff.1 hfld
    rw [hpackEncode, hpackEncode, bind_apply, bind_apply, get_apply, get_apply, Out.bind_ok,
      Out.bind_ok, ite_run, ite_run, if_pos hbad, if_pos hbad']
    exact .ok ⟨rfl, hfld, h⟩
  · obtain ⟨hm, hv⟩ : hp.magic = .encoder ∧ enc.Valid := by
      simpa [Encoding.Valid, not_or] using hbad
    have hv' : Encoding.Valid { enc with fld := flds } := by
      refine ⟨fun hnil => hv.1 ?_, hv.2⟩
      rw [show flds = [] from hnil] at hfld
      exact List.forall₂_nil_right_iff.1 hfld
    have hlen : 0 < enc.bufLen := Nat.pos_of_ne_zero hv.2.2.1
    rw [hpackEncode_eq hm hv, hpackEncode_eq (h.magic_eq.trans hm) hv', bind_apply, bind_apply]
    refine ((twins_hpackEncodeStart h hm hlen).both.mono (fun _ _ _ _ h => h)
      fun _ _ h => h.paired).bind ?_
    rintro _ _ hp₁ hp₁' ⟨-, ht₁⟩
    rw [bind_apply, bind_apply]
    refine (twins_hpackEncodeLoop hfld ht₁).bind ?_
    rintro ⟨fs, r⟩ ⟨fs', _⟩ hp₂ hp₂' ⟨htwin, rfl, hpair, -⟩
    rw [hpackEncodeFinish, hpackEncodeFinish]
    cases r with
    | some r => exact .ok ⟨rfl, htwin, hpair⟩
    | none =>
      dsimp only
      rw [bind_apply, bind_apply]
      have hv₂ := hpair.veiled
      -- what is left in the buffers is sent
      have hveil : ∀ hp : Hpack, Veiled hp hp.flushed := by
        intro hp
        rw [Hpack.flushed]
        split
        · exact .refl hp
        · exact ⟨_, [], rfl, by simp [notData, Event.isData]⟩
      have hfits : hp₂.flushed.ctx.tooBig = false := by
        rw [Hpack.flushed]
        split <;> exact hpair.fits
      rw [hpeSend_run hpair.fits, hpeSend_run hpair.fits', Out.bind_ok, Out.bind_ok, bind_apply,
        bind_apply, get_apply, get_apply, Out.bind_ok, Out.bind_ok]
      have hv₃ : Veiled hp₂.flushed hp₂'.flushed := ((hveil hp₂).symm.trans hv₂).trans (hveil hp₂')
      generalize hp₂.flushed = hp₃ at hv₃ hfits
      generalize hp₂'.flushed = hp₃' at hv₃
      obtain ⟨log, cur, rfl, hn⟩ := hv₃
      by_cases hblk : hp₃.ctx.res = .blk
      · rw [assert_bind_pos hblk, @assert_bind_pos _ _ ((hp₃.resend log cur).ctx.res = .blk) _ hblk]
        exact .ok ⟨rfl, htwin, ⟨log, cur, rfl, hn⟩, hfits⟩
      · rw [assert_bind_neg hblk, @assert_bind_neg _ _ ((hp₃.resend log cur).ctx.res = .blk) _ hblk]
        exact .stop .abort

theorem paired_get_bind {f : Hpack → Cp β} (hf : ∀ hp log cur, f (hp.resend log cur) = f hp)
    (h : ∀ hp, Respects Paired (fun _ => False) (f hp)) :
    Respects Paired (fun _ => False) (get >>= f) := by
  refine Agree.get_bind fun hp hp' hr => ?_
  obtain ⟨log, cur, rfl, -⟩ := hr.veiled
  rw [hf hp log cur]
  exact h hp _ _ hr

theorem paired_hpcNotifyAll (es : List Event) :
    Respects Paired (fun _ => False) (hpcNotifyAll es) := by
  refine paired_unaware (fun _ _ => unaware_hpcNotifyAll es) ?_
  induction es with
  | nil => exact .pure ()
  | cons e es ih =>
    refine .bind (fun hp h => ?_) fun _ => ih
    rw [hpcNotify, if_neg (by rw [h]; exact Bool.false_ne_true)]
    exact h

theorem paired_hpackForeach (static dynamic : Bool) :
    Respects Paired (fun _ => False) (hpackForeach static dynamic) := by
  refine paired_get_bind (fun _ _ _ => rfl) fun hp => .ite (fun _ => .pure _) fun _ => ?_
  refine .bind (.modify ?_) fun _ => .bind (.when fun _ => paired_hpcNotifyAll _) fun _ => ?_
  · rintro hp _ ⟨⟨log, cur, rfl, hn⟩, -⟩
    exact ⟨⟨log, [], rfl, hn⟩, rfl⟩
  refine .bind (.when fun _ => .bind ?_ fun _ => paired_hpcNotifyAll _) fun _ => .pure _
  refine paired_unaware (fun _ _ => unaware_onTable _) ?_
  exact (reads_onTable reads_hptForeach).keeps fun _ => trivial

theorem memFree_fits : MemFree fun hp => hp.ctx.tooBig = false := fun _ _ _ _ _ _ h => h

/-- Every call does the same for both sessions. -/
theorem paired_exec {op op' : EncOp} (hop : op.Twin op') (h : Paired hp hp') :
    (op.exec hp).Both (fun r r' s s' => r = r' ∧ Paired s s') Paired (op'.exec hp') := by
  have hencode : ∀ {enc enc' : Encoding}, enc.Twin enc' →
      ((EncOp.encode enc).exec hp).Both (fun r r' s s' => r = r' ∧ Paired s s') Paired
        ((EncOp.encode enc').exec hp') := by
    intro enc enc' he
    refine (twins_hpackEncode he h).bind ?_
    rintro r r' s s' ⟨hr, -, hpair⟩
    exact .ok ⟨hr, hpair⟩
  cases hop with
  | encode he => exact hencode he
  | same =>
    cases op with
    | limit len re =>
      exact (paired_unaware (fun _ _ => unaware_hpackLimit len re)
        (memFree_fits.hpackLimit len re) hp hp' h).both
    | resize len re =>
      exact (paired_unaware (fun _ _ => unaware_hpackResize len re)
        (memFree_fits.hpackResize len re) hp hp' h).both
    | trim re =>
      exact (paired_unaware (fun _ _ => unaware_hpackTrim re)
        (memFree_fits.hpackTrim re) hp hp' h).both
    | encode enc => exact hencode ⟨Field.Twin.list _, rfl⟩
    | «foreach» static dynamic => exact (paired_hpackForeach static dynamic hp hp' h).both

/-- The encoders of two sessions that make the same calls, up to values that are never indexed. -/
inductive Sessions : Hpack → Hpack → Prop
  | new {max : ℕ} {lim : ℤ} {hp : Hpack} (h : NewEncoder max lim hp) : Sessions hp hp
  | call {hp hp' hp₁ hp₁' : Hpack} {op op' : EncOp} {r r' : Res} (before : Sessions hp hp')
      (same : op.Twin op') (run : op.exec hp = .ok r hp₁) (run' : op'.exec hp' = .ok r' hp₁') :
      Sessions hp₁ hp₁'

theorem Sessions.paired (h : Sessions hp hp') : Paired hp hp' := by
  induction h with
  | new h =>
    obtain ⟨realloc, blk, -, -, rfl⟩ := h.init
    exact ⟨.refl _, rfl⟩
  | call _ hop hrun hrun' ih => exact ((paired_exec hop ih).of_ok hrun hrun').2

/-! ### Fields of a block -/

/-- What is the same when the turns of two such fields return. -/
structure TurnAlike (fld : Field) (hp hp' : Hpack) (r r' : Field × Option Res)
    (hp₁ hp₁' : Hpack) : Prop where
  /-- The fields are rewritten alike, with the same type and indices. -/
  twin : r.1.Twin r'.1
  result : r.2 = r'.2
  veiled : Veiled hp₁ hp₁'
  /-- The same pattern and index are sent. -/
  sent : ∃ o, Opened hp.sent o hp₁ ∧ Opened hp'.sent o hp₁' ∧
    (r.2 = none → o = r.1.head ∧ o ≠ none)
  /-- A field that is never indexed stays so, and nothing is inserted. -/
  never : fld.typNvr = true → (r.2 = none → ∃ n, r.1.head = some (.nvr, n)) ∧
    hp₁.toTable = hp.toTable ∧ hp₁'.toTable = hp'.toTable

/-- Nothing is inserted for a field that is never indexed. -/
theorem hpackEncodeRest_table (hnvr : fld.typNvr = true) (hp : Hpack) :
    (hpackEncodeRest fld hp).Holds (fun _ hp' => hp'.toTable = hp.toTable) (fun _ => True)
      fun _ => True := by
  have hnot : KeepsOutside (fun c => c.table = hp.toTable) (hpcNotify (.field none 0)) :=
    keeps_notify_outside _
  rw [hpackEncodeRest, bind_apply]
  refine ((hnot hp ⟨rfl, trivial⟩).mono (fun _ _ h => h) (fun _ _ => trivial)
    fun _ _ => trivial).bind fun _ hp₁ h₁ => ?_
  cases henc : hpackEncodeAny fld with
  | none => exact h₁.1
  | some enc =>
    have hkeep : KeepsOutside (fun c => c.table = hp.toTable) enc := by
      rcases hpackEncodeAny_nvr hnvr with ⟨hany, -⟩ | hany
      · exact Option.some.inj (hany.symm.trans henc) ▸ keeps_hpackEncodeField fld .nvr
      · exact absurd (hany.symm.trans henc) (Option.some_ne_none enc).symm
    dsimp only
    rw [bind_apply]
    refine ((Keeps.attempt hkeep hp₁ h₁).mono (fun _ _ h => h) (fun _ _ => trivial)
      fun _ _ => trivial).bind fun r hp₂ h₂ => ?_
    cases r with
    | some _ => exact h₂.1
    | none =>
      dsimp only
      rw [bind_apply, get_apply, Out.bind_ok]
      exact .assert_bind trivial fun _ => .assert_bind trivial fun _ => h₂.1

theorem opening_twin {f f' : Field} (h : f.Twin f') (hv : Veiled hp hp') :
    f'.opening hp' = f.opening hp := by
  obtain ⟨log, cur, rfl, -⟩ := hv
  cases h <;> rfl

/-- The type of a field that is never indexed is not rewritten. -/
theorem hpackAutoIndex_nvr (hnvr : fld.typNvr = true) (hp : Hpack) :
    (hpackAutoIndex fld hp).Holds (fun r _ => r.1.typNvr = true) (fun _ => True)
      fun _ => True := by
  rw [hpackAutoIndex, ite_run]
  split
  · exact hnvr
  dsimp only
  rw [bind_apply]
  refine (Out.Holds.any _).bind fun r _ _ => ?_
  obtain ⟨res, idx⟩ := r
  dsimp only
  split
  · exact hnvr
  · exact hnvr
  · refine .assert_bind trivial fun h => ?_
    rw [hnvr] at h
    cases h
  · exact hnvr
  · trivial

theorem twins_index (h : fld.Twin fld') (hv : Veiled hp hp') :
    ((if fld.autIdx then hpackAutoIndex fld else pure (fld, false)) hp).Both
      (fun r r' s s' => (r.1.Twin r'.1 ∧ r.2 = r'.2 ∧ (fld.typNvr = true → r.1.typNvr = true)) ∧
        s = hp ∧ s' = hp') (fun _ _ => False)
      ((if fld'.autIdx then hpackAutoIndex fld' else pure (fld', false)) hp') := by
  have haut : fld'.autIdx = fld.autIdx := by cases h <;> rfl
  rw [haut, ite_run, ite_run]
  split
  · have hnvr : (hpackAutoIndex fld hp).Holds
        (fun r _ => fld.typNvr = true → r.1.typNvr = true) (fun _ => True) fun _ => True := by
      by_cases hn : fld.typNvr = true
      · exact (hpackAutoIndex_nvr hn hp).mono (fun _ _ h _ => h) (fun _ h => h) fun _ h => h
      · exact (Out.Holds.any _).mono (fun _ _ _ h => absurd h hn) (fun _ h => h) fun _ h => h
    refine ((twins_hpackAutoIndex h hv).and hnvr (Out.Holds.any _)).mono ?_ fun _ _ h => h.1
    rintro r r' s s' ⟨⟨⟨htwin, hres⟩, hs⟩, hn, -⟩
    exact ⟨⟨htwin, hres, hn⟩, hs⟩
  · exact .ok ⟨⟨h, rfl, fun hn => hn⟩, rfl, rfl⟩

theorem head_never {f : Field} (hnvr : f.typNvr = true) (h : f.head ≠ none) :
    ∃ n, f.head = some (.nvr, n) := by
  rcases hpackEncodeAny_nvr hnvr with ⟨-, hhead⟩ | hany
  · exact ⟨_, hhead⟩
  · exact absurd (head_none hany) h

/-- **One field**: the turns of two such fields go the same way. -/
theorem hpackEncodeTurn_alike (h : fld.Twin fld') (ht : Twins A A' hp hp') :
    (hpackEncodeTurn fld hp).Both (TurnAlike fld hp hp') Veiled (hpackEncodeTurn fld' hp') := by
  rw [hpackEncodeTurn_eq, hpackEncodeTurn_eq, bind_apply, bind_apply]
  refine ((twins_index h ht.veiled).mono (fun _ _ _ _ h => h) fun _ _ h => h.elim).bind ?_
  rintro ⟨f, arg⟩ ⟨f', _⟩ s s' ⟨⟨htwin, rfl, hnvr⟩, rfl, rfl⟩
  dsimp only at htwin hnvr ⊢
  rw [ite_run, ite_run]
  split
  · -- nothing is sent
    refine .ok ⟨htwin, rfl, ht.veiled, ⟨none, rfl, rfl, fun h => ?_⟩, fun _ => ⟨fun h => ?_, rfl, rfl⟩⟩
    · exact (Option.some_ne_none _ h).elim
    · exact (Option.some_ne_none _ h).elim
  have hopen := hpackEncodeRest_opened f ht.left.magic ht.left.opened
  have hopen' := hpackEncodeRest_opened f' ht.right.magic ht.right.opened
  have htbl : ∀ {f : Field} (hp : Hpack), (fld.typNvr = true → f.typNvr = true) →
      (hpackEncodeRest f hp).Holds (fun _ hp' => fld.typNvr = true → hp'.toTable = hp.toTable)
        (fun _ => True) fun _ => True := by
    intro f hp hf
    by_cases hn : fld.typNvr = true
    · exact (hpackEncodeRest_table (hf hn) hp).mono (fun _ _ h _ => h) (fun _ h => h) fun _ h => h
    · exact (Out.Holds.any _).mono (fun _ _ _ h => absurd h hn) (fun _ h => h) fun _ h => h
  have hnvr' : fld.typNvr = true → f'.typNvr = true := by
    intro hn
    cases htwin with
    | same => exact hnvr hn
    | value => exact hnvr hn
  refine ((twins_hpackEncodeRest htwin ht).and (hopen.and (htbl s hnvr))
    (hopen'.and (htbl s' hnvr'))).mono ?_ fun _ _ h => h.1.veiled
  rintro ⟨f₁, r⟩ ⟨f₁', _⟩ s₁ s₁' ⟨⟨htwin₁, rfl, hpair, -⟩, ⟨⟨rfl, ho, hnone⟩, ht₁⟩, ⟨rfl, ho', -⟩, ht₁'⟩
  dsimp only at hnone htwin₁
  refine ⟨htwin₁, rfl, hpair.veiled, ⟨_, ho, ?_, fun h => ?_⟩, fun hn => ⟨fun h => ?_, ht₁ hn, ht₁' hn⟩⟩
  · rwa [opening_twin htwin ht.veiled] at ho'
  · obtain ⟨heq, hne⟩ := hnone h
    exact ⟨heq, heq ▸ hne⟩
  · exact head_never (hnvr hn) (hnone h).2

/-- How the fields of two such blocks are encoded, as far as they are. -/
def FieldsAlike (enc enc' : Encoding) (hp hp' : Hpack) : Prop :=
  ∀ i, (hpackEncodeTo enc i hp).Both (fun r r' s s' => r.2 = r'.2 ∧ Veiled s s') Veiled
      (hpackEncodeTo enc' i hp') ∧
    ∀ fs fs' hpᵢ hpᵢ', hpackEncodeTo enc i hp = .ok (fs, none) hpᵢ →
      hpackEncodeTo enc' i hp' = .ok (fs', none) hpᵢ' →
      ∀ fld fld', enc.fld[i]? = some fld → enc'.fld[i]? = some fld' →
        (hpackEncodeTurn fld hpᵢ).Both (TurnAlike fld hpᵢ hpᵢ') Veiled
          (hpackEncodeTurn fld' hpᵢ')

theorem fieldsAlike {enc enc' : Encoding} (he : enc.Twin enc') (h : Paired hp hp')
    (hm : hp.magic = .encoder) (hv : enc.Valid) : FieldsAlike enc enc' hp hp' := by
  obtain ⟨hfld, hsame⟩ := he
  generalize enc'.fld = flds at hfld hsame
  subst hsame
  intro i
  have hto : (hpackEncodeTo enc i hp).Both LoopTwins Paired
      (hpackEncodeTo { enc with fld := flds } i hp') := by
    rw [hpackEncodeTo, hpackEncodeTo, bind_apply, bind_apply]
    refine ((twins_hpackEncodeStart h hm (Nat.pos_of_ne_zero hv.2.2.1)).both.mono
      (fun _ _ _ _ h => h) fun _ _ h => h.paired).bind ?_
    rintro _ _ hp₁ hp₁' ⟨-, ht⟩
    exact twins_hpackEncodeLoop (List.forall₂_take i hfld) ht
  refine ⟨hto.mono (fun _ _ _ _ h => ⟨h.result, h.paired.veiled⟩) fun _ _ h => h.veiled, ?_⟩
  intro fs fs' hpᵢ hpᵢ' hrun hrun' fld fld' hget hget'
  have hloop := hto.of_ok hrun hrun'
  refine hpackEncodeTurn_alike ?_ (hloop.busy rfl)
  obtain ⟨hi, rfl⟩ := List.getElem?_eq_some_iff.1 hget
  obtain ⟨hi', rfl⟩ := List.getElem?_eq_some_iff.1 hget'
  exact hfld.get hi hi'

/-- **What is never indexed does not show**: two sessions that make the same calls on the same
fields, up to values that are never indexed, get the same results and have the same tables and
sizes after every call and every field, and their fields are sent with the same patterns and
indices; such values are sent as literals that are never indexed and nothing is inserted. -/
theorem never_indexed {op op' : EncOp} (h : Sessions hp hp') (hop : op.Twin op') :
    (op.exec hp).Both (fun r r' s s' => r = r' ∧ Veiled s s') Veiled (op'.exec hp') ∧
      ∀ enc enc', op = .encode enc → op' = .encode enc' → hp.magic = .encoder → enc.Valid →
        FieldsAlike enc enc' hp hp' := by
  refine ⟨(paired_exec hop h.paired).mono (fun _ _ _ _ h => ⟨h.1, h.2.veiled⟩)
    fun _ _ h => h.veiled, ?_⟩
  rintro enc enc' rfl rfl hm hv
  refine fieldsAlike ?_ h.paired hm hv
  cases hop with
  | same => exact ⟨Field.Twin.list _, rfl⟩
  | encode he => exact he

/-- The field `a` with a value of one octet, never to be indexed. -/
def secretField (v : CStr) : Field :=
  { dynField with typDyn := false, typNvr := true, autIdx := true, val := some v }

theorem never_indexed_octet :
    ((EncOp.encode (encodingOf [secretField ⟨[98], by decide⟩])).exec smallEncoder).Both
      (fun r r' s s' => r = r' ∧ Veiled s s') Veiled
      ((EncOp.encode (encodingOf [secretField ⟨[99], by decide⟩])).exec smallEncoder) := by
  have htwin : (secretField ⟨[98], by decide⟩).Twin (secretField ⟨[99], by decide⟩) :=
    .value ⟨[98], by decide⟩ ⟨[99], by decide⟩ rfl rfl ⟨by decide, by decide⟩ ⟨by decide, by decide⟩
  exact (never_indexed (.new smallEncoder_new) (.encode ⟨.cons htwin .nil, rfl⟩)).1

end Cashpack
