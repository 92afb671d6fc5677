import Cashpack.Encoder.Clean
import Cashpack.Encoder.Length

/-!
# What encoding a field sends

Nothing that was sent is taken back: whatever an encoder sent when a function is called is still
the beginning of what it sent when the function returns, or fails.  The representation of a field
starts with the octets of its pattern and of its index.

## Main results

* `hpackEncodeStart_sending`, `sending_hpackEncodeAny` : encoding only sends more.
* `hpackEncodeRest_opened` : what is sent for a field starts with its pattern and its index.
-/

namespace Cashpack

open Prog

variable {A : Octets} {α : Type} {hp hp' : Hpack} {bs : Octets}

/-- An encoder with an open buffer, that first sent these octets. -/
structure Sending (A : Octets) (hp : Hpack) : Prop where
  magic : hp.magic = .encoder
  opened : hp.Open
  sent : A <+: hp.sent

/-- A function that only sends more. -/
abbrev KeepsSending (A : Octets) (x : Cp α) : Prop := Keeps (fun _ => True) (Sending A) x

theorem Sends.sending (h : Sends hp bs hp') (hs : Sending A hp) : Sending A hp' where
  magic := h.magic.trans hs.magic
  opened := h.keeps_open hs.opened
  sent := by
    rw [h.sent]
    exact hs.sent.trans (List.prefix_append _ _)

theorem Emits.sending {x : Cp Unit} (hx : Emits x bs) : KeepsSending A x := fun hp hs =>
  (hx hp hs.magic).mono (fun _ _ h => h.sending hs) (fun _ h => h.elim) fun _ _ => trivial

/-- Neither the events nor the buffer have changed. -/
theorem Sending.same (hs : Sending A hp) (hm : hp'.magic = hp.magic) (hl : hp'.ctx.log = hp.ctx.log)
    (hc : hp'.ctx.cur = hp.ctx.cur) (ha : hp'.ctx.arg = hp.ctx.arg)
    (ht : hp'.ctx.tooBig = hp.ctx.tooBig) : Sending A hp' where
  magic := hm.trans hs.magic
  opened := ⟨by rw [hc, ha]; exact hs.opened.room, ht.trans hs.opened.fits⟩
  sent := by
    rw [Hpack.sent, hl, hc]
    exact hs.sent

/-! ### Common functions -/

theorem sending_modify {f : Hpack → Hpack}
    (hf : ∀ hp : Hpack, (f hp).magic = hp.magic ∧ (f hp).ctx.log = hp.ctx.log ∧
      (f hp).ctx.cur = hp.ctx.cur ∧ (f hp).ctx.arg = hp.ctx.arg ∧
      (f hp).ctx.tooBig = hp.ctx.tooBig) : KeepsSending A (modify f) := by
  intro hp hs
  obtain ⟨hm, hl, hc, ha, ht⟩ := hf hp
  exact hs.same hm hl hc ha ht

theorem sending_reads {x : Cp α} (hx : Reads x) : KeepsSending A x := hx.keeps fun _ => trivial

theorem sending_failWith (r : Res) : KeepsSending A (failWith r : Cp α) :=
  fun _ hs => hs.same rfl rfl rfl rfl rfl

theorem sending_expect (r : Res) (c : Prop) [Decidable c] : KeepsSending A (expect r c) := by
  intro hp hs
  rw [expect_apply]
  split
  · exact hs
  · exact hs.same rfl rfl rfl rfl rfl

theorem sending_assert (c : Prop) [Decidable c] : KeepsSending A (assert c) := .assert c trivial

theorem sending_readStr (p : Ptr) (n : ℕ) : KeepsSending A (readStr p n) := by
  intro hp hs
  unfold readStr
  split
  · exact hs
  · trivial

/-- None of these events carries octets to send. -/
def Quiet (es : List Event) : Prop := ∀ e ∈ es, e.sent = []

theorem sending_hpcNotify {e : Event} (he : e.sent = []) : KeepsSending A (hpcNotify e) := by
  intro hp hs
  rw [hpcNotify, if_neg (by rw [hs.opened.fits]; exact Bool.false_ne_true)]
  refine ⟨hs.magic, ⟨hs.opened.room, hs.opened.fits⟩, ?_⟩
  simpa [Hpack.sent, he] using hs.sent

theorem sending_hpcNotifyAll {es : List Event} (hes : Quiet es) :
    KeepsSending A (hpcNotifyAll es) := by
  induction es with
  | nil => exact .pure ()
  | cons e es ih =>
    refine .bind (sending_hpcNotify (hes e List.mem_cons_self)) fun _ => ih ?_
    exact fun e he => hes e (List.mem_cons_of_mem _ he)

theorem sending_hpvValue (str : Ptr) (len : ℕ) : KeepsSending A (hpvValue str len) := by
  refine .bind (sending_assert _) fun _ => .bind (sending_readStr _ _) fun r => ?_
  exact .bind (sending_expect _ _) fun _ => .bind (sending_assert _) fun _ => sending_assert _

theorem sending_hpvToken (str : Ptr) (len : ℕ) : KeepsSending A (hpvToken str len) := by
  refine .bind (sending_assert _) fun _ => .bind (sending_assert _) fun _ => .bind .get fun hp => ?_
  refine .ite (fun _ => sending_assert _) fun _ => .bind (sending_readStr _ _) fun r => ?_
  refine .ite (fun _ => .ite (fun _ => .pure ()) fun _ => sending_failWith _) fun _ => ?_
  exact .bind (sending_expect _ _) fun _ => sending_assert _

/-! ### The dynamic table -/

theorem quiet_hptAdjust (len : ℕ) (t : Table) :
    (hptAdjust len t).Holds (fun es _ => Quiet es) (fun _ => True) fun _ => True := by
  rw [hptAdjust, bind_apply, get_apply, Out.bind_ok]
  refine .assert_bind trivial fun _ => ?_
  rw [ite_run]
  split
  · exact fun e he => absurd he List.not_mem_nil
  rw [bind_apply]
  refine (Out.Holds.any _).bind fun he t _ => ?_
  rw [bind_apply]
  refine (Out.Holds.any _).bind fun n t _ => ?_
  rw [bind_apply, get_apply, Out.bind_ok]
  refine .assert_bind trivial fun _ e he => ?_
  split at he
  · obtain rfl := List.mem_singleton.1 he
    rfl
  · exact absurd he List.not_mem_nil

theorem quiet_hptFit (len : ℕ) (t : Table) :
    (hptFit len t).Holds (fun r _ => Quiet r.2) (fun _ => True) fun _ => True := by
  rw [hptFit, bind_apply, get_apply, Out.bind_ok]
  refine .assert_bind trivial fun _ => ?_
  rw [bind_apply]
  refine (quiet_hptAdjust _ _).bind fun es t hes => ?_
  rw [bind_apply, get_apply, Out.bind_ok, ite_run]
  split
  · exact .assert_bind trivial fun _ => .assert_bind trivial fun _ => hes
  · exact hes

theorem quiet_hptInsert (enc : Bool) (src : Src) (namSz : ℕ) (val : Octets) (t : Table) :
    (hptInsert enc src namSz val t).Holds (fun es _ => Quiet es) (fun _ => True)
      fun _ => True := by
  rw [hptInsert, bind_apply]
  refine (Out.Holds.any _).bind fun ovl t _ => ?_
  dsimp only
  rw [bind_apply]
  refine (quiet_hptFit _ _).bind fun r t hes => ?_
  obtain ⟨fits, es⟩ := r
  dsimp only
  rw [ite_run]
  split
  · rw [bind_apply]
    refine (Out.Holds.any _).bind fun _ t _ => ?_
    -- wherever the name comes from, the entry is filled in the end
    have hend : ∀ (x : Prog Table Unit) (t : Table), ((do
        x
        hptFill namSz val
        modify fun hp => { hp with
          sz := { hp.sz with len := hp.sz.len + (hpackOverhead + namSz + val.length) }
          cnt := hp.cnt + 1 }
        pure (es ++ [.index (hpackOverhead + namSz + val.length)]) : Prog Table (List Event)) t).Holds
          (fun es _ => Quiet es) (fun _ => True) fun _ => True := by
      intro x t
      rw [bind_apply]
      refine (Out.Holds.any _).bind fun _ t _ => ?_
      rw [bind_apply]
      refine (Out.Holds.any _).bind fun _ t _ => ?_
      rw [bind_apply, modify_apply, Out.bind_ok]
      intro e he
      rcases List.mem_append.1 he with he | he
      · exact hes e he
      · obtain rfl := List.mem_singleton.1 he
        rfl
    split
    · simpa only [bind_assoc] using hend (do assert (enc = true); hptMoveEvicted _ namSz _) t
    · simpa only [bind_assoc] using hend (do hptShift _; moveTbl hptHeaderSz _ (namSz + 1)) t
    · simpa only [bind_assoc] using hend (do hptShift _; writeTbl hptHeaderSz (_ ++ [0])) t
  · exact hes

/-- A function of the table, and the events it notifies. -/
theorem sending_onTable {x : Prog Table (List Event)}
    (hx : ∀ t, (x t).Holds (fun es _ => Quiet es) (fun _ => True) fun _ => True) :
    KeepsSending A (onTable x >>= hpcNotifyAll) := by
  intro hp hs
  have hs' : ∀ t, Sending A (hp.withTable t) := fun _ =>
    hs.same rfl rfl rfl rfl rfl
  have h := hx hp.toTable
  rw [bind_apply, onTable]
  cases hr : x hp.toTable with
  | ok es t =>
    rw [hr] at h
    exact sending_hpcNotifyAll h _ (hs' t)
  | err t => exact hs' t
  | stop w => trivial

theorem sending_hpackAdjust (len : ℕ) : KeepsSending A (hpackAdjust len) :=
  sending_onTable (quiet_hptAdjust len)

theorem sending_hptIndex : KeepsSending A hptIndex := by
  refine .bind .get fun hp => .bind (sending_assert _) fun _ => .bind (sending_assert _) fun _ => ?_
  refine .bind (sending_assert _) fun _ => .bind (sending_assert _) fun _ => ?_
  refine .bind (sending_assert _) fun _ => .bind (sending_readStr _ _) fun nam => ?_
  refine .bind (sending_assert _) fun _ => .bind (sending_readStr _ _) fun val => ?_
  refine .bind (sending_assert _) fun _ => .bind (sending_assert _) fun _ => ?_
  exact sending_onTable (quiet_hptInsert _ _ _ _)

theorem sending_hptField (idx : ℕ) : KeepsSending A (hptField idx) := by
  intro hp hs
  refine (hptField_reads idx hp).mono (fun _ _ h => h ▸ hs) (fun _ h => ?_) fun _ h => h
  subst h
  exact hs.same rfl rfl rfl rfl rfl

/-! ### Fields -/

theorem sending_putString (huf : Bool) (str : Octets) : KeepsSending A (putString huf str) := by
  intro hp hs
  refine (putString_sends huf str hs.magic).mono (fun _ _ h => ?_) (fun _ h => h.elim) fun _ _ =>
    trivial
  obtain ⟨body, -, h⟩ := h
  exact h.sending hs

theorem sending_userStr (s : Option CStr) : KeepsSending A (userStr s) := by
  cases s with
  | some s => exact .pure _
  | none => exact .halt trivial

theorem sending_hpackEncodeString (fld : Field) (evt : StrEvt) :
    KeepsSending A (hpackEncodeString fld evt) := by
  refine .bind (.when fun _ => sending_assert _) fun _ => .bind (sending_userStr _) fun str => ?_
  refine .bind (sending_expect _ _) fun _ => .bind (.ite (fun _ => ?_) fun _ => ?_) fun _ => ?_
  · exact sending_hpvToken _ _
  · exact sending_hpvValue _ _
  · exact sending_putString _ _

theorem sending_hpackEncodeField (fld : Field) (p : Hpp) :
    KeepsSending A (hpackEncodeField fld p) := by
  refine .bind .get fun hp => .bind (.when fun _ => sending_expect _ _) fun _ => ?_
  refine .bind (emits_hpiEncode _ _).sending fun _ => ?_
  refine .bind (.when fun _ => sending_hpackEncodeString _ _) fun _ => ?_
  exact sending_hpackEncodeString _ _

theorem sending_hpackEncodeIndexed (fld : Field) : KeepsSending A (hpackEncodeIndexed fld) :=
  .bind .get fun _ => .bind (sending_expect _ _) fun _ => (emits_hpiEncode _ _).sending

/-- What `hpack_encode_dynamic` does once the field is encoded. -/
theorem sending_insert (fld : Field) : KeepsSending A (do
    (if fld.namIdxF then hpackEncodeNamIdx fld else hpackEncodeNam fld)
    let val ← userStr fld.val
    modify fun hp => { hp with ctx.fld.val := .str val, ctx.fld.valSz := val.length }
    hptIndex) := by
  refine .bind (.ite (fun _ => ?_) fun _ => ?_) ?_
  · refine .bind (.attempt (sending_hptField _)) fun hf => .bind .get fun hp => ?_
    refine .bind (sending_assert _) fun _ => ?_
    cases hf with
    | none => exact .halt trivial
    | some hf => exact sending_modify fun _ => ⟨rfl, rfl, rfl, rfl, rfl⟩
  · exact .bind (sending_userStr _) fun nam => sending_modify fun _ => ⟨rfl, rfl, rfl, rfl, rfl⟩
  · refine fun _ => .bind (sending_userStr _) fun val => .bind ?_ fun _ => sending_hptIndex
    exact sending_modify fun _ => ⟨rfl, rfl, rfl, rfl, rfl⟩

theorem sending_hpackEncodeDynamic (fld : Field) : KeepsSending A (hpackEncodeDynamic fld) :=
  .bind (sending_hpackEncodeField _ _) fun _ => sending_insert fld

theorem sending_hpackEncodeAny {fld : Field} {enc : Cp Unit} (h : hpackEncodeAny fld = some enc) :
    KeepsSending A enc := by
  unfold hpackEncodeAny at h
  split at h
  · exact Option.some.inj h ▸ sending_hpackEncodeIndexed fld
  · exact Option.some.inj h ▸ sending_hpackEncodeDynamic fld
  · exact Option.some.inj h ▸ sending_hpackEncodeField fld .nvr
  · exact Option.some.inj h ▸ sending_hpackEncodeField fld .lit
  · cases h

/-! ### Size updates -/

theorem sending_hpackCap (lim max : ℤ) : KeepsSending A (hpackCap lim max) := by
  refine .bind (sending_assert _) fun _ => .bind .get fun hp => .ite (fun _ => .pure _) fun _ => ?_
  refine .ite (fun _ => ?_) fun _ => ?_
  · exact .bind (sending_modify fun _ => ⟨rfl, rfl, rfl, rfl, rfl⟩) fun _ => .pure _
  · exact .bind (sending_modify fun _ => ⟨rfl, rfl, rfl, rfl, rfl⟩) fun _ => .pure _

theorem sending_hpackEncodeSettle (lim : ℤ) : KeepsSending A (hpackEncodeSettle lim) := by
  refine .bind .get fun hp => .ite (fun _ => .bind (sending_assert _) fun _ => ?_) fun _ => ?_
  · refine .bind (sending_modify fun _ => ⟨rfl, rfl, rfl, rfl, rfl⟩) fun _ => .ite (fun _ => ?_) ?_
    · exact .bind (sending_assert _) fun _ => .pure _
    · exact fun _ => sending_hpackCap _ _
  · refine .bind (sending_hpackCap _ _) fun lim => .bind .get fun hp => ?_
    exact .bind (sending_assert _) fun _ => .pure _

theorem sending_hpackEncodeUpdated : KeepsSending A hpackEncodeUpdated := by
  refine .bind .get fun hp => .ite (fun _ => .bind (sending_assert _) fun _ => ?_) fun _ => ?_
  · exact sending_modify fun _ => ⟨rfl, rfl, rfl, rfl, rfl⟩
  · refine .when fun _ => .bind (sending_assert _) fun _ => ?_
    exact sending_modify fun _ => ⟨rfl, rfl, rfl, rfl, rfl⟩

theorem sending_hpackEncodeUpdate (lim : ℤ) : KeepsSending A (hpackEncodeUpdate lim) := by
  refine .bind .get fun hp => .bind (sending_assert _) fun _ => .bind (sending_assert _) fun _ => ?_
  refine .bind (sending_assert _) fun _ => .bind (sending_hpackEncodeSettle _) fun lim => ?_
  refine .bind (sending_assert _) fun _ => .bind .get fun hp => .bind (sending_hpackAdjust _) ?_
  refine fun _ => .bind (emits_hpiEncode _ _).sending fun _ => ?_
  refine .bind (sending_hpcNotify rfl) fun _ => .bind sending_hpackEncodeUpdated fun _ => ?_
  exact .bind .get fun hp => sending_assert _

theorem sending_hpackEncodeResize : KeepsSending A hpackEncodeResize := by
  refine .bind .get fun hp => .when fun _ => .bind (sending_assert _) fun _ => ?_
  refine .bind (sending_hpackEncodeUpdate _) fun _ => .bind .get fun hp => ?_
  refine .bind (sending_assert _) fun _ => .bind (.when fun _ => sending_hpackEncodeUpdate _) ?_
  exact fun _ => .bind .get fun hp => sending_assert _

theorem sending_hpackEncodeLimit : KeepsSending A hpackEncodeLimit := by
  refine .bind .get fun hp => .when fun _ => .bind (sending_assert _) fun _ => .when fun _ => ?_
  refine .bind (sending_hpackEncodeUpdate _) fun _ => ?_
  exact sending_modify fun _ => ⟨rfl, rfl, rfl, rfl, rfl⟩

/-- The buffer is open and empty once a call begins. -/
theorem hpackEncodeBegin_sending {enc : Encoding} (hm : hp.magic = .encoder)
    (ht : hp.ctx.tooBig = false) (hlen : 0 < enc.bufLen) :
    (hpackEncodeBegin enc hp).Holds (fun _ => Sending []) (fun _ => False) fun _ => True := by
  rw [hpackEncodeBegin, bind_apply, get_apply, Out.bind_ok]
  refine .assert_bind trivial fun _ => ?_
  have hbegin : ∀ hp₁ : Hpack, hp₁.magic = .encoder → hp₁.ctx.tooBig = false →
      Sending [] { hp₁ with ctx.arg := ⟨enc.buf, enc.bufLen, 0⟩, ctx.cur := [] } :=
    fun _ hm ht => ⟨hm, ⟨hlen, ht⟩, List.nil_prefix⟩
  rw [bind_apply, when_apply]
  split
  · rw [bind_apply, assert_apply]
    split
    · exact hbegin _ hm rfl
    · trivial
  · exact hbegin _ hm ht

theorem hpackEncodeStart_sending {enc : Encoding} (hm : hp.magic = .encoder)
    (ht : hp.ctx.tooBig = false) (hlen : 0 < enc.bufLen) :
    (hpackEncodeStart enc hp).Holds (fun _ => Sending []) (Sending []) fun _ => True := by
  rw [hpackEncodeStart, bind_apply]
  refine ((hpackEncodeBegin_sending hm ht hlen).mono (fun _ _ h => h) (fun _ h => h.elim)
    fun _ h => h).bind fun _ hp₁ hs => ?_
  refine sending_hpackEncodeResize.bind_holds hs (fun _ hp₂ hs => ?_) (fun _ h => h) fun _ h => h
  refine sending_hpackEncodeLimit.bind_holds hs (fun _ hp₃ hs => ?_) (fun _ h => h) fun _ h => h
  exact hs.same rfl rfl rfl rfl rfl

/-! ### Representations -/

/-- The index that a literal field refers to, `0` when its name is a literal too. -/
def Field.nameIndex (fld : Field) : ℕ := if fld.namIdxF then fld.namIdx.toNat else 0

/-- The pattern and the index that the representation of a field starts with. -/
def Field.head (fld : Field) : Option (Hpp × ℕ) :=
  match fld.typIdx, fld.typDyn, fld.typLit, fld.typNvr with
  | true, false, false, false => some (.idx, fld.idx.toNat)
  | false, true, false, false => some (.dyn, fld.nameIndex)
  | false, false, false, true => some (.nvr, fld.nameIndex)
  | false, false, true, false => some (.lit, fld.nameIndex)
  | _, _, _, _ => none

theorem head_none {fld : Field} (h : hpackEncodeAny fld = none) : fld.head = none := by
  obtain ⟨i, d, l, n, _⟩ := fld
  cases i <;> cases d <;> cases l <;> cases n <;> first | rfl | cases h

/-- A field that is never indexed is a literal that is never indexed, unless it has another
type too. -/
theorem hpackEncodeAny_nvr {fld : Field} (hnvr : fld.typNvr = true) :
    (hpackEncodeAny fld = some (hpackEncodeField fld .nvr) ∧ fld.head = some (.nvr, fld.nameIndex)) ∨
      hpackEncodeAny fld = none := by
  obtain ⟨i, d, l, n, _⟩ := fld
  obtain rfl : n = true := hnvr
  cases i <;> cases d <;> cases l <;> first | exact Or.inl ⟨rfl, rfl⟩ | exact Or.inr rfl

/-- The index of the field, if it has one, is the one of an entry of the tables. -/
def Field.Refers (fld : Field) (hp : Hpack) : Prop :=
  if fld.typIdx = true then 0 < fld.idx.toNat ∧ fld.idx.toNat ≤ hp.cnt + hpackStatic
  else fld.namIdxF = true → 0 < fld.namIdx.toNat ∧ fld.namIdx.toNat ≤ hp.cnt + hpackStatic

instance (fld : Field) (hp : Hpack) : Decidable (fld.Refers hp) :=
  inferInstanceAs (Decidable (if fld.typIdx = true then
      0 < fld.idx.toNat ∧ fld.idx.toNat ≤ hp.cnt + hpackStatic
    else fld.namIdxF = true →
      0 < fld.namIdx.toNat ∧ fld.namIdx.toNat ≤ hp.cnt + hpackStatic))

/-- What the representation starts with, once its index is checked. -/
def Field.opening (fld : Field) (hp : Hpack) : Option (Hpp × ℕ) :=
  if fld.Refers hp then fld.head else none

/-- What was sent after `A` starts with a pattern and an index, or nothing was. -/
def Opened (A : Octets) (o : Option (Hpp × ℕ)) (hp : Hpack) : Prop :=
  o.elim (hp.sent = A) fun h => A ++ hpiOctets h.1 h.2 <+: hp.sent

/-- An outcome where a pattern and an index were sent if `R` holds, and nothing otherwise. -/
def Opens (A : Octets) (R : Prop) (p : Hpp) (n : ℕ) (x : Out Hpack α) : Prop :=
  x.Holds (fun _ hp => R ∧ Sending (A ++ hpiOctets p n) hp)
    (fun hp => R ∧ Sending (A ++ hpiOctets p n) hp ∨ ¬ R ∧ hp.sent = A) fun _ => True

theorem Opens.bind {β : Type} {R : Prop} {p : Hpp} {n : ℕ} {x : Cp α} {f : α → Cp β}
    (hx : Opens A R p n (x hp)) (hf : ∀ a, KeepsSending (A ++ hpiOctets p n) (f a)) :
    Opens A R p n ((x >>= f) hp) := by
  refine Out.Holds.bind hx fun a hp' h => ?_
  exact (hf a hp' h.2).mono (fun _ _ hs => ⟨h.1, hs⟩) (fun _ hs => Or.inl ⟨h.1, hs⟩) fun _ h => h

/-- The index is checked, and sent. -/
theorem opens_hpiEncode {R : Prop} [Decidable R] (p : Hpp) {n : ℕ} (hn : n < 65536)
    (hm : hp.magic = .encoder) (ho : hp.Open) :
    Opens hp.sent R p n ((do expect .idx R; hpiEncode p n : Cp Unit) hp) := by
  rw [bind_apply, expect_apply]
  split
  · rename_i hR
    refine (emits_hpiEncode p n hp hm).mono (fun _ hp' h => ⟨hR, ?_⟩) (fun _ h => h.elim)
      fun _ _ => trivial
    rw [Nat.mod_eq_of_lt hn] at h
    exact ⟨h.magic.trans hm, h.keeps_open ho, h.sent ▸ List.prefix_rfl⟩
  · rename_i hR
    exact Or.inr ⟨hR, rfl⟩

theorem Field.nameIndex_lt (fld : Field) : fld.nameIndex < 65536 := by
  unfold Field.nameIndex
  split
  · exact fld.namIdx.toNat_lt
  · decide

theorem opens_hpackEncodeField (fld : Field) (p : Hpp) (hm : hp.magic = .encoder) (ho : hp.Open) :
    Opens hp.sent (fld.namIdxF = true →
      0 < fld.namIdx.toNat ∧ fld.namIdx.toNat ≤ hp.cnt + hpackStatic) p fld.nameIndex
      (hpackEncodeField fld p hp) := by
  rw [hpackEncodeField, bind_apply, get_apply, Out.bind_ok, when_expect, ← bind_assoc]
  refine (opens_hpiEncode p fld.nameIndex_lt hm ho).bind fun _ => ?_
  exact .bind (.when fun _ => sending_hpackEncodeString _ _) fun _ => sending_hpackEncodeString _ _

theorem opens_hpackEncodeDynamic (fld : Field) (hm : hp.magic = .encoder) (ho : hp.Open) :
    Opens hp.sent (fld.namIdxF = true →
      0 < fld.namIdx.toNat ∧ fld.namIdx.toNat ≤ hp.cnt + hpackStatic) .dyn fld.nameIndex
      (hpackEncodeDynamic fld hp) :=
  (opens_hpackEncodeField fld .dyn hm ho).bind fun _ => sending_insert fld

/-- A representation starts with its pattern and its index, when it has a right one. -/
theorem opens_hpackEncodeAny {fld : Field} {enc : Cp Unit} (h : hpackEncodeAny fld = some enc)
    (hm : hp.magic = .encoder) (ho : hp.Open) :
    ∃ p n, fld.head = some (p, n) ∧ Opens hp.sent (fld.Refers hp) p n (enc hp) := by
  unfold hpackEncodeAny at h
  split at h
  · rename_i htyp _ _ _
    obtain rfl := Option.some.inj h
    refine ⟨.idx, fld.idx.toNat, by simp [Field.head, *], ?_⟩
    rw [Field.Refers, if_pos htyp]
    exact opens_hpiEncode .idx fld.idx.toNat_lt hm ho
  · rename_i htyp _ _ _
    obtain rfl := Option.some.inj h
    refine ⟨.dyn, fld.nameIndex, by simp [Field.head, *], ?_⟩
    rw [Field.Refers, if_neg (by simp [htyp])]
    exact opens_hpackEncodeDynamic fld hm ho
  · rename_i htyp _ _ _
    obtain rfl := Option.some.inj h
    refine ⟨.nvr, fld.nameIndex, by simp [Field.head, *], ?_⟩
    rw [Field.Refers, if_neg (by simp [htyp])]
    exact opens_hpackEncodeField fld .nvr hm ho
  · rename_i htyp _ _ _
    obtain rfl := Option.some.inj h
    refine ⟨.lit, fld.nameIndex, by simp [Field.head, *], ?_⟩
    rw [Field.Refers, if_neg (by simp [htyp])]
    exact opens_hpackEncodeField fld .lit hm ho
  · cases h

/-- A turn of the loop of `hpack_encode`, after the automatic indexing. -/
def hpackEncodeRest (fld : Field) : Cp (Field × Option Res) := do
  hpcNotify (.field none 0)
  match hpackEncodeAny fld with
  | none => do
    modify fun hp => { hp with magic := .defunct }
    pure (fld, some .arg)
  | some enc => do
    match ← attempt enc with
    | some () => pure (fld, none)
    | none => do
      let hp ← get
      assert (hp.ctx.res ≠ .ok)
      assert (hp.ctx.res ≠ .blk)
      modify fun hp => { hp with magic := .defunct }
      pure (fld, some hp.ctx.res)

theorem hpackEncodeTurn_eq (fld : Field) :
    hpackEncodeTurn fld = (if fld.autIdx then hpackAutoIndex fld else pure (fld, false)) >>=
      fun r => if r.2 then pure (r.1, some .arg) else hpackEncodeRest r.1 := rfl

/-- What is sent for a field starts with its pattern and its index. -/
theorem hpackEncodeRest_opened (fld : Field) (hm : hp.magic = .encoder) (ho : hp.Open) :
    (hpackEncodeRest fld hp).Holds
      (fun r hp' => r.1 = fld ∧ Opened hp.sent (fld.opening hp) hp' ∧
        (r.2 = none → fld.opening hp = fld.head ∧ fld.head ≠ none))
      (fun _ => True) fun _ => True := by
  rw [hpackEncodeRest, bind_apply, hpcNotify, if_neg (by rw [ho.fits]; exact Bool.false_ne_true),
    Out.bind_ok]
  generalize hnot : ({ hp with ctx.log := hp.ctx.log ++ [Event.field none 0] } : Hpack) = hp₁
  have hm₁ : hp₁.magic = .encoder := by rw [← hnot]; exact hm
  have ho₁ : hp₁.Open := by rw [← hnot]; exact ⟨ho.room, ho.fits⟩
  have hsent : hp₁.sent = hp.sent := by simp [← hnot, Hpack.sent, Event.sent]
  have hcnt : hp₁.cnt = hp.cnt := by rw [← hnot]
  have hR : fld.Refers hp₁ ↔ fld.Refers hp := by rw [Field.Refers, Field.Refers, hcnt]
  cases henc : hpackEncodeAny fld with
  | none =>
    have hopen : fld.opening hp = none := by rw [Field.opening, head_none henc, ite_self]
    refine ⟨rfl, ?_, fun h => (Option.some_ne_none _ h).elim⟩
    rw [hopen]
    exact hsent
  | some enc =>
    obtain ⟨p, n, hhead, hopens⟩ := opens_hpackEncodeAny henc hm₁ ho₁
    rw [Opens, hR, hsent] at hopens
    -- what is sent once the index was checked
    have hyes : ∀ hp', fld.Refers hp → hp.sent ++ hpiOctets p n <+: hp'.sent →
        Opened hp.sent (fld.opening hp) hp' := by
      intro hp' h hs
      rw [Field.opening, if_pos h, hhead]
      exact hs
    dsimp only
    rw [bind_apply]
    refine (hopens.attempt).bind fun r hp' h => ?_
    cases r with
    | some _ =>
      obtain ⟨h, hs⟩ := h
      refine ⟨rfl, hyes _ h hs.sent, fun _ => ⟨?_, ?_⟩⟩
      · rw [Field.opening, if_pos h]
      · rw [hhead]
        exact Option.some_ne_none _
    | none =>
      dsimp only
      rw [bind_apply, get_apply, Out.bind_ok]
      refine .assert_bind trivial fun _ => .assert_bind trivial fun _ => ?_
      refine ⟨rfl, ?_, fun h => (Option.some_ne_none _ h).elim⟩
      rcases h with ⟨h, hs⟩ | ⟨h, hs⟩
      · exact hyes _ h hs.sent
      · rw [Field.opening, if_neg h]
        exact hs

/-! ### Calls -/

/-- The encoder once its buffer is sent. -/
def Hpack.flushed (hp : Hpack) : Hpack :=
  if hp.ctx.cur = [] then hp
  else { hp with ctx.log := hp.ctx.log ++ [Event.data hp.ctx.cur], ctx.cur := [] }

theorem hpeSend_run (ht : hp.ctx.tooBig = false) : hpeSend hp = .ok () hp.flushed := by
  have hbig : ¬ hp.ctx.tooBig = true := by rw [ht]; exact Bool.false_ne_true
  rw [hpeSend, bind_apply, get_apply, Out.bind_ok, when_apply, Hpack.flushed]
  by_cases hcur : hp.ctx.cur = []
  · rw [if_neg (not_not_intro hcur), if_pos hcur]
  · rw [if_pos hcur, if_neg hcur, bind_apply, hpcNotify, if_neg hbig]
    rfl

/-- `hpack_encode` after the loop over the fields. -/
def hpackEncodeFinish (enc : Encoding) (r : List Field × Option Res) : Cp (Res × List Field) :=
  match r.2 with
  | some res => pure (res, r.1)
  | none => do
    hpeSend
    let hp ← get
    assert (hp.ctx.res = .blk)
    let res : Res := if enc.cut then .blk else .ok
    modify fun hp => { hp with ctx.res := res }
    pure (res, r.1)

/-- The parts of `hpack_encode` after its checks. -/
theorem hpackEncode_eq {enc : Encoding} (hm : hp.magic = .encoder) (hv : enc.Valid) :
    hpackEncode enc hp =
      (hpackEncodeStart enc >>= fun _ => hpackEncodeLoop enc.fld >>= hpackEncodeFinish enc) hp := by
  obtain ⟨hfld, hbuf, hlen, hcb⟩ := hv
  rw [hpackEncode, bind_apply, get_apply, Out.bind_ok, ite_run, if_neg (by simp [*])]
  simp only [hpackEncodeStart, bind_assoc]
  rfl

end Cashpack
