import Cashpack.Table.Insert
import Cashpack.Codec.Frame

/-!
# The dynamic table is a first-in first-out store

`HPT_index`, `HPT_adjust`, `HPT_field` and the functions that list a table, on a codec whose
table holds a list of entries (`Table.Rep`).

## Main results

* `hptIndex_eq`, `hpackAdjust_eq` : the two functions that change the table.
* `runCalls_refines` : any sequence of calls to them, under any limits that were allocated,
  computes `Fifo.fit`, and the functions that read the table give the list back.
-/

namespace Cashpack

open Prog Fifo

variable {b : Prop} {hp : Hpack} {t : Table} {l : List Entry} {e : Entry}

/-! ### Strings -/

theorem readStr_eq {p : Ptr} {n : ℕ} {r : Octets × UInt8} (h : hp.str p n = some r) :
    readStr p n hp = .ok r hp := by
  simp only [readStr, h]

/-- Strings outside of the table only depend on the working buffer. -/
theorem Hpack.str_ext {hp' : Hpack} {p : Ptr} (n : ℕ) (hext : ∀ off, p ≠ .tbl off)
    (hout : hp'.ctx.out = hp.ctx.out) : hp'.str p n = hp.str p n := by
  cases p with
  | tbl off => exact absurd rfl (hext off)
  | out off => simp only [Hpack.str, Hpack.at, hout]
  | _ => rfl

theorem Hpack.str_length {p : Ptr} {n : ℕ} {s : Octets} {c : UInt8}
    (h : hp.str p n = some (s, c)) : s.length = n := by
  unfold Hpack.str at h
  split at h
  · cases h
  · split at h
    · cases h
    · rename_i m _ _ _ hdrop
      obtain ⟨rfl, -⟩ := Prod.mk.inj (Option.some.inj h)
      have hlen := congrArg List.length hdrop
      simp only [List.length_drop, List.length_cons] at hlen
      rw [List.length_take]
      omega

theorem holds_readStr_bind {α : Type} {Q : α → Hpack → Prop} {E : Hpack → Prop} {p : Ptr} {n : ℕ}
    {f : Octets × UInt8 → Cp α}
    (h : ∀ s c, hp.str p n = some (s, c) → (f (s, c) hp).Holds Q E (InBounds b)) :
    ((readStr p n >>= f) hp).Holds Q E (InBounds b) := by
  rw [bind_apply]
  cases hs : hp.str p n with
  | none =>
    simp only [readStr, hs]
    exact InBounds.fault
  | some r =>
    rw [readStr_eq hs]
    exact h r.1 r.2 hs

/-- The field being processed is the entry `e`, outside of the table. -/
structure Hpack.FldIs (hp : Hpack) (e : Entry) : Prop where
  nam_ext : ∀ off, hp.ctx.fld.nam ≠ .tbl off
  val_ext : ∀ off, hp.ctx.fld.val ≠ .tbl off
  namSz : hp.ctx.fld.namSz = e.nam.length
  valSz : hp.ctx.fld.valSz = e.val.length
  nam : hp.str hp.ctx.fld.nam hp.ctx.fld.namSz = some (e.nam, 0)
  val : hp.str hp.ctx.fld.val hp.ctx.fld.valSz = some (e.val, 0)

theorem Hpack.FldIs.of_ctx {hp' : Hpack} (h : hp.FldIs e) (hctx : hp'.ctx = hp.ctx) :
    hp'.FldIs e where
  nam_ext := hctx ▸ h.nam_ext
  val_ext := hctx ▸ h.val_ext
  namSz := hctx ▸ h.namSz
  valSz := hctx ▸ h.valSz
  nam := by rw [hctx, Hpack.str_ext _ h.nam_ext (congrArg Ctx.out hctx), h.nam]
  val := by rw [hctx, Hpack.str_ext _ h.val_ext (congrArg Ctx.out hctx), h.val]

/-! ### Notifications -/

/-- A codec that may notify: only a decoder has a message that does not fit. -/
def Hpack.Notifies (hp : Hpack) : Prop := hp.ctx.tooBig = false ∨ hp.magic = .decoder

/-- The codec once these events are notified. -/
def Hpack.notify (hp : Hpack) (evts : List Event) : Hpack :=
  { hp with ctx.log := if hp.ctx.tooBig then hp.ctx.log else hp.ctx.log ++ evts }

@[simp] theorem Hpack.notify_nil (hp : Hpack) : hp.notify [] = hp := by
  simp [Hpack.notify]

theorem Hpack.notify_notify (hp : Hpack) (evts evts' : List Event) :
    (hp.notify evts).notify evts' = hp.notify (evts ++ evts') := by
  cases h : hp.ctx.tooBig <;> simp [Hpack.notify, h]

theorem hpcNotify_eq (h : hp.Notifies) (evt : Event) :
    hpcNotify evt hp = .ok () (hp.notify [evt]) := by
  by_cases ht : hp.ctx.tooBig = true
  · have hm : hp.magic = .decoder := h.resolve_left (by simp [ht])
    simp only [hpcNotify, Hpack.notify, if_pos ht, if_pos hm]
  · simp only [hpcNotify, Hpack.notify, if_neg ht]

theorem hpcNotifyAll_eq (h : hp.Notifies) (evts : List Event) :
    hpcNotifyAll evts hp = .ok () (hp.notify evts) := by
  induction evts generalizing hp with
  | nil => simp [hpcNotifyAll]
  | cons evt evts ih =>
    have h' : (hp.notify [evt]).Notifies := h
    rw [hpcNotifyAll, bind_apply, hpcNotify_eq h, Out.bind_ok, ih h', Hpack.notify_notify]
    rfl

theorem hpcNotifyAll_holds (hp : Hpack) (evts : List Event) :
    (hpcNotifyAll evts hp).Holds (fun _ hp' => hp' = hp.notify evts) (fun _ => False)
      (InBounds b) := by
  by_cases h : hp.Notifies
  · rw [hpcNotifyAll_eq h]
    exact rfl
  · have ht : hp.ctx.tooBig = true := by
      simpa using fun h' => h (Or.inl h')
    cases evts with
    | nil => exact hp.notify_nil.symm
    | cons evt evts =>
      rw [hpcNotifyAll, bind_apply, hpcNotify, if_pos ht, if_neg fun h' => h (Or.inr h')]
      exact InBounds.abort

theorem hpcNotify_holds (evt : Event) :
    (hpcNotify evt hp).Holds (fun _ hp' => hp' = hp.notify [evt]) (fun _ => False)
      (InBounds b) := by
  have h := hpcNotifyAll_holds (b := b) hp [evt]
  rw [hpcNotifyAll, bind_apply] at h
  cases hr : hpcNotify evt hp with
  | ok a s =>
    rw [hr] at h
    exact h
  | err s =>
    rw [hr] at h
    exact h
  | stop w =>
    rw [hr] at h
    exact h

/-! ### The functions that change the table -/

theorem onTable_eq {α : Type} {f : Prog Table α} {a : α} (h : f hp.toTable = .ok a t) :
    onTable f hp = .ok a (hp.withTable t) := by
  simp only [onTable, h]

/-- `HPT_index` on a field outside of the table. -/
theorem hptIndex_eq (h : hp.toTable.Rep l) (hf : hp.FldIs e) (hn : hp.Notifies)
    (hlim : hp.sz.lim ≤ hp.sz.max) (hmem : hp.sz.limit ≤ hp.tbl.length) :
    ∃ t : Table, hptIndex hp
        = .ok () ((hp.withTable t).notify (insertEvents hp.sz.limit l e)) ∧
      t.Rep (fit Entry.size hp.sz.limit (e :: l)) ∧ t.tbl.length = hp.tbl.length ∧
      t.sz = { hp.sz with len := total Entry.size (fit Entry.size hp.sz.limit (e :: l)) } := by
  obtain ⟨t, hins, hrep, hlen, hsz⟩ :=
    hptInsert_eq (e := e) (hp.magic = .encoder) h hlim ((total_fit_le _ _).trans hmem)
  refine ⟨t, ?_, hrep, hlen, hsz⟩
  have hnam0 : hp.ctx.fld.nam ≠ .null := by
    intro h0
    simpa [h0, Hpack.str, Hpack.at] using hf.nam
  have hval0 : hp.ctx.fld.val ≠ .null := by
    intro h0
    simpa [h0, Hpack.str, Hpack.at] using hf.val
  have hsrc : Hpack.src hp.ctx.fld.nam e.nam = .ext e.nam := by
    cases hp' : hp.ctx.fld.nam with
    | tbl off => exact absurd hp' (hf.nam_ext off)
    | _ => rfl
  have hout : hp.ctx.fld.val.outside hp.sz.len = true := by
    cases hp' : hp.ctx.fld.val with
    | tbl off => exact absurd hp' (hf.val_ext off)
    | _ => rfl
  have hnam : hp.str hp.ctx.fld.nam e.nam.length = some (e.nam, 0) := hf.namSz ▸ hf.nam
  have hval : hp.str hp.ctx.fld.val e.val.length = some (e.val, 0) := hf.valSz ▸ hf.val
  simp only [hptIndex, bind_apply, get_apply, Out.bind_ok, assert_apply, ne_eq, hnam0, hval0,
    not_false_eq_true, if_true, hf.namSz, hf.valSz, e.nam_pos, e.nam_le, e.val_le,
    readStr_eq hnam, readStr_eq hval, hout, hsrc, onTable_eq hins]
  have hn' : (hp.withTable t).Notifies := hn
  exact hpcNotifyAll_eq hn' _

/-- However it ends, `HPT_index` on a field outside of the table either stops before it touches
the table, or inserts this field. -/
theorem hptIndex_holds (h : hp.toTable.Rep l) (hf : hp.ctx.fld.Ext)
    (hlim : hp.sz.lim ≤ hp.sz.max) (hmem : b → hp.sz.limit ≤ hp.tbl.length) :
    (hptIndex hp).Holds
      (fun _ hp' => ∃ (e : Entry) (t : Table),
        hp.str hp.ctx.fld.nam hp.ctx.fld.namSz = some (e.nam, 0) ∧
        hp.str hp.ctx.fld.val hp.ctx.fld.valSz = some (e.val, 0) ∧
        hp' = (hp.withTable t).notify (insertEvents hp.sz.limit l e) ∧
        t.Rep (fit Entry.size hp.sz.limit (e :: l)) ∧ t.tbl.length = hp.tbl.length ∧
        t.sz = { hp.sz with len := total Entry.size (fit Entry.size hp.sz.limit (e :: l)) })
      (fun _ => False) (InBounds b) := by
  rw [hptIndex, bind_apply, get_apply, Out.bind_ok]
  refine .assert_bind InBounds.abort fun _ => .assert_bind InBounds.abort fun _ => ?_
  refine .assert_bind InBounds.abort fun hpos => .assert_bind InBounds.abort fun hnle => ?_
  refine .assert_bind InBounds.abort fun hvle => holds_readStr_bind fun nam c hnam => ?_
  refine .assert_bind InBounds.abort fun hc => holds_readStr_bind fun val c' hval => ?_
  refine .assert_bind InBounds.abort fun hc' => .assert_bind InBounds.abort fun _ => ?_
  obtain rfl : c = 0 := hc
  obtain rfl : c' = 0 := hc'
  have hnl := Hpack.str_length hnam
  have hvl := Hpack.str_length hval
  have hsrc : Hpack.src hp.ctx.fld.nam nam = .ext nam := by
    cases hp' : hp.ctx.fld.nam with
    | tbl off => exact absurd hp' (hf.1 off)
    | _ => rfl
  let e : Entry := ⟨nam, val, hnl ▸ hpos, hnl ▸ hnle, hvl ▸ hvle⟩
  have hle := total_fit_le (w := Entry.size) hp.sz.limit (e :: l)
  rw [hsrc, ← hnl, bind_apply]
  by_cases hfit : total Entry.size (fit Entry.size hp.sz.limit (e :: l)) ≤ hp.tbl.length
  swap
  · have hins := hptInsert_overrun (e := e) (hp.magic = .encoder) h hlim (by omega)
    simp only [onTable, hins, e]
    exact fun hb => absurd (hle.trans (hmem hb)) hfit
  obtain ⟨t, hins, hrep, hlen, hsz⟩ := hptInsert_eq (e := e) (hp.magic = .encoder) h hlim hfit
  rw [onTable_eq hins, Out.bind_ok]
  refine (hpcNotifyAll_holds _ _).mono (fun _ hp' h' => ?_) (fun _ h' => h') fun _ h' => h'
  exact ⟨e, t, hnl.symm ▸ hnam, hval, h', hrep, hlen, hsz⟩

/-- `HPT_adjust` for the length of the table. -/
theorem hpackAdjust_eq (h : hp.toTable.Rep l) (hn : hp.Notifies)
    (hlim : hp.sz.lim ≤ hp.sz.max ∨ hp.sz.max < hp.sz.nxt) :
    hpackAdjust hp.sz.len hp
      = .ok () ((hp.withTable (hp.toTable.keep (fit Entry.size hp.sz.limit l))).notify
          (evictEvents (l.length - (fit Entry.size hp.sz.limit l).length))) := by
  have := hptAdjust_eq (k := 0) h hlim
  rw [room_zero, Nat.add_zero] at this
  rw [hpackAdjust, bind_apply, onTable_eq this, Out.bind_ok]
  have hn' : (hp.withTable (hp.toTable.keep (fit Entry.size hp.sz.limit l))).Notifies := hn
  exact hpcNotifyAll_eq hn' _

/-! ### The functions that read the table -/

theorem readEntry_at (h : t.Rep l) {i : ℕ} (hi : i < l.length) :
    readEntry (total Entry.size (l.take i)) t
      = .ok (l[i].header (lastSize 0 (l.take i))) t := by
  obtain ⟨a, m, b, ht, ha, hm⟩ := h.entry hi
  have hpre : lastSize 0 (l.take i) < 2 ^ 64 :=
    lt_of_lt_of_le (lastSize_lt (by omega) _) (by norm_num)
  rw [← ha]
  exact readEntry_eq ht hm hpre

/-- What `HPT_field` gives for the entry at position `i`, counted from 0. -/
def entryField (l : List Entry) (i : ℕ) (e : Entry) : HptField :=
  let off := total Entry.size (l.take i) + hptHeaderSz
  ⟨.tbl off, .tbl (off + (e.nam.length + 1)), e.nam.length, e.val.length, (i + 1) % 65536⟩

theorem hptField_dynamic (h : hp.toTable.Rep l) (hown : hp.ctx.hp = hp.addr) {i : ℕ}
    (hi : i < l.length) : hptField (hpackStatic + (i + 1)) hp = .ok (entryField l i l[i]) hp := by
  have hcnt : hp.cnt = l.length := h.cnt
  have h₁ : ¬ hpackStatic + (i + 1) ≤ hpackStatic := by omega
  have h₂ : hpackStatic + (i + 1) - hpackStatic = i + 1 := by omega
  have h₃ : ¬ l.length < i + 1 := by omega
  have h₄ : i + 1 ≤ l.length := by omega
  simp only [hptField, bind_apply, assert_apply, ne_eq, Nat.add_eq_zero_iff, one_ne_zero,
    and_false, not_false_eq_true, if_true, Out.bind_ok, ite_run, h₁, if_false, ctxHp_eq hown,
    get_apply, h₂, hcnt, h₃, expect_apply, h₄, onTable_eq (hptDynamic_eq h hi), onTable_eq (readEntry_at h hi),
    Hpack.withTable_self, pure_apply]
  rfl

theorem hptField_static (hp : Hpack) {i : ℕ} (hi : i < hpackStatic) :
    ∃ s : HdrEntry, hptStatic[i]? = some s ∧
      hptField (i + 1) hp = .ok ⟨.str s.nam, .str s.val, s.nam.length, s.val.length, s.idx⟩ hp := by
  have hi' : i < hptStatic.length := by
    rw [length_hptStatic]
    exact hi
  refine ⟨hptStatic[i], List.getElem?_eq_getElem hi', ?_⟩
  have hle : i + 1 ≤ hpackStatic := hi
  simp [hptField, assert_apply, hle, List.getElem?_eq_getElem hi']

/-- The dynamic table is out of reach of a context that belongs to a codec that was moved. -/
theorem hptField_moved (hown : hp.ctx.hp ≠ hp.addr) {i : ℕ} :
    hptField (hpackStatic + (i + 1)) hp = .stop .fault := by
  have h₁ : ¬ hpackStatic + (i + 1) ≤ hpackStatic := by omega
  simp only [hptField, bind_apply, assert_apply, ne_eq, Nat.add_eq_zero_iff, one_ne_zero,
    and_false, not_false_eq_true, if_true, Out.bind_ok, h₁, if_false, ctxHp_fault hown,
    Out.bind_stop]

/-- An index past the end of the tables is only known to a monitor. -/
theorem hptField_beyond (h : hp.toTable.Rep l) (hown : hp.ctx.hp = hp.addr) {i : ℕ}
    (hi : l.length ≤ i) : hptField (hpackStatic + (i + 1)) hp
      = if hp.mon then .ok hptUnknownField hp else .err { hp with ctx.res := .idx } := by
  have hcnt : hp.cnt = l.length := h.cnt
  have h₁ : ¬ hpackStatic + (i + 1) ≤ hpackStatic := by omega
  have h₂ : hpackStatic + (i + 1) - hpackStatic = i + 1 := by omega
  have h₃ : l.length < i + 1 := by omega
  have h₄ : ¬ i + 1 ≤ l.length := by omega
  simp only [hptField, bind_apply, assert_apply, ne_eq, Nat.add_eq_zero_iff, one_ne_zero,
    and_false, not_false_eq_true, if_true, Out.bind_ok, ite_run, h₁, if_false, ctxHp_eq hown,
    get_apply, h₂, hcnt, h₃, and_true, expect_apply, h₄, pure_apply, Out.bind_err]

/-- `HPT_field` reads the tables, and changes nothing else than the result. -/
theorem hptField_holds (h : hp.toTable.Rep l) (idx : ℕ) :
    (hptField idx hp).Holds (fun _ hp' => hp' = hp) (fun hp' => hp' = { hp with ctx.res := .idx })
      (InBounds b) := by
  by_cases hs : idx ≤ hpackStatic
  · cases idx with
    | zero => exact InBounds.abort
    | succ i =>
      obtain ⟨s, -, hf⟩ := hptField_static hp (i := i) hs
      rw [hf]
      exact rfl
  · obtain ⟨i, rfl⟩ : ∃ i, idx = hpackStatic + (i + 1) := ⟨idx - hpackStatic - 1, by omega⟩
    by_cases hown : hp.ctx.hp = hp.addr
    · by_cases hi : i < l.length
      · rw [hptField_dynamic h hown hi]
        exact rfl
      · rw [hptField_beyond h hown (Nat.le_of_not_lt hi)]
        split <;> exact rfl
    · rw [hptField_moved hown]
      exact InBounds.fault

/-- A string that stands before a null octet in the table. -/
theorem Hpack.str_tbl (hp : Hpack) {a s b : Octets} (ht : hp.tbl = a ++ (s ++ (0 :: b))) :
    hp.str (.tbl a.length) s.length = some (s, 0) := by
  simp [Hpack.str, Hpack.at, ht]

/-- The strings of an entry are where `HPT_field` says. -/
theorem str_entryField (h : hp.toTable.Rep l) {i : ℕ} (hi : i < l.length) :
    let hf := entryField l i l[i]
    hp.str hf.nam hf.namSz = some (l[i].nam, 0) ∧ hp.str hf.val hf.valSz = some (l[i].val, 0) := by
  obtain ⟨a, m, b, ht, ha, hm⟩ := h.entry hi
  obtain ⟨x, rfl, hx⟩ := hm.split
  constructor
  · have := hp.str_tbl (a := a ++ x) (s := l[i].nam)
      (b := (l[i].val ++ [0]) ++ b) (by simp [ht])
    rwa [List.length_append, ha, hx] at this
  · have := hp.str_tbl (a := a ++ (x ++ (l[i].nam ++ [0]))) (s := l[i].val)
      (b := b) (by simp [ht])
    simpa [ha, hx, entryField, Nat.add_assoc] using this

/-- The functions that read the table of `hp` give `l` back, in index order. -/
structure Hpack.Lists (hp : Hpack) (l : List Entry) : Prop where
  dynamic : ∀ i, i < l.length →
    hptDynamic (i + 1) hp.toTable = .ok (total Entry.size (l.take i)) hp.toTable
  field : ∀ i (hi : i < l.length), ∃ hf : HptField,
    hptField (hpackStatic + (i + 1)) hp = .ok hf hp ∧
      hf.namSz = l[i].nam.length ∧ hf.valSz = l[i].val.length ∧
      hp.str hf.nam hf.namSz = some (l[i].nam, 0) ∧ hp.str hf.val hf.valSz = some (l[i].val, 0)
  entry : hp.magic = .decoder ∨ hp.magic = .encoder → ∀ i (hi : i < l.length),
    ∃ nam val : Ptr, hpackEntry (hpackStatic + (i + 1)) hp = .ok (.ok, nam, val) hp ∧
      hp.str nam l[i].nam.length = some (l[i].nam, 0) ∧
      hp.str val l[i].val.length = some (l[i].val, 0)
  entry_idx : hp.magic = .decoder ∨ hp.magic = .encoder → ∀ i, l.length ≤ i →
    hpackEntry (hpackStatic + (i + 1)) hp = .ok (.idx, .null, .null) hp
  foreach : hptForeach hp.toTable = .ok (entryEvents l) hp.toTable

/-- **A table that holds a list is read as this list.** -/
theorem Table.Rep.lists (h : hp.toTable.Rep l) (hown : hp.ctx.hp = hp.addr) : hp.Lists l where
  dynamic _ hi := hptDynamic_eq h hi
  field i hi := by
    obtain ⟨hn, hv⟩ := str_entryField h hi
    exact ⟨_, hptField_dynamic h hown hi, rfl, rfl, hn, hv⟩
  entry hm i hi := by
    obtain ⟨hn, hv⟩ := str_entryField h hi
    have hcnt : hp.cnt = l.length := h.cnt
    have h₁ : ¬ (hp.magic ≠ .decoder ∧ hp.magic ≠ .encoder) := by tauto
    have h₂ : ¬ (hpackStatic + (i + 1) = 0 ∨ hpackStatic + l.length < hpackStatic + (i + 1)) := by
      omega
    refine ⟨_, _, ?_, hn, hv⟩
    simp only [hpackEntry, bind_apply, get_apply, Out.bind_ok, ite_run, h₁, if_false, hcnt, h₂,
      attempt_apply, hptField_dynamic h hown hi, pure_apply]
  entry_idx hm i hi := by
    have hcnt : hp.cnt = l.length := h.cnt
    have h₁ : ¬ (hp.magic ≠ .decoder ∧ hp.magic ≠ .encoder) := by tauto
    have h₂ : hpackStatic + (i + 1) = 0 ∨ hpackStatic + l.length < hpackStatic + (i + 1) := by
      omega
    simp only [hpackEntry, bind_apply, get_apply, Out.bind_ok, ite_run, h₁, if_false, hcnt, h₂,
      if_true, pure_apply]
  foreach := hptForeach_eq h

/-! ### Sequences of calls -/

/-- The two functions that change the table: `HPT_index`, with the entry that `ctx->fld`
describes, and `HPT_adjust`. -/
inductive TblOp
  | index (e : Entry)
  | adjust

/-- A call to one of them, with the context and the limits it is made under. -/
structure TblCall where
  ctx : Ctx
  max : ℕ
  lim : ℤ
  cap : ℤ
  nxt : ℤ
  min : ℤ
  op : TblOp

/-- Set the context and the limits of the codec. -/
def TblCall.prepare (c : TblCall) (hp : Hpack) : Hpack :=
  { hp with
    ctx := c.ctx
    sz := { hp.sz with max := c.max, lim := c.lim, cap := c.cap, nxt := c.nxt, min := c.min } }

/-- The limit a call is made under. -/
def TblCall.limit (c : TblCall) : ℕ := if 0 ≤ c.lim then c.lim.toNat else c.max

/-- Make a call. -/
def TblCall.run (c : TblCall) : Cp Unit := do
  modify c.prepare
  match c.op with
  | .index _ => hptIndex
  | .adjust => do
    let hp ← get
    hpackAdjust hp.sz.len

/-- Make calls one after the other. -/
def runCalls : List TblCall → Cp Unit
  | [] => pure ()
  | c :: cs => do c.run; runCalls cs

/-- A call for the context of the codec, that meets the assertions on the limits, under a limit
that was allocated, and for a field outside of the table. -/
structure TblCall.Legal (c : TblCall) (hp : Hpack) : Prop where
  own : c.ctx.hp = hp.addr
  notifies : (c.prepare hp).Notifies
  alloc : c.limit ≤ hp.tbl.length
  op : match c.op with
    | .index e => (c.prepare hp).FldIs e ∧ c.lim ≤ c.max
    | .adjust => c.lim ≤ c.max ∨ c.max < c.nxt

/-- The same call on a list of entries. -/
def TblCall.fifo (c : TblCall) (l : List Entry) : List Entry :=
  match c.op with
  | .index e => fit Entry.size c.limit (e :: l)
  | .adjust => fit Entry.size c.limit l

theorem TblCall.Legal.of_magic {c : TblCall} {hp' : Hpack} (h : c.Legal hp)
    (hm : hp'.magic = hp.magic) (ha : hp'.addr = hp.addr)
    (hl : hp'.tbl.length = hp.tbl.length) : c.Legal hp' where
  own := h.own.trans ha.symm
  notifies := by
    have := h.notifies
    simpa only [Hpack.Notifies, TblCall.prepare, hm] using this
  alloc := hl ▸ h.alloc
  op := by
    have hop := h.op
    cases hc : c.op with
    | index e =>
      rw [hc] at hop
      exact ⟨hop.1.of_ctx rfl, hop.2⟩
    | adjust =>
      rw [hc] at hop
      exact hop

/-- One call refines its counterpart on lists. -/
theorem TblCall.run_refines {c : TblCall} (h : hp.toTable.Rep l) (hc : c.Legal hp) :
    ∃ hp' : Hpack, c.run hp = .ok () hp' ∧ hp'.toTable.Rep (c.fifo l) ∧
      hp'.ctx.hp = hp'.addr ∧ hp'.magic = hp.magic ∧ hp'.addr = hp.addr ∧
      hp'.tbl.length = hp.tbl.length := by
  have hrep : (c.prepare hp).toTable.Rep l := ⟨h.cnt, h.len, h.mem⟩
  have hop := hc.op
  have hmem : (c.prepare hp).sz.limit ≤ (c.prepare hp).tbl.length := hc.alloc
  unfold TblCall.run TblCall.fifo
  cases hop' : c.op with
  | index e =>
    rw [hop'] at hop
    obtain ⟨t, hrun, hrep', hlen, -⟩ := hptIndex_eq hrep hop.1 hc.notifies hop.2 hmem
    exact ⟨_, hrun, hrep', hc.own, rfl, rfl, hlen⟩
  | adjust =>
    rw [hop'] at hop
    exact ⟨_, hpackAdjust_eq hrep hc.notifies hop, hrep.keep (fit_isPrefix _ l), hc.own, rfl, rfl,
      rfl⟩

/-- From a table that holds a list, any sequence of calls returns and computes `Fifo.fit`. -/
theorem runCalls_rep (calls : List TblCall) (h : hp.toTable.Rep l) (hown : hp.ctx.hp = hp.addr)
    (hc : ∀ c ∈ calls, c.Legal hp) :
    ∃ hp' : Hpack, runCalls calls hp = .ok () hp' ∧
      hp'.toTable.Rep (calls.foldl (fun l c => c.fifo l) l) ∧ hp'.ctx.hp = hp'.addr := by
  induction calls generalizing hp l with
  | nil => exact ⟨hp, rfl, h, hown⟩
  | cons c cs ih =>
    obtain ⟨hp₁, hrun₁, hrep₁, hown₁, hm₁, ha₁, hl₁⟩ :=
      c.run_refines h (hc c List.mem_cons_self)
    have hcs : ∀ c ∈ cs, c.Legal hp₁ := fun c hmem =>
      (hc c (List.mem_cons_of_mem _ hmem)).of_magic hm₁ ha₁ hl₁
    obtain ⟨hp₂, hrun₂, hrep₂, hown₂⟩ := ih hrep₁ hown₁ hcs
    refine ⟨hp₂, ?_, hrep₂, hown₂⟩
    rw [runCalls, bind_apply, hrun₁, Out.bind_ok, hrun₂]

/-- **The table is a first-in first-out store**: from an empty table, any sequence of calls
returns and computes `Fifo.fit`, the memory of the table is the resulting list, and the
functions that read the table give it back. -/
theorem runCalls_refines (calls : List TblCall) (hcnt : hp.cnt = 0) (hlen : hp.sz.len = 0)
    (hown : hp.ctx.hp = hp.addr) (hc : ∀ c ∈ calls, c.Legal hp) :
    ∃ hp' : Hpack, runCalls calls hp = .ok () hp' ∧
      hp'.toTable.Rep (calls.foldl (fun l c => c.fifo l) []) ∧
      hp'.Lists (calls.foldl (fun l c => c.fifo l) []) := by
  have hempty : hp.toTable.Rep [] := ⟨hcnt, hlen, [], hp.tbl, rfl, .nil 0⟩
  obtain ⟨hp', hrun, hrep, hown'⟩ := runCalls_rep calls hempty hown hc
  exact ⟨hp', hrun, hrep, hrep.lists hown'⟩

/-- An empty table of 64 octets. -/
def emptyCodec : Hpack := Hpack.init .encoder 64 64 true ⟨1, fun _ => 0⟩

/-- The insertion of a field whose name and value have one octet each. -/
def insertCall (nam val : UInt8) : TblCall where
  ctx := { Ctx.zero with hp := 1, fld := ⟨.str [nam], .str [val], 1, 1⟩ }
  max := 64
  lim := -1
  cap := -1
  nxt := -1
  min := -1
  op := .index ⟨[nam], [val], by simp, by simp [uint16Max], by simp [uint16Max]⟩

theorem insertCall_legal (nam val : UInt8) : (insertCall nam val).Legal emptyCodec where
  own := rfl
  notifies := Or.inl rfl
  alloc := le_of_eq rfl
  op := by
    refine ⟨⟨fun off h => ?_, fun off h => ?_, rfl, rfl, rfl, rfl⟩, by simp [insertCall]⟩
    · exact Ptr.noConfusion h
    · exact Ptr.noConfusion h

theorem runCalls_refines_evict :
    ∃ hp' : Hpack, runCalls [insertCall 97 98, insertCall 99 100] emptyCodec = .ok () hp' ∧
      hp'.toTable.Rep [⟨[99], [100], by decide, by decide, by decide⟩] := by
  obtain ⟨hp', hrun, hrep, -⟩ := runCalls_refines
    [insertCall 97 98, insertCall 99 100] (show emptyCodec.cnt = 0 from rfl) rfl rfl (by
      rintro c hc
      simp only [List.mem_cons, List.not_mem_nil, or_false] at hc
      rcases hc with rfl | rfl <;> exact insertCall_legal ..)
  exact ⟨hp', hrun, hrep⟩

end Cashpack
