import Cashpack.Search.Dynamic
import Cashpack.Encoder.Failure

/-!
# Cleaning fields

`hpack_clean_field` undoes what an application and `hpack_auto_index` set in a field.  The
automatic index turns a literal field into an indexed one when the tables hold its name and its
value, and leaves the flags that ask for Huffman coding, which no indexed field may have.

## Main results

* `hptSearch_hasField` : a search that returns finds a name and a value exactly when they can be
  read in the tables.
* `hpackCleanField_iff` : the fields that can be cleaned.
* `encoded_cleaned` : a well-formed field that was encoded can be cleaned, exactly when it is not
  one to be coded with Huffman that the tables held.
-/

namespace Cashpack

open Prog

variable {hp hp' : Hpack} {t : Table} {fld : Field}

/-! ### Exact matches -/

/-- The null-terminated string at an offset of the table. -/
def Table.cstr (t : Table) (off : ℕ) : Octets := (t.tbl.drop off).takeWhile (· ≠ 0)

/-- The names and values that can be read in the table, in `cnt` entries from an offset. -/
def Table.strings (t : Table) : ℕ → ℕ → List (Octets × Octets)
  | 0, _ => []
  | cnt + 1, he =>
    let e := HptEntry.parse (t.tbl.drop he)
    (t.cstr (he + hptHeaderSz), t.cstr (he + hptHeaderSz + e.namSz + 1)) ::
      t.strings cnt (he + e.size)

/-- An entry of the tables has this name and this value. -/
def Hpack.HasField (hp : Hpack) (nam val : Octets) : Prop :=
  (∃ e ∈ hptStatic, e.nam = nam ∧ e.val = val) ∨ (nam, val) ∈ hp.toTable.strings hp.cnt 0

instance (hp : Hpack) (nam val : Octets) : Decidable (hp.HasField nam val) := by
  unfold Hpack.HasField
  infer_instance

theorem readCStr_holds (off : ℕ) (t : Table) :
    (readCStr off t).Holds (fun s t' => s = t.cstr off ∧ t' = t) (fun _ => False)
      fun _ => True := by
  unfold readCStr
  split
  · exact ⟨rfl, rfl⟩
  · trivial

theorem readEntry_holds (he : ℕ) (t : Table) :
    (readEntry he t).Holds (fun e t' => e = .parse (t.tbl.drop he) ∧ t' = t) (fun _ => False)
      fun _ => True := by
  unfold readEntry
  split
  · exact ⟨rfl, rfl⟩
  · trivial

/-- The loop of `HPT_search` ends on an entry exactly when its strings can be read. -/
theorem hptSearchLoop_strings (nam val : Octets) (cnt i namIdx off he : ℕ) (t : Table) :
    (hptSearchLoop nam val cnt i namIdx off he t).Holds
      (fun r t' => t' = t ∧ (r.2 = true ↔ (nam, val) ∈ t.strings cnt he)) (fun _ => False)
      fun _ => True := by
  induction cnt generalizing i namIdx off he with
  | zero =>
    rw [hptSearchLoop, bind_apply, get_apply, Out.bind_ok]
    refine .assert_bind trivial fun _ => ⟨rfl, ?_⟩
    simp [Table.strings]
  | succ cnt ih =>
    rw [hptSearchLoop, bind_apply, get_apply, Out.bind_ok]
    refine .assert_bind trivial fun _ => ?_
    rw [bind_apply]
    refine (readEntry_holds he t).bind ?_
    rintro tmp _ ⟨rfl, rfl⟩
    refine .assert_bind trivial fun _ => .assert_bind trivial fun _ => ?_
    refine .assert_bind trivial fun _ => ?_
    rw [bind_apply]
    refine (readCStr_holds _ _).bind ?_
    rintro n t ⟨rfl, rfl⟩
    simp only [Table.strings, List.mem_cons, Prod.mk.injEq]
    rw [ite_run]
    split
    · rename_i hn
      rw [bind_apply]
      refine (readCStr_holds _ _).bind ?_
      rintro v t ⟨rfl, rfl⟩
      rw [ite_run]
      split
      · rename_i hv
        exact ⟨rfl, by simp [hn, hv]⟩
      · rename_i hv
        refine (ih ..).mono (fun r t' h => ⟨h.1, ?_⟩) (fun _ h => h) fun _ h => h
        rw [h.2]
        exact ⟨Or.inr, fun h => h.resolve_left fun h => hv h.2⟩
    · rename_i hn
      refine (ih ..).mono (fun r t' h => ⟨h.1, ?_⟩) (fun _ h => h) fun _ h => h
      rw [h.2]
      exact ⟨Or.inr, fun h => h.resolve_left fun h => hn h.1⟩

/-- A search that returns finds exactly the names and values that can be read in the tables. -/
theorem hptSearch_hasField (nam val : Octets) (hp : Hpack) :
    (hptSearch nam val hp).Holds
      (fun r hp' => hp' = hp ∧ r.1 ≠ .arg ∧ (r.1 = .ok ↔ hp.HasField nam val)) (fun _ => False)
      fun _ => True := by
  obtain ⟨r, hr, hst⟩ := hptBsearch_eq nam val hp.toTable
  rw [hptSearch, bind_apply, onTable_eq hr, Out.bind_ok, Hpack.withTable_self]
  have hdyn : (∀ e ∈ hptStatic, e.nam = nam → e.val ≠ val) → ∀ idx : ℕ,
      ((do ctxHp; onTable (hptSearchDynamic nam val idx) : Cp (Res × ℕ)) hp).Holds
        (fun r hp' => hp' = hp ∧ r.1 ≠ .arg ∧ (r.1 = .ok ↔ hp.HasField nam val)) (fun _ => False)
        fun _ => True := by
    intro hno idx
    by_cases hown : hp.ctx.hp = hp.addr
    swap
    · rw [bind_apply, ctxHp_fault hown]
      trivial
    rw [bind_apply, ctxHp_eq hown, Out.bind_ok]
    have hloop : (hptSearchDynamic nam val idx hp.toTable).Holds
        (fun r t' => t' = hp.toTable ∧ r.1 ≠ .arg ∧ (r.1 = .ok ↔ hp.HasField nam val))
        (fun _ => False) fun _ => True := by
      rw [hptSearchDynamic, bind_apply, get_apply, Out.bind_ok, bind_apply]
      refine (hptSearchLoop_strings nam val _ 0 idx 0 0 hp.toTable).bind fun r t' h => ?_
      obtain ⟨idx', exact⟩ := r
      obtain ⟨rfl, h⟩ := h
      have hfield : hp.HasField nam val ↔ exact = true := by
        refine Iff.trans ⟨fun hf => hf.resolve_left ?_, Or.inr⟩ h.symm
        rintro ⟨e, he, hn, hv⟩
        exact hno e he hn hv
      refine ⟨rfl, ?_⟩
      rw [hfield]
      cases exact with
      | true => simp
      | false => by_cases h0 : 0 < idx' <;> simp [h0]
    exact (onTable_holds hloop).mono (fun r hp' h => by
      obtain ⟨⟨ht, h⟩, hw⟩ := h
      refine ⟨?_, h⟩
      rw [hw, ht, Hpack.withTable_self]) (fun _ h => h.1) fun _ h => h
  cases hst with
  | ok he hn hv => exact ⟨rfl, Res.noConfusion, fun _ => Or.inl ⟨_, he, hn, hv⟩, fun _ => rfl⟩
  | nam he hn hno =>
    dsimp only
    rw [ite_run, if_neg Res.noConfusion]
    exact .assert_bind trivial fun _ => hdyn hno _
  | idx hno =>
    dsimp only
    rw [ite_run, if_neg Res.noConfusion]
    exact .assert_bind trivial fun _ => hdyn (fun e he hn _ => hno e he hn) _

theorem hpackSearch_hasField (nam val : Option CStr) (hp : Hpack) :
    (hpackSearch nam val hp).Holds
      (fun r hp' => hp' = hp ∧ (r.1 ≠ .arg →
        (r.1 = .ok ↔ ∃ n v, nam = some n ∧ val = some v ∧ hp.HasField n.bytes v.bytes)))
      (fun _ => False) fun _ => True := by
  rw [hpackSearch, bind_apply, get_apply, Out.bind_ok]
  cases nam with
  | none => exact ⟨rfl, fun h => absurd rfl h⟩
  | some nam =>
    dsimp only
    rw [ite_run]
    split
    · exact ⟨rfl, fun h => absurd rfl h⟩
    rw [bind_apply]
    refine (hptSearch_hasField _ _ hp).bind fun r hp' h => ?_
    obtain ⟨r, idx⟩ := r
    obtain ⟨rfl, -, hr⟩ := h
    refine ⟨rfl, fun _ => ?_⟩
    cases val with
    | none =>
      have hne : (if r = .ok ∧ (none : Option CStr) = none then Res.nam else r) ≠ .ok := by
        split_ifs with h
        · exact Res.noConfusion
        · exact fun h' => h ⟨h', rfl⟩
      exact ⟨fun h => absurd h hne, by rintro ⟨n, v, -, hv, -⟩; cases hv⟩
    | some val =>
      have heq : (if r = .ok ∧ some val = none then Res.nam else r) = r := by simp
      dsimp only
      rw [heq]
      refine hr.trans ⟨fun h => ⟨nam, val, rfl, rfl, h⟩, ?_⟩
      rintro ⟨n, v, hn, hv, h⟩
      cases hn
      cases hv
      exact h

/-! ### Automatic indexing -/

/-- A field of one type, whose strings, indices and flags are the ones the manual asks for. -/
structure Field.WellFormed (fld : Field) : Prop where
  typ : (fld.typIdx, fld.typDyn, fld.typLit, fld.typNvr) ∈
    [(true, false, false, false), (false, true, false, false), (false, false, true, false),
      (false, false, false, true)]
  ext : fld.ext = 0
  idx : fld.typIdx = false → fld.idx = 0
  namIdx : fld.namIdxF = false → fld.namIdx = 0
  namIdxF : fld.typIdx = true → fld.namIdxF = false
  namHuf : fld.typIdx = true ∨ fld.namIdxF = true → fld.namHuf = false
  valHuf : fld.typIdx = true → fld.valHuf = false
  nam : if fld.typIdx = true ∨ fld.namIdxF = true then fld.autIdx = false → fld.nam = none
    else fld.nam ≠ none
  val : if fld.typIdx = true then fld.autIdx = false → fld.val = none else fld.val ≠ none

/-- The field is looked up in the tables, with its value. -/
def Field.LooksUp (fld : Field) : Prop :=
  fld.autIdx = true ∧ fld.typIdx = false ∧ fld.namIdxF = false ∧ fld.typNvr = false

/-- The automatic index finds the name and the value of the field in the tables. -/
def Field.Exact (fld : Field) (hp : Hpack) : Prop :=
  fld.LooksUp ∧ ∃ nam val, fld.nam = some nam ∧ fld.val = some val ∧
    hp.HasField nam.bytes val.bytes

/-- The field as `hpack_auto_index` rewrites it. -/
inductive Field.Rewritten (fld : Field) (hp : Hpack) : Field → Prop
  | kept (h : fld.autIdx = false ∨ fld.typIdx = true ∨ fld.namIdxF = true) : Rewritten fld hp fld
  | name (found : Bool) (idx : UInt16) (haut : fld.autIdx = true) (htyp : fld.typIdx = false)
      (hno : ¬ fld.Exact hp) (hidx : found = false → idx = 0) :
      Rewritten fld hp { fld with idx := 0, namIdxF := found, namIdx := idx }
  | full (idx : UInt16) (h : fld.Exact hp) :
      Rewritten fld hp { fld with
        typIdx := true, typDyn := false, typLit := false, typNvr := false
        idx := idx, namIdx := 0 }

theorem hpackAutoIndex_rewritten (haut : fld.autIdx = true) (hp : Hpack) :
    (hpackAutoIndex fld hp).Holds (fun r hp' => hp' = hp ∧ (r.2 = false → fld.Rewritten hp r.1))
      (fun _ => False) fun _ => True := by
  rw [hpackAutoIndex, ite_run]
  split
  · rename_i h
    exact ⟨rfl, fun _ => .kept (Or.inr h)⟩
  rename_i h
  obtain ⟨htyp, hnam⟩ : fld.typIdx = false ∧ fld.namIdxF = false := by simpa using h
  dsimp only
  rw [bind_apply]
  refine (hpackSearch_hasField _ _ hp).bind fun r hp' hr => ?_
  obtain ⟨res, idx⟩ := r
  obtain ⟨rfl, hr⟩ := hr
  -- the value is not looked up for a field that is never indexed
  have hexact : res ≠ .arg → (res = .ok ↔ fld.Exact hp') := by
    intro hres
    rw [hr hres]
    constructor
    · rintro ⟨n, v, hn, hv, hf⟩
      cases hnvr : fld.typNvr with
      | true => simp [hnvr] at hv
      | false => exact ⟨⟨haut, htyp, hnam, hnvr⟩, n, v, hn, by simpa [hnvr] using hv, hf⟩
    · rintro ⟨⟨-, -, -, hnvr⟩, n, v, hn, hv, hf⟩
      exact ⟨n, v, hn, by simpa [hnvr] using hv, hf⟩
  dsimp only
  split
  · exact ⟨rfl, Bool.noConfusion⟩
  · have hno : ¬ fld.Exact hp' := fun h => Res.noConfusion ((hexact Res.noConfusion).2 h)
    exact ⟨rfl, fun _ => .name true _ haut htyp hno Bool.noConfusion⟩
  · refine .assert_bind trivial fun _ => ⟨rfl, fun _ => ?_⟩
    exact .full _ ((hexact Res.noConfusion).1 rfl)
  · have hno : ¬ fld.Exact hp' := fun h => Res.noConfusion ((hexact Res.noConfusion).2 h)
    refine ⟨rfl, fun _ => ?_⟩
    have := Field.Rewritten.name false 0 haut htyp hno fun _ => rfl
    rwa [← hnam] at this
  · trivial

/-! ### Cleaning -/

/-- A field whose members are all zero or `NULL`. -/
def Field.zero : Field :=
  ⟨false, false, false, false, false, false, false, false, 0, 0, 0, none, none⟩

/-- What `hpack_clean_field` needs to leave nothing in a field. -/
@[mk_iff cleanable_iff]
structure Field.Cleanable (fld : Field) : Prop where
  typ : (fld.typIdx, fld.typDyn, fld.typLit, fld.typNvr) ∈
    [(true, false, false, false), (false, true, false, false), (false, false, true, false),
      (false, false, false, true)]
  ext : fld.ext = 0
  idx : fld.typIdx = false → fld.idx = 0
  namIdx : fld.typIdx = true ∨ fld.namIdxF = false → fld.namIdx = 0
  flags : fld.typIdx = true → fld.namIdxF = false ∧ fld.namHuf = false ∧ fld.valHuf = false
  nam : fld.typIdx = true ∨ fld.namIdxF = true → fld.autIdx = true ∨ fld.nam = none
  val : fld.typIdx = true → fld.autIdx = true ∨ fld.val = none

/-- `hpack_clean_field` returns OK and zeroes the field. -/
def Field.Cleans (fld : Field) : Prop := hpackCleanField fld () = .ok (.ok, .zero) ()

instance (fld : Field) : Decidable fld.Cleans := by
  unfold Field.Cleans
  infer_instance

/-- The checks at the end of `hpack_clean_field` pass on a field that is all zero. -/
theorem checkClean_iff (fld : Field) :
    (if fld.nam ≠ none ∨ fld.val ≠ none ∨ fld.namIdxF = true ∨ fld.namHuf = true ∨
        fld.valHuf = true ∨ fld.ext ≠ 0 then pure (Res.arg, fld)
      else do
        assert (fld.idx = 0)
        assert (fld.namIdx = 0)
        pure (Res.ok, fld) : Prog Unit (Res × Field)) () = .ok (.ok, .zero) () ↔ fld = .zero := by
  constructor
  · intro h
    rw [ite_run] at h
    split at h
    · cases h
    · rw [bind_apply, assert_apply] at h
      split at h
      · rw [Out.bind_ok, bind_apply, assert_apply] at h
        split at h
        · cases h
          rfl
        · cases h
      · cases h
  · rintro rfl
    rfl

/-- `hpack_clean_field` succeeds on the fields that only have what it cleans. -/
theorem hpackCleanField_iff (fld : Field) : fld.Cleans ↔ fld.Cleanable := by
  obtain ⟨typIdx, typDyn, typLit, typNvr, namIdxF, namHuf, valHuf, autIdx, ext, idx, namIdx, nam,
    val⟩ := fld
  rw [Field.cleanable_iff, Field.Cleans, hpackCleanField]
  dsimp only
  by_cases htyp : (typIdx, typDyn, typLit, typNvr) ∈
    [(true, false, false, false), (false, true, false, false), (false, false, true, false),
      (false, false, false, true)]
  swap
  · have hno : ¬ ((typIdx, typDyn, typLit, typNvr) = (true, false, false, false) ∨
        (typIdx, typDyn, typLit, typNvr) = (false, true, false, false) ∨
        (typIdx, typDyn, typLit, typNvr) = (false, false, true, false) ∨
        (typIdx, typDyn, typLit, typNvr) = (false, false, false, true)) := by
      simpa using htyp
    rw [ite_run, if_neg hno]
    refine ⟨fun h => ?_, fun h => absurd h.1 htyp⟩
    cases h
  simp only [List.mem_cons, List.not_mem_nil, or_false] at htyp
  rw [ite_run, if_pos htyp]
  refine (checkClean_iff _).trans ?_
  rcases htyp with h | h | h | h <;> cases h <;> cases namIdxF <;> cases autIdx <;>
    simp [Field.zero] <;> tauto

/-- The field asks for Huffman coding, and the automatic index finds its name and its value. -/
def Field.Leftover (fld : Field) (hp : Hpack) : Prop :=
  fld.Exact hp ∧ (fld.namHuf = true ∨ fld.valHuf = true)

/-- A rewritten field can be cleaned, unless it still asks for Huffman coding. -/
theorem Field.Rewritten.cleans {fld' : Field} (hwf : fld.WellFormed)
    (h : fld.Rewritten hp fld') : fld'.Cleans ↔ ¬ fld.Leftover hp := by
  rw [hpackCleanField_iff]
  cases h with
  | kept h =>
    refine iff_of_true ⟨hwf.typ, hwf.ext, hwf.idx, ?_, ?_, ?_, ?_⟩ ?_
    · rintro (htyp | hnam)
      · exact hwf.namIdx (hwf.namIdxF htyp)
      · exact hwf.namIdx hnam
    · exact fun htyp => ⟨hwf.namIdxF htyp, hwf.namHuf (Or.inl htyp), hwf.valHuf htyp⟩
    · intro hor
      have hnam := hwf.nam
      rw [if_pos hor] at hnam
      cases haut : fld.autIdx with
      | true => exact Or.inl rfl
      | false => exact Or.inr (hnam haut)
    · intro htyp
      have hval := hwf.val
      rw [if_pos htyp] at hval
      cases haut : fld.autIdx with
      | true => exact Or.inl rfl
      | false => exact Or.inr (hval haut)
    · rintro ⟨⟨⟨haut, htyp, hnam, -⟩, -⟩, -⟩
      simp [haut, htyp, hnam] at h
  | name found idx haut htyp hno hidx =>
    refine iff_of_true ⟨hwf.typ, hwf.ext, fun _ => rfl, ?_, ?_, fun _ => Or.inl haut,
      fun _ => Or.inl haut⟩ fun h => hno h.1
    · rintro (htyp' | hfound)
      · exact absurd htyp' (by simp [htyp])
      · exact hidx hfound
    · exact fun htyp' => absurd htyp' (by simp [htyp])
  | full idx h =>
    obtain ⟨haut, htyp, hnam, -⟩ := h.1
    constructor
    · intro hc hleft
      obtain ⟨-, hnh, hvh⟩ := hc.flags rfl
      rcases hleft.2 with h | h
      · exact Bool.false_ne_true (hnh.symm.trans h)
      · exact Bool.false_ne_true (hvh.symm.trans h)
    · intro hleft
      have hhuf : fld.namHuf = false ∧ fld.valHuf = false := by
        simpa using fun h' => hleft ⟨h, h'⟩
      exact ⟨by simp, hwf.ext, fun h => absurd h (by simp), fun _ => rfl,
        fun _ => ⟨hnam, hhuf⟩, fun _ => Or.inl haut, fun _ => Or.inl haut⟩

/-! ### Encoding -/

/-- One turn of the loop rewrites its field as the tables it finds tell. -/
theorem hpackEncodeTurn_rewritten (fld : Field) (hp : Hpack) :
    (hpackEncodeTurn fld hp).Holds
      (fun r _ => (r.2 = none → fld.Rewritten hp r.1) ∧ r.2 ≠ some .ok ∧ r.2 ≠ some .blk)
      (fun _ => True) fun _ => True := by
  have haut : ((if fld.autIdx then hpackAutoIndex fld else pure (fld, false)) hp).Holds
      (fun r hp' => hp' = hp ∧ (r.2 = false → fld.Rewritten hp r.1)) (fun _ => True)
      fun _ => True := by
    rw [ite_run]
    split
    · rename_i haut
      exact (hpackAutoIndex_rewritten haut hp).mono (fun _ _ h => h) (fun _ _ => trivial)
        fun _ h => h
    · rename_i haut
      exact ⟨rfl, fun _ => .kept (Or.inl (by simpa using haut))⟩
  rw [hpackEncodeTurn, bind_apply]
  refine haut.bind fun r hp₁ hr => ?_
  obtain ⟨fld', arg⟩ := r
  obtain ⟨rfl, hr⟩ := hr
  dsimp only
  rw [ite_run]
  split
  · exact ⟨fun h => (Option.some_ne_none _ h).elim, by simp, by simp⟩
  rename_i harg
  have hrew := hr (by simpa using harg)
  rw [bind_apply]
  refine (Out.Holds.any (hpcNotify _ _)).bind fun _ hp₂ _ => ?_
  cases hpackEncodeAny fld' with
  | none => exact ⟨fun h => (Option.some_ne_none _ h).elim, by simp, by simp⟩
  | some enc =>
  dsimp only
  rw [bind_apply]
  refine (Out.Holds.any (attempt _ _)).bind fun r hp₃ _ => ?_
  cases r with
  | some _ => exact ⟨fun _ => hrew, by simp, by simp⟩
  | none =>
    dsimp only
    rw [bind_apply, get_apply, Out.bind_ok]
    refine .assert_bind trivial fun hok => .assert_bind trivial fun hblk => ?_
    refine ⟨fun h => (Option.some_ne_none _ h).elim, fun h => hok (Option.some.inj h),
      fun h => hblk (Option.some.inj h)⟩

/-- Fields are encoded one after the other. -/
theorem hpackEncodeLoop_append (flds flds' : List Field) (hp : Hpack) :
    hpackEncodeLoop (flds ++ flds') hp = (hpackEncodeLoop flds hp).bind fun p =>
      if p.2 = none then do
        let q ← hpackEncodeLoop flds'
        pure (p.1 ++ q.1, q.2)
      else pure (p.1 ++ flds', p.2) := by
  induction flds generalizing hp with
  | nil =>
    show hpackEncodeLoop flds' hp = (hpackEncodeLoop flds' hp).bind fun q => pure ([] ++ q.1, q.2)
    cases hpackEncodeLoop flds' hp <;> rfl
  | cons fld flds ih =>
    rw [List.cons_append, hpackEncodeLoop, hpackEncodeLoop, bind_apply, bind_apply]
    cases hpackEncodeTurn fld hp with
    | err _ => rfl
    | stop _ => rfl
    | ok r hp₁ =>
      obtain ⟨fld', r⟩ := r
      cases r with
      | some r => rfl
      | none =>
        simp only [Out.bind_ok, bind_apply, ih]
        cases hpackEncodeLoop flds hp₁ with
        | err _ => rfl
        | stop _ => rfl
        | ok q hp₂ =>
          obtain ⟨fs, r⟩ := q
          cases r with
          | some r => rfl
          | none =>
            simp only [Out.bind_ok, if_true, bind_apply, pure_apply]
            cases hpackEncodeLoop flds' hp₂ <;> rfl

theorem hpackEncodeLoop_length (flds : List Field) (hp : Hpack) :
    (hpackEncodeLoop flds hp).Holds (fun r _ => r.1.length = flds.length) (fun _ => True)
      fun _ => True := by
  induction flds generalizing hp with
  | nil => exact rfl
  | cons fld flds ih =>
    rw [hpackEncodeLoop, bind_apply]
    refine (Out.Holds.any (hpackEncodeTurn fld hp)).bind fun r hp₁ _ => ?_
    obtain ⟨fld', r⟩ := r
    cases r with
    | some r => exact rfl
    | none =>
      dsimp only
      rw [bind_apply]
      refine (ih hp₁).bind fun q _ hq => ?_
      exact congrArg Nat.succ hq

/-- Only an error ends the loop early. -/
theorem hpackEncodeLoop_res (flds : List Field) (hp : Hpack) :
    (hpackEncodeLoop flds hp).Holds (fun r _ => r.2 ≠ some .ok ∧ r.2 ≠ some .blk)
      (fun _ => True) fun _ => True := by
  induction flds generalizing hp with
  | nil => exact ⟨by simp, by simp⟩
  | cons fld flds ih =>
    rw [hpackEncodeLoop, bind_apply]
    refine (hpackEncodeTurn_rewritten fld hp).bind fun r hp₁ hr => ?_
    obtain ⟨fld', r⟩ := r
    cases r with
    | some r => exact hr.2
    | none =>
      dsimp only
      rw [bind_apply]
      exact (ih hp₁).bind fun q _ hq => hq

/-- The fields of a list are all encoded when those of its first part are, and the rest. -/
theorem hpackEncodeLoop_split {flds₁ flds₂ fs : List Field} {r : Option Res}
    (h : hpackEncodeLoop (flds₁ ++ flds₂) hp = .ok (fs, r) hp')
    (hr : r = none ∨ ∃ fs₁ hp₁, hpackEncodeLoop flds₁ hp = .ok (fs₁, none) hp₁) :
    ∃ fs₁ fs₂ hp₁, hpackEncodeLoop flds₁ hp = .ok (fs₁, none) hp₁ ∧
      hpackEncodeLoop flds₂ hp₁ = .ok (fs₂, r) hp' ∧ fs = fs₁ ++ fs₂ := by
  rw [hpackEncodeLoop_append] at h
  cases h₁ : hpackEncodeLoop flds₁ hp with
  | err _ => rw [h₁] at h; cases h
  | stop _ => rw [h₁] at h; cases h
  | ok p hp₁ =>
    obtain ⟨fs₁, r₁⟩ := p
    rw [h₁] at hr
    rw [h₁, Out.bind_ok] at h
    cases r₁ with
    | some r₁ =>
      rw [if_neg (Option.some_ne_none r₁)] at h
      cases h
      rcases hr with hr | ⟨fs', hp'', hr⟩
      · cases hr
      · cases hr
    | none =>
      rw [if_pos rfl, bind_apply] at h
      cases h₂ : hpackEncodeLoop flds₂ hp₁ with
      | err _ => rw [h₂] at h; cases h
      | stop _ => rw [h₂] at h; cases h
      | ok q hp₂ =>
        rw [h₂] at h
        cases h
        exact ⟨fs₁, q.1, hp₁, rfl, h₂, rfl⟩

/-- A field that was encoded is rewritten as the tables tell when its turn comes. -/
theorem hpackEncodeLoop_rewritten {flds fs : List Field} {r : Option Res} {i : ℕ}
    (h : hpackEncodeLoop flds hp = .ok (fs, r) hp')
    (hr : r = none ∨ ∃ fs₁ hp₁, hpackEncodeLoop (flds.take (i + 1)) hp = .ok (fs₁, none) hp₁)
    (hfld : flds[i]? = some fld) :
    ∃ fs₁ hpᵢ fld', hpackEncodeLoop (flds.take i) hp = .ok (fs₁, none) hpᵢ ∧
      fs[i]? = some fld' ∧ fld.Rewritten hpᵢ fld' := by
  obtain ⟨hi, hget⟩ := List.getElem?_eq_some_iff.1 hfld
  rw [← List.take_append_drop (i + 1) flds] at h
  obtain ⟨fs₁, fs₂, hp₁, h₁, -, rfl⟩ := hpackEncodeLoop_split h hr
  rw [List.take_add_one, hfld, Option.toList_some] at h₁
  obtain ⟨fs₃, fs₄, hpᵢ, h₃, h₄, rfl⟩ := hpackEncodeLoop_split h₁ (Or.inl rfl)
  have hlen : fs₃.length = i := by
    have := hpackEncodeLoop_length (flds.take i) hp
    rw [h₃] at this
    exact this.trans (List.length_take_of_le hi.le)
  -- the turn of the field itself
  have hturn := hpackEncodeTurn_rewritten fld hpᵢ
  rw [hpackEncodeLoop, bind_apply] at h₄
  cases ht : hpackEncodeTurn fld hpᵢ with
  | err _ => rw [ht] at h₄; cases h₄
  | stop _ => rw [ht] at h₄; cases h₄
  | ok p hp₂ =>
    obtain ⟨fld', r'⟩ := p
    rw [ht, Out.bind_ok] at h₄
    rw [ht] at hturn
    cases r' with
    | some _ => cases h₄
    | none =>
      cases h₄
      refine ⟨fs₃, hpᵢ, fld', h₃, ?_, hturn.1 rfl⟩
      rw [List.append_assoc, List.getElem?_append_right hlen.le, hlen, Nat.sub_self]
      rfl

/-- `hpack_encode` before the loop over the fields. -/
def hpackEncodeStart (enc : Encoding) : Cp Unit := do
  hpackEncodeBegin enc
  hpackEncodeResize
  hpackEncodeLimit
  modify fun hp => { hp with ctx.canUpd := false }

/-- `hpack_encode` on the first fields of a block. -/
def hpackEncodeTo (enc : Encoding) (i : ℕ) : Cp (List Field × Option Res) := do
  hpackEncodeStart enc
  hpackEncodeLoop (enc.fld.take i)

/-- What a call that returns did with its fields. -/
theorem hpackEncode_ok {enc : Encoding} {r : Res} {flds : List Field}
    (hm : hp.magic = .encoder) (hv : enc.Valid)
    (h : hpackEncode enc hp = .ok (r, flds) hp') :
    ∃ hp₁ r' hp₂, hpackEncodeStart enc hp = .ok () hp₁ ∧
      hpackEncodeLoop enc.fld hp₁ = .ok (flds, r') hp₂ ∧ (r' = none ∨ r' = some r) := by
  obtain ⟨hfld, hbuf, hlen, hcb⟩ := hv
  rw [hpackEncode, bind_apply, get_apply, Out.bind_ok, ite_run, if_neg (by simp [*])] at h
  obtain ⟨_, hp₁, h₁, h⟩ := bind_eq_ok h
  obtain ⟨_, hp₂, h₂, h⟩ := bind_eq_ok h
  obtain ⟨_, hp₃, h₃, h⟩ := bind_eq_ok h
  obtain ⟨_, hp₄, h₄, h⟩ := bind_eq_ok h
  obtain ⟨⟨fs, r'⟩, hp₅, h₅, h⟩ := bind_eq_ok h
  have hstart : hpackEncodeStart enc hp = .ok () hp₄ := by
    rw [hpackEncodeStart, bind_apply, h₁, Out.bind_ok, bind_apply, h₂, Out.bind_ok, bind_apply, h₃,
      Out.bind_ok, h₄]
  cases r' with
  | some r' =>
    cases h
    exact ⟨hp₄, _, _, hstart, h₅, Or.inr rfl⟩
  | none =>
    obtain ⟨_, hp₆, h₆, h⟩ := bind_eq_ok h
    obtain ⟨_, hp₇, h₇, h⟩ := bind_eq_ok h
    obtain ⟨_, hp₈, h₈, h⟩ := bind_eq_ok h
    obtain ⟨_, hp₉, h₉, h⟩ := bind_eq_ok h
    cases h
    exact ⟨hp₄, _, _, hstart, h₅, Or.inl rfl⟩

/-- The call gets past the field at position `i`. -/
def Encoded (enc : Encoding) (i : ℕ) (hp : Hpack) : Prop :=
  hp.magic = .encoder ∧ enc.Valid ∧
    ∃ flds hp', hpackEncodeTo enc (i + 1) hp = .ok (flds, none) hp'

/-- **A field can be cleaned once it was encoded**, exactly when it did not ask for Huffman coding
of strings that the automatic index found in the tables. -/
theorem encoded_cleaned {enc : Encoding} {r : Res} {flds : List Field} {i : ℕ}
    (hrun : hpackEncode enc hp = .ok (r, flds) hp')
    (hr : (r = .ok ∨ r = .blk) ∨ Encoded enc i hp) (hfld : enc.fld[i]? = some fld)
    (hwf : fld.WellFormed) :
    ∃ fs hpᵢ fld', hpackEncodeTo enc i hp = .ok (fs, none) hpᵢ ∧ flds[i]? = some fld' ∧
      (fld'.Cleans ↔ ¬ fld.Leftover hpᵢ) := by
  by_cases hvalid : hp.magic = .encoder ∧ enc.Valid
  swap
  · -- the arguments are refused, and nothing is encoded
    have hinv : hp.magic ≠ .encoder ∨ enc.fld = [] ∨ enc.buf = 0 ∨ enc.bufLen = 0 ∨
        enc.cb = false := by
      by_contra h
      simp only [not_or, Bool.not_eq_false, not_not] at h
      exact hvalid h
    rw [hpackEncode, bind_apply, get_apply, Out.bind_ok, ite_run, if_pos hinv] at hrun
    cases hrun
    rcases hr with (hr | hr) | ⟨hm, hv, -⟩
    · cases hr
    · cases hr
    · exact absurd ⟨hm, hv⟩ hvalid
  obtain ⟨hm, hv⟩ := hvalid
  obtain ⟨hp₁, r', hp₂, hstart, hloop, hr'⟩ := hpackEncode_ok hm hv hrun
  have hto : ∀ i, hpackEncodeTo enc i hp = hpackEncodeLoop (enc.fld.take i) hp₁ := by
    intro i
    rw [hpackEncodeTo, bind_apply, hstart, Out.bind_ok]
  have hdone : r' = none ∨
      ∃ fs hp₃, hpackEncodeLoop (enc.fld.take (i + 1)) hp₁ = .ok (fs, none) hp₃ := by
    rcases hr with hr | ⟨-, -, hr⟩
    · refine hr'.imp_right fun h => ?_
      have hne := hpackEncodeLoop_res enc.fld hp₁
      rw [hloop] at hne
      rcases hr with rfl | rfl
      · exact absurd h hne.1
      · exact absurd h hne.2
    · right
      rwa [hto] at hr
  obtain ⟨fs, hpᵢ, fld', hfs, hget, hrew⟩ := hpackEncodeLoop_rewritten hloop hdone hfld
  exact ⟨fs, hpᵢ, fld', (hto i).trans hfs, hget, hrew.cleans hwf⟩

/-- A field of the static table, to look up and to code with Huffman. -/
def methodField : Field :=
  ⟨false, false, true, false, false, false, true, true, 0, 0, 0,
    some ⟨[58, 109, 101, 116, 104, 111, 100], by decide⟩, some ⟨[71, 69, 84], by decide⟩⟩

theorem methodField_wellFormed : methodField.WellFormed where
  typ := by decide
  ext := rfl
  idx _ := rfl
  namIdx _ := rfl
  namIdxF _ := rfl
  namHuf _ := rfl
  valHuf h := absurd h (by decide)
  nam := by decide
  val := by decide

/-- The field as `hpack_auto_index` leaves it. -/
def indexedField : Field :=
  { methodField with typIdx := true, typLit := false, idx := 2 }

theorem hptSearch_method :
    hptSearch [58, 109, 101, 116, 104, 111, 100] [71, 69, 84] startedEncoder
      = .ok (.ok, 2) startedEncoder := by
  have hidx : ∀ e ∈ hptStatic, e.nam = [58, 109, 101, 116, 104, 111, 100] → e.val = [71, 69, 84] →
      e.idx = 2 := by
    decide +kernel
  have hmem : ∃ e ∈ hptStatic, e.nam = [58, 109, 101, 116, 104, 111, 100] ∧
      e.val = [71, 69, 84] := by
    decide +kernel
  obtain ⟨e, he, hn, hv⟩ := hmem
  obtain ⟨r, hr, hst⟩ := hptBsearch_eq [58, 109, 101, 116, 104, 111, 100] [71, 69, 84]
    startedEncoder.toTable
  rw [hptSearch, bind_apply, onTable_eq hr, Out.bind_ok, Hpack.withTable_self]
  cases hst with
  | ok he' hn' hv' =>
    rw [← hidx _ he' hn' hv']
    rfl
  | nam _ _ hno => exact absurd hv (hno e he hn)
  | idx hno => exact absurd hn (hno e he)

theorem hpackEncodeTurn_method :
    hpackEncodeTurn methodField startedEncoder = .ok (indexedField, none) { startedEncoder with
      ctx := { startedEncoder.ctx with cur := [0x82], log := [.field none 0] } } := by
  have hsearch : hpackSearch methodField.nam methodField.val startedEncoder
      = .ok (.ok, 2) startedEncoder := by
    rw [methodField, hpackSearch_eq (Or.inr rfl), Option.map_some, Option.getD_some,
      hptSearch_method]
    rfl
  have hauto : hpackAutoIndex methodField startedEncoder
      = .ok (indexedField, false) startedEncoder := by
    rw [hpackAutoIndex, ite_run, if_neg (by decide)]
    dsimp only
    rw [bind_apply, if_neg (by decide), hsearch, Out.bind_ok]
    rfl
  rw [hpackEncodeTurn, bind_apply, if_pos (show methodField.autIdx = true from rfl), hauto,
    Out.bind_ok]
  decide +kernel

/-- A field to code with Huffman that is found in the static table cannot be cleaned. -/
theorem encoded_cleaned_false :
    NewEncoder 100 (-1) smallEncoder ∧ methodField.WellFormed ∧
      hpackEncode (encodingOf [methodField]) smallEncoder
        = .ok (.ok, [indexedField]) { startedEncoder with
            ctx := { startedEncoder.ctx with
              res := .ok
              log := [.field none 0, .data [0x82]] } } ∧
      ¬ indexedField.Cleans := by
  refine ⟨smallEncoder_new, methodField_wellFormed, ?_, by decide⟩
  have hbegin : hpackEncodeBegin (encodingOf [methodField]) smallEncoder
      = .ok () { startedEncoder with ctx := { startedEncoder.ctx with canUpd := true } } := by
    decide +kernel
  rw [hpackEncode, bind_apply, get_apply, Out.bind_ok, ite_run, if_neg (by decide), bind_apply,
    hbegin, Out.bind_ok]
  -- there is no size update to send
  show (hpackEncodeLoop [methodField] startedEncoder).bind _ = _
  rw [hpackEncodeLoop, bind_apply, hpackEncodeTurn_method]
  rfl

theorem encoded_cleaned_idx : (idxField 2).Cleans := by
  have hwf : (idxField 2).WellFormed :=
    ⟨by decide, rfl, by decide, fun _ => rfl, fun _ => rfl, fun _ => rfl, fun _ => rfl, by decide,
      by decide⟩
  have hrun : hpackEncode (encodingOf [idxField 2]) smallEncoder
      = .ok (.ok, [idxField 2]) { startedEncoder with
          ctx := { startedEncoder.ctx with
            res := .ok
            log := [.field none 0, .data [0x82]] } } := by
    decide +kernel
  obtain ⟨fs, hpᵢ, fld', -, hget, hiff⟩ :=
    encoded_cleaned (i := 0) hrun (Or.inl (Or.inl rfl)) rfl hwf
  cases hget
  refine hiff.2 ?_
  rintro ⟨⟨⟨haut, -⟩, -⟩, -⟩
  exact absurd haut (by decide)

end Cashpack
