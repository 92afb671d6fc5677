import Cashpack.Decoder.Runs
import Cashpack.Decoder.Memory
import Cashpack.Encoder.Memory
import Cashpack.Search.Static

/-!
# Searching the tables

`hpack_search` looks for a name and a value in the static table, then in the dynamic one, where
the loop of `HPT_search` follows the entries.  `entryAt` is what the application knows of both:
the names and values by index.

## Main results

* `hptSearchLoop_eq` : the loop over the dynamic table searches the list it holds.
* `hpackSearch_found` : the result of a search is the one a scan of both tables gives.
-/

namespace Cashpack

open Prog Fifo

/-! ### The dynamic table -/

/-- The loop of `HPT_search`, on the list of entries: `i` entries were compared. -/
def searchEntries (nam val : Octets) : List Entry → ℕ → ℕ → ℕ × Bool
  | [], _, namIdx => (namIdx, false)
  | e :: l, i, namIdx =>
    if nam = e.nam then
      if val = e.val then (i + hpackStatic + 1, true)
      else searchEntries nam val l (i + 1) (i + hpackStatic + 1)
    else searchEntries nam val l (i + 1) namIdx

/-- The strings of the entry have no null octet. -/
def Entry.NoNul (e : Entry) : Prop := 0 ∉ e.nam ∧ 0 ∉ e.val

section

variable {t : Table} {l : List Entry} {m a b : Octets} {pre : ℕ}

/-- A string is read up to its terminator. -/
theorem readCStr_eq {s : Octets} {off : ℕ} (ht : t.tbl = a ++ (s ++ (0 :: b)))
    (ha : a.length = off) (hs : 0 ∉ s) : readCStr off t = .ok s t := by
  have hdrop : t.tbl.drop off = s ++ (0 :: b) := by
    rw [ht, List.drop_left' ha]
  have hmem : (0 : UInt8) ∈ t.tbl.drop off := by simp [hdrop]
  rw [readCStr, if_pos hmem, hdrop, List.takeWhile_append_of_pos, List.takeWhile_cons_of_neg,
    List.append_nil]
  · simp
  · intro x hx
    have hne : x ≠ 0 := fun h => hs (h ▸ hx)
    simpa using hne

/-- The loop of `HPT_search` searches the list the table holds. -/
theorem hptSearchLoop_eq (nam val : Octets) {i : ℕ} (namIdx : ℕ) (ht : t.tbl = a ++ (m ++ b))
    (hm : IsTable pre l m) (hpre : pre < 2 ^ 64) (hlen : t.sz.len = a.length + m.length)
    (hnul : ∀ e ∈ l, e.NoNul) (hi : i + l.length + hpackStatic < 65536) :
    hptSearchLoop nam val l.length i namIdx pre a.length t
      = .ok (searchEntries nam val l i namIdx) t := by
  induction l generalizing pre a m i namIdx with
  | nil =>
    obtain rfl := isTable_nil.1 hm
    simp [hptSearchLoop, assert_apply, hlen, searchEntries]
  | cons e l ih =>
    obtain ⟨m₁, m₂, rfl, h₁, h₂⟩ := isTable_cons.1 hm
    rw [List.append_assoc] at ht
    have hlt : a.length < t.sz.len := by
      have := e.size_gt
      rw [hlen, List.length_append, h₁.length]
      omega
    obtain ⟨x, hx, hxl⟩ := h₁.split
    obtain ⟨hnnam, hnval⟩ := hnul e List.mem_cons_self
    have hnam : readCStr (a.length + hptHeaderSz) t = .ok e.nam t :=
      readCStr_eq (a := a ++ x) (b := (e.val ++ [0]) ++ (m₂ ++ b)) (by simp [ht, hx])
        (by simp [hxl]) hnnam
    have hval : readCStr (a.length + hptHeaderSz + e.nam.length + 1) t = .ok e.val t :=
      readCStr_eq (a := a ++ (x ++ (e.nam ++ [0]))) (b := m₂ ++ b) (by simp [ht, hx])
        (by simp [hxl]; omega) hnval
    have h64 : e.size < 2 ^ 64 := by
      have := e.size_lt
      omega
    have htail : ∀ namIdx, hptSearchLoop nam val l.length (i + 1) namIdx e.size
        (a.length + e.size) t = .ok (searchEntries nam val l (i + 1) namIdx) t := by
      intro namIdx
      have := ih (i := i + 1) (a := a ++ m₁) namIdx (ht.trans (List.append_assoc ..).symm) h₂ h64
        (by simp [hlen, Nat.add_assoc]) (fun e' he' => hnul e' (List.mem_cons_of_mem _ he'))
        (by simp only [List.length_cons] at hi; omega)
      rwa [List.length_append, h₁.length] at this
    have hidx : (i + hpackStatic + 1) % 65536 = i + hpackStatic + 1 := by
      simp only [List.length_cons] at hi
      exact Nat.mod_eq_of_lt (by omega)
    have hsz : HptEntry.size ⟨hptEntryMagic, pre, e.nam.length, e.val.length⟩ = e.size := rfl
    rw [List.length_cons, hptSearchLoop, searchEntries]
    simp only [bind_apply, get_apply, Out.bind_ok, assert_apply, hlt, if_true,
      readEntry_eq ht h₁ hpre, Entry.header, e.nam_pos, hnam, ite_run, hval, hidx, hsz, htail,
      pure_apply]
    split
    · split <;> rfl
    · rfl

end

/-- What the search of a list of entries finds, `i` entries being before them. -/
inductive DynamicFound (nam val : Octets) (l : List Entry) (i namIdx : ℕ) : ℕ × Bool → Prop
  | exact {j : ℕ} {e : Entry} (he : l[j]? = some e) (hnam : e.nam = nam) (hval : e.val = val) :
      DynamicFound nam val l i namIdx (i + j + hpackStatic + 1, true)
  | name {j : ℕ} {e : Entry} (he : l[j]? = some e) (hnam : e.nam = nam)
      (hno : ∀ e ∈ l, e.nam = nam → e.val ≠ val) :
      DynamicFound nam val l i namIdx (i + j + hpackStatic + 1, false)
  | none (hno : ∀ e ∈ l, e.nam ≠ nam) : DynamicFound nam val l i namIdx (namIdx, false)

theorem searchEntries_found (nam val : Octets) (l : List Entry) (i namIdx : ℕ) :
    DynamicFound nam val l i namIdx (searchEntries nam val l i namIdx) := by
  induction l generalizing i namIdx with
  | nil => exact .none (List.forall_mem_nil _)
  | cons e l ih =>
    rw [searchEntries]
    split
    · rename_i hnam
      split
      · rename_i hval
        exact .exact (j := 0) rfl hnam.symm hval.symm
      · rename_i hval
        generalize hr : searchEntries nam val l (i + 1) (i + hpackStatic + 1) = r
        have htail := ih (i + 1) (i + hpackStatic + 1)
        rw [hr] at htail
        have hno : ∀ {e'}, e' ∈ e :: l → (∀ e ∈ l, e.nam = nam → e.val ≠ val) → e'.nam = nam →
            e'.val ≠ val := by
          intro e' he' htl hn
          rcases List.mem_cons.1 he' with rfl | he'
          · exact fun h => hval h.symm
          · exact htl e' he' hn
        cases htail with
        | @exact j e' he' hn hv =>
          rw [Nat.add_assoc i 1 j, Nat.add_comm 1 j]
          exact .exact (j := j + 1) he' hn hv
        | @name j e' he' hn hno' =>
          rw [Nat.add_assoc i 1 j, Nat.add_comm 1 j]
          exact .name (j := j + 1) he' hn fun e'' h'' => hno h'' hno'
        | none hno' =>
          exact .name (j := 0) rfl hnam.symm fun e'' h'' => hno h'' fun e he hn =>
            absurd hn (hno' e he)
    · rename_i hnam
      have hne : e.nam ≠ nam := fun h => hnam h.symm
      generalize hr : searchEntries nam val l (i + 1) namIdx = r
      have htail := ih (i + 1) namIdx
      rw [hr] at htail
      cases htail with
      | @exact j e' he' hn hv =>
        rw [Nat.add_assoc i 1 j, Nat.add_comm 1 j]
        exact .exact (j := j + 1) he' hn hv
      | @name j e' he' hn hno' =>
        rw [Nat.add_assoc i 1 j, Nat.add_comm 1 j]
        exact .name (j := j + 1) he' hn (List.forall_mem_cons.2 ⟨fun h => absurd h hne, hno'⟩)
      | none hno' => exact .none (List.forall_mem_cons.2 ⟨hne, hno'⟩)

/-! ### Both tables -/

/-- The name and the value at an index of the two tables, `l` being the entries of the dynamic
one. -/
def entryAt (l : List Entry) (idx : ℕ) : Option (Octets × Octets) :=
  if idx = 0 then none
  else if idx ≤ hpackStatic then hptStatic[idx - 1]?.map fun e => (e.nam, e.val)
  else l[idx - hpackStatic - 1]?.map fun e => (e.nam, e.val)

/-- What a search for a name and a value returns: the index of an entry with both, else of an
entry with this name, else nothing. -/
inductive SearchFound (l : List Entry) (nam : Octets) (val : Option Octets) : Res × ℕ → Prop
  | ok {v : Octets} {idx : ℕ} (hval : val = some v) (h : entryAt l idx = some (nam, v)) :
      SearchFound l nam val (.ok, idx)
  | nam {v : Octets} {idx : ℕ} (h : entryAt l idx = some (nam, v))
      (hno : ∀ v, val = some v → ∀ idx, entryAt l idx ≠ some (nam, v)) :
      SearchFound l nam val (.nam, idx)
  | idx (hno : ∀ idx v, entryAt l idx ≠ some (nam, v)) : SearchFound l nam val (.idx, 0)

section

variable {l : List Entry} {idx : ℕ} {nam val : Octets}

theorem entryAt_static {e : HdrEntry} (h : e ∈ hptStatic) :
    entryAt l e.idx = some (e.nam, e.val) := by
  obtain ⟨hpos, hle, he⟩ := static_idx h
  rw [entryAt, if_neg hpos.ne', if_pos hle, he, Option.map_some]

theorem entryAt_dynamic {j : ℕ} {e : Entry} (h : l[j]? = some e) :
    entryAt l (0 + j + hpackStatic + 1) = some (e.nam, e.val) := by
  have hsub : 0 + j + hpackStatic + 1 - hpackStatic - 1 = j := by omega
  rw [entryAt, if_neg (by omega), if_neg (by omega), hsub, h, Option.map_some]

/-- An entry is in one of the tables. -/
theorem entryAt_cases (h : entryAt l idx = some (nam, val)) :
    (∃ e ∈ hptStatic, e.nam = nam ∧ e.val = val) ∨ ∃ e ∈ l, e.nam = nam ∧ e.val = val := by
  unfold entryAt at h
  split at h
  · cases h
  split at h
  · obtain ⟨e, he, heq⟩ := Option.map_eq_some_iff.1 h
    cases heq
    exact Or.inl ⟨e, List.mem_of_getElem? he, rfl, rfl⟩
  · obtain ⟨e, he, heq⟩ := Option.map_eq_some_iff.1 h
    cases heq
    exact Or.inr ⟨e, List.mem_of_getElem? he, rfl, rfl⟩

end

/-- A live codec in a state it can reach. -/
inductive Codec (hp : Hpack) : Prop
  | decoder {hp₀ : Hpack} (new : NewDecoder hp₀)
      (run : Reach DecOp.exec (fun _ _ => True) hp₀ hp) (live : hp.magic = .decoder) : Codec hp
  | encoder {max : ℕ} {lim : ℤ} {hp₀ : Hpack} (new : NewEncoder max lim hp₀)
      (run : Reach EncOp.exec (fun _ _ => True) hp₀ hp) (live : hp.magic = .encoder) : Codec hp

theorem Codec.live {hp : Hpack} (h : Codec hp) : hp.magic = .decoder ∨ hp.magic = .encoder := by
  cases h with
  | decoder _ _ live => exact Or.inl live
  | encoder _ _ live => exact Or.inr live

theorem Codec.tbl_le {hp : Hpack} (h : Codec hp) : hp.tbl.length ≤ uint16Max := by
  cases h with
  | decoder new run _ =>
    have hfits : hp.toTable.Fits False := (decoder_sound new run).1.1
    exact hfits.mem.trans_le hfits.mem_le
  | encoder new run _ => exact (encoder_bounded new run).tbl

variable {hp : Hpack} {l : List Entry}

/-- The tables have few entries. -/
theorem Table.Rep.length_le {t : Table} (h : t.Rep l) (hle : t.tbl.length ≤ uint16Max) :
    l.length + hpackStatic < 65536 := by
  have htotal : ∀ l : List Entry, l.length * (hpackOverhead + 1) ≤ total Entry.size l := by
    intro l
    induction l with
    | nil => simp
    | cons e l ih =>
      have := e.size_gt
      rw [List.length_cons, total_cons, Nat.add_mul]
      omega
  have h₁ := htotal l
  have h₂ := h.len_le
  have h₃ := h.len
  simp only [hpackOverhead, uint16Max, hpackStatic] at *
  omega

/-- The loop over the entries of a table. -/
theorem Table.Rep.searchLoop {t : Table} (h : t.Rep l) (hnul : ∀ e ∈ l, e.NoNul)
    (hle : t.tbl.length ≤ uint16Max) (nam val : Octets) (namIdx : ℕ) :
    hptSearchLoop nam val t.cnt 0 namIdx 0 0 t = .ok (searchEntries nam val l 0 namIdx) t := by
  obtain ⟨used, rest, ht, hm⟩ := h.mem
  have hlen := h.length_le hle
  have := hptSearchLoop_eq (i := 0) (a := []) (b := rest) nam val namIdx (by simpa using ht) hm
    (by omega) (by simp [h.len, hm.length]) hnul (by omega)
  simpa [h.cnt] using this

/-- Once the static table was searched without finding the entry, the dynamic one is searched as
a scan would. -/
theorem hptSearchDynamic_found {t : Table} (h : t.Rep l) (hnul : ∀ e ∈ l, e.NoNul)
    (hle : t.tbl.length ≤ uint16Max) (nam val : Octets) {namIdx : ℕ}
    (hidx : (namIdx = 0 ∧ ∀ e ∈ hptStatic, e.nam ≠ nam) ∨
      ∃ e ∈ hptStatic, namIdx = e.idx ∧ e.nam = nam)
    (hno : ∀ e ∈ hptStatic, e.nam = nam → e.val ≠ val) :
    ∃ r, hptSearchDynamic nam val namIdx t = .ok r t ∧ SearchFound l nam (some val) r := by
  rw [hptSearchDynamic, bind_apply, get_apply, Out.bind_ok, bind_apply, h.searchLoop hnul hle,
    Out.bind_ok]
  generalize hse : searchEntries nam val l 0 namIdx = p
  have hfound := searchEntries_found nam val l 0 namIdx
  rw [hse] at hfound
  have hnone : (∀ e ∈ l, e.nam = nam → e.val ≠ val) →
      ∀ v, some val = some v → ∀ idx, entryAt l idx ≠ some (nam, v) := by
    rintro hl _ ⟨⟩ idx hat
    rcases entryAt_cases hat with ⟨e, he, hn, hv⟩ | ⟨e, he, hn, hv⟩
    · exact hno e he hn hv
    · exact hl e he hn hv
  refine ⟨_, rfl, ?_⟩
  cases hfound with
  | exact he hn hv =>
    refine .ok rfl ?_
    rw [entryAt_dynamic he, hn, hv]
  | name he hn hl =>
    rw [if_neg Bool.false_ne_true, if_pos (by omega)]
    exact .nam ((entryAt_dynamic he).trans (by rw [hn])) (hnone hl)
  | none hl =>
    rw [if_neg Bool.false_ne_true]
    rcases hidx with ⟨rfl, hst⟩ | ⟨e, he, rfl, hn⟩
    · rw [if_neg (Nat.lt_irrefl 0)]
      refine .idx fun idx v hat => ?_
      rcases entryAt_cases hat with ⟨e, he, hn, -⟩ | ⟨e, he, hn, -⟩
      · exact hst e he hn
      · exact hl e he hn
    · rw [if_pos (static_idx he).1]
      exact .nam ((entryAt_static he).trans (by rw [hn])) (hnone fun e he hn' _ => hl e he hn')

/-- The search ends in the static table, or the dynamic one can be reached: the context still
belongs to the codec. -/
def Searchable (hp : Hpack) (nam val : Octets) : Prop :=
  hp.ctx.hp = hp.addr ∨ ∃ e ∈ hptStatic, e.nam = nam ∧ e.val = val

instance (hp : Hpack) (nam val : Octets) : Decidable (Searchable hp nam val) := by
  unfold Searchable
  infer_instance

/-- The two tables are searched as a scan would, when the dynamic one can be reached. -/
theorem hptSearch_found (h : hp.toTable.Rep l) (hnul : ∀ e ∈ l, e.NoNul)
    (hle : hp.tbl.length ≤ uint16Max) {nam val : Octets} (hs : Searchable hp nam val) :
    ∃ r, hptSearch nam val hp = .ok r hp ∧ SearchFound l nam (some val) r ∧
      (hpackStatic < r.2 → hp.ctx.hp = hp.addr) := by
  obtain ⟨r, hr, hst⟩ := hptBsearch_eq nam val hp.toTable
  rw [hptSearch, bind_apply, onTable_eq hr, Out.bind_ok, Hpack.withTable_self]
  -- what is left once the static table was searched without finding the entry
  have hdyn : ∀ (res : Res) (namIdx : ℕ), (res = .nam → 0 < namIdx ∧ namIdx ≤ hpackStatic) →
      ((namIdx = 0 ∧ ∀ e ∈ hptStatic, e.nam ≠ nam) ∨
        ∃ e ∈ hptStatic, namIdx = e.idx ∧ e.nam = nam) →
      (∀ e ∈ hptStatic, e.nam = nam → e.val ≠ val) →
      ∃ r, (do
        assert (res = .nam → 0 < namIdx ∧ namIdx ≤ hpackStatic)
        ctxHp
        onTable (hptSearchDynamic nam val namIdx) : Cp (Res × ℕ)) hp = .ok r hp ∧
        SearchFound l nam (some val) r ∧ (hpackStatic < r.2 → hp.ctx.hp = hp.addr) := by
    intro res namIdx hres hidx hno
    have hown : hp.ctx.hp = hp.addr := by
      rcases hs with hown | ⟨e, he, hn, hv⟩
      · exact hown
      · exact absurd hv (hno e he hn)
    obtain ⟨r, hrun, hf⟩ := hptSearchDynamic_found h hnul hle nam val hidx hno
    refine ⟨r, ?_, hf, fun _ => hown⟩
    rw [assert_bind_pos hres, bind_apply, ctxHp_eq hown, Out.bind_ok, onTable_eq hrun]
    rfl
  cases hst with
  | @ok e he hn hv =>
    refine ⟨_, rfl, .ok rfl ?_, fun hlt => ?_⟩
    · rw [entryAt_static he, hn, hv]
    · exact absurd (static_idx he).2.1 (Nat.not_le.2 hlt)
  | @nam e he hn hno =>
    exact hdyn .nam e.idx (fun _ => ⟨(static_idx he).1, (static_idx he).2.1⟩)
      (Or.inr ⟨e, he, rfl, hn⟩) hno
  | idx hno =>
    exact hdyn .idx 0 (fun h => by cases h) (Or.inl ⟨rfl, hno⟩) fun e he hn => absurd hn (hno e he)

/-- Otherwise a dangling pointer is followed. -/
theorem hptSearch_moved {nam val : Octets} (hs : ¬ Searchable hp nam val) :
    hptSearch nam val hp = .stop .fault := by
  obtain ⟨r, hr, hst⟩ := hptBsearch_eq nam val hp.toTable
  have hown : hp.ctx.hp ≠ hp.addr := fun h => hs (Or.inl h)
  rw [hptSearch, bind_apply, onTable_eq hr, Out.bind_ok, Hpack.withTable_self]
  cases hst with
  | ok he hn hv => exact absurd (Or.inr ⟨_, he, hn, hv⟩) hs
  | nam he _ _ =>
    dsimp only
    rw [if_neg Res.noConfusion, assert_bind_pos fun _ => ⟨(static_idx he).1, (static_idx he).2.1⟩,
      bind_apply, ctxHp_fault hown, Out.bind_stop]
  | idx _ =>
    dsimp only
    rw [if_neg Res.noConfusion, assert_bind_pos (by simp), bind_apply, ctxHp_fault hown,
      Out.bind_stop]

/-- An entry found by its index is the one `hpack_entry` gives. -/
theorem hpackEntry_entryAt (h : hp.toTable.Rep l) (hlive : hp.magic = .decoder ∨ hp.magic = .encoder)
    {idx : ℕ} (hown : hpackStatic < idx → hp.ctx.hp = hp.addr) {nam val : Octets} (hat : entryAt l idx = some (nam, val)) :
    ∃ n v : Ptr, hpackEntry idx hp = .ok (.ok, n, v) hp ∧
      hp.str n nam.length = some (nam, 0) ∧ hp.str v val.length = some (val, 0) := by
  unfold entryAt at hat
  split at hat
  · cases hat
  rename_i hzero
  split at hat
  · -- an entry of the static table is a string of the library
    rename_i hle
    obtain ⟨e, he, heq⟩ := Option.map_eq_some_iff.1 hat
    cases heq
    obtain ⟨i, rfl⟩ : ∃ i, idx = i + 1 := ⟨idx - 1, by omega⟩
    obtain ⟨e', he', hfield⟩ := hptField_static hp (i := i) hle
    rw [Nat.add_sub_cancel, he'] at he
    cases he
    have hm : ¬ (hp.magic ≠ .decoder ∧ hp.magic ≠ .encoder) := by tauto
    refine ⟨.str e.nam, .str e.val, ?_, by simp [Hpack.str, Hpack.at],
      by simp [Hpack.str, Hpack.at]⟩
    rw [hpackEntry, bind_apply, get_apply, Out.bind_ok, ite_run, if_neg hm, ite_run,
      if_neg (by omega), bind_apply, attempt_apply, hfield]
    rfl
  · obtain ⟨e, he, heq⟩ := Option.map_eq_some_iff.1 hat
    cases heq
    obtain ⟨i, rfl⟩ : ∃ i, idx = hpackStatic + (i + 1) := ⟨idx - hpackStatic - 1, by omega⟩
    have hsub : hpackStatic + (i + 1) - hpackStatic - 1 = i := by omega
    rw [hsub] at he
    obtain ⟨hi, rfl⟩ := List.getElem?_eq_some_iff.1 he
    exact (h.lists (hown (by omega))).entry hlive i hi

/-- The search returns what a scan of both tables justifies, and `hpack_entry` gives the strings
found by their index. -/
def Hpack.Searches (hp : Hpack) (l : List Entry) (nam : CStr) (val : Option CStr) : Prop :=
  ∃ r idx, hpackSearch (some nam) val hp = .ok (r, idx) hp ∧
    SearchFound l nam.bytes (val.map CStr.bytes) (r, idx) ∧
    ∀ n v, entryAt l idx = some (n, v) → ∃ np vp : Ptr, hpackEntry idx hp = .ok (.ok, np, vp) hp ∧
      hp.str np n.length = some (n, 0) ∧ hp.str vp v.length = some (v, 0)

theorem hpackSearch_eq (hlive : hp.magic = .decoder ∨ hp.magic = .encoder) (nam : CStr)
    (val : Option CStr) :
    hpackSearch (some nam) val hp
      = (hptSearch nam.bytes ((val.map CStr.bytes).getD []) hp).bind fun r =>
        pure (if r.1 = .ok ∧ val = none then .nam else r.1, r.2) := by
  have hm : ¬ (hp.magic ≠ .decoder ∧ hp.magic ≠ .encoder) := by tauto
  rw [hpackSearch, bind_apply, get_apply, Out.bind_ok]
  dsimp only
  rw [ite_run, if_neg hm]
  rfl

/-- **The search of the tables is sound and complete**, exactly when the dynamic one can be
reached or is not needed. -/
theorem hpackSearch_found (hcodec : Codec hp) (h : hp.toTable.Rep l) (hnul : ∀ e ∈ l, e.NoNul)
    (nam : CStr) (val : Option CStr) :
    hp.Searches l nam val ↔ Searchable hp nam.bytes ((val.map CStr.bytes).getD []) := by
  have hrun := hpackSearch_eq hcodec.live nam val
  constructor
  · rintro ⟨r, idx, hr, -⟩
    by_contra hs
    rw [hrun, hptSearch_moved hs] at hr
    cases hr
  · intro hs
    obtain ⟨⟨r, idx⟩, hr, hf, hown⟩ := hptSearch_found h hnul hcodec.tbl_le hs
    refine ⟨if r = .ok ∧ val = none then .nam else r, idx, ?_, ?_, fun n v hat => ?_⟩
    · rw [hrun, hr]
      rfl
    · cases val with
      | some v =>
        rw [if_neg fun h => Option.some_ne_none v h.2]
        exact hf
      | none =>
        cases hf with
        | ok hv hat =>
          rw [if_pos ⟨rfl, rfl⟩]
          exact .nam hat fun v hv => absurd hv.symm (Option.some_ne_none v)
        | nam hat hno => exact .nam hat fun v hv => absurd hv.symm (Option.some_ne_none v)
        | idx hno => exact .idx hno
    · exact hpackEntry_entryAt h hcodec.live hown hat

/-- A decoder that was sent the field `a: b` to insert in its table. -/
def storedDecoder : Hpack :=
  match hpackDecode ⟨[0x40, 1, 97, 1, 98], 1, 100, true, false⟩ smallDecoder with
  | .ok _ hp => hp
  | _ => smallDecoder

/-- The entry `a: b`. -/
def storedEntry : Entry := ⟨[97], [98], by decide, by decide, by decide⟩

theorem storedDecoder_rep : storedDecoder.toTable.Rep [storedEntry] where
  cnt := by decide +kernel
  len := by decide +kernel
  mem := by
    refine ⟨entryOctets [0, 0, 0, 0] (List.replicate 10 0) 0 [97] [98] ++ [], List.replicate 30 0,
      by decide +kernel, .cons ⟨_, _, rfl, rfl, rfl⟩ (.nil _)⟩

theorem storedDecoder_codec : Codec storedDecoder := by
  refine .decoder (.decoder smallDecoder_new) (.step (.refl _) trivial
    (show (DecOp.decode ⟨[0x40, 1, 97, 1, 98], 1, 100, true, false⟩).exec smallDecoder
      = .ok .ok storedDecoder from ?_)) ?_
  · decide +kernel
  · decide +kernel

theorem hpackSearch_found_stored :
    storedDecoder.Searches [storedEntry] ⟨[97], by decide⟩ (some ⟨[98], by decide⟩) := by
  have hnul : ∀ e ∈ [storedEntry], e.NoNul := by
    intro e he
    rw [List.mem_singleton.1 he]
    exact ⟨by decide, by decide⟩
  exact (hpackSearch_found storedDecoder_codec storedDecoder_rep hnul ⟨[97], by decide⟩
    (some ⟨[98], by decide⟩)).2 (Or.inl (by decide +kernel))

/-- A new decoder with more memory than it needs. -/
def roomyDecoder : Hpack := Hpack.init .decoder 128 64 true zeroBlock

/-- The same once `hpack_trim` moved it. -/
def movedDecoder : Hpack :=
  { Hpack.init .decoder 64 64 true zeroBlock with addr := 2 }

/-- A codec that `hpack_trim` moved cannot be searched: its context still points to where it
was. -/
theorem hpackSearch_found_false :
    ∃ hp : Hpack, Codec hp ∧ hp.toTable.Rep [] ∧
      hpackSearch (some ⟨[97], by decide⟩) none hp = .stop .fault := by
  have hs : ¬ Searchable movedDecoder [97] [] := by decide +kernel
  have hnew : hpackDecoder 64 128 ⟨some zeroBlock, true⟩ () = .ok (some roomyDecoder) () := rfl
  refine ⟨movedDecoder, .decoder (.decoder hnew) (.step (.refl _) trivial
    (show (DecOp.trim (some ⟨2, fun _ => 0⟩)).exec roomyDecoder = .ok .ok movedDecoder from ?_))
    rfl, ⟨rfl, rfl, [], movedDecoder.tbl, rfl, .nil 0⟩, ?_⟩
  · decide +kernel
  · have hrun := hptSearch_moved hs
    refine (hpackSearch_eq (Or.inl rfl) _ _).trans ?_
    exact congrArg (fun o : Out Hpack (Res × ℕ) => o.bind _) hrun

end Cashpack
