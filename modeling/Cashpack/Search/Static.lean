import Cashpack.Codec.Enc
import Cashpack.Search.Bisect
import Mathlib.Data.Prod.Lex
import Mathlib.Data.List.Lex

/-!
# Searching the static table

The binary search of `hpt_bsearch` over the static table, in the order of the generator: by the
length of the name, the name, the length of the value and the value.

## Main results

* `falls_staticCmp` : the static table is sorted for every name and value.
* `hptBsearch_eq` : the search finds the entry with this name and this value when there is one,
  and otherwise an entry with this name when there is one.
-/

namespace Cashpack

open Prog Bisect

/-! ### The order -/

/-- Octets as numbers, ordered like `strcmp` does. -/
abbrev Chars := List ℕ

/-- A name and a value, each with the length it is compared with. -/
abbrev Key := (ℕ ×ₗ Chars) ×ₗ (ℕ ×ₗ Chars)

/-- A string with its length. -/
def strKey (n : ℕ) (s : Octets) : ℕ ×ₗ Chars := toLex (n, s.map UInt8.toNat)

/-- The key of an entry. -/
def HdrEntry.key (e : HdrEntry) : Key :=
  toLex (strKey e.nam.length e.nam, strKey e.val.length e.val)

/-- The key of a name and a value to look up, whose lengths have 16 bits. -/
def userKey (nam val : Octets) : Key :=
  toLex (strKey (nam.length % 65536) nam, strKey (val.length % 65536) val)

/-- The sign of an integer tells how two elements compare. -/
def Sign {α : Type} [LT α] (z : ℤ) (a b : α) : Prop := (z < 0 ↔ a < b) ∧ (z = 0 ↔ a = b)

theorem sign_sub (n m : ℕ) : Sign ((n : ℤ) - m) n m := ⟨by omega, by omega⟩

theorem Sign.lex {α β : Type} [LinearOrder α] [LinearOrder β] {x y : ℤ} {a b : α} {c d : β}
    (hx : Sign x a b) (hy : Sign y c d) :
    Sign (if x ≠ 0 then x else y) (toLex (a, c)) (toLex (b, d)) := by
  by_cases h : x = 0
  · obtain rfl := hx.2.1 h
    rw [if_neg (not_not.2 h)]
    refine ⟨hy.1.trans ?_, hy.2.trans ?_⟩
    · simp [Prod.Lex.toLex_lt_toLex]
    · simp
  · have hne : a ≠ b := fun heq => h (hx.2.2 heq)
    rw [if_pos h]
    refine ⟨hx.1.trans ?_, fun h0 => absurd h0 h, fun heq => ?_⟩
    · simp [Prod.Lex.toLex_lt_toLex, hne]
    · exact absurd (congrArg (fun p : α ×ₗ β => (ofLex p).1) heq) hne

theorem sign_strcmp (s t : Octets) :
    Sign (strcmp s t) (s.map UInt8.toNat) (t.map UInt8.toNat) := by
  induction s generalizing t with
  | nil => cases t <;> simp [strcmp, Sign]
  | cons a s ih =>
    cases t with
    | nil => simp [strcmp, Sign]
    | cons b t =>
      rw [strcmp, List.map_cons, List.map_cons]
      by_cases hab : a = b
      · subst hab
        rw [if_pos rfl]
        refine ⟨(ih t).1.trans ?_, (ih t).2.trans ?_⟩
        · simp
        · simp
      · have hne : a.toNat ≠ b.toNat := fun h => hab (UInt8.toNat_inj.1 h)
        rw [if_neg hab]
        by_cases hlt : a < b
        · rw [if_pos hlt]
          have hlt' : a.toNat < b.toNat := hlt
          refine ⟨?_, ?_⟩
          · simp [List.cons_lt_cons_iff, hlt']
          · simp [hne]
        · rw [if_neg hlt]
          have hlt' : ¬ a.toNat < b.toNat := hlt
          refine ⟨?_, ?_⟩
          · simp [List.cons_lt_cons_iff, hlt', hne]
          · simp [hne]

/-- Compare the lengths, then the strings. -/
def lenCmp (n : ℕ) (s : Octets) (m : ℕ) (t : Octets) : ℤ :=
  if (n : ℤ) - m ≠ 0 then (n : ℤ) - m else strcmp s t

theorem sign_lenCmp (n : ℕ) (s : Octets) (m : ℕ) (t : Octets) :
    Sign (lenCmp n s m t) (strKey n s) (strKey m t) := (sign_sub n m).lex (sign_strcmp s t)

theorem strKey_inj {n m : ℕ} {s t : Octets} (h : strKey n s = strKey m t) : n = m ∧ s = t := by
  obtain ⟨h₁, h₂⟩ := Prod.mk.inj (toLex.injective h)
  exact ⟨h₁, List.map_injective_iff.2 (fun _ _ => UInt8.toNat_inj.1) h₂⟩

theorem hdrCmp_eq (h1 h2 : HdrEntry) :
    hdrCmp h1 h2 = if lenCmp h1.nam.length h1.nam h2.nam.length h2.nam ≠ 0
      then lenCmp h1.nam.length h1.nam h2.nam.length h2.nam
      else lenCmp h1.val.length h1.val h2.val.length h2.val := by
  have hsub : ∀ a b : ℕ, ((a : ℤ) - b ≠ 0) = (a ≠ b) := fun a b => propext (by omega)
  simp only [hdrCmp, lenCmp, hsub]
  by_cases hn : h1.nam.length = h2.nam.length
  · simp [hn]
  · have hne : (h1.nam.length : ℤ) - h2.nam.length ≠ 0 := by omega
    simp [hn, hne]

theorem sign_hdrCmp (h1 h2 : HdrEntry) : Sign (hdrCmp h1 h2) h1.key h2.key := by
  rw [hdrCmp_eq]
  exact (sign_lenCmp ..).lex (sign_lenCmp ..)

theorem hptCmp_eq (nam val : Octets) (idx : ℕ) (e : HdrEntry) :
    hptCmp nam val idx e =
      if lenCmp (nam.length % 65536) nam e.nam.length e.nam ≠ 0
      then (lenCmp (nam.length % 65536) nam e.nam.length e.nam, idx)
      else (lenCmp (val.length % 65536) val e.val.length e.val, e.idx) := by
  have hsub : ∀ a b : ℕ, ((a : ℤ) - b ≠ 0) = (a ≠ b) := fun a b => propext (by omega)
  simp only [hptCmp, lenCmp, hsub]
  by_cases hn : nam.length % 65536 = e.nam.length
  · by_cases hs : strcmp nam e.nam = 0
    · by_cases hv : val.length % 65536 = e.val.length <;> simp [hn, hs, hv]
    · simp [hn, hs]
  · have hne : ((nam.length % 65536 : ℕ) : ℤ) - e.nam.length ≠ 0 := by omega
    simp only [if_pos hn, if_pos hne]

/-! ### The static table -/

theorem static_length {e : HdrEntry} (h : e ∈ hptStatic) :
    e.nam.length < 65536 ∧ e.val.length < 65536 ∧ 0 < e.nam.length := by
  have hall : ∀ e ∈ hptStatic, e.nam.length < 65536 ∧ e.val.length < 65536 ∧ 0 < e.nam.length := by
    decide +kernel
  exact hall e h

/-- An entry knows its place in the table. -/
theorem static_idx {e : HdrEntry} (h : e ∈ hptStatic) :
    0 < e.idx ∧ e.idx ≤ hpackStatic ∧ hptStatic[e.idx - 1]? = some e := by
  have hall : ∀ e ∈ hptStatic, 0 < e.idx ∧ e.idx ≤ hpackStatic ∧ hptStatic[e.idx - 1]? = some e := by
    decide +kernel
  exact hall e h

theorem length_hpackStaticHdr : hpackStaticHdr.length = hpackStatic := by
  rw [hpackStaticHdr, List.length_mergeSort, length_hptStatic]

theorem nodup_hptStatic : (hptStatic.map fun e => (e.nam, e.val)).Nodup := by
  decide +kernel

/-- The table of the generator is sorted, and its entries differ. -/
theorem pairwise_hpackStaticHdr : hpackStaticHdr.Pairwise fun a b => a.key < b.key := by
  have hle : hpackStaticHdr.Pairwise fun a b => decide (hdrCmp a b ≤ 0) = true := by
    have hiff : ∀ a b : HdrEntry, decide (hdrCmp a b ≤ 0) = true ↔ a.key ≤ b.key := by
      intro a b
      have := sign_hdrCmp a b
      rw [decide_eq_true_iff, le_iff_lt_or_eq, le_iff_lt_or_eq, this.1, this.2]
    refine List.pairwise_mergeSort (fun a b c => ?_) (fun a b => ?_) _
    · rw [hiff, hiff, hiff]
      exact le_trans
    · rw [Bool.or_eq_true, hiff, hiff]
      exact le_total _ _
  have hperm : (hpackStaticHdr.map fun e => (e.nam, e.val)).Nodup :=
    ((List.mergeSort_perm _ _).map _).nodup_iff.2 nodup_hptStatic
  refine (hle.and (List.pairwise_map.1 hperm)).imp ?_
  rintro a b ⟨hab, hne⟩
  have hsign := sign_hdrCmp a b
  rcases lt_or_eq_of_le (of_decide_eq_true hab) with h | h
  · exact hsign.1.1 h
  · obtain ⟨h₁, h₂⟩ := Prod.mk.inj (toLex.injective (hsign.2.1 h))
    exact absurd (Prod.ext (strKey_inj h₁).2 (strKey_inj h₂).2) hne

/-! ### The search -/

/-- A name and a value compared with the element at a position of the table. -/
def staticCmp (nam val : Octets) (i : ℕ) : ℤ :=
  (hpackStaticHdr[i]?.map fun e => (hptCmp nam val 0 e).1).getD 0

/-- The element at this position has this name. -/
def HasName (nam : Octets) (i : ℕ) : Prop := ∃ e, hpackStaticHdr[i]? = some e ∧ e.nam = nam

section

variable {nam val : Octets} {i : ℕ} {e : HdrEntry}

theorem lenCmp_eq_zero (h : e ∈ hptStatic) :
    lenCmp (nam.length % 65536) nam e.nam.length e.nam = 0 ↔ e.nam = nam := by
  rw [(sign_lenCmp ..).2]
  constructor
  · exact fun h => (strKey_inj h).2.symm
  · rintro rfl
    rw [Nat.mod_eq_of_lt (static_length h).1]

theorem sign_hptCmp (nam val : Octets) (idx : ℕ) (e : HdrEntry) :
    Sign (hptCmp nam val idx e).1 (userKey nam val) e.key := by
  have hlex := (sign_lenCmp (nam.length % 65536) nam e.nam.length e.nam).lex
    (sign_lenCmp (val.length % 65536) val e.val.length e.val)
  rw [hptCmp_eq]
  by_cases h : lenCmp (nam.length % 65536) nam e.nam.length e.nam = 0
  · rw [if_neg (not_not.2 h)] at hlex ⊢
    exact hlex
  · rw [if_pos h] at hlex ⊢
    exact hlex

/-- The comparison leaves the index of an entry that has the name. -/
theorem hptCmp_snd (h : e ∈ hptStatic) (idx : ℕ) :
    (hptCmp nam val idx e).2 = if e.nam = nam then e.idx else idx := by
  rw [hptCmp_eq]
  by_cases hn : e.nam = nam
  · rw [if_neg (not_not.2 ((lenCmp_eq_zero h).2 hn)), if_pos hn]
  · rw [if_pos (mt (lenCmp_eq_zero h).1 hn), if_neg hn]

/-- The comparison finds an entry exactly when it has the name and the value. -/
theorem hptCmp_eq_zero (h : e ∈ hptStatic) (idx : ℕ) :
    (hptCmp nam val idx e).1 = 0 ↔ e.nam = nam ∧ e.val = val := by
  rw [(sign_hptCmp nam val idx e).2]
  constructor
  · intro heq
    obtain ⟨h₁, h₂⟩ := Prod.mk.inj (toLex.injective heq)
    exact ⟨(strKey_inj h₁).2.symm, (strKey_inj h₂).2.symm⟩
  · rintro ⟨rfl, rfl⟩
    rw [userKey, Nat.mod_eq_of_lt (static_length h).1, Nat.mod_eq_of_lt (static_length h).2.1]
    rfl

theorem sign_staticCmp (nam val : Octets) (hi : hpackStaticHdr[i]? = some e) :
    Sign (staticCmp nam val i) (userKey nam val) e.key := by
  rw [staticCmp, hi]
  exact sign_hptCmp nam val 0 e

end

theorem exists_staticHdr {i : ℕ} (hi : i < hpackStatic) :
    ∃ e, hpackStaticHdr[i]? = some e ∧ e ∈ hptStatic := by
  have hi' : i < hpackStaticHdr.length := by
    rw [length_hpackStaticHdr]
    exact hi
  exact ⟨_, List.getElem?_eq_getElem hi', mem_hpackStaticHdr.1 (List.getElem_mem hi')⟩

theorem key_lt {i j : ℕ} {a b : HdrEntry} (hij : i < j) (ha : hpackStaticHdr[i]? = some a)
    (hb : hpackStaticHdr[j]? = some b) : a.key < b.key := by
  obtain ⟨hi', rfl⟩ := List.getElem?_eq_some_iff.1 ha
  obtain ⟨hj', rfl⟩ := List.getElem?_eq_some_iff.1 hb
  exact List.pairwise_iff_getElem.1 pairwise_hpackStaticHdr i j hi' hj' hij

/-- The static table is sorted for every name and value. -/
theorem falls_staticCmp (nam val : Octets) : Falls (staticCmp nam val) hpackStatic := by
  intro i j hij hj hle
  obtain ⟨a, ha, -⟩ := exists_staticHdr (hij.trans hj)
  obtain ⟨b, hb, -⟩ := exists_staticHdr hj
  have hka := sign_staticCmp nam val ha
  have hle' : userKey nam val ≤ a.key := by
    rcases lt_or_eq_of_le hle with h | h
    · exact (hka.1.1 h).le
    · exact (hka.2.1 h).le
  exact (sign_staticCmp nam val hb).1.2 (hle'.trans_lt (key_lt hij ha hb))

/-- The entries with a name are next to each other. -/
theorem group_hasName (nam val : Octets) :
    Group (staticCmp nam val) hpackStatic (HasName nam) := by
  have hfst : ∀ {a b : Key}, a < b → (ofLex a).1 ≤ (ofLex b).1 := fun h =>
    Prod.Lex.monotone_fst _ _ h.le
  constructor
  · rintro i j hij hj hpos ⟨a, ha, rfl⟩
    obtain ⟨b, hb, hbs⟩ := exists_staticHdr hj
    have hkb := sign_staticCmp a.nam val hb
    have hlt : b.key < userKey a.nam val := by
      refine lt_of_not_ge fun hle => ?_
      rcases lt_or_eq_of_le hle with h | h
      · exact absurd (hkb.1.2 h) (by omega)
      · exact absurd (hkb.2.2 h) (by omega)
    have h₁ : strKey a.nam.length a.nam ≤ strKey b.nam.length b.nam := hfst (key_lt hij ha hb)
    have h₂ : strKey b.nam.length b.nam ≤ strKey (a.nam.length % 65536) a.nam := hfst hlt
    rw [Nat.mod_eq_of_lt (static_length (mem_hpackStaticHdr.1 (List.mem_of_getElem? ha))).1] at h₂
    exact ⟨b, hb, (strKey_inj (le_antisymm h₂ h₁)).2⟩
  · rintro i j hij hj hneg ⟨b, hb, rfl⟩
    obtain ⟨a, ha, has⟩ := exists_staticHdr (hij.trans hj)
    have hlt : userKey b.nam val < a.key := (sign_staticCmp b.nam val ha).1.1 hneg
    have h₁ : strKey a.nam.length a.nam ≤ strKey b.nam.length b.nam := hfst (key_lt hij ha hb)
    have h₂ : strKey (b.nam.length % 65536) b.nam ≤ strKey a.nam.length a.nam := hfst hlt
    rw [Nat.mod_eq_of_lt (static_length (mem_hpackStaticHdr.1 (List.mem_of_getElem? hb))).1] at h₂
    exact ⟨a, ha, (strKey_inj (le_antisymm h₁ h₂)).2⟩

/-- What a search that compared the elements at the positions `ps` returns, `idx` being the
index it started with. -/
inductive Searched (nam val : Octets) (ps : List ℕ) (idx : ℕ) : Res × ℕ → Prop
  | found {i : ℕ} {e : HdrEntry} (hi : i ∈ ps) (he : hpackStaticHdr[i]? = some e)
      (hnam : e.nam = nam) (hval : e.val = val) : Searched nam val ps idx (.ok, e.idx)
  | missing {idx' : ℕ} (hne : ∀ i ∈ ps, staticCmp nam val i ≠ 0)
      (hidx : (idx' = idx ∧ ∀ i ∈ ps, ¬ HasName nam i) ∨
        ∃ i ∈ ps, ∃ e, hpackStaticHdr[i]? = some e ∧ e.nam = nam ∧ idx' = e.idx) :
      Searched nam val ps idx (if idx' = 0 then .idx else .nam, idx')

/-- One more comparison, of an element that is not the one searched. -/
theorem Searched.cons {nam val : Octets} {ps : List ℕ} {pos idx : ℕ} {e : HdrEntry} {r : Res × ℕ}
    (he : hpackStaticHdr[pos]? = some e) (hne : staticCmp nam val pos ≠ 0)
    (h : Searched nam val ps (if e.nam = nam then e.idx else idx) r) :
    Searched nam val (pos :: ps) idx r := by
  cases h with
  | found hi he' hnam hval => exact .found (List.mem_cons_of_mem _ hi) he' hnam hval
  | missing hne' hidx =>
    refine .missing (List.forall_mem_cons.2 ⟨hne, hne'⟩) ?_
    rcases hidx with ⟨rfl, hno⟩ | ⟨i, hi, e', he', hnam, rfl⟩
    · by_cases hn : e.nam = nam
      · rw [if_pos hn]
        exact Or.inr ⟨pos, List.mem_cons_self, e, he, hn, rfl⟩
      · rw [if_neg hn]
        refine Or.inl ⟨rfl, List.forall_mem_cons.2 ⟨?_, hno⟩⟩
        rintro ⟨e', he', hn'⟩
        rw [he] at he'
        cases he'
        exact hn hn'
    · exact Or.inr ⟨i, List.mem_cons_of_mem _ hi, e', he', hnam, rfl⟩

/-- The index in the key does not change how an entry compares. -/
theorem staticCmp_eq {nam val : Octets} {i : ℕ} {e : HdrEntry} (hi : hpackStaticHdr[i]? = some e)
    (idx : ℕ) : staticCmp nam val i = (hptCmp nam val idx e).1 := by
  rw [staticCmp, hi, Option.map_some, Option.getD_some, hptCmp_eq, hptCmp_eq]
  split <;> rfl

/-- The loop of `hpt_bsearch` is a binary search. -/
theorem hptBsearchLoop_searched (nam val : Octets) {fuel : ℕ} {min max : ℤ} (idx : ℕ) (t : Table)
    (hmin : 0 ≤ min) (hmax : max < hpackStatic) (hle : min ≤ max + 1)
    (hfuel : max - min + 1 < fuel) :
    ∃ r, hptBsearchLoop nam val fuel min max idx t = .ok r t ∧
      Searched nam val (probes (staticCmp nam val) fuel min max) idx r := by
  induction fuel generalizing min max idx with
  | zero => omega
  | succ fuel ih =>
    rw [hptBsearchLoop, probes]
    by_cases hmm : min ≤ max
    · rw [if_pos hmm, if_pos hmm]
      obtain ⟨pos, hpos⟩ : ∃ pos : ℕ, (min + max) / 2 = pos := ⟨((min + max) / 2).toNat, by omega⟩
      obtain ⟨e, he, hes⟩ := exists_staticHdr (i := pos) (by omega)
      have hcmp : staticCmp nam val pos = (hptCmp nam val idx e).1 := staticCmp_eq he idx
      have hsnd : (hptCmp nam val idx e).2 = if e.nam = nam then e.idx else idx :=
        hptCmp_snd hes idx
      simp only [hpos, Int.toNat_natCast, he]
      rw [assert_bind_pos (by omega)]
      simp only [← hcmp, hsnd, ite_run]
      by_cases hzero : staticCmp nam val pos = 0
      · obtain ⟨hnam, hval⟩ := (hptCmp_eq_zero hes idx).1 (hcmp.symm.trans hzero)
        simp only [if_pos hzero, if_pos hnam]
        exact ⟨_, rfl, .found List.mem_cons_self he hnam hval⟩
      · simp only [if_neg hzero]
        by_cases hneg : staticCmp nam val pos < 0
        · simp only [if_pos hneg]
          obtain ⟨r, hr, hs⟩ := @ih min (pos - 1) (if e.nam = nam then e.idx else idx) hmin
            (by omega) (by omega) (by omega)
          exact ⟨r, hr, hs.cons he hzero⟩
        · simp only [if_neg hneg]
          obtain ⟨r, hr, hs⟩ := @ih (pos + 1) max (if e.nam = nam then e.idx else idx)
            (by omega) hmax (by omega) (by omega)
          exact ⟨r, hr, hs.cons he hzero⟩
    · rw [if_neg hmm, if_neg hmm]
      refine ⟨(if idx = 0 then .idx else .nam, idx), ?_, .missing (List.forall_mem_nil _)
        (Or.inl ⟨rfl, List.forall_mem_nil _⟩)⟩
      split <;> rfl

/-- What a search of the static table returns. -/
inductive StaticFound (nam val : Octets) : Res × ℕ → Prop
  | ok {e : HdrEntry} (he : e ∈ hptStatic) (hnam : e.nam = nam) (hval : e.val = val) :
      StaticFound nam val (.ok, e.idx)
  | nam {e : HdrEntry} (he : e ∈ hptStatic) (hnam : e.nam = nam)
      (hno : ∀ e ∈ hptStatic, e.nam = nam → e.val ≠ val) : StaticFound nam val (.nam, e.idx)
  | idx (hno : ∀ e ∈ hptStatic, e.nam ≠ nam) : StaticFound nam val (.idx, 0)

/-- **The search of the static table is exact.** -/
theorem hptBsearch_eq (nam val : Octets) (t : Table) :
    ∃ r, hptBsearch nam val t = .ok r t ∧ StaticFound nam val r := by
  obtain ⟨r, hr, hs⟩ := @hptBsearchLoop_searched nam val (hpackStatic + 1) 0 (hpackStatic - 1) 0 t
    (le_refl _) (by omega) (by decide) (by omega)
  refine ⟨r, hr, ?_⟩
  have hfalls := falls_staticCmp nam val
  -- every entry is at a position of the sorted table
  have hpos : ∀ e ∈ hptStatic, ∃ i, i < hpackStatic ∧ hpackStaticHdr[i]? = some e := by
    intro e he
    obtain ⟨i, hi, rfl⟩ := List.mem_iff_getElem.1 (mem_hpackStaticHdr.2 he)
    exact ⟨i, length_hpackStaticHdr ▸ hi, List.getElem?_eq_getElem hi⟩
  cases hs with
  | found hi he hnam hval => exact .ok (mem_hpackStaticHdr.1 (List.mem_of_getElem? he)) hnam hval
  | @missing idx hne hidx =>
    -- a position that compares equal would have been compared
    have hne' : ∀ i, i < hpackStatic → staticCmp nam val i ≠ 0 := by
      intro i hi hzero
      refine hne i (mem_probes hfalls (le_refl _) (by omega) (by omega) (by omega) (by omega) ?_)
        hzero
      exact Or.inl hzero
    have hno : ∀ e ∈ hptStatic, e.nam = nam → e.val ≠ val := by
      intro e he hnam hval
      obtain ⟨i, hi, hie⟩ := hpos e he
      exact hne' i hi ((staticCmp_eq hie 0).trans ((hptCmp_eq_zero he 0).2 ⟨hnam, hval⟩))
    rcases hidx with ⟨rfl, hname⟩ | ⟨i, -, e, he, hnam, rfl⟩
    · refine .idx fun e he hnam => ?_
      obtain ⟨i, hi, hie⟩ := hpos e he
      obtain ⟨j, hj, hjn⟩ : ∃ j ∈ probes (staticCmp nam val) (hpackStatic + 1) 0 (hpackStatic - 1),
          HasName nam j :=
        exists_probe hfalls hne' (group_hasName nam val) (by omega) hi ⟨e, hie, hnam⟩
      exact hname j hj hjn
    · have hes := mem_hpackStaticHdr.1 (List.mem_of_getElem? he)
      rw [if_neg (static_idx hes).1.ne']
      exact .nam hes hnam hno

end Cashpack
