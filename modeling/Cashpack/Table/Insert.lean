import Cashpack.Table.Evict

/-!
# Insertion

`hptInsert` (the part of `HPT_index` that works on the table) puts an entry in front of those
that are left once there is room for it.  With a name outside of the table, a table that holds
`l` holds `Fifo.fit Entry.size limit (e :: l)` afterwards.
-/

namespace Cashpack

open Prog Fifo

variable {t : Table} {l : List Entry} {e : Entry} {a b m : Octets}

/-! ### Writing -/

theorem writeTbl_eq (off : ℕ) (bs : Octets) (ht : t.tbl = a ++ (m ++ b)) (ha : a.length = off)
    (hm : bs.length = m.length) :
    writeTbl off bs t = .ok () { t with tbl := a ++ (bs ++ b) } := by
  have hle : off + bs.length ≤ t.tbl.length := by
    simp [ht, ha, hm]
  rw [writeTbl, if_pos hle, ht, Octets.write_region ha hm]

theorem moveTbl_eq {dst src n : ℕ} (hd : dst + n ≤ t.tbl.length) (hs : src + n ≤ t.tbl.length) :
    moveTbl dst src n t = .ok () { t with tbl := Octets.move dst src n t.tbl } := by
  rw [moveTbl, if_pos ⟨hd, hs⟩]

/-- The size of the new entry is written in the header of the entry that will follow it. -/
theorem isTable_write_pre {used : Octets} (k : ℕ) (rest : Octets) (hm : IsTable 0 l used)
    (hlen : 16 ≤ (used ++ rest).length) :
    ∃ used' rest' : Octets, Octets.write 8 (Octets.toLe 8 k) (used ++ rest) = used' ++ rest' ∧
      IsTable k l used' ∧ used'.length = used.length ∧ rest'.length = rest.length := by
  cases l with
  | nil =>
    obtain rfl := isTable_nil.1 hm
    refine ⟨[], Octets.write 8 (Octets.toLe 8 k) rest, rfl, .nil k, rfl, ?_⟩
    exact Octets.length_write (by simpa using hlen)
  | cons e l =>
    obtain ⟨m₁, m₂, rfl, ⟨jnk, pad, hj, hp, rfl⟩, h₂⟩ := isTable_cons.1 hm
    refine ⟨entryOctets jnk pad k e.nam e.val ++ m₂, rest, ?_,
      .cons ⟨jnk, pad, hj, hp, rfl⟩ h₂, ?_, rfl⟩
    · simp only [entryOctets, List.append_assoc]
      rw [← List.append_assoc, ← List.append_assoc _ jnk]
      exact Octets.write_region (by simp [hj]) (by simp)
    · simp [entryOctets]

/-- The room made in front of the table can be cut into the parts of an entry. -/
theorem exists_entry_parts {x : Octets} (hx : x.length = e.size) :
    ∃ x₁ jnk x₂ x₃ x₄ pad x₅ x₆ : Octets,
      x = x₁ ++ (jnk ++ (x₂ ++ (x₃ ++ (x₄ ++ (pad ++ (x₅ ++ x₆)))))) ∧
      x₁.length = 4 ∧ jnk.length = 4 ∧ x₂.length = 8 ∧ x₃.length = 2 ∧ x₄.length = 2 ∧
      pad.length = 10 ∧ x₅.length = e.nam.length + 1 ∧ x₆.length = e.val.length + 1 := by
  simp only [Entry.size, hpackOverhead] at hx
  obtain ⟨x₁, y, rfl, h₁⟩ := Octets.exists_region (n := 4) (m := x) (by omega)
  rw [List.length_append] at hx
  obtain ⟨jnk, y, rfl, hj⟩ := Octets.exists_region (n := 4) (m := y) (by omega)
  rw [List.length_append] at hx
  obtain ⟨x₂, y, rfl, h₂⟩ := Octets.exists_region (n := 8) (m := y) (by omega)
  rw [List.length_append] at hx
  obtain ⟨x₃, y, rfl, h₃⟩ := Octets.exists_region (n := 2) (m := y) (by omega)
  rw [List.length_append] at hx
  obtain ⟨x₄, y, rfl, h₄⟩ := Octets.exists_region (n := 2) (m := y) (by omega)
  rw [List.length_append] at hx
  obtain ⟨pad, y, rfl, hp⟩ := Octets.exists_region (n := 10) (m := y) (by omega)
  rw [List.length_append] at hx
  obtain ⟨x₅, x₆, rfl, h₅⟩ := Octets.exists_region (n := e.nam.length + 1) (m := y) (by omega)
  rw [List.length_append] at hx
  exact ⟨x₁, jnk, x₂, x₃, x₄, pad, x₅, x₆, rfl, h₁, hj, h₂, h₃, h₄, hp, h₅, by omega⟩

/-- Once the name is in place, the last writes make an entry. -/
theorem hptFill_eq {x₁ jnk x₂ x₃ x₄ pad x₆ : Octets}
    (ht : t.tbl = x₁ ++ (jnk ++ (x₂ ++ (x₃ ++ (x₄ ++ (pad ++ ((e.nam ++ [0]) ++ (x₆ ++ b))))))))
    (h₁ : x₁.length = 4) (hj : jnk.length = 4) (h₂ : x₂.length = 8) (h₃ : x₃.length = 2)
    (h₄ : x₄.length = 2) (hp : pad.length = 10) (h₆ : x₆.length = e.val.length + 1) :
    hptFill e.nam.length e.val t
      = .ok () { t with tbl := entryOctets jnk pad 0 e.nam e.val ++ b } := by
  have w₁ : writeTbl (hptHeaderSz + e.nam.length + 1) (e.val ++ [0]) t = .ok () { t with
      tbl := x₁ ++ (jnk ++ (x₂ ++ (x₃ ++ (x₄ ++ (pad ++ ((e.nam ++ [0]) ++ ((e.val ++ [0]) ++
        b))))))) } := by
    have := writeTbl_eq (t := t) (hptHeaderSz + e.nam.length + 1) (e.val ++ [0])
      (a := x₁ ++ (jnk ++ (x₂ ++ (x₃ ++ (x₄ ++ (pad ++ (e.nam ++ [0])))))))
      (m := x₆) (b := b) (by simp [ht])
      (by simp [h₁, hj, h₂, h₃, h₄, hp, hptHeaderSz]; omega) (by simp [h₆])
    simpa using this
  have w₂ := writeTbl_eq 0 (Octets.toLe 4 hptEntryMagic) (a := []) (m := x₁)
    (b := jnk ++ (x₂ ++ (x₃ ++ (x₄ ++ (pad ++ ((e.nam ++ [0]) ++ ((e.val ++ [0]) ++ b)))))))
    (t := { t with tbl := x₁ ++ (jnk ++ (x₂ ++ (x₃ ++ (x₄ ++ (pad ++ ((e.nam ++ [0]) ++
      ((e.val ++ [0]) ++ b))))))) }) rfl rfl (by simp [h₁])
  have w₃ := writeTbl_eq 8 (Octets.toLe 8 0)
    (a := Octets.toLe 4 hptEntryMagic ++ jnk) (m := x₂)
    (b := x₃ ++ (x₄ ++ (pad ++ ((e.nam ++ [0]) ++ ((e.val ++ [0]) ++ b)))))
    (t := { t with tbl := Octets.toLe 4 hptEntryMagic ++ (jnk ++ (x₂ ++ (x₃ ++ (x₄ ++ (pad ++
      ((e.nam ++ [0]) ++ ((e.val ++ [0]) ++ b))))))) }) (by simp) (by simp [hj]) (by simp [h₂])
  have w₄ := writeTbl_eq 16 (Octets.toLe 2 e.nam.length)
    (a := Octets.toLe 4 hptEntryMagic ++ (jnk ++ Octets.toLe 8 0)) (m := x₃)
    (b := x₄ ++ (pad ++ ((e.nam ++ [0]) ++ ((e.val ++ [0]) ++ b))))
    (t := { t with tbl := Octets.toLe 4 hptEntryMagic ++ jnk ++ (Octets.toLe 8 0 ++ (x₃ ++ (x₄ ++
      (pad ++ ((e.nam ++ [0]) ++ ((e.val ++ [0]) ++ b)))))) }) (by simp) (by simp [hj])
      (by simp [h₃])
  have w₅ := writeTbl_eq 18 (Octets.toLe 2 e.val.length)
    (a := Octets.toLe 4 hptEntryMagic ++ (jnk ++ (Octets.toLe 8 0 ++ Octets.toLe 2 e.nam.length)))
    (m := x₄) (b := pad ++ ((e.nam ++ [0]) ++ ((e.val ++ [0]) ++ b)))
    (t := { t with tbl := Octets.toLe 4 hptEntryMagic ++ (jnk ++ Octets.toLe 8 0) ++
      (Octets.toLe 2 e.nam.length ++ (x₄ ++ (pad ++ ((e.nam ++ [0]) ++ ((e.val ++ [0]) ++ b)))))
      }) (by simp) (by simp [hj]) (by simp [h₄])
  simp only [hptFill, bind_apply, w₁, Out.bind_ok, w₂, List.nil_append, w₃, w₄, w₅]
  simp [entryOctets]

/-! ### Room for an entry -/

/-- `hpt_fit` makes room, and says whether there is enough of it. -/
theorem hptFit_eq {k : ℕ} (h : t.Rep l) (hlim : t.sz.lim ≤ t.sz.max) :
    hptFit k t
      = .ok (k ≤ t.sz.limit, evictEvents (l.length - (room Entry.size t.sz.limit k l).length))
          (t.keep (room Entry.size t.sz.limit k l)) := by
  simp only [hptFit, bind_apply, get_apply, Out.bind_ok, assert_apply, hlim, if_true,
    hptAdjust_eq h (Or.inl hlim), Table.keep_limit, Table.keep_len, Table.keep_cnt]
  by_cases hk : k ≤ t.sz.limit
  · simp [hk, Nat.not_lt.2 hk]
  · have hr : room Entry.size t.sz.limit k l = [] := if_neg hk
    simp [hk, Nat.lt_of_not_le hk, hr, assert_apply]

/-- The events of an insertion in a table that holds `l`. -/
def insertEvents (limit : ℕ) (l : List Entry) (e : Entry) : List Event :=
  evictEvents (l.length - (room Entry.size limit e.size l).length) ++
    if e.size ≤ limit then [.index e.size] else []

/-- The memory once room was made in front of the entries that are kept. -/
theorem exists_shifted {used : Octets} (rest : Octets) (hm : IsTable 0 l used)
    (hlen : used.length + e.size ≤ (used ++ rest).length) :
    ∃ x used' rest' : Octets, x.length = e.size ∧ IsTable e.size l used' ∧
      used'.length = used.length ∧
      Octets.move e.size 0 used.length
        (Octets.write 8 (Octets.toLe 8 e.size) (used ++ rest)) = x ++ (used' ++ rest') ∧
      (x ++ (used' ++ rest')).length = (used ++ rest).length := by
  have hsz := e.size_gt
  simp only [hpackOverhead] at hsz
  obtain ⟨used', rest', hw, ht, hu, hr⟩ :=
    isTable_write_pre e.size rest hm (by omega)
  rw [hw]
  have hl : (used' ++ rest').length = (used ++ rest).length := by
    simp [hu, hr]
  refine ⟨(used' ++ rest').take e.size, used', (used' ++ rest').drop (e.size + used'.length),
    ?_, ht, hu, ?_, ?_⟩
  · rw [List.length_take]
    omega
  · have hread : Octets.read 0 used.length (used' ++ rest') = used' := by
      simp [Octets.read, hu]
    rw [Octets.move, hread, Octets.write, List.append_assoc]
  · simp only [List.length_append, List.length_take, List.length_drop] at hl hlen ⊢
    omega

/-- The size of the new entry goes in the header of the first one, then the table moves. -/
theorem shift_eq {used rest : Octets} (h : t.Rep l) (ht : t.tbl = used ++ rest)
    (hu : used.length = t.sz.len) (hlen : t.sz.len + e.size ≤ t.tbl.length) :
    ∃ t' : Table, writeTbl 8 (Octets.toLe 8 e.size) t = .ok () t' ∧
      hptShift e.size t' = .ok () { t with
        tbl := Octets.move e.size 0 used.length
          (Octets.write 8 (Octets.toLe 8 e.size) (used ++ rest)) } := by
  have hsz := e.size_gt
  simp only [hpackOverhead] at hsz
  have h8 : 8 + (Octets.toLe 8 e.size).length ≤ t.tbl.length := by
    rw [Octets.length_toLe]
    omega
  have hw : (Octets.write 8 (Octets.toLe 8 e.size) t.tbl).length = t.tbl.length :=
    Octets.length_write h8
  refine ⟨_, if_pos h8, ?_⟩
  simp only [hptShift, bind_apply, get_apply, Out.bind_ok, when_apply]
  by_cases hc : 0 < t.cnt
  · rw [if_pos hc, moveTbl_eq (by simp only [hw]; omega) (by simp only [hw]; omega)]
    simp only [ht, hu]
  · have hl : l = [] := List.length_eq_zero_iff.1 (by rw [← h.cnt]; omega)
    have h0 : used.length = 0 := by
      rw [hu, h.len, hl]
      rfl
    rw [if_neg hc, h0, Octets.move_zero, ← ht]

/-- **Insertion in front**: with a name outside of the table, `hptInsert` turns a table that
holds `l` into one that holds the longest prefix of `e :: l` that fits. -/
theorem hptInsert_eq (enc : Bool) (h : t.Rep l) (hlim : t.sz.lim ≤ t.sz.max)
    (hmem : total Entry.size (fit Entry.size t.sz.limit (e :: l)) ≤ t.tbl.length) :
    ∃ t' : Table, hptInsert enc (.ext e.nam) e.nam.length e.val t
        = .ok (insertEvents t.sz.limit l e) t' ∧
      t'.Rep (fit Entry.size t.sz.limit (e :: l)) ∧ t'.tbl.length = t.tbl.length ∧
      t'.sz = { t.sz with len := total Entry.size (fit Entry.size t.sz.limit (e :: l)) } := by
  have hlen : hpackOverhead + e.nam.length + e.val.length = e.size := rfl
  by_cases hk : e.size ≤ t.sz.limit
  · have hr := h.keep (room_isPrefix (w := Entry.size) t.sz.limit e.size l)
    have hfit : fit Entry.size t.sz.limit (e :: l) = e :: room Entry.size t.sz.limit e.size l :=
      (fit_cons e _ l).trans (if_pos hk)
    have hfits := hptFit_eq (k := e.size) h hlim
    rw [hfit, total_cons] at hmem
    rw [hfit]
    set p := room Entry.size t.sz.limit e.size l
    obtain ⟨used, rest, ht, hm⟩ := hr.mem
    obtain ⟨x, used', rest', hx, hm', hu', hmove, hl'⟩ :=
      exists_shifted (e := e) rest hm (by rw [hm.length, ← ht, Table.keep_tbl]; omega)
    obtain ⟨t', hpre, hshift⟩ := shift_eq (e := e) hr ht hm.length (by simp; omega)
    rw [hmove] at hshift
    obtain ⟨x₁, jnk, x₂, x₃, x₄, pad, x₅, x₆, rfl, h₁, hj, h₂, h₃, h₄, hp, h₅, h₆⟩ :=
      exists_entry_parts hx
    have hnam := writeTbl_eq hptHeaderSz (e.nam ++ [0])
      (a := x₁ ++ (jnk ++ (x₂ ++ (x₃ ++ (x₄ ++ pad))))) (m := x₅) (b := x₆ ++ (used' ++ rest'))
      (t := { t.keep p with tbl := x₁ ++ (jnk ++ (x₂ ++ (x₃ ++ (x₄ ++ (pad ++ (x₅ ++ x₆)))))) ++
        (used' ++ rest') })
      (by simp) (by simp [h₁, hj, h₂, h₃, h₄, hp, hptHeaderSz]) (by simp [h₅])
    simp only at hnam
    have hfill := hptFill_eq (e := e) (b := used' ++ rest')
      (t := { t.keep p with tbl := x₁ ++ (jnk ++ (x₂ ++ (x₃ ++ (x₄ ++ pad)))) ++
        (e.nam ++ [0] ++ (x₆ ++ (used' ++ rest'))) }) (by simp) h₁ hj h₂ h₃ h₄ hp h₆
    simp only at hfill
    refine ⟨{ t with
      sz := { t.sz with len := total Entry.size (e :: p) }
      cnt := (e :: p).length
      tbl := entryOctets jnk pad 0 e.nam e.val ++ (used' ++ rest') }, ?_, ?_, ?_, rfl⟩
    · simp only [hptInsert, hptOverlap, hlen, bind_apply, get_apply, Out.bind_ok, pure_apply,
        hfits, decide_eq_true hk, if_true, hpre, hshift]
      rw [hnam, Out.bind_ok, bind_apply, hfill, Out.bind_ok, bind_apply, modify_apply,
        Out.bind_ok, pure_apply]
      simp only [insertEvents, if_pos hk, total_cons, List.length_cons, Nat.add_comm e.size]
      rfl
    · exact ⟨rfl, rfl, entryOctets jnk pad 0 e.nam e.val ++ used', rest',
        (List.append_assoc ..).symm, .cons ⟨jnk, pad, hj, hp, rfl⟩ hm'⟩
    · have hentry : IsEntry 0 e (entryOctets jnk pad 0 e.nam e.val) := ⟨jnk, pad, hj, hp, rfl⟩
      rw [List.length_append, hx] at hl'
      rw [List.length_append, hentry.length, hl', ← ht]
      rfl
  · have hr : room Entry.size t.sz.limit e.size l = [] := if_neg hk
    have hfit : fit Entry.size t.sz.limit (e :: l) = [] := fit_cons_of_lt (by omega) l
    refine ⟨t.keep [], ?_, ?_, rfl, ?_⟩
    · simp [hptInsert, hptOverlap, hlen, hptFit_eq h hlim, hk, insertEvents, hr]
    · rw [hfit]
      exact h.keep List.nil_prefix
    · rw [hfit]
      rfl

theorem hptShift_empty {len : ℕ} (hc : t.cnt = 0) : hptShift len t = .ok () t := by
  simp [hptShift, when_apply, hc]

theorem hptShift_overrun {len : ℕ} (hc : 0 < t.cnt) (hlen : t.tbl.length < len + t.sz.len) :
    hptShift len t = .stop .overrun := by
  have h : ¬ (len + t.sz.len ≤ t.tbl.length ∧ 0 + t.sz.len ≤ t.tbl.length) := by omega
  simp only [hptShift, bind_apply, get_apply, Out.bind_ok, when_apply, if_pos hc, moveTbl,
    if_neg h]

theorem hptFill_overrun {n : ℕ} {val : Octets}
    (hlen : t.tbl.length < hptHeaderSz + n + 1 + (val.length + 1)) :
    hptFill n val t = .stop .overrun := by
  have h : ¬ hptHeaderSz + n + 1 + (val ++ [0]).length ≤ t.tbl.length := by
    simp only [List.length_append, List.length_singleton]
    omega
  simp only [hptFill, bind_apply, writeTbl, if_neg h, Out.bind_stop]

/-- An insertion that does not fit in the memory is stopped by the write that goes past it. -/
theorem hptInsert_overrun (enc : Bool) (h : t.Rep l) (hlim : t.sz.lim ≤ t.sz.max)
    (hmem : t.tbl.length < total Entry.size (fit Entry.size t.sz.limit (e :: l))) :
    hptInsert enc (.ext e.nam) e.nam.length e.val t = .stop .overrun := by
  have hlen : hpackOverhead + e.nam.length + e.val.length = e.size := rfl
  by_cases hk : e.size ≤ t.sz.limit
  · rw [fit_cons, if_pos hk, total_cons] at hmem
    have hr := h.keep (room_isPrefix (w := Entry.size) t.sz.limit e.size l)
    have hfits := hptFit_eq (k := e.size) h hlim
    set p := room Entry.size t.sz.limit e.size l
    simp only [hptInsert, hptOverlap, hlen, bind_apply, get_apply, Out.bind_ok, pure_apply, hfits,
      decide_eq_true hk, if_true]
    by_cases h8 : 8 + (Octets.toLe 8 e.size).length ≤ (t.keep p).tbl.length
    swap
    · simp only [writeTbl, if_neg h8, Out.bind_stop]
    have hw := Octets.length_write h8
    simp only [writeTbl, if_pos h8, Out.bind_ok, bind_apply]
    cases hp : p with
    | cons e' l' =>
      rw [hp] at hmem hw
      rw [hptShift_overrun (Nat.succ_pos _), Out.bind_stop]
      simp only [Table.keep_len, Table.keep_tbl] at hw ⊢
      omega
    | nil =>
      rw [hp, total_nil] at hmem
      rw [hp] at hw
      rw [hptShift_empty (by rfl), Out.bind_ok]
      by_cases hn : hptHeaderSz + (e.nam ++ [0]).length ≤
          (Octets.write 8 (Octets.toLe 8 e.size) (t.keep []).tbl).length
      · have hw' := Octets.length_write hn
        simp only [bind_apply, writeTbl, if_pos hn, Out.bind_ok]
        rw [hptFill_overrun, Out.bind_stop]
        rw [hw', hw, Table.keep_tbl]
        simp only [hptHeaderSz, Entry.size, hpackOverhead] at hmem ⊢
        omega
      · simp only [bind_apply, writeTbl, if_neg hn, Out.bind_stop]
  · rw [fit_cons_of_lt (by omega), total_nil] at hmem
    exact absurd hmem (by omega)

end Cashpack
