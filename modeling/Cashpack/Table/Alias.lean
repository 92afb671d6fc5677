import Cashpack.Octets.Access
import Cashpack.Table.Refine

/-!
# Insertion of a name that is in the table

The name of a new entry may be the one of an entry of the dynamic table, which is evicted or
moved before its name is copied.  `hpt_move_evicted` moves the table 64 octets at a time, and
after each step copies the next octets of the name to where the name of the new entry starts,
over the header of the table it just moved.

## Main results

* `isEntry_iff` : an entry is in memory when its parts are.
* `hptInsert_moved` : the memory after an insertion, given what the loop does to it.
* `index_aliased` : the table holds the new entry and the ones that are kept exactly when the
  name is short, or nothing is kept and the name is copied in one step.
-/

namespace Cashpack

open Prog Fifo

variable {t : Table} {l p : List Entry} {e : Entry} {pre off : ℕ} {m : Octets}

/-! ### Entries, part by part -/

/-- The parts of an entry in memory: its header, and its strings with their terminators. -/
structure EntryParts (pre : ℕ) (e : Entry) (off : ℕ) (m : Octets) : Prop where
  magic : Octets.read off 4 m = Octets.toLe 4 hptEntryMagic
  preSz : Octets.read (off + 8) 8 m = Octets.toLe 8 pre
  sizes : Octets.read (off + 16) 4 m =
    Octets.toLe 2 e.nam.length ++ Octets.toLe 2 e.val.length
  nam : Octets.read (off + hptHeaderSz) (e.nam.length + 1) m = e.nam ++ [0]
  val : Octets.read (off + hptHeaderSz + (e.nam.length + 1)) (e.val.length + 1) m = e.val ++ [0]

/-- An entry is in memory when its parts are. -/
theorem isEntry_iff (hm : off + e.size ≤ m.length) :
    IsEntry pre e (Octets.read off e.size m) ↔ EntryParts pre e off m := by
  have hsize : e.size = 4 + (4 + (8 + (4 + (10 + (e.nam.length + 1 + (e.val.length + 1)))))) := by
    simp only [Entry.size, hpackOverhead]
    omega
  have hparts : Octets.read off e.size m = Octets.read off 4 m ++ (Octets.read (off + 4) 4 m ++
      (Octets.read (off + 8) 8 m ++ (Octets.read (off + 16) 4 m ++ (Octets.read (off + 20) 10 m ++
      (Octets.read (off + 30) (e.nam.length + 1) m ++
        Octets.read (off + 30 + (e.nam.length + 1)) (e.val.length + 1) m))))) := by
    rw [hsize]
    generalize e.nam.length + 1 = a
    generalize e.val.length + 1 = b
    simp only [Octets.read_add, Nat.add_assoc, Nat.reduceAdd]
  have hlen : ∀ i k, i + k ≤ e.size → (Octets.read (off + i) k m).length = k := fun i k h =>
    Octets.length_read _ _ _ (by omega)
  rw [hparts]
  constructor
  · rintro ⟨jnk, pad, hj, hp, heq⟩
    simp only [entryOctets] at heq
    obtain ⟨hmagic, heq⟩ := List.append_inj heq (by simpa using hlen 0 4 (by omega))
    obtain ⟨-, heq⟩ := List.append_inj heq (by rw [hlen 4 4 (by omega), hj])
    obtain ⟨hpre, heq⟩ := List.append_inj heq (by rw [hlen 8 8 (by omega), Octets.length_toLe])
    rw [← List.append_assoc (Octets.toLe 2 e.nam.length)] at heq
    obtain ⟨hsizes, heq⟩ := List.append_inj heq (by rw [hlen 16 4 (by omega)]; simp)
    obtain ⟨-, heq⟩ := List.append_inj heq (by rw [hlen 20 10 (by omega), hp])
    rw [← List.append_assoc e.nam] at heq
    obtain ⟨hnam, hval⟩ := List.append_inj heq (by rw [hlen 30 _ (by omega)]; simp)
    exact ⟨hmagic, hpre, hsizes, hnam, hval⟩
  · intro h
    refine ⟨Octets.read (off + 4) 4 m, Octets.read (off + 20) 10 m, hlen 4 4 (by omega),
      hlen 20 10 (by omega), ?_⟩
    have hnam : Octets.read (off + 30) (e.nam.length + 1) m = e.nam ++ [0] := h.nam
    have hval : Octets.read (off + 30 + (e.nam.length + 1)) (e.val.length + 1) m = e.val ++ [0] :=
      h.val
    simp only [h.magic, h.preSz, h.sizes, hnam, hval, entryOctets, List.append_assoc]

/-- A table in memory is its first entry and the others. -/
theorem isTable_read_cons (hm : off + total Entry.size (e :: p) ≤ m.length) :
    IsTable pre (e :: p) (Octets.read off (total Entry.size (e :: p)) m) ↔
      EntryParts pre e off m ∧
        IsTable e.size p (Octets.read (off + e.size) (total Entry.size p) m) := by
  rw [total_cons] at hm
  rw [total_cons, Octets.read_add, isTable_cons, ← @isEntry_iff e pre off m (by omega)]
  constructor
  · rintro ⟨m₁, m₂, heq, h₁, h₂⟩
    obtain ⟨rfl, rfl⟩ := List.append_inj heq (by
      rw [Octets.length_read _ _ _ (by omega), h₁.length])
    exact ⟨h₁, h₂⟩
  · rintro ⟨h₁, h₂⟩
    exact ⟨_, _, rfl, h₁, h₂⟩

/-- The memory of a table, where it stands. -/
theorem Table.rep_iff : t.Rep l ↔ t.cnt = l.length ∧ t.sz.len = total Entry.size l ∧
    total Entry.size l ≤ t.tbl.length ∧
    IsTable 0 l (Octets.read 0 (total Entry.size l) t.tbl) := by
  constructor
  · intro h
    obtain ⟨used, rest, ht, hm⟩ := h.mem
    have hread : Octets.read 0 (total Entry.size l) t.tbl = used := by
      rw [ht, ← hm.length]
      simp [Octets.read]
    refine ⟨h.cnt, h.len, ?_, hread ▸ hm⟩
    rw [ht, List.length_append, hm.length]
    omega
  · rintro ⟨hcnt, hlen, hle, hm⟩
    refine ⟨hcnt, hlen, _, t.tbl.drop (total Entry.size l), ?_, hm⟩
    rw [Octets.read, List.drop_zero, List.take_append_drop]

/-! ### The last writes -/

/-- The memory `m'` is `m` once the value and the header of an entry were written. -/
structure Filled (namSz : ℕ) (val m m' : Octets) : Prop where
  length : m'.length = m.length
  magic : Octets.read 0 4 m' = Octets.toLe 4 hptEntryMagic
  preSz : Octets.read 8 8 m' = Octets.toLe 8 0
  sizes : Octets.read 16 4 m' = Octets.toLe 2 namSz ++ Octets.toLe 2 val.length
  str : Octets.read (hptHeaderSz + (namSz + 1)) (val.length + 1) m' = val ++ [0]
  nam : ∀ i k, 20 ≤ i → i + k ≤ hptHeaderSz + (namSz + 1) → Octets.read i k m' = Octets.read i k m
  after : ∀ i k, hpackOverhead + namSz + val.length ≤ i → Octets.read i k m' = Octets.read i k m

/-- A write at a place that was checked. -/
theorem writeTbl_run {off : ℕ} {bs : Octets} (h : off + bs.length ≤ t.tbl.length) :
    writeTbl off bs t = .ok () { t with tbl := Octets.write off bs t.tbl } := if_pos h

theorem hptFill_run {namSz : ℕ} {val : Octets}
    (h : hpackOverhead + namSz + val.length ≤ t.tbl.length) :
    ∃ m', hptFill namSz val t = .ok () { t with tbl := m' } ∧ Filled namSz val t.tbl m' := by
  simp only [hpackOverhead] at h
  -- the memory after each write
  have hrun : ∀ {off : ℕ} {bs m : Octets}, off + bs.length ≤ m.length → m.length = t.tbl.length →
      ∃ m', m' = Octets.write off bs m ∧ m'.length = t.tbl.length ∧
        writeTbl off bs { t with tbl := m } = .ok () { t with tbl := m' } :=
    fun h hm => ⟨_, rfl, (Octets.length_write h).trans hm, writeTbl_run h⟩
  obtain ⟨m₁, e₁, l₁, w₁⟩ := @hrun (hptHeaderSz + namSz + 1) (val ++ [0]) t.tbl
    (by simp [hptHeaderSz]; omega) rfl
  obtain ⟨m₂, e₂, l₂, w₂⟩ := @hrun 0 (Octets.toLe 4 hptEntryMagic) m₁ (by simp; omega) l₁
  obtain ⟨m₃, e₃, l₃, w₃⟩ := @hrun 8 (Octets.toLe 8 0) m₂ (by simp; omega) l₂
  obtain ⟨m₄, e₄, l₄, w₄⟩ := @hrun 16 (Octets.toLe 2 namSz) m₃ (by simp; omega) l₃
  obtain ⟨m₅, e₅, l₅, w₅⟩ := @hrun 18 (Octets.toLe 2 val.length) m₄ (by simp; omega) l₄
  -- what comes after the header is only written with the value
  have hstrs : ∀ i k, 20 ≤ i → Octets.read i k m₅ = Octets.read i k m₁ := by
    intro i k hi
    rw [e₅, Octets.read_write_after (by simp; omega) (by omega), e₄,
      Octets.read_write_after (by simp; omega) (by omega), e₃,
      Octets.read_write_after (by simp; omega) (by omega), e₂,
      Octets.read_write_after (by simp; omega) (by omega)]
  refine ⟨m₅, ?_, l₅, ?_, ?_, ?_, ?_, ?_, ?_⟩
  · have w₁' : writeTbl (hptHeaderSz + namSz + 1) (val ++ [0]) t = .ok () { t with tbl := m₁ } := w₁
    simp only [hptFill, bind_apply, w₁', w₂, w₃, w₄, w₅, Out.bind_ok]
  · rw [e₅, Octets.read_write_before (by omega) (by omega), e₄,
      Octets.read_write_before (by omega) (by omega), e₃,
      Octets.read_write_before (by omega) (by omega), e₂]
    exact Octets.read_write_all (Octets.length_toLe _ _) (Nat.zero_le _)
  · rw [e₅, Octets.read_write_before (by omega) (by omega), e₄,
      Octets.read_write_before (by omega) (by omega), e₃]
    exact Octets.read_write_all (Octets.length_toLe _ _) (by omega)
  · rw [Octets.read_add 16 2 2, e₅, Octets.read_write_before (by omega) (by omega),
      Octets.read_write_all (Octets.length_toLe _ _) (by omega), e₄,
      Octets.read_write_all (Octets.length_toLe _ _) (by omega)]
  · rw [hstrs _ _ (by simp only [hptHeaderSz]; omega), e₁]
    exact Octets.read_write_all (by simp) (by simp only [hptHeaderSz]; omega)
  · intro i k hi hk
    rw [hstrs i k hi, e₁]
    exact Octets.read_write_before (by omega) (by simp only [hptHeaderSz]; omega)
  · intro i k hi
    simp only [hpackOverhead] at hi
    rw [hstrs i k (by omega), e₁]
    exact Octets.read_write_after (by simp [hptHeaderSz]; omega)
      (by simp only [hptHeaderSz]; omega)

/-! ### The loop -/

/-- One step of the loop of `hpt_move_evicted`: the table, of `len` octets at `pos`, moves by
`sz`, and `sz` octets of the name at `nam` are copied. -/
def movedOnce (nam len sz pos : ℕ) (m : Octets) : Octets :=
  Octets.write hptHeaderSz (Octets.read nam sz m) (Octets.move (pos + sz) pos len m)

theorem movedOnce_length {nam len sz pos : ℕ} (hnam : nam + sz ≤ m.length)
    (hpos : pos + sz + len ≤ m.length) (hsz : hptHeaderSz + sz ≤ m.length) :
    (movedOnce nam len sz pos m).length = m.length := by
  have hmove : (Octets.move (pos + sz) pos len m).length = m.length :=
    Octets.length_move hpos (by omega)
  rw [movedOnce, Octets.length_write, hmove]
  rw [hmove, Octets.length_read _ _ _ hnam]
  exact hsz

/-- What each step of the loop keeps holds at its end: `d` octets of the `n` octets at `nam` were
copied so far. -/
theorem hptMoveEvictedLoop_run {I : ℕ → Octets → Prop} {nam n len fuel d : ℕ}
    (hnam : nam + n ≤ t.tbl.length) (hmem : n + t.sz.len ≤ t.tbl.length)
    (hhdr : hptHeaderSz + n ≤ t.tbl.length) (hlen : n ≤ len)
    (hstep : ∀ d m, d < n → m.length = t.tbl.length → I d m →
      I (d + min (n - d) 64) (movedOnce (nam + d) t.sz.len (min (n - d) 64) d m))
    (hfuel : n - d < fuel) (hd : d ≤ n) (hm : m.length = t.tbl.length) (hI : I d m) :
    ∃ m', hptMoveEvictedLoop fuel (nam + d) (n - d) (len - d) d { t with tbl := m } =
        .ok (n, len - n) { t with tbl := m' } ∧ m'.length = t.tbl.length ∧ I n m' := by
  induction fuel generalizing d m with
  | zero => omega
  | succ fuel ih =>
    rw [hptMoveEvictedLoop]
    by_cases hend : n - d = 0
    · obtain rfl : d = n := by omega
      rw [if_pos hend]
      exact ⟨m, rfl, hm, hI⟩
    · have hsz : min (n - d) 64 ≤ n - d := Nat.min_le_left _ _
      have hpos : 0 < min (n - d) 64 := by omega
      have hlen' : (movedOnce (nam + d) t.sz.len (min (n - d) 64) d m).length = m.length :=
        movedOnce_length (by omega) (by omega) (by omega)
      obtain ⟨m', hrun, hm', hI'⟩ := ih (d := d + min (n - d) 64) (by omega) (by omega)
        (hlen'.trans hm) (hstep d m (by omega) hm hI)
      refine ⟨m', ?_, hm', hI'⟩
      have hread : readTbl (nam + d) (min (n - d) 64) { t with tbl := m } =
          .ok (Octets.read (nam + d) (min (n - d) 64) m) { t with tbl := m } :=
        if_pos (show _ ≤ m.length by omega)
      have hmove : moveTbl (d + min (n - d) 64) d t.sz.len { t with tbl := m } = .ok ()
          { t with tbl := Octets.move (d + min (n - d) 64) d t.sz.len m } :=
        moveTbl_eq (show _ ≤ m.length by omega) (show _ ≤ m.length by omega)
      have hmlen : (Octets.move (d + min (n - d) 64) d t.sz.len m).length = m.length :=
        Octets.length_move (by omega) (by omega)
      have hwrite : writeTbl hptHeaderSz (Octets.read (nam + d) (min (n - d) 64) m)
          { t with tbl := Octets.move (d + min (n - d) 64) d t.sz.len m } =
          .ok () { t with tbl := movedOnce (nam + d) t.sz.len (min (n - d) 64) d m } :=
        writeTbl_run (show _ ≤ (Octets.move _ _ _ m).length by
          rw [hmlen, Octets.length_read _ _ _ (by omega)]
          omega)
      rw [if_neg hend]
      simp only [bind_apply, get_apply, Out.bind_ok, hread, hmove, hwrite,
        subSize_eq (show min (n - d) 64 ≤ len - d by omega)]
      rw [← hrun]
      congr 1 <;> omega

/-! ### The whole insertion -/

/-- The memory after the insertion of an entry whose name is at `nam` in the table, given what
the steps of the loop keep. -/
theorem hptInsert_moved {I : ℕ → Octets → Prop} {nam : ℕ} (h : t.Rep l)
    (hlim : t.sz.lim ≤ t.sz.max) (hk : e.size ≤ t.sz.limit)
    (hmem : e.size + total Entry.size (room Entry.size t.sz.limit e.size l) ≤ t.tbl.length)
    (hnam : nam + e.nam.length < t.sz.len)
    (hstep : ∀ d m, d < e.nam.length + 1 → m.length = t.tbl.length → I d m →
      I (d + min (e.nam.length + 1 - d) 64) (movedOnce (nam + d)
        (total Entry.size (room Entry.size t.sz.limit e.size l))
        (min (e.nam.length + 1 - d) 64) d m))
    (hI : I 0 (Octets.write 8 (Octets.toLe 8 e.size) t.tbl)) :
    ∃ m m', I (e.nam.length + 1) m ∧ m.length = t.tbl.length ∧
      Filled e.nam.length e.val (Octets.move e.size (e.nam.length + 1)
        (total Entry.size (room Entry.size t.sz.limit e.size l)) m) m' ∧
      hptInsert true (.tbl nam) e.nam.length e.val t = .ok (insertEvents t.sz.limit l e)
        { t.keep (e :: room Entry.size t.sz.limit e.size l) with tbl := m' } := by
  have hfits := hptFit_eq (k := e.size) h hlim
  set p := room Entry.size t.sz.limit e.size l
  have hsize : e.size = 32 + e.nam.length + e.val.length := rfl
  have htot : t.sz.len ≤ t.tbl.length := by
    rw [h.len]
    exact (Table.rep_iff.1 h).2.2.1
  have h8 : 8 + (Octets.toLe 8 e.size).length ≤ t.tbl.length := by
    rw [Octets.length_toLe]
    omega
  have hw := Octets.length_write h8
  have hpre : writeTbl 8 (Octets.toLe 8 e.size) (t.keep p) =
      .ok () { t.keep p with tbl := Octets.write 8 (Octets.toLe 8 e.size) t.tbl } := if_pos h8
  -- the loop, on the table that is kept
  have hloop : ∃ m, hptMoveEvictedLoop (e.nam.length + 2) (nam + 0) (e.nam.length + 1 - 0)
        (e.size - 0) 0 { t.keep p with tbl := Octets.write 8 (Octets.toLe 8 e.size) t.tbl } =
        .ok (e.nam.length + 1, e.size - (e.nam.length + 1)) { t.keep p with tbl := m } ∧
      m.length = (t.keep p).tbl.length ∧ I (e.nam.length + 1) m :=
    hptMoveEvictedLoop_run (by simp only [Table.keep_tbl]; omega)
      (by simp only [Table.keep_tbl, Table.keep_len]; omega)
      (by simp only [Table.keep_tbl, hptHeaderSz]; omega) (by omega)
      (by simpa only [Table.keep_tbl, Table.keep_len] using hstep) (by omega) (by omega)
      (by simpa only [Table.keep_tbl] using hw) hI
  obtain ⟨m, hloop, hm, hI'⟩ := hloop
  simp only [Table.keep_tbl] at hm
  have hback : e.nam.length + 1 + (e.size - (e.nam.length + 1)) = e.size := by omega
  have hmove : moveTbl e.size (e.nam.length + 1) (total Entry.size p) { t.keep p with tbl := m } =
      .ok () { t.keep p with
        tbl := Octets.move e.size (e.nam.length + 1) (total Entry.size p) m } :=
    moveTbl_eq (show _ ≤ m.length by omega) (show _ ≤ m.length by omega)
  have hmlen : (Octets.move e.size (e.nam.length + 1) (total Entry.size p) m).length = m.length :=
    Octets.length_move (by omega) (by omega)
  obtain ⟨m', hfill, hfilled⟩ := @hptFill_run
    { t.keep p with tbl := Octets.move e.size (e.nam.length + 1) (total Entry.size p) m }
    e.nam.length e.val
    (show _ ≤ (Octets.move _ _ _ m).length by simp only [hmlen, hpackOverhead]; omega)
  refine ⟨m, m', hI', hm, hfilled, ?_⟩
  have hover : hptOverlap (.tbl nam) e.nam.length t = .ok true t := by
    simp only [hptOverlap, bind_apply, get_apply, Out.bind_ok, if_pos (show nam < t.sz.len by omega),
      assert_apply, if_pos hnam, pure_apply]
  have hevict : hptMoveEvicted nam e.nam.length e.size
      { t.keep p with tbl := Octets.write 8 (Octets.toLe 8 e.size) t.tbl } =
      .ok () { t.keep p with
        tbl := Octets.move e.size (e.nam.length + 1) (total Entry.size p) m } := by
    have hleft : hptHeaderSz < e.size - (e.nam.length + 1) := by
      rw [hptHeaderSz]
      omega
    simp only [Nat.add_zero, Nat.sub_zero] at hloop
    simp only [hptMoveEvicted, bind_apply, hloop, Out.bind_ok, assert_apply, if_pos hleft,
      get_apply, hback, Table.keep_len, hmove]
  have hlen : hpackOverhead + e.nam.length + e.val.length = e.size := rfl
  simp only [hptInsert, hlen, bind_apply, hover, Out.bind_ok, hfits, decide_eq_true hk, if_true,
    hpre, assert_apply, hevict, hfill, modify_apply, pure_apply]
  simp only [insertEvents, if_pos hk, Table.keep, total_cons, List.length_cons,
    Nat.add_comm e.size]
  rfl

/-! ### What the insertion leaves -/

/-- The parts of an entry, where it was copied. -/
theorem EntryParts.copy {off' : ℕ} {m' : Octets} (h : EntryParts pre e off m)
    (hcopy : ∀ i k, i + k ≤ e.size → Octets.read (off' + i) k m' = Octets.read (off + i) k m) :
    EntryParts pre e off' m' := by
  have hsize : e.size = 32 + e.nam.length + e.val.length := rfl
  refine ⟨?_, ?_, ?_, ?_, ?_⟩
  · exact (hcopy 0 4 (by omega)).trans h.magic
  · exact (hcopy 8 8 (by omega)).trans h.preSz
  · exact (hcopy 16 4 (by omega)).trans h.sizes
  · exact (hcopy hptHeaderSz _ (by simp only [hptHeaderSz]; omega)).trans h.nam
  · have hval := h.val
    rw [Nat.add_assoc] at hval ⊢
    exact (hcopy _ _ (by simp only [hptHeaderSz]; omega)).trans hval

/-- The parts of an entry of the table. -/
theorem Table.Rep.parts {l₁ l₂ : List Entry} {src : Entry} (h : t.Rep (l₁ ++ src :: l₂)) :
    EntryParts (lastSize 0 l₁) src (total Entry.size l₁) t.tbl := by
  obtain ⟨used, rest, ht, hm⟩ := h.mem
  obtain ⟨m₁, m₂, rfl, h₁, h₂⟩ := isTable_append.1 hm
  obtain ⟨m₃, m₄, rfl, h₃, h₄⟩ := isTable_cons.1 h₂
  have hread : Octets.read (total Entry.size l₁) src.size t.tbl = m₃ := by
    rw [ht, List.append_assoc, List.append_assoc]
    exact Octets.read_region h₁.length h₃.length
  rw [← hread] at h₃
  refine (isEntry_iff ?_).1 h₃
  rw [ht, List.append_assoc, List.append_assoc, List.length_append, List.length_append, h₁.length,
    ← h₃.length, hread]
  omega

/-- The entries `p` that are kept are where the loop left them, and its header is intact. -/
def KeptAt (pre : ℕ) (p : List Entry) (off : ℕ) (m : Octets) : Prop :=
  IsTable pre p (Octets.read off (total Entry.size p) m)

/-- Once the last writes are made, the table holds the new entry and those that are kept exactly
when the loop copied the name and kept their octets. -/
theorem rep_moved {m' : Octets} (hm : m.length = t.tbl.length)
    (hmem : e.size + total Entry.size p ≤ t.tbl.length)
    (hfilled : Filled e.nam.length e.val
      (Octets.move e.size (e.nam.length + 1) (total Entry.size p) m) m') :
    Table.Rep { t.keep (e :: p) with tbl := m' } (e :: p) ↔
      Octets.read hptHeaderSz (e.nam.length + 1) m = e.nam ++ [0] ∧
        KeptAt e.size p (e.nam.length + 1) m := by
  have hsize : e.size = 32 + e.nam.length + e.val.length := rfl
  have hmove : (Octets.move e.size (e.nam.length + 1) (total Entry.size p) m).length = m.length :=
    Octets.length_move (by omega) (by omega)
  have hlen : m'.length = t.tbl.length := by rw [hfilled.length, hmove, hm]
  have hname : Octets.read hptHeaderSz (e.nam.length + 1) m' =
      Octets.read hptHeaderSz (e.nam.length + 1) m := by
    rw [hfilled.nam _ _ (by decide) le_rfl]
    exact Octets.read_move_before (by simp only [hptHeaderSz]; omega) (by omega)
  have hkept : Octets.read e.size (total Entry.size p) m' =
      Octets.read (e.nam.length + 1) (total Entry.size p) m := by
    rw [hfilled.after e.size _ le_rfl]
    have hself : Octets.read (e.size + 0) (total Entry.size p)
        (Octets.move e.size (e.nam.length + 1) (total Entry.size p) m) =
        Octets.read (e.nam.length + 1 + 0) (total Entry.size p) m :=
      Octets.read_move_self (by omega) (by omega) (by omega)
    exact hself
  have hle : total Entry.size (e :: p) ≤ m'.length := by
    rw [total_cons, hlen]
    exact hmem
  rw [Table.rep_iff]
  constructor
  · rintro ⟨-, -, -, htable⟩
    obtain ⟨hparts, hrest⟩ := (isTable_read_cons (by simpa using hle)).1 htable
    rw [Nat.zero_add, hkept] at hrest
    refine ⟨hname ▸ ?_, hrest⟩
    simpa using hparts.nam
  · rintro ⟨hnam, hrest⟩
    refine ⟨rfl, rfl, hle, (isTable_read_cons (by simpa using hle)).2 ⟨⟨?_, ?_, ?_, ?_, ?_⟩, ?_⟩⟩
    · exact hfilled.magic
    · exact hfilled.preSz
    · exact hfilled.sizes
    · rw [Nat.zero_add]
      exact hname.trans hnam
    · rw [Nat.zero_add]
      exact hfilled.str
    · rw [Nat.zero_add]
      exact hkept ▸ hrest

theorem keptAt_cons {e' : Entry} {off : ℕ} (hm : off + total Entry.size (e' :: p) ≤ m.length) :
    KeptAt pre (e' :: p) off m ↔ EntryParts pre e' off m ∧ KeptAt e'.size p (off + e'.size) m :=
  isTable_read_cons hm

theorem keptAt_nil : KeptAt pre [] off m := isTable_nil.2 rfl

/-- The size of the new entry is written in the header of the first one. -/
theorem EntryParts.patch {e' : Entry} {k : ℕ} (h : EntryParts 0 e' 0 m) (hm : 16 ≤ m.length) :
    EntryParts k e' 0 (Octets.write 8 (Octets.toLe 8 k) m) := by
  have hafter : ∀ i n, 16 ≤ i → Octets.read i n (Octets.write 8 (Octets.toLe 8 k) m) =
      Octets.read i n m := fun i n hi => Octets.read_write_after (by simpa using hi) (by omega)
  refine ⟨?_, Octets.read_write_all (Octets.length_toLe _ _) (by omega), ?_, ?_, ?_⟩
  · exact (Octets.read_write_before (by omega) (by omega)).trans h.magic
  · exact (hafter _ _ (by omega)).trans h.sizes
  · exact (hafter _ _ (by simp only [hptHeaderSz]; omega)).trans h.nam
  · exact (hafter _ _ (by simp only [hptHeaderSz]; omega)).trans h.val

/-- The entries that are kept, once the size of the new entry was written. -/
theorem Table.Rep.keptAt {k : ℕ} (h : t.Rep l) (hp : p <+: l) (hm : 16 ≤ t.tbl.length) :
    KeptAt k p 0 (Octets.write 8 (Octets.toLe 8 k) t.tbl) := by
  cases p with
  | nil => exact keptAt_nil
  | cons e' p =>
    obtain ⟨-, -, hle, htable⟩ := Table.rep_iff.1 (h.keep hp)
    rw [Table.keep_tbl] at hle htable
    have hlen : (Octets.write 8 (Octets.toLe 8 k) t.tbl).length = t.tbl.length :=
      Octets.length_write (by rw [Octets.length_toLe]; omega)
    obtain ⟨hparts, hrest⟩ := (isTable_read_cons (by omega)).1 htable
    refine (keptAt_cons (by omega)).2 ⟨hparts.patch hm, ?_⟩
    have hsz := e'.size_gt
    rw [hpackOverhead] at hsz
    have hafter : Octets.read (0 + e'.size) (total Entry.size p)
        (Octets.write 8 (Octets.toLe 8 k) t.tbl) =
        Octets.read (0 + e'.size) (total Entry.size p) t.tbl :=
      Octets.read_write_after (by rw [Octets.length_toLe]; omega) (by omega)
    rw [KeptAt, hafter]
    exact hrest

/-! ### One step -/

/-- The header of the first entry that is kept, or what is left of it, does not show that the
name was copied over it: of the name, only the octets that come before the last nine end up in
the part of the header that is read. -/
def AliasFits (nam : Octets) : List Entry → Prop
  | [] => nam.length < 64
  | e :: _ => nam.take (nam.length - 9) <:+
      Octets.toLe 2 e.nam.length ++ Octets.toLe 2 e.val.length

/-- An octet of a string with its terminator. -/
theorem read_one {s : Octets} {i : ℕ} (h : i < s.length) :
    Octets.read i 1 (s ++ [0]) = [s[i]] := by
  rw [Octets.read, List.drop_append_of_le_length (by omega), List.drop_eq_getElem_cons h]
  rfl

theorem read_pre {k : ℕ} (hk : k < 2 ^ 18) {m : Octets} (h : Octets.read off 8 m = Octets.toLe 8 k) :
    Octets.read (off + 7) 1 m = [0] := by
  rw [← Octets.read_read (i := 7) (k := 1) (n := 8) (by decide), h]
  have : Octets.toLe 8 k = UInt8.ofNat (k % 256) :: UInt8.ofNat (k / 256 % 256) ::
      UInt8.ofNat (k / 256 / 256 % 256) :: [0, 0, 0, 0, 0] := by
    have h3 : k / 256 / 256 / 256 = 0 := by omega
    simp [Octets.toLe, h3]
  rw [this]
  rfl

/-- A name copied in one step leaves the entries that are kept as they were exactly when what it
overwrites of their first header is the same. -/
theorem keptAt_movedOnce {e' : Entry} {nam : ℕ} (h0 : 0 ∉ e.nam)
    (hread : Octets.read nam (e.nam.length + 1) m = e.nam ++ [0])
    (hkept : KeptAt e.size (e' :: p) 0 m)
    (hmem : e.nam.length + 1 + total Entry.size (e' :: p) ≤ m.length)
    (hhdr : hptHeaderSz + (e.nam.length + 1) ≤ m.length) :
    KeptAt e.size (e' :: p) (e.nam.length + 1)
        (movedOnce nam (total Entry.size (e' :: p)) (e.nam.length + 1) 0 m) ↔
      AliasFits e.nam (e' :: p) := by
  have hsize : e'.size = 32 + e'.nam.length + e'.val.length := rfl
  have htotal : total Entry.size (e' :: p) = e'.size + total Entry.size p := rfl
  have hsz := e'.size_gt
  have hlt := e.size_lt
  rw [hpackOverhead] at hsz
  rw [hptHeaderSz] at hhdr
  set n := e.nam.length + 1 with hn
  set len := total Entry.size (e' :: p)
  have hcopied : (Octets.move (0 + n) 0 len m).length = m.length :=
    Octets.length_move (by omega) (by omega)
  have hlen : (Octets.read nam n m).length = n := by
    rw [hread, List.length_append, List.length_singleton]
  -- the table moved, but for what is under the name
  have hmoved : ∀ i k, i + k ≤ len → (n + i + k ≤ 30 ∨ 30 ≤ i) →
      Octets.read (n + i) k (movedOnce nam len n 0 m) = Octets.read i k m := by
    intro i k hi hout
    have hmove : Octets.read (0 + n + i) k (Octets.move (0 + n) 0 len m) =
        Octets.read (0 + i) k m := Octets.read_move_self hi (by omega) (by omega)
    rw [Nat.zero_add, Nat.zero_add] at hmove
    rw [movedOnce, hptHeaderSz, Nat.zero_add]
    rw [Nat.zero_add] at hcopied
    rcases hout with hout | hout
    · rw [Octets.read_write_before (by omega) (by omega), hmove]
    · rw [Octets.read_write_after (by rw [hlen]; omega) (by omega), hmove]
  have hover : ∀ i k, i + k ≤ n →
      Octets.read (30 + i) k (movedOnce nam len n 0 m) = Octets.read i k (e.nam ++ [0]) := by
    intro i k hi
    rw [movedOnce, ← hread]
    exact Octets.read_write_self (by rw [hlen]; exact hi) (by rw [hcopied]; omega)
  obtain ⟨hparts, hrest⟩ := (keptAt_cons (by omega)).1 hkept
  rw [Nat.zero_add] at hrest
  have hlen' : (movedOnce nam len n 0 m).length = m.length := by
    rw [movedOnce, Octets.length_write, hcopied]
    rw [hlen, hcopied, hptHeaderSz]
    omega
  have hrest' : KeptAt e'.size p (n + e'.size) (movedOnce nam len n 0 m) := by
    rw [KeptAt, hmoved _ _ (by omega) (by omega)]
    exact hrest
  have hk : e.nam.length - 9 = n - 10 := by omega
  -- what is left of the two sizes in the header
  have hsizes : n ≤ 14 → Octets.read (n + 16) 4 (movedOnce nam len n 0 m) =
      Octets.read 16 (4 - (n - 10)) m ++ e.nam.take (n - 10) := by
    intro hle
    have hfour : 4 = (4 - (n - 10)) + (n - 10) := by omega
    have hname : Octets.read (n + 16 + (4 - (n - 10))) (n - 10) (movedOnce nam len n 0 m) =
        e.nam.take (n - 10) := by
      by_cases hten : n ≤ 10
      · rw [Nat.sub_eq_zero_of_le hten]
        rfl
      · have := hover 0 (n - 10) (by omega)
        rw [show n + 16 + (4 - (n - 10)) = 30 + 0 by omega, this, Octets.read, List.drop_zero,
          List.take_append_of_le_length (by omega)]
    conv_lhs => rw [hfour]
    rw [Octets.read_add, hname, hmoved _ _ (by omega) (by omega)]
  rw [keptAt_cons (by omega), AliasFits, hk]
  constructor
  · rintro ⟨hparts', -⟩
    have hle : n ≤ 14 := by
      by_contra hgt
      have hzero := read_pre hlt hparts'.preSz
      have hoctet := hover (n - 15) 1 (by omega)
      rw [read_one (by omega), show 30 + (n - 15) = n + 8 + 7 by omega, hzero] at hoctet
      exact h0 ((List.cons.inj hoctet).1 ▸ List.getElem_mem _)
    exact ⟨_, (hsizes hle).symm.trans hparts'.sizes⟩
  · rintro ⟨x, hx⟩
    have hxlen := congrArg List.length hx
    simp only [List.length_append, List.length_take, Octets.length_toLe] at hxlen
    have hle : n ≤ 14 := by omega
    have hold : Octets.read 16 (4 - (n - 10)) m ++ Octets.read (16 + (4 - (n - 10))) (n - 10) m =
        x ++ e.nam.take (n - 10) := by
      rw [← Octets.read_add, show 4 - (n - 10) + (n - 10) = 4 by omega, hx]
      have := hparts.sizes
      rwa [Nat.zero_add] at this
    have hleft : (Octets.read 16 (4 - (n - 10)) m).length = x.length := by
      rw [Octets.length_read _ _ _ (by omega)]
      omega
    obtain ⟨hfirst, -⟩ := List.append_inj hold hleft
    refine ⟨⟨?_, ?_, ?_, ?_, ?_⟩, hrest'⟩
    · have := hparts.magic
      rwa [← hmoved 0 4 (by omega) (by omega)] at this
    · have := hparts.preSz
      rw [Nat.zero_add] at this
      rw [hmoved 8 8 (by omega) (by omega), this]
    · rw [hsizes hle, hfirst, hx]
    · have := hparts.nam
      rw [Nat.zero_add] at this
      rw [hmoved _ _ (by rw [hptHeaderSz]; omega) (Or.inr (by rw [hptHeaderSz])), this]
    · have := hparts.val
      rw [Nat.zero_add] at this
      rw [Nat.add_assoc, hmoved _ _ (by rw [hptHeaderSz]; omega)
        (Or.inr (by rw [hptHeaderSz]; omega)), this]

/-! ### Names of the table -/

section

variable {nam : ℕ} (h : t.Rep l) (hlim : t.sz.lim ≤ t.sz.max) (hk : e.size ≤ t.sz.limit)
  (hmem : e.size + total Entry.size (room Entry.size t.sz.limit e.size l) ≤ t.tbl.length)
  (hin : nam + e.nam.length < t.sz.len) (hpos : hptHeaderSz ≤ nam)
  (hread : Octets.read nam (e.nam.length + 1) t.tbl = e.nam ++ [0]) (h0 : 0 ∉ e.nam)

include h hlim hk hmem hin hpos hread h0

/-- The table holds what it should after the insertion, exactly when `P` holds. -/
theorem hptInsert_short (hn : e.nam.length < 64) :
    ∃ t', hptInsert true (.tbl nam) e.nam.length e.val t = .ok (insertEvents t.sz.limit l e) t' ∧
      (t'.Rep (e :: room Entry.size t.sz.limit e.size l) ↔
        AliasFits e.nam (room Entry.size t.sz.limit e.size l)) := by
  have hsize : e.size = 32 + e.nam.length + e.val.length := rfl
  have hlen : t.sz.len ≤ t.tbl.length := by
    rw [h.len]
    exact (Table.rep_iff.1 h).2.2.1
  have hpre := room_isPrefix (w := Entry.size) t.sz.limit e.size l
  set p := room Entry.size t.sz.limit e.size l with hp
  let m₁ := Octets.write 8 (Octets.toLe 8 e.size) t.tbl
  have hm₁ : m₁.length = t.tbl.length := Octets.length_write (by rw [Octets.length_toLe]; omega)
  have hread₁ : Octets.read nam (e.nam.length + 1) m₁ = e.nam ++ [0] := by
    rw [← hread]
    rw [hptHeaderSz] at hpos
    exact Octets.read_write_after (by rw [Octets.length_toLe]; omega) (by omega)
  -- the loop makes one step
  obtain ⟨m, m', hI, hm, hfilled, hrun⟩ := hptInsert_moved
    (I := fun d m => (d = 0 ∧ m = m₁) ∨
      (d = e.nam.length + 1 ∧ m = movedOnce nam (total Entry.size p) (e.nam.length + 1) 0 m₁))
    h hlim hk hmem hin (fun d m hd _ hI => by
      rcases hI with ⟨rfl, rfl⟩ | ⟨rfl, -⟩
      · rw [Nat.sub_zero, Nat.min_eq_left (by omega)]
        exact Or.inr ⟨Nat.zero_add _, rfl⟩
      · exact absurd hd (Nat.lt_irrefl _)) (Or.inl ⟨rfl, rfl⟩)
  obtain rfl : m = movedOnce nam (total Entry.size p) (e.nam.length + 1) 0 m₁ := by
    rcases hI with ⟨hzero, -⟩ | ⟨-, rfl⟩
    · exact absurd hzero (Nat.succ_ne_zero _)
    · rfl
  refine ⟨_, hrun, (rep_moved hm hmem hfilled).trans ?_⟩
  have hname : Octets.read hptHeaderSz (e.nam.length + 1)
      (movedOnce nam (total Entry.size p) (e.nam.length + 1) 0 m₁) = e.nam ++ [0] := by
    rw [movedOnce, hread₁]
    refine Octets.read_write_all (by simp) ?_
    rw [Octets.length_move (by omega) (by omega), hptHeaderSz]
    omega
  rw [and_iff_right hname]
  have hkept : KeptAt e.size p 0 m₁ := h.keptAt hpre (by omega)
  clear_value p
  cases p with
  | nil => exact iff_of_true keptAt_nil hn
  | cons e' p => exact keptAt_movedOnce h0 hread₁ hkept (by omega) (by rw [hptHeaderSz]; omega)

/-- The octet of the name that ends up in the header of the first entry that is kept stays
there. -/
theorem hptInsert_long_kept (hn : 64 ≤ e.nam.length)
    (hp : room Entry.size t.sz.limit e.size l ≠ []) :
    ∃ t', hptInsert true (.tbl nam) e.nam.length e.val t = .ok (insertEvents t.sz.limit l e) t' ∧
      ¬ t'.Rep (e :: room Entry.size t.sz.limit e.size l) := by
  have hsize : e.size = 32 + e.nam.length + e.val.length := rfl
  have hlt := e.size_lt
  have hlen : t.sz.len ≤ t.tbl.length := by
    rw [h.len]
    exact (Table.rep_iff.1 h).2.2.1
  set p := room Entry.size t.sz.limit e.size l
  obtain ⟨e', q, hq⟩ := List.exists_cons_of_ne_nil hp
  have htotal : total Entry.size p = e'.size + total Entry.size q := by
    rw [hq]
    rfl
  have hsz := e'.size_gt
  rw [hpackOverhead] at hsz
  let m₁ := Octets.write 8 (Octets.toLe 8 e.size) t.tbl
  have hm₁ : m₁.length = t.tbl.length := Octets.length_write (by rw [Octets.length_toLe]; omega)
  have hoctet : Octets.read (nam + 49) 1 m₁ = [e.nam[49]] := by
    rw [hptHeaderSz] at hpos
    rw [Octets.read_write_after (by rw [Octets.length_toLe]; omega) (by omega),
      ← Octets.read_read (n := e.nam.length + 1) (by omega), hread, read_one (by omega)]
  obtain ⟨m, m', hI, hm, hfilled, hrun⟩ := hptInsert_moved
    (I := fun d m => (d = 0 ∧ m = m₁) ∨ (64 ≤ d ∧ Octets.read (d + 15) 1 m = [e.nam[49]]))
    h hlim hk hmem hin (fun d m hd hm hI => by
      refine Or.inr ?_
      have hmin : min (e.nam.length + 1 - d) 64 ≤ e.nam.length + 1 - d := Nat.min_le_left _ _
      have hmove : (Octets.move (d + min (e.nam.length + 1 - d) 64) d (total Entry.size p)
          m).length = m.length := Octets.length_move (by omega) (by omega)
      have hcopied : (Octets.read (nam + d) (min (e.nam.length + 1 - d) 64) m).length =
          min (e.nam.length + 1 - d) 64 := Octets.length_read _ _ _ (by omega)
      rcases hI with ⟨rfl, rfl⟩ | ⟨hd', hI⟩
      · -- the octet is copied over the header of the table
        have hmin' : min (e.nam.length + 1 - 0) 64 = 64 := by omega
        rw [hmin'] at hcopied hmove ⊢
        refine ⟨le_rfl, ?_⟩
        rw [movedOnce, show 0 + 64 + 15 = hptHeaderSz + 49 from rfl,
          Octets.read_write_self (by omega) (by rw [hmove, hptHeaderSz]; omega),
          Octets.read_read (by omega)]
        exact hoctet
      · -- the header moves with it
        refine ⟨by omega, ?_⟩
        show Octets.read _ 1 (movedOnce _ (total Entry.size p) _ d m) = _
        rw [movedOnce, Octets.read_write_after (by rw [hptHeaderSz, hcopied]; omega)
          (by rw [hmove, hptHeaderSz]; omega),
          Octets.read_move_self (by omega) (by omega) (by omega)]
        exact hI) (Or.inl ⟨rfl, rfl⟩)
  refine ⟨_, hrun, fun hrep => ?_⟩
  obtain ⟨-, hkept⟩ := (rep_moved hm hmem hfilled).1 hrep
  rcases hI with ⟨hzero, -⟩ | ⟨-, hI⟩
  · exact absurd hzero (Nat.succ_ne_zero _)
  rw [hq] at hkept
  have hparts := ((keptAt_cons (by rw [← hq]; omega)).1 hkept).1
  have hzero := read_pre hlt hparts.preSz
  rw [show e.nam.length + 1 + 8 + 7 = e.nam.length + 1 + 15 from rfl, hI] at hzero
  exact h0 ((List.cons.inj hzero).1 ▸ List.getElem_mem _)

/-- The terminator of the name ends up too early. -/
theorem hptInsert_long_alone (hn : 64 ≤ e.nam.length)
    (hp : room Entry.size t.sz.limit e.size l = []) :
    ∃ t', hptInsert true (.tbl nam) e.nam.length e.val t = .ok (insertEvents t.sz.limit l e) t' ∧
      ¬ t'.Rep (e :: room Entry.size t.sz.limit e.size l) := by
  have hsize : e.size = 32 + e.nam.length + e.val.length := rfl
  have hlen : t.sz.len ≤ t.tbl.length := by
    rw [h.len]
    exact (Table.rep_iff.1 h).2.2.1
  have htotal : total Entry.size (room Entry.size t.sz.limit e.size l) = 0 := by
    rw [hp]
    rfl
  have hhdr := hpos
  rw [hptHeaderSz] at hhdr
  let m₁ := Octets.write 8 (Octets.toLe 8 e.size) t.tbl
  have hm₁ : m₁.length = t.tbl.length := Octets.length_write (by rw [Octets.length_toLe]; omega)
  obtain ⟨m, m', hI, hm, hfilled, hrun⟩ := hptInsert_moved
    (I := fun d m => (∀ i k, d ≤ i → i + k ≤ e.nam.length + 1 →
        Octets.read (nam + i) k m = Octets.read i k (e.nam ++ [0])) ∧
      (d = e.nam.length + 1 → ∃ j < 64, Octets.read (hptHeaderSz + j) 1 m = [0]))
    h hlim hk hmem hin (fun d m hd hm hI => by
      obtain ⟨hleft, -⟩ := hI
      have hmin : min (e.nam.length + 1 - d) 64 ≤ e.nam.length + 1 - d := Nat.min_le_left _ _
      have hcopied : (Octets.read (nam + d) (min (e.nam.length + 1 - d) 64) m).length =
          min (e.nam.length + 1 - d) 64 := Octets.length_read _ _ _ (by omega)
      rw [htotal, movedOnce, Octets.move_zero]
      refine ⟨fun i k hi hik => ?_, fun hend => ⟨min (e.nam.length + 1 - d) 64 - 1, by omega, ?_⟩⟩
      · rw [Octets.read_write_after (by rw [hptHeaderSz, hcopied]; omega)
          (by rw [hptHeaderSz]; omega)]
        exact hleft i k (by omega) hik
      · rw [Octets.read_write_self (by omega) (by rw [hptHeaderSz]; omega),
          Octets.read_read (by omega), Nat.add_assoc, hleft _ _ (by omega) (by omega),
          show d + (min (e.nam.length + 1 - d) 64 - 1) = e.nam.length by omega, Octets.read,
          List.drop_left]
        rfl)
    ⟨fun i k _ hik => by
      rw [Octets.read_write_after (by rw [Octets.length_toLe]; omega) (by omega), ← hread,
        Octets.read_read hik], fun hzero => absurd hzero.symm (Nat.succ_ne_zero _)⟩
  refine ⟨_, hrun, fun hrep => ?_⟩
  obtain ⟨hname, -⟩ := (rep_moved hm hmem hfilled).1 hrep
  obtain ⟨j, hj, hzero⟩ := hI.2 rfl
  rw [← Octets.read_read (n := e.nam.length + 1) (by omega), hname, read_one (by omega)] at hzero
  exact h0 ((List.cons.inj hzero).1 ▸ List.getElem_mem _)

end

/-- An insertion with a name of the table, at the level of the table. -/
theorem hptInsert_aliased {nam : ℕ} (h : t.Rep l) (hlim : t.sz.lim ≤ t.sz.max)
    (hmem : total Entry.size (fit Entry.size t.sz.limit (e :: l)) ≤ t.tbl.length)
    (hin : nam + e.nam.length < t.sz.len) (hpos : hptHeaderSz ≤ nam)
    (hread : Octets.read nam (e.nam.length + 1) t.tbl = e.nam ++ [0]) (h0 : 0 ∉ e.nam) :
    ∃ t', hptInsert true (.tbl nam) e.nam.length e.val t = .ok (insertEvents t.sz.limit l e) t' ∧
      (t'.Rep (fit Entry.size t.sz.limit (e :: l)) ↔
        (e.size ≤ t.sz.limit → AliasFits e.nam (room Entry.size t.sz.limit e.size l))) := by
  by_cases hk : e.size ≤ t.sz.limit
  · rw [fit_cons, if_pos hk] at hmem ⊢
    rw [total_cons] at hmem
    by_cases hn : e.nam.length < 64
    · obtain ⟨t', hrun, hiff⟩ := hptInsert_short h hlim hk hmem hin hpos hread h0 hn
      exact ⟨t', hrun, hiff.trans ⟨fun hfits _ => hfits, fun hfits => hfits hk⟩⟩
    · by_cases hp : room Entry.size t.sz.limit e.size l = []
      · obtain ⟨t', hrun, hnot⟩ :=
          hptInsert_long_alone h hlim hk hmem hin hpos hread h0 (by omega) hp
        refine ⟨t', hrun, iff_of_false hnot fun hfits => hn ?_⟩
        have := hfits hk
        rwa [hp] at this
      · obtain ⟨t', hrun, hnot⟩ :=
          hptInsert_long_kept h hlim hk hmem hin hpos hread h0 (by omega) hp
        refine ⟨t', hrun, iff_of_false hnot fun hfits => ?_⟩
        obtain ⟨e', q, hq⟩ := List.exists_cons_of_ne_nil hp
        have hsuffix := hfits hk
        rw [hq] at hsuffix
        have hlen := List.IsSuffix.length_le hsuffix
        simp only [List.length_take, List.length_append, Octets.length_toLe] at hlen
        omega
  · have hr : room Entry.size t.sz.limit e.size l = [] := if_neg hk
    have hfit : fit Entry.size t.sz.limit (e :: l) = [] := fit_cons_of_lt (by omega) l
    have hlen : hpackOverhead + e.nam.length + e.val.length = e.size := rfl
    have hover : hptOverlap (.tbl nam) e.nam.length t = .ok true t := by
      simp only [hptOverlap, bind_apply, get_apply, Out.bind_ok,
        if_pos (show nam < t.sz.len by omega), assert_apply, if_pos hin, pure_apply]
    refine ⟨t.keep [], ?_, ?_⟩
    · simp [hptInsert, hover, hlen, hptFit_eq h hlim, hk, insertEvents, hr]
    · rw [hfit]
      exact iff_of_true (h.keep List.nil_prefix) fun hle => absurd hle hk

end Cashpack
