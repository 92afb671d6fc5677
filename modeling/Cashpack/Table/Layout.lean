import Cashpack.Table.Ops
import Cashpack.Fifo.Basic
import Mathlib.Tactic.NormNum

/-!
# The layout of the dynamic table

The abstract table is a list of entries, the newest first.  `Table.Rep t l` says that the
memory of `t` is the list `l`: the octets of its entries one after the other, each with the
size of the entry before it in its header, then octets that are not used.

The functions that only read the table (`hpt_dynamic`, `HPT_foreach`) give the list back.
-/

namespace Cashpack

open Prog Fifo

/-! ### Entries -/

/-- An entry of the dynamic table. -/
structure Entry where
  nam : Octets
  val : Octets
  /-- Names are not empty. -/
  nam_pos : 0 < nam.length
  /-- The lengths have 16 bits. -/
  nam_le : nam.length ≤ uint16Max
  val_le : val.length ≤ uint16Max
deriving DecidableEq

/-- The size of an entry. -/
def Entry.size (e : Entry) : ℕ := hpackOverhead + e.nam.length + e.val.length

/-- The header that describes an entry, `pre` being the size of the one before it. -/
def Entry.header (pre : ℕ) (e : Entry) : HptEntry :=
  ⟨hptEntryMagic, pre, e.nam.length, e.val.length⟩

@[simp] theorem Entry.size_header (pre : ℕ) (e : Entry) : (e.header pre).size = e.size := rfl

theorem Entry.size_lt (e : Entry) : e.size < 2 ^ 18 := by
  have := e.nam_le
  have := e.val_le
  simp only [Entry.size, hpackOverhead, uint16Max] at *
  omega

theorem Entry.size_gt (e : Entry) : hpackOverhead < e.size := by
  have := e.nam_pos
  simp only [Entry.size]
  omega

/-- The octets of an entry: the header with what is never written in it, then the strings. -/
def entryOctets (jnk pad : Octets) (pre : ℕ) (nam val : Octets) : Octets :=
  Octets.toLe 4 hptEntryMagic ++ (jnk ++ (Octets.toLe 8 pre ++ (Octets.toLe 2 nam.length ++
    (Octets.toLe 2 val.length ++ (pad ++ (nam ++ ([0] ++ (val ++ [0]))))))))

/-- These octets are the entry `e`, `pre` being the size of the one before it. -/
def IsEntry (pre : ℕ) (e : Entry) (m : Octets) : Prop :=
  ∃ jnk pad : Octets, jnk.length = 4 ∧ pad.length = 10 ∧ m = entryOctets jnk pad pre e.nam e.val

/-- These octets are the entries `l`, `pre` being the size of the entry before the first. -/
inductive IsTable : ℕ → List Entry → Octets → Prop
  | nil (pre : ℕ) : IsTable pre [] []
  | cons {pre : ℕ} {e : Entry} {l : List Entry} {m ms : Octets}
      (head : IsEntry pre e m) (tail : IsTable e.size l ms) : IsTable pre (e :: l) (m ++ ms)

/-- The size of the last entry of `l`, or `pre` when there is none. -/
def lastSize (pre : ℕ) (l : List Entry) : ℕ := (l.getLast?.map Entry.size).getD pre

section

variable {pre : ℕ} {e : Entry} {l : List Entry} {m ms a b : Octets}

theorem IsEntry.length (h : IsEntry pre e m) : m.length = e.size := by
  obtain ⟨jnk, pad, hj, hp, rfl⟩ := h
  simp only [entryOctets, Entry.size, hpackOverhead, List.length_append, Octets.length_toLe, hj,
    hp, List.length_cons, List.length_nil]
  omega

theorem IsEntry.parse (h : IsEntry pre e m) (hpre : pre < 2 ^ 64) :
    HptEntry.parse (m ++ b) = e.header pre := by
  obtain ⟨jnk, pad, hj, hp, rfl⟩ := h
  have hn := e.nam_le
  have hv := e.val_le
  simp only [uint16Max] at hn hv
  have h0 : Octets.read 0 4 (entryOctets jnk pad pre e.nam e.val ++ b)
      = Octets.toLe 4 hptEntryMagic := by
    rw [entryOctets, List.append_assoc]
    exact Octets.read_region (a := []) rfl (Octets.length_toLe ..)
  have h8 : Octets.read 8 8 (entryOctets jnk pad pre e.nam e.val ++ b) = Octets.toLe 8 pre := by
    simp only [entryOctets, List.append_assoc]
    rw [← List.append_assoc]
    exact Octets.read_region (by simp [hj]) (by simp)
  have h16 : Octets.read 16 2 (entryOctets jnk pad pre e.nam e.val ++ b)
      = Octets.toLe 2 e.nam.length := by
    simp only [entryOctets, List.append_assoc]
    rw [← List.append_assoc, ← List.append_assoc]
    exact Octets.read_region (by simp [hj]) (by simp)
  have h18 : Octets.read 18 2 (entryOctets jnk pad pre e.nam e.val ++ b)
      = Octets.toLe 2 e.val.length := by
    simp only [entryOctets, List.append_assoc]
    rw [← List.append_assoc, ← List.append_assoc, ← List.append_assoc]
    exact Octets.read_region (by simp [hj]) (by simp)
  simp only [HptEntry.parse, h0, h8, h16, h18, Octets.ofLe_toLe, Entry.header]
  have hm : hptEntryMagic % 256 ^ 4 = hptEntryMagic := rfl
  have h2 : (256 : ℕ) ^ 8 = 2 ^ 64 := by norm_num
  rw [hm, h2, Nat.mod_eq_of_lt hpre, Nat.mod_eq_of_lt (by omega), Nat.mod_eq_of_lt (by omega)]

/-- An entry in memory is a header and the two strings with their terminators. -/
theorem IsEntry.split (h : IsEntry pre e m) :
    ∃ x : Octets, m = x ++ ((e.nam ++ [0]) ++ (e.val ++ [0])) ∧ x.length = hptHeaderSz := by
  obtain ⟨jnk, pad, hj, hp, rfl⟩ := h
  refine ⟨Octets.toLe 4 hptEntryMagic ++ (jnk ++ (Octets.toLe 8 pre ++
    (Octets.toLe 2 e.nam.length ++ (Octets.toLe 2 e.val.length ++ pad)))), ?_, ?_⟩
  · simp only [entryOctets, List.append_assoc]
  · simp [hj, hp, hptHeaderSz]

theorem IsTable.length (h : IsTable pre l m) : m.length = total Entry.size l := by
  induction h with
  | nil => rfl
  | cons head _ ih => simp [head.length, ih]

theorem isTable_nil : IsTable pre [] m ↔ m = [] := by
  constructor
  · intro h
    cases h
    rfl
  · rintro rfl
    exact .nil pre

theorem isTable_cons : IsTable pre (e :: l) m ↔
    ∃ m₁ m₂, m = m₁ ++ m₂ ∧ IsEntry pre e m₁ ∧ IsTable e.size l m₂ := by
  constructor
  · intro h
    cases h with
    | cons head tail => exact ⟨_, _, rfl, head, tail⟩
  · rintro ⟨m₁, m₂, rfl, head, tail⟩
    exact .cons head tail

theorem lastSize_cons : lastSize pre (e :: l) = lastSize e.size l := by
  cases l with
  | nil => rfl
  | cons e' l => simp [lastSize, List.getLast?_cons]

theorem isTable_append {l' : List Entry} : IsTable pre (l ++ l') m ↔
    ∃ m₁ m₂, m = m₁ ++ m₂ ∧ IsTable pre l m₁ ∧ IsTable (lastSize pre l) l' m₂ := by
  induction l generalizing pre m with
  | nil => simp [isTable_nil, lastSize]
  | cons e l ih =>
    simp only [List.cons_append, isTable_cons, ih, lastSize_cons]
    constructor
    · rintro ⟨m₁, m₂, rfl, h₁, m₃, m₄, rfl, h₃, h₄⟩
      exact ⟨m₁ ++ m₃, m₄, (List.append_assoc ..).symm, ⟨m₁, m₃, rfl, h₁, h₃⟩, h₄⟩
    · rintro ⟨_, m₄, rfl, ⟨m₁, m₃, rfl, h₁, h₃⟩, h₄⟩
      exact ⟨m₁, m₃ ++ m₄, List.append_assoc .., h₁, m₃, m₄, rfl, h₃, h₄⟩

end

/-! ### Tables -/

/-- The memory of `t` holds the list `l`. -/
structure Table.Rep (t : Table) (l : List Entry) : Prop where
  cnt : t.cnt = l.length
  len : t.sz.len = total Entry.size l
  mem : ∃ used rest : Octets, t.tbl = used ++ rest ∧ IsTable 0 l used

/-- The table whose counters say that it holds `l`. -/
def Table.keep (t : Table) (l : List Entry) : Table :=
  { t with sz := { t.sz with len := total Entry.size l }, cnt := l.length }

namespace Table.Rep

variable {t : Table} {l p : List Entry}

theorem keep_self (h : t.Rep l) : t.keep l = t := by
  simp only [Table.keep, ← h.len, ← h.cnt]

/-- The limits do not matter. -/
theorem congr {t' : Table} (h : t.Rep l) (hc : t'.cnt = t.cnt) (hl : t'.sz.len = t.sz.len)
    (ht : t'.tbl = t.tbl) : t'.Rep l where
  cnt := hc.trans h.cnt
  len := hl.trans h.len
  mem := ht ▸ h.mem

/-- Dropping the oldest entries only changes the counters. -/
theorem keep (h : t.Rep l) (hp : p <+: l) : (t.keep p).Rep p := by
  obtain ⟨q, rfl⟩ := hp
  obtain ⟨_, rest, ht, hm⟩ := h.mem
  obtain ⟨m₁, m₂, rfl, h₁, -⟩ := isTable_append.1 hm
  exact ⟨rfl, rfl, m₁, m₂ ++ rest, by simp [Table.keep, ht], h₁⟩

/-- The list stays the same when its octets are copied to another memory. -/
theorem move (h : t.Rep l) {n : ℕ} (junk : Octets) (hlen : t.sz.len ≤ n) :
    Table.Rep { t with tbl := t.tbl.take n ++ junk, sz.mem := n } l := by
  obtain ⟨used, rest, ht, hm⟩ := h.mem
  have hu : used.length ≤ n := by
    rw [hm.length, ← h.len]
    exact hlen
  refine ⟨h.cnt, h.len, used, rest.take (n - used.length) ++ junk, ?_, hm⟩
  simp only [ht, List.take_append, List.take_of_length_le hu, List.append_assoc]

theorem len_le (h : t.Rep l) : t.sz.len ≤ t.tbl.length := by
  obtain ⟨used, rest, ht, hm⟩ := h.mem
  rw [h.len, ht, ← hm.length]
  simp

end Table.Rep

@[simp] theorem Table.keep_keep (t : Table) (l l' : List Entry) :
    (t.keep l).keep l' = t.keep l' := rfl

@[simp] theorem Table.keep_tbl (t : Table) (l : List Entry) : (t.keep l).tbl = t.tbl := rfl

@[simp] theorem Table.keep_cnt (t : Table) (l : List Entry) : (t.keep l).cnt = l.length := rfl

@[simp] theorem Table.keep_len (t : Table) (l : List Entry) :
    (t.keep l).sz.len = total Entry.size l := rfl

@[simp] theorem Table.keep_limit (t : Table) (l : List Entry) :
    (t.keep l).sz.limit = t.sz.limit := rfl

/-! ### Reading -/

section

variable {t : Table} {l : List Entry} {e : Entry} {m a b : Octets} {pre : ℕ}

theorem readEntry_eq (ht : t.tbl = a ++ (m ++ b)) (hm : IsEntry pre e m) (hpre : pre < 2 ^ 64) :
    readEntry a.length t = .ok (e.header pre) t := by
  have hlen := hm.length
  have hle : a.length + hptHeaderSz ≤ t.tbl.length := by
    have := e.size_gt
    simp only [ht, List.length_append, hlen, hptHeaderSz, hpackOverhead] at *
    omega
  rw [readEntry, if_pos hle, ht, List.drop_left', hm.parse hpre]
  rfl

theorem readTbl_eq {off n : ℕ} (ht : t.tbl = a ++ (m ++ b)) (ha : a.length = off)
    (hm : m.length = n) : readTbl off n t = .ok m t := by
  have hle : off + n ≤ t.tbl.length := by
    simp [ht, ha, hm]
  rw [readTbl, if_pos hle, ht, Octets.read_region ha hm]

/-- `hpt_dynamic` steps over the entries before the one it looks for. -/
theorem hptDynamicLoop_eq {i : ℕ} (ht : t.tbl = a ++ (m ++ b)) (hm : IsTable pre l m)
    (hpre : pre < 2 ^ 64) (hi : i < l.length) :
    hptDynamicLoop (i + 1) pre a.length t
      = .ok (a.length + total Entry.size (l.take i)) t := by
  induction l generalizing i pre a m with
  | nil => simp at hi
  | cons e l ih =>
    obtain ⟨m₁, m₂, rfl, h₁, h₂⟩ := isTable_cons.1 hm
    rw [List.append_assoc] at ht
    rw [hptDynamicLoop]
    simp only [bind_apply, readEntry_eq ht h₁ hpre, Out.bind_ok, assert_apply, Entry.header,
      e.nam_pos, if_true]
    cases i with
    | zero => simp
    | succ i =>
      have h64 : e.size < 2 ^ 64 := by
        have := e.size_lt
        omega
      have := ih (i := i) (a := a ++ m₁) (ht.trans (List.append_assoc ..).symm) h₂ h64
        (by simpa using hi)
      rw [List.length_append, h₁.length] at this
      simp only [Nat.add_eq_zero_iff, one_ne_zero, and_false, if_false, List.take_succ_cons,
        total_cons]
      rw [← Nat.add_assoc, ← this]
      rfl

/-- `hpt_dynamic` finds the entry at `idx`. -/
theorem hptDynamic_eq {i : ℕ} (h : t.Rep l) (hi : i < l.length) :
    hptDynamic (i + 1) t = .ok (total Entry.size (l.take i)) t := by
  obtain ⟨used, rest, ht, hm⟩ := h.mem
  have := hptDynamicLoop_eq (a := []) (by simpa using ht) hm (by omega) hi
  have hcnt : i + 1 ≤ t.cnt := by
    rw [h.cnt]
    omega
  simp only [hptDynamic, bind_apply, get_apply, Out.bind_ok, assert_apply, hcnt,
    if_true, Nat.zero_lt_succ]
  simpa using this

/-- The octets of one entry in the memory of the table. -/
theorem Table.Rep.entry {i : ℕ} (h : t.Rep l) (hi : i < l.length) :
    ∃ a m b : Octets, t.tbl = a ++ (m ++ b) ∧ a.length = total Entry.size (l.take i) ∧
      IsEntry (lastSize 0 (l.take i)) l[i] m := by
  obtain ⟨used, rest, ht, hm⟩ := h.mem
  rw [← List.take_append_drop i l] at hm
  obtain ⟨m₁, m₂, rfl, h₁, h₂⟩ := isTable_append.1 hm
  rw [List.drop_eq_getElem_cons hi] at h₂
  obtain ⟨m₃, m₄, rfl, h₃, -⟩ := isTable_cons.1 h₂
  exact ⟨m₁, m₃, m₄ ++ rest, by simp [ht], h₁.length, h₃⟩

theorem lastSize_lt (hpre : pre < 2 ^ 18) (l : List Entry) : lastSize pre l < 2 ^ 18 := by
  unfold lastSize
  cases l.getLast? with
  | none => exact hpre
  | some e => exact e.size_lt

/-- The events that list entries. -/
def entryEvents (l : List Entry) : List Event :=
  l.flatMap fun e => [.field none e.size, .name e.nam, .value e.val]

theorem hptForeachLoop_eq (ht : t.tbl = a ++ (m ++ b)) (hm : IsTable pre l m)
    (hpre : pre < 2 ^ 64) (hlen : t.sz.len = a.length + m.length) :
    hptForeachLoop l.length pre a.length t = .ok (entryEvents l) t := by
  induction l generalizing pre a m with
  | nil =>
    obtain rfl := isTable_nil.1 hm
    simp [hptForeachLoop, assert_apply, hlen, entryEvents]
  | cons e l ih =>
    obtain ⟨m₁, m₂, rfl, h₁, h₂⟩ := isTable_cons.1 hm
    rw [List.append_assoc] at ht
    have hlt : a.length < t.sz.len := by
      have := e.size_gt
      rw [hlen, List.length_append, h₁.length]
      omega
    obtain ⟨x, hx, hxl⟩ := h₁.split
    have hnam : readTbl (a.length + hptHeaderSz) e.nam.length t = .ok e.nam t :=
      readTbl_eq (a := a ++ x) (b := [0] ++ ((e.val ++ [0]) ++ (m₂ ++ b))) (by simp [ht, hx])
        (by simp [hxl]) rfl
    have hval : readTbl (a.length + hptHeaderSz + e.nam.length + 1) e.val.length t
        = .ok e.val t :=
      readTbl_eq (a := a ++ (x ++ (e.nam ++ [0]))) (b := [0] ++ (m₂ ++ b)) (by simp [ht, hx])
        (by simp [hxl]; omega) rfl
    have h64 : e.size < 2 ^ 64 := by
      have := e.size_lt
      omega
    have htail := ih (a := a ++ m₁) (ht.trans (List.append_assoc ..).symm) h₂ h64
      (by simp [hlen, Nat.add_assoc])
    rw [List.length_append, h₁.length] at htail
    rw [List.length_cons, hptForeachLoop]
    simp only [bind_apply, get_apply, Out.bind_ok, assert_apply, hlt, if_true,
      readEntry_eq ht h₁ hpre, Entry.header, e.nam_pos, hnam, hval]
    have hsz : HptEntry.size ⟨hptEntryMagic, pre, e.nam.length, e.val.length⟩ = e.size := rfl
    rw [hsz, htail]
    simp [entryEvents]

/-- `HPT_foreach` lists the entries in order. -/
theorem hptForeach_eq (h : t.Rep l) : hptForeach t = .ok (entryEvents l) t := by
  obtain ⟨used, rest, ht, hm⟩ := h.mem
  have := hptForeachLoop_eq (a := []) (b := rest) (by simpa using ht) hm (by omega)
    (by simp [h.len, hm.length])
  simpa [hptForeach, h.cnt] using this

end

end Cashpack
