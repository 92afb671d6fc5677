import Cashpack.Table.Layout
import Mathlib.Data.List.Induction

/-!
# Eviction

`HPT_adjust` walks from the last entry back to the first one, and evicts until the rest fits:
on a table that holds the list `l` it leaves `Fifo.room Entry.size limit k l`, `k` being the
octets asked for on top of the length of the table.
-/

namespace Cashpack

open Prog Fifo

theorem total_dropLast (l : List Entry) :
    total Entry.size l = total Entry.size l.dropLast + lastSize 0 l := by
  induction l using List.reverseRecOn with
  | nil => rfl
  | append_singleton l e _ => simp [lastSize]

variable {t : Table} {l : List Entry}

/-- One turn of the loop evicts the last entry. -/
theorem hptAdjustLoop_snoc {e : Entry} {lim k n : ℕ} (h : t.Rep (l ++ [e]))
    (hlt : lim < t.sz.len + k) :
    hptAdjustLoop lim (l ++ [e]).length (t.sz.len + k) (total Entry.size l) n t
      = hptAdjustLoop lim l.length ((t.keep l).sz.len + k) (total Entry.size l.dropLast) (n + 1)
          (t.keep l) := by
  obtain ⟨a, m, b, ht, ha, hm⟩ := h.entry (i := l.length) (by simp)
  simp only [List.take_left', List.getElem_concat_length] at ha hm
  have hpre : lastSize 0 l < 2 ^ 64 := lt_of_lt_of_le (lastSize_lt (by omega) l) (by norm_num)
  have hread := readEntry_eq ht hm hpre
  rw [ha] at hread
  have hlen : t.sz.len = total Entry.size l + e.size := by
    rw [h.len]
    simp
  have h₁ : subSize t.sz.len e.size = total Entry.size l := by
    rw [subSize_eq (by omega), hlen, Nat.add_sub_cancel]
  have h₂ : subSize (t.sz.len + k) e.size = total Entry.size l + k := by
    rw [subSize_eq (by omega)]
    omega
  have h₃ : subSize (total Entry.size l) (lastSize 0 l) = total Entry.size l.dropLast := by
    have := total_dropLast l
    rw [subSize_eq (by omega)]
    omega
  rw [List.length_append, List.length_singleton, hptAdjustLoop]
  simp only [if_pos hlt, bind_apply, hread, Out.bind_ok, assert_apply, Entry.header, e.nam_pos,
    if_true, modify_apply]
  have hsz : HptEntry.size ⟨hptEntryMagic, lastSize 0 l, e.nam.length, e.val.length⟩ = e.size :=
    rfl
  rw [hsz, h₁, h₂, h₃]
  rfl

theorem hptAdjustLoop_eq {k n : ℕ} (lim : ℕ) (h : t.Rep l) :
    hptAdjustLoop lim l.length (t.sz.len + k) (total Entry.size l.dropLast) n t
      = .ok (n + (l.length - (room Entry.size lim k l).length))
          (t.keep (room Entry.size lim k l)) := by
  induction l using List.reverseRecOn generalizing t n with
  | nil =>
    have hr : room Entry.size lim k [] = [] := List.prefix_nil.1 (room_isPrefix ..)
    rw [hr, h.keep_self]
    rfl
  | append_singleton l e ih =>
    have hp := h.keep (List.prefix_append l [e])
    by_cases hlt : lim < t.sz.len + k
    · have hr : room Entry.size lim k (l ++ [e]) = room Entry.size lim k l :=
        room_eq_dropLast (by rw [← h.len]; exact hlt)
      have hle := (room_isPrefix (w := Entry.size) lim k l).length_le
      rw [List.dropLast_concat, hptAdjustLoop_snoc h hlt, ih hp, hr,
        Table.keep_keep]
      congr 1
      simp only [List.length_append, List.length_singleton]
      omega
    · have hr : room Entry.size lim k (l ++ [e]) = l ++ [e] :=
        room_of_le (by rw [← h.len]; omega)
      rw [hr, h.keep_self, List.length_append, List.length_singleton, hptAdjustLoop]
      simp [hlt]

/-- The event that says how many entries were evicted, if any were. -/
def evictEvents (n : ℕ) : List Event := if 0 < n then [.evict n] else []

/-- **`HPT_adjust` leaves the longest prefix that fits**, and none of its assertions fails. -/
theorem hptAdjust_eq {k : ℕ} (h : t.Rep l)
    (hlim : t.sz.lim ≤ t.sz.max ∨ t.sz.max < t.sz.nxt) :
    hptAdjust (t.sz.len + k) t
      = .ok (evictEvents (l.length - (room Entry.size t.sz.limit k l).length))
          (t.keep (room Entry.size t.sz.limit k l)) := by
  simp only [hptAdjust, bind_apply, get_apply, Out.bind_ok, assert_apply, hlim, if_true]
  cases l using List.reverseRecOn with
  | nil =>
    have hr : room Entry.size t.sz.limit k [] = [] := List.prefix_nil.1 (room_isPrefix ..)
    have hcnt : t.cnt = 0 := h.cnt
    simp [hcnt, hr, h.keep_self, evictEvents]
  | append_singleton l e =>
    have hcnt : t.cnt = l.length + 1 := by
      rw [h.cnt]
      simp
    have hdyn := hptDynamic_eq (i := l.length) h (by simp)
    have hloop := hptAdjustLoop_eq (k := k) (n := 0) t.sz.limit h
    rw [List.dropLast_concat, ← h.cnt, Nat.zero_add] at hloop
    rw [List.take_left', ← hcnt] at hdyn
    simp only [hcnt, Nat.succ_ne_zero, if_false, ite_run, bind_apply]
    rw [← hcnt, hdyn]
    simp only [Out.bind_ok, hloop, bind_apply, get_apply, Table.keep_cnt, Table.keep_len]
    cases hr : room Entry.size t.sz.limit k (l ++ [e]) with
    | nil => simp [evictEvents, h.cnt, assert_apply]
    | cons e' l' =>
      have := e'.size_gt
      have hpos : 0 < e'.size + total Entry.size l' := by omega
      simp [evictEvents, h.cnt, hpos, assert_apply]
    · rfl

/-- What `HPT_adjust` leaves fits. -/
theorem hptAdjust_len_le {k : ℕ} (hk : k ≤ t.sz.limit) :
    (t.keep (room Entry.size t.sz.limit k l)).sz.len + k ≤ t.sz.limit :=
  total_room_le l hk

end Cashpack
