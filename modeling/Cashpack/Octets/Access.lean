import Cashpack.Octets.Basic

/-!
# Reading after writing

What is read of a memory after a write or a copy, region by region: a region that was not
written is the same, and what was written is read back.
-/

namespace Octets

variable {off n dst src i k : ℕ} {bs m : Octets}

theorem read_add (off a b : ℕ) (m : Octets) :
    read off (a + b) m = read off a m ++ read (off + a) b m := by
  simp only [read, List.take_add, List.drop_drop]

theorem read_read (h : i + k ≤ n) : read i k (read off n m) = read (off + i) k m := by
  simp only [read, List.drop_take, List.take_take, List.drop_drop]
  rw [Nat.min_eq_left (by omega)]

/-- A region before what is written. -/
theorem read_write_before (h : off + n ≤ dst) (hm : dst ≤ m.length) :
    read off n (write dst bs m) = read off n m := by
  have hoff : off ≤ (m.take dst).length := by
    rw [List.length_take]
    omega
  have hlen : n ≤ ((m.take dst).drop off).length := by
    rw [List.length_drop, List.length_take]
    omega
  rw [read, write, List.append_assoc, List.drop_append_of_le_length hoff,
    List.take_append_of_le_length hlen, List.drop_take, List.take_take, read]
  rw [Nat.min_eq_left (by omega)]

/-- A region after what is written. -/
theorem read_write_after (h : dst + bs.length ≤ off) (hm : dst ≤ m.length) :
    read off n (write dst bs m) = read off n m := by
  have hlen : (m.take dst ++ bs).length = dst + bs.length := by
    rw [List.length_append, List.length_take, Nat.min_eq_left hm]
  rw [read, write, read, List.drop_append, hlen, List.drop_eq_nil_of_le (by omega), List.nil_append,
    List.drop_drop]
  congr 2
  omega

/-- Part of what was written. -/
theorem read_write_self (h : i + k ≤ bs.length) (hm : dst ≤ m.length) :
    read (dst + i) k (write dst bs m) = read i k bs := by
  have hlen : (m.take dst).length = dst := by
    rw [List.length_take, Nat.min_eq_left hm]
  have hk : k ≤ (bs.drop i).length := by
    rw [List.length_drop]
    omega
  rw [read, write, List.append_assoc, ← List.drop_drop, List.drop_left' hlen,
    List.drop_append_of_le_length (by omega), List.take_append_of_le_length hk, read]

theorem read_write_all (hn : bs.length = n) (hm : dst ≤ m.length) :
    read dst n (write dst bs m) = bs := by
  have h : read (dst + 0) n (write dst bs m) = read 0 n bs := read_write_self (by omega) hm
  rw [Nat.add_zero] at h
  rw [h, read, List.drop_zero, ← hn, List.take_length]

theorem length_move (hd : dst + n ≤ m.length) (hs : src + n ≤ m.length) :
    (move dst src n m).length = m.length := by
  rw [move, length_write]
  rwa [length_read _ _ _ hs]

theorem read_move_before (h : off + k ≤ dst) (hm : dst ≤ m.length) :
    read off k (move dst src n m) = read off k m :=
  read_write_before h hm

theorem read_move_after (h : dst + n ≤ off) (hm : dst ≤ m.length) :
    read off k (move dst src n m) = read off k m := by
  refine read_write_after ?_ hm
  have : (read src n m).length ≤ n := by
    rw [read, List.length_take]
    omega
  omega

/-- Part of what was copied. -/
theorem read_move_self (h : i + k ≤ n) (hd : dst ≤ m.length) (hs : src + n ≤ m.length) :
    read (dst + i) k (move dst src n m) = read (src + i) k m := by
  rw [move, read_write_self (by rwa [length_read _ _ _ hs]) hd, read_read h]

end Octets
