import Mathlib.Data.List.Basic
import Mathlib.Tactic.Common
import Mathlib.Tactic.NormNum

/-!
# Octet memories

A block of memory is the list of its octets.  `Octets.read`, `Octets.write` and `Octets.move`
are the three accesses a C program makes to it (`memcpy` from it, `memcpy` into it, `memmove`
inside it); `Octets.toLe` and `Octets.ofLe` store a number on a fixed number of octets.

A memory is reasoned about as a concatenation of regions: reading a region gives it back
(`read_region`), and writing over a region changes that one only (`write_region`).
-/

/-- A sequence of octets. -/
abbrev Octets := List UInt8

namespace Octets

/-- The `n` octets at offset `off`. -/
def read (off n : ℕ) (m : Octets) : Octets := (m.drop off).take n

/-- Overwrite the octets at offset `off` with `bs`. -/
def write (off : ℕ) (bs m : Octets) : Octets := m.take off ++ bs ++ m.drop (off + bs.length)

/-- Copy `n` octets from offset `src` to offset `dst`; the two regions may overlap. -/
def move (dst src n : ℕ) (m : Octets) : Octets := write dst (read src n m) m

/-- The number stored on the octets `bs`, the least significant octet first. -/
def ofLe : Octets → ℕ
  | [] => 0
  | b :: bs => b.toNat + 256 * ofLe bs

/-- `v` on `k` octets, the least significant octet first. -/
def toLe : ℕ → ℕ → Octets
  | 0, _ => []
  | k + 1, v => UInt8.ofNat (v % 256) :: toLe k (v / 256)

@[simp] theorem length_toLe (k v : ℕ) : (toLe k v).length = k := by
  induction k generalizing v with
  | zero => rfl
  | succ k ih => simp [toLe, ih]

theorem ofLe_toLe (k v : ℕ) : ofLe (toLe k v) = v % 256 ^ k := by
  induction k generalizing v with
  | zero => simp [toLe, ofLe, Nat.mod_one]
  | succ k ih =>
    have hb : (UInt8.ofNat (v % 256)).toNat = v % 256 := by
      simp
    rw [toLe, ofLe, ih, hb, Nat.pow_succ, Nat.mul_comm (256 ^ k), Nat.mod_mul]

theorem read_region {off n : ℕ} {a b c : Octets} (ha : a.length = off) (hb : b.length = n) :
    read off n (a ++ (b ++ c)) = b := by
  subst ha hb
  simp [read]

theorem write_region {off : ℕ} {a b b' c : Octets} (ha : a.length = off)
    (hb : b'.length = b.length) : write off b' (a ++ (b ++ c)) = a ++ (b' ++ c) := by
  subst ha
  simp [write, hb, List.drop_append]

theorem length_read (off n : ℕ) (m : Octets) (h : off + n ≤ m.length) :
    (read off n m).length = n := by
  simp [read]; omega

theorem length_write {off : ℕ} {bs m : Octets} (h : off + bs.length ≤ m.length) :
    (write off bs m).length = m.length := by
  simp [write]; omega

@[simp] theorem move_zero (dst src : ℕ) (m : Octets) : move dst src 0 m = m := by
  simp [move, read, write]

theorem read_append {off n : ℕ} {a : Octets} (h : a.length = off) (b : Octets) :
    read off n (a ++ b) = b.take n := by
  subst h
  simp [read]

/-- Every memory that is large enough is a region of the wanted size and a remainder. -/
theorem exists_region {n : ℕ} {m : Octets} (h : n ≤ m.length) :
    ∃ a b : Octets, m = a ++ b ∧ a.length = n :=
  ⟨m.take n, m.drop n, (List.take_append_drop n m).symm, by simp [h]⟩

/-- Every octet is one of these 256. -/
theorem forall_octet {p : UInt8 → Prop} (h : ∀ n : Fin 256, p (UInt8.ofNat n)) (c : UInt8) :
    p c := by
  have := h ⟨c.toNat, c.toNat_lt⟩
  rwa [UInt8.ofNat_toNat] at this

end Octets
