import Mathlib.Data.List.Basic
import Mathlib.Algebra.Order.Group.Nat
import Mathlib.Tactic.Common

/-!
# First-in first-out stores with a weight limit

A store keeps its newest item first.  Every item has a weight, and the store holds the newest
items whose total weight does not exceed a limit: `Fifo.fit w b l` is the longest prefix of
`l` of total weight at most `b`.  Inserting `x` turns `l` into `fit w b (x :: l)`, lowering
the limit turns it into `fit w b l`.  `Fifo.room w b k l` is what is left once there is room
for an item of weight `k`.

An implementation drops the oldest item until the rest fits; `fit_eq_dropLast` says that this
computes `fit`.
-/

namespace Fifo

variable {α : Type*} (w : α → ℕ)

/-- The total weight of a list. -/
def total : List α → ℕ
  | [] => 0
  | a :: l => w a + total l

/-- The longest prefix of total weight at most `b`. -/
def fit (b : ℕ) : List α → List α
  | [] => []
  | a :: l => if w a ≤ b then a :: fit (b - w a) l else []

variable {w}

@[simp] theorem total_nil : total w [] = 0 := rfl

@[simp] theorem total_cons (a : α) (l : List α) : total w (a :: l) = w a + total w l := rfl

@[simp] theorem total_append (l l' : List α) : total w (l ++ l') = total w l + total w l' := by
  induction l with
  | nil => simp
  | cons a l ih => simp [ih, Nat.add_assoc]

@[simp] theorem fit_nil (b : ℕ) : fit w b [] = [] := rfl

theorem fit_cons_of_le {a : α} {b : ℕ} (h : w a ≤ b) (l : List α) :
    fit w b (a :: l) = a :: fit w (b - w a) l := by
  simp [fit, h]

theorem fit_cons_of_lt {a : α} {b : ℕ} (h : b < w a) (l : List α) : fit w b (a :: l) = [] := by
  simp [fit, Nat.not_le.2 h]

theorem total_fit_le (b : ℕ) (l : List α) : total w (fit w b l) ≤ b := by
  induction l generalizing b with
  | nil => simp
  | cons a l ih =>
    by_cases h : w a ≤ b
    · have := ih (b - w a)
      simp only [fit_cons_of_le h, total_cons]
      omega
    · simp [fit_cons_of_lt (Nat.lt_of_not_le h)]

theorem fit_isPrefix (b : ℕ) (l : List α) : fit w b l <+: l := by
  induction l generalizing b with
  | nil => simp
  | cons a l ih =>
    by_cases h : w a ≤ b
    · rw [fit_cons_of_le h]
      exact List.cons_prefix_cons.2 ⟨rfl, ih _⟩
    · simp [fit_cons_of_lt (Nat.lt_of_not_le h)]

/-- No longer prefix fits: `fit` is the longest one. -/
theorem prefix_fit {b : ℕ} {p l : List α} (hp : p <+: l) (hb : total w p ≤ b) :
    p <+: fit w b l := by
  induction l generalizing b p with
  | nil => simpa using hp
  | cons a l ih =>
    cases p with
    | nil => exact List.nil_prefix
    | cons a' p =>
      obtain ⟨rfl, hp'⟩ := List.cons_prefix_cons.1 hp
      simp only [total_cons] at hb
      rw [fit_cons_of_le (by omega)]
      exact List.cons_prefix_cons.2 ⟨rfl, ih hp' (by omega)⟩

theorem fit_of_total_le {b : ℕ} {l : List α} (h : total w l ≤ b) : fit w b l = l :=
  List.IsPrefix.eq_of_length_le (fit_isPrefix b l) (prefix_fit (List.prefix_refl l) h).length_le

/-- Dropping the oldest item while the rest is too heavy computes `fit`. -/
theorem fit_eq_dropLast {b : ℕ} {l : List α} {a : α} (h : b < total w (l ++ [a])) :
    fit w b (l ++ [a]) = fit w b l := by
  induction l generalizing b with
  | nil =>
    simp only [List.nil_append, total_cons, total_nil, Nat.add_zero] at h
    simp [fit_cons_of_lt h]
  | cons c l ih =>
    by_cases hc : w c ≤ b
    · simp only [List.cons_append, total_cons] at h
      rw [List.cons_append, fit_cons_of_le hc, fit_cons_of_le hc, ih (by omega)]
    · have hc' := Nat.lt_of_not_le hc
      rw [List.cons_append, fit_cons_of_lt hc', fit_cons_of_lt hc']

/-- Making room for weight `k`: the longest prefix of total weight at most `b - k`, and nothing
when `k` alone exceeds `b`. -/
def room (w : α → ℕ) (b k : ℕ) (l : List α) : List α := if k ≤ b then fit w (b - k) l else []

@[simp] theorem room_zero (b : ℕ) (l : List α) : room w b 0 l = fit w b l := by
  simp [room]

/-- Inserting an item is making room for it first. -/
theorem fit_cons (a : α) (b : ℕ) (l : List α) :
    fit w b (a :: l) = if w a ≤ b then a :: room w b (w a) l else [] := by
  by_cases h : w a ≤ b <;> simp [fit, room, h]

theorem room_isPrefix (b k : ℕ) (l : List α) : room w b k l <+: l := by
  unfold room
  split
  · exact fit_isPrefix _ l
  · exact List.nil_prefix

theorem room_of_le {b k : ℕ} {l : List α} (h : total w l + k ≤ b) : room w b k l = l := by
  rw [room, if_pos (by omega), fit_of_total_le (by omega)]

theorem room_eq_dropLast {b k : ℕ} {l : List α} {a : α} (h : b < total w (l ++ [a]) + k) :
    room w b k (l ++ [a]) = room w b k l := by
  unfold room
  split
  · exact fit_eq_dropLast (by omega)
  · rfl

theorem total_room_le {b k : ℕ} (l : List α) (h : k ≤ b) : total w (room w b k l) + k ≤ b := by
  have := total_fit_le (w := w) (b - k) l
  rw [room, if_pos h]
  omega

/-- Fitting twice is fitting the smaller limit. -/
theorem fit_fit (b b' : ℕ) (l : List α) : fit w b (fit w b' l) = fit w (min b b') l := by
  induction l generalizing b b' with
  | nil => rfl
  | cons a l ih =>
    by_cases h' : w a ≤ b'
    · rw [fit_cons_of_le h']
      by_cases h : w a ≤ b
      · rw [fit_cons_of_le h, fit_cons_of_le (Nat.le_min.2 ⟨h, h'⟩), ih]
        congr 2
        omega
      · rw [fit_cons_of_lt (Nat.lt_of_not_le h), fit_cons_of_lt (by omega)]
    · rw [fit_cons_of_lt (Nat.lt_of_not_le h'), fit_cons_of_lt (by omega), fit_nil]

/-- What was dropped before an insertion has no influence on what it leaves. -/
theorem fit_cons_fit (a : α) (b : ℕ) (l : List α) :
    fit w b (a :: fit w b l) = fit w b (a :: l) := by
  by_cases h : w a ≤ b
  · rw [fit_cons_of_le h, fit_cons_of_le h, fit_fit, Nat.min_eq_left (Nat.sub_le b _)]
  · rw [fit_cons_of_lt (Nat.lt_of_not_le h), fit_cons_of_lt (Nat.lt_of_not_le h)]

/-- Inserting items one after the other is one cut of the whole history. -/
theorem foldl_insert (b : ℕ) (xs l : List α) :
    xs.foldl (fun l x => fit w b (x :: l)) (fit w b l) = fit w b (xs.reverse ++ l) := by
  induction xs generalizing l with
  | nil => rfl
  | cons x xs ih =>
    rw [List.foldl_cons, fit_cons_fit, ih, List.reverse_cons, List.append_assoc]
    rfl

/-- What comes after items that do not fit together is dropped. -/
theorem fit_append_of_lt {b : ℕ} {l : List α} (h : b < total w l) (l' : List α) :
    fit w b (l ++ l') = fit w b l := by
  induction l generalizing b with
  | nil => exact absurd h (Nat.not_lt_zero b)
  | cons a l ih =>
    rw [List.cons_append]
    by_cases ha : w a ≤ b
    · simp only [total_cons] at h
      rw [fit_cons_of_le ha, fit_cons_of_le ha, ih (by omega)]
    · rw [fit_cons_of_lt (Nat.lt_of_not_le ha), fit_cons_of_lt (Nat.lt_of_not_le ha)]

theorem fit_prefix_append (b : ℕ) (l l' : List α) : fit w b l <+: fit w b (l ++ l') :=
  prefix_fit ((fit_isPrefix b l).trans (List.prefix_append l l')) (total_fit_le b l)

theorem total_reverse (l : List α) : total w l.reverse = total w l := by
  induction l with
  | nil => rfl
  | cons a l ih => simp [ih, Nat.add_comm]

end Fifo
