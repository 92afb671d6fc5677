import Mathlib.Data.Nat.Find
import Mathlib.Order.Basic
import Mathlib.Data.Int.Notation
import Mathlib.Tactic.NormNum

/-!
# Binary search

A binary search of a key compares it with some of the elements of a sorted array.  The array is
given by `c`, where `c i` is the sign of the key compared with the element at position `i`, and
`probes c` lists the positions compared.

## Main results

* `mem_probes` : the search compares the key with the elements next to it.
* `exists_probe` : the search meets every group of elements that lies next to the key.
-/

namespace Bisect

variable (c : ℕ → ℤ)

/-- The positions a search between `min` and `max` compares, in order. -/
def probes : ℕ → ℤ → ℤ → List ℕ
  | 0, _, _ => []
  | fuel + 1, min, max =>
    if min ≤ max then
      let pos := (min + max) / 2
      pos.toNat :: (if c pos.toNat = 0 then []
        else if c pos.toNat < 0 then probes fuel min (pos - 1)
        else probes fuel (pos + 1) max)
    else []

/-- The first `n` elements increase: the key is less than what follows an element it does not
exceed. -/
def Falls (n : ℕ) : Prop := ∀ i j, i < j → j < n → c i ≤ 0 → c j < 0

/-- No element between `min` and `max` separates the one at position `i` from the key. -/
def Near (min max : ℤ) (i : ℕ) : Prop :=
  c i = 0 ∨ (0 < c i ∧ ((i : ℤ) = max ∨ c (i + 1) < 0)) ∨
    (c i < 0 ∧ ((i : ℤ) = min ∨ 0 < c (i - 1)))

variable {c} {n fuel i : ℕ} {min max : ℤ}

/-- The elements next to the key are compared with it. -/
theorem mem_probes (h : Falls c n) (hmin : 0 ≤ min) (hmax : max < n) (hfuel : max - min < fuel)
    (hle : min ≤ i) (hge : i ≤ max) (hi : Near c min max i) : i ∈ probes c fuel min max := by
  induction fuel generalizing min max with
  | zero => omega
  | succ fuel ih =>
    obtain ⟨pos, hpos⟩ : ∃ pos : ℕ, (min + max) / 2 = pos := ⟨((min + max) / 2).toNat, by omega⟩
    rw [probes, if_pos (hle.trans hge)]
    simp only [hpos, Int.toNat_natCast]
    have hlow : min ≤ pos := by omega
    have hhigh : (pos : ℤ) ≤ max := by omega
    rcases Nat.lt_trichotomy i pos with hlt | rfl | hgt
    · -- the key is less than the element compared
      have hneg : c pos < 0 := by
        rcases hi with h0 | ⟨h0, hmax' | hnext⟩ | ⟨h0, -⟩
        · exact h i pos hlt (by omega) h0.le
        · omega
        · rcases Nat.lt_or_ge (i + 1) pos with hlt' | hge'
          · exact h (i + 1) pos hlt' (by omega) hnext.le
          · obtain rfl : i + 1 = pos := by omega
            exact hnext
        · exact h i pos hlt (by omega) h0.le
      rw [if_neg hneg.ne, if_pos hneg]
      refine List.mem_cons_of_mem _ (ih hmin (by omega) (by omega) hle (by omega) ?_)
      rcases hi with h0 | ⟨h0, hmax' | hnext⟩ | h0
      · exact Or.inl h0
      · omega
      · exact Or.inr (Or.inl ⟨h0, Or.inr hnext⟩)
      · exact Or.inr (Or.inr h0)
    · exact List.mem_cons_self
    · -- the key is greater than the element compared
      have hpos' : 0 < c pos := by
        by_contra hle'
        have hneg := h pos i hgt (by omega) (by omega)
        rcases hi with h0 | ⟨h0, -⟩ | ⟨-, hmin' | hprev⟩
        · omega
        · omega
        · omega
        · rcases Nat.lt_or_ge pos (i - 1) with hlt' | hge'
          · have := h pos (i - 1) hlt' (by omega) (by omega)
            omega
          · obtain rfl : pos = i - 1 := by omega
            omega
      rw [if_neg hpos'.ne', if_neg (by omega)]
      refine List.mem_cons_of_mem _ (ih (by omega) hmax (by omega) (by omega) hge ?_)
      rcases hi with h0 | h0 | ⟨h0, hmin' | hprev⟩
      · exact Or.inl h0
      · exact Or.inr (Or.inl h0)
      · omega
      · exact Or.inr (Or.inr ⟨h0, Or.inr hprev⟩)

/-- Only positions of the array are compared. -/
theorem probes_lt (hmin : 0 ≤ min) (hmax : max < n) (hi : i ∈ probes c fuel min max) : i < n := by
  induction fuel generalizing min max with
  | zero => cases hi
  | succ fuel ih =>
    rw [probes] at hi
    split at hi
    · rcases List.mem_cons.1 hi with rfl | hi
      · omega
      · split at hi
        · cases hi
        · split at hi
          · exact ih hmin (by omega) hi
          · exact ih (by omega) hmax hi
    · cases hi

/-- Between an element of a group and the key, there are only elements of the group. -/
structure Group (c : ℕ → ℤ) (n : ℕ) (G : ℕ → Prop) : Prop where
  up : ∀ i j, i < j → j < n → 0 < c j → G i → G j
  down : ∀ i j, i < j → j < n → c i < 0 → G j → G i

/-- A search that does not find the key meets every group that is not empty. -/
theorem exists_probe {G : ℕ → Prop} (h : Falls c n) (hne : ∀ j, j < n → c j ≠ 0)
    (hG : Group c n G) (hfuel : n ≤ fuel) (hi : i < n) (hGi : G i) :
    ∃ j ∈ probes c fuel 0 (n - 1), G j := by
  have hprobe : ∀ j, j < n → Near c 0 (n - 1) j → j ∈ probes c fuel 0 (n - 1) := fun j hj hn =>
    mem_probes h (le_refl _) (by omega) (by omega) (by omega) (by omega) hn
  rcases lt_or_gt_of_ne (hne i hi) with hneg | hpos
  · -- the first element that exceeds the key
    have hex : ∃ j, c j < 0 := ⟨i, hneg⟩
    have hle : Nat.find hex ≤ i := Nat.find_le hneg
    have hfind : c (Nat.find hex) < 0 := Nat.find_spec hex
    have hGj : G (Nat.find hex) := by
      rcases Nat.eq_or_lt_of_le hle with heq | hlt
      · rwa [heq]
      · exact hG.down _ i hlt hi hfind hGi
    refine ⟨_, hprobe _ (by omega) (Or.inr (Or.inr ⟨hfind, ?_⟩)), hGj⟩
    by_cases h0 : Nat.find hex = 0
    · exact Or.inl (by omega)
    · have hprev : ¬ c (Nat.find hex - 1) < 0 := Nat.find_min hex (by omega)
      have := hne (Nat.find hex - 1) (by omega)
      exact Or.inr (by omega)
  · -- the last element that the key exceeds
    have hex : ∃ j, i < j ∧ (j = n ∨ c j < 0) := ⟨n, hi, Or.inl rfl⟩
    obtain ⟨hlt, hend⟩ := Nat.find_spec hex
    have hle : Nat.find hex ≤ n := Nat.find_le ⟨hi, Or.inl rfl⟩
    obtain ⟨j, hj⟩ : ∃ j, Nat.find hex = j + 1 := ⟨Nat.find hex - 1, by omega⟩
    have hlast : i < j → 0 < c j := by
      intro hij
      have hmin : ¬ (i < j ∧ (j = n ∨ c j < 0)) := Nat.find_min hex (by omega)
      have := hne j (by omega)
      by_contra hle
      exact hmin ⟨hij, Or.inr (by omega)⟩
    have hij : j = i ∨ i < j := by omega
    have hposj : 0 < c j := hij.elim (fun h => h ▸ hpos) hlast
    have hGj : G j := hij.elim (fun h => h ▸ hGi) fun hij => hG.up i j hij (by omega) hposj hGi
    refine ⟨j, hprobe j (by omega) (Or.inr (Or.inl ⟨hposj, ?_⟩)), hGj⟩
    rw [hj] at hend
    exact hend.imp (fun h => by omega) fun h => h

end Bisect
