import Cashpack.Octets.Basic

/-!
# Prefixed integers

An integer with a prefix of `pfx` bits is the low bits of an octet; when these are all ones, the
octets after it add seven bits each, the lowest first, and all but the last one have their highest
bit set.  The number of octets has no bound, and neither has the value.

## Main definitions

* `PrefixInt.split` : the octets after the first one that belong to the integer.
* `PrefixInt.read` : the value of the integer a sequence starts with, and the octets after it.
* `PrefixInt.partialSum` : what the octets of an unfinished integer add up to.
-/

namespace PrefixInt

/-- The seven bits an octet adds. -/
def payload (b : UInt8) : ℕ := (b &&& 0x7f).toNat

/-- The octets up to the first one whose highest bit is clear, and what follows. -/
def split : Octets → Option (Octets × Octets)
  | [] => none
  | b :: bs =>
    if b &&& 0x80 ≠ 0 then (split bs).map fun p => (b :: p.1, p.2) else some ([b], bs)

/-- What octets add to an integer, the first one shifted by `m`. -/
def sum : Octets → ℕ → ℕ
  | [], _ => 0
  | b :: bs, m => payload b * 2 ^ m + sum bs (m + 7)

/-- The value of the integer at the start of these octets, and what follows. -/
def read (pfx : ℕ) : Octets → Option (ℕ × Octets)
  | [] => none
  | b :: bs =>
    let v := b.toNat % 2 ^ pfx
    if v < 2 ^ pfx - 1 then some (v, bs)
    else (split bs).map fun p => (v + sum p.1 0, p.2)

/-- What the octets of an unfinished integer add up to. -/
def partialSum (pfx : ℕ) : Octets → ℕ
  | [] => 0
  | b :: bs => b.toNat % 2 ^ pfx + sum bs 0

variable {b : UInt8} {bs cs rest : Octets} {m : ℕ}

theorem payload_eq_zero : payload b = 0 ↔ b &&& 0x7f = 0 := by
  rw [payload, ← UInt8.toNat_inj]
  rfl

theorem split_cons_of_ne (h : b &&& 0x80 ≠ 0) (bs : Octets) :
    split (b :: bs) = (split bs).map fun p => (b :: p.1, p.2) := by
  rw [split, if_pos h]

theorem split_cons_of_eq (h : ¬ b &&& 0x80 ≠ 0) (bs : Octets) :
    split (b :: bs) = some ([b], bs) := by
  rw [split, if_neg h]

/-- An integer that goes on after its first octet. -/
theorem split_cons_some (h : b &&& 0x80 ≠ 0) (hs : split (b :: bs) = some (cs, rest)) :
    ∃ cs', split bs = some (cs', rest) ∧ cs = b :: cs' := by
  rw [split_cons_of_ne h, Option.map_eq_some_iff] at hs
  obtain ⟨⟨cs', rest'⟩, hs, heq⟩ := hs
  obtain ⟨rfl, rfl⟩ := Prod.mk.inj heq
  exact ⟨cs', hs, rfl⟩

/-- The octets of the integer come first. -/
theorem split_eq (h : split bs = some (cs, rest)) : bs = cs ++ rest := by
  induction bs generalizing cs with
  | nil => cases h
  | cons b bs ih =>
    by_cases hb : b &&& 0x80 ≠ 0
    · obtain ⟨cs', hs, rfl⟩ := split_cons_some hb h
      rw [ih hs]
      rfl
    · rw [split_cons_of_eq hb] at h
      cases h
      rfl

/-- More octets stay after the integer. -/
theorem split_append (h : split bs = some (cs, rest)) (xs : Octets) :
    split (bs ++ xs) = some (cs, rest ++ xs) := by
  induction bs generalizing cs with
  | nil => cases h
  | cons b bs ih =>
    rw [List.cons_append]
    by_cases hb : b &&& 0x80 ≠ 0
    · obtain ⟨cs', hs, rfl⟩ := split_cons_some hb h
      rw [split_cons_of_ne hb, ih hs]
      rfl
    · rw [split_cons_of_eq hb] at h ⊢
      cases h
      rfl

/-- An integer that fits in its prefix. -/
theorem read_short {pfx V : ℕ} (hb : b.toNat % 2 ^ pfx < 2 ^ pfx - 1) :
    read pfx (b :: bs) = some (V, rest) ↔ b.toNat % 2 ^ pfx = V ∧ bs = rest := by
  rw [read]
  rw [if_pos hb, Option.some.injEq, Prod.mk.injEq]

/-- A longer one. -/
theorem read_long {pfx : ℕ} (hb : b.toNat % 2 ^ pfx = 2 ^ pfx - 1) :
    read pfx (b :: bs) = (split bs).map fun p => (2 ^ pfx - 1 + sum p.1 0, p.2) := by
  rw [read]
  rw [hb, if_neg (Nat.lt_irrefl _)]

/-- The low bits of the first octet are below all ones, or all ones. -/
theorem mod_two_pow_cases (b : UInt8) (pfx : ℕ) :
    b.toNat % 2 ^ pfx < 2 ^ pfx - 1 ∨ b.toNat % 2 ^ pfx = 2 ^ pfx - 1 := by
  have hlt := Nat.mod_lt b.toNat (Nat.two_pow_pos pfx)
  omega

theorem read_append {pfx V : ℕ} (h : read pfx bs = some (V, rest)) (xs : Octets) :
    read pfx (bs ++ xs) = some (V, rest ++ xs) := by
  cases bs with
  | nil => cases h
  | cons b bs =>
    rw [List.cons_append]
    rcases mod_two_pow_cases b pfx with hb | hb
    · obtain ⟨hV, rfl⟩ := (read_short hb).1 h
      exact (read_short hb).2 ⟨hV, rfl⟩
    · rw [read_long hb] at h ⊢
      obtain ⟨⟨cs, rest'⟩, hs, heq⟩ := Option.map_eq_some_iff.1 h
      obtain ⟨rfl, rfl⟩ := Prod.mk.inj heq
      rw [split_append hs]
      rfl

end PrefixInt
