import Mathlib.Data.List.Infix

/-!
# Prefix codes

A prefix code is decoded from left to right without looking ahead.  Any sequence is the codes of
some symbols followed by a rest that no code starts (`PrefixCode.Reads`), in one way only
(`PrefixCode.Reads.unique`), and the rest is where decoding goes on when more is known of the
sequence (`PrefixCode.Reads.append`).
-/

namespace PrefixCode

variable {α β : Type} {code : α → List β} {s s' r r' : List β} {as bs : List α}

/-- No code is a prefix of the code of another symbol. -/
def PrefixFree (code : α → List β) : Prop := ∀ a b, code a <+: code b → a = b

/-- No code is a prefix of `r`. -/
def Stuck (code : α → List β) (r : List β) : Prop := ∀ a, ¬ code a <+: r

/-- The symbols `as` are read in `s`, and then nothing else can be read in the rest `r`. -/
structure Reads (code : α → List β) (s : List β) (as : List α) (r : List β) : Prop where
  eq : s = as.flatMap code ++ r
  stuck : Stuck code r

/-- A proper prefix of a code. -/
theorem stuck_of_prefix (hfree : PrefixFree code) {a : α} (h : r <+: code a)
    (hlt : r.length < (code a).length) : Stuck code r := by
  intro b hb
  obtain rfl : b = a := hfree b a (hb.trans h)
  have := hb.length_le
  omega

/-- What differs from every code does so whatever follows. -/
theorem Stuck.append (h : Stuck code r) (hne : ∀ a, ¬ r <+: code a) (s : List β) :
    Stuck code (r ++ s) := by
  intro a ha
  rcases List.prefix_or_prefix_of_prefix ha (List.prefix_append r s) with har | hra
  · exact h a har
  · exact hne a hra

/-- The symbol that comes first. -/
theorem PrefixFree.head (hfree : PrefixFree code) {a b : α}
    (h : code a ++ s = code b ++ s') : a = b ∧ s = s' := by
  obtain rfl : a = b := by
    have ha : code a <+: code b ++ s' := h ▸ List.prefix_append _ _
    rcases List.prefix_or_prefix_of_prefix ha (List.prefix_append _ _) with hab | hba
    · exact hfree a b hab
    · exact (hfree b a hba).symm
  exact ⟨rfl, List.append_cancel_left h⟩

theorem Reads.unique (hfree : PrefixFree code) (h : Reads code s as r) (h' : Reads code s bs r') :
    as = bs ∧ r = r' := by
  obtain ⟨rfl, hr⟩ := h
  obtain ⟨heq, hr'⟩ := h'
  induction as generalizing bs with
  | nil =>
    cases bs with
    | nil => exact ⟨rfl, heq⟩
    | cons b bs =>
      refine absurd ?_ (hr b)
      rw [List.flatMap_nil, List.nil_append] at heq
      rw [heq, List.flatMap_cons, List.append_assoc]
      exact List.prefix_append _ _
  | cons a as ih =>
    rw [List.flatMap_cons, List.append_assoc] at heq
    cases bs with
    | nil =>
      refine absurd ?_ (hr' a)
      rw [List.flatMap_nil, List.nil_append] at heq
      exact heq ▸ List.prefix_append _ _
    | cons b bs =>
      rw [List.flatMap_cons, List.append_assoc] at heq
      obtain ⟨rfl, hrest⟩ := hfree.head heq
      obtain ⟨rfl, rfl⟩ := ih hrest
      exact ⟨rfl, rfl⟩

theorem reads_nil (h : Stuck code s) : Reads code s [] s := ⟨rfl, h⟩

theorem Reads.cons {a : α} (h : Reads code s as r) : Reads code (code a ++ s) (a :: as) r :=
  ⟨by rw [h.eq, List.flatMap_cons, List.append_assoc], h.stuck⟩

/-- Reading goes on where it stopped. -/
theorem Reads.append (h : Reads code s as r) (h' : Reads code (r ++ s') bs r') :
    Reads code (s ++ s') (as ++ bs) r' := by
  refine ⟨?_, h'.stuck⟩
  rw [h.eq, List.append_assoc, h'.eq, List.flatMap_append, List.append_assoc]

end PrefixCode
