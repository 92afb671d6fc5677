import Cashpack.Codec.Int

/-!
# Integers, octet by octet

`intLoop` is what the loop of `HPI_decode` computes on the octets it is given, apart from the
codec: it needs more octets, it is done with some octets left, or an octet is wrong.  Feeding it
a sequence in two parts is feeding it the whole sequence (`intLoop_append`).

`IsInt pfx n b cs` says that `b :: cs` is an integer of value `n` on the wire.
-/

namespace Cashpack

open Prog

/-- What octets do to an integer that is being decoded. -/
inductive IntOut
  /-- The integer goes on. -/
  | more (i : IntState)
  /-- It ends before `rest`. -/
  | done (i : IntState) (rest : Octets)
  /-- The first octet of `rest` is not acceptable. -/
  | bad (i : IntState) (rest : Octets)
deriving DecidableEq

/-- The value of an integer once this octet is taken into account. -/
def IntState.value (i : IntState) (b : UInt8) : ℕ :=
  if i.m ≤ 16 then (i.v + (b &&& 0x7f).toNat <<< i.m) % 65536 else i.v

/-- The octet would exceed 16 bits. -/
def IntState.Overflows (i : IntState) (b : UInt8) : Prop :=
  (16 < i.m ∧ b &&& 0x7f ≠ 0) ∨ i.value b < i.v

instance (i : IntState) (b : UInt8) : Decidable (i.Overflows b) :=
  inferInstanceAs (Decidable (_ ∨ _))

/-- The integer after this octet. -/
def IntState.next (i : IntState) (b : UInt8) : IntState :=
  ⟨i.value b, (i.m + 7) % 256, (i.l + 1) % 256⟩

/-- The loop of `HPI_decode` on octets. -/
def intLoop : Octets → IntState → IntOut
  | [], i => .more i
  | b :: blk, i =>
    if i.Overflows b then .bad i (b :: blk)
    else if b &&& 0x80 ≠ 0 then intLoop blk (i.next b) else .done (i.next b) blk

/-- What it means for the codec. -/
def IntOut.run (hp : Hpack) : IntOut → Out Hpack ℕ
  | .more i => .err { hp with state.hpi := i, ctx.blk := [], ctx.res := .buf }
  | .done i rest => .ok i.v { hp with state.hpi := i, state.bsy := false, ctx.blk := rest }
  | .bad i rest => .err { hp with state.hpi := i, ctx.blk := rest, ctx.res := .int }

theorem hpiDecodeLoop_cons (b : UInt8) (blk : Octets) (i : IntState) (hp : Hpack) :
    hpiDecodeLoop (b :: blk) i hp =
      if i.Overflows b then (IntOut.bad i (b :: blk)).run hp
      else if b &&& 0x80 ≠ 0 then hpiDecodeLoop blk (i.next b) hp
      else (IntOut.done (i.next b) blk).run hp := rfl

theorem hpiDecodeLoop_eq (blk : Octets) (i : IntState) (hp : Hpack) :
    hpiDecodeLoop blk i hp = (intLoop blk i).run hp := by
  induction blk generalizing i with
  | nil => rfl
  | cons b blk ih =>
    rw [hpiDecodeLoop_cons, intLoop]
    split
    · rfl
    · split
      · exact ih _
      · rfl

/-- The first octets, then the others. -/
theorem intLoop_append (xs ys : Octets) (i : IntState) :
    intLoop (xs ++ ys) i = match intLoop xs i with
      | .more i' => intLoop ys i'
      | .done i' rest => .done i' (rest ++ ys)
      | .bad i' rest => .bad i' (rest ++ ys) := by
  induction xs generalizing i with
  | nil => rfl
  | cons b xs ih =>
    rw [List.cons_append, intLoop, intLoop]
    split
    · rfl
    · split
      · exact ih _
      · rfl

/-- The octets left come after at least one octet of the integer. -/
theorem intLoop_done {blk rest : Octets} {i i' : IntState} (h : intLoop blk i = .done i' rest) :
    ∃ cs, blk = cs ++ rest ∧ cs ≠ [] := by
  induction blk generalizing i with
  | nil => cases h
  | cons b blk ih =>
    rw [intLoop] at h
    split at h
    · cases h
    · split at h
      · obtain ⟨cs, rfl, -⟩ := ih h
        exact ⟨b :: cs, rfl, List.cons_ne_nil _ _⟩
      · obtain ⟨-, rfl⟩ := IntOut.done.inj h
        exact ⟨[b], rfl, List.cons_ne_nil _ _⟩

/-- The octets left start with the one that is not acceptable. -/
theorem intLoop_bad_suffix {blk rest : Octets} {i i' : IntState}
    (h : intLoop blk i = .bad i' rest) : rest <:+ blk := by
  induction blk generalizing i with
  | nil => cases h
  | cons b blk ih =>
    rw [intLoop] at h
    split at h
    · obtain ⟨-, rfl⟩ := IntOut.bad.inj h
      exact List.suffix_refl _
    · split at h
      · exact (ih h).trans (List.suffix_cons b blk)
      · cases h

/-- The number of octets does not matter to the value. -/
theorem intLoop_len (blk : Octets) (v m l l' : ℕ) :
    match intLoop blk ⟨v, m, l⟩, intLoop blk ⟨v, m, l'⟩ with
    | .more i, .more i' => i.v = i'.v ∧ i.m = i'.m
    | .done i rest, .done i' rest' => i.v = i'.v ∧ i.m = i'.m ∧ rest = rest'
    | .bad i rest, .bad i' rest' => i.v = i'.v ∧ i.m = i'.m ∧ rest = rest'
    | _, _ => False := by
  induction blk generalizing v m l l' with
  | nil => exact ⟨rfl, rfl⟩
  | cons b blk ih =>
    rw [intLoop, intLoop]
    have hov : IntState.Overflows ⟨v, m, l⟩ b ↔ IntState.Overflows ⟨v, m, l'⟩ b := Iff.rfl
    by_cases hbad : IntState.Overflows ⟨v, m, l⟩ b
    · rw [if_pos hbad, if_pos (hov.1 hbad)]
      exact ⟨rfl, rfl, rfl⟩
    · rw [if_neg hbad, if_neg (mt hov.2 hbad)]
      by_cases hc : b &&& 0x80 ≠ 0
      · rw [if_pos hc, if_pos hc]
        exact ih ..
      · rw [if_neg hc, if_neg hc]
        exact ⟨rfl, rfl, rfl⟩

/-! ### Integers on the wire -/

/-- `b :: cs` is an integer with a prefix of `pfx` bits and the value `n`. -/
def IsInt (pfx n : ℕ) (b : UInt8) (cs : Octets) : Prop :=
  (n < hpiMask pfx ∧ b.toNat &&& hpiMask pfx = n ∧ cs = []) ∨
    (¬ b.toNat &&& hpiMask pfx < hpiMask pfx ∧
      ∃ i, intLoop cs ⟨b.toNat &&& hpiMask pfx, 0, 1⟩ = .done i [] ∧ i.v = n)

/-- `HPI_decode` reads an integer from the wire. -/
theorem hpiDecode_isInt {pfx n : ℕ} {b : UInt8} {cs rest : Octets} {hp : Hpack}
    (hpfx : 4 ≤ pfx ∧ pfx ≤ 7) (hbsy : hp.state.bsy = false)
    (hblk : hp.ctx.blk = b :: (cs ++ rest)) (h : IsInt pfx n b cs) :
    ∃ i : IntState, hpiDecode pfx hp
      = .ok n { hp with state.magic := .int, state.hpi := i, ctx.blk := rest } := by
  simp only [hpiDecode, bind_apply, assert_apply, if_pos hpfx, Out.bind_ok, get_apply, hbsy,
    hblk, ite_run, Bool.false_eq_true, if_false, modify_apply]
  rcases h with ⟨hn, hb, rfl⟩ | ⟨hb, i, hi, rfl⟩
  · rw [hb, if_pos hn]
    refine ⟨⟨n, hp.state.hpi.m, 1⟩, ?_⟩
    rw [List.nil_append, pure_apply]
  · rw [if_neg hb]
    refine ⟨i, (hpiDecodeLoop_eq ..).trans ?_⟩
    rw [intLoop_append, hi]
    rfl

end Cashpack
