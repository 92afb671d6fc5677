import Cashpack.Octets.Integer
import Cashpack.Decoder.Int
import Cashpack.Codec.Alloc

/-!
# Integers that are decoded exactly

`HPI_decode` adds up an integer of any length on 16 bits, with a shift of 8 bits.  An octet
whose term was cut adds less than it should, and the comparison with the value before it only
detects the wrap of the sum: the integer is accepted when the cut terms fit (`Overlooked`).

## Main results

* `intLoop_split`, `intLoop_bad` : the loop adds up the cut terms.
* `hpiDecode_exact` : the value is exact and every larger one is refused, exactly when the octets
  are not `Overlooked`.
-/

namespace Cashpack

open Prog PrefixInt

variable {b : UInt8} {bs cs rest : Octets} {v m l pfx : ℕ} {hp hp' : Hpack}

/-! ### Cut terms -/

/-- What an octet adds in `HPI_decode`, where the shift has 8 bits and the value 16.  Above a shift
of 16, an octet is only looked at for being zero. -/
def narrowTerm (b : UInt8) (m : ℕ) : ℕ :=
  if m % 256 ≤ 16 then payload b * 2 ^ (m % 256) % 65536
  else if b &&& 0x7f = 0 then 0 else 65536

/-- The sum of these terms. -/
def narrow : Octets → ℕ → ℕ
  | [], _ => 0
  | b :: bs, m => narrowTerm b m + narrow bs (m + 7)

theorem narrowTerm_le (b : UInt8) (m : ℕ) : narrowTerm b m ≤ payload b * 2 ^ m := by
  unfold narrowTerm
  split
  · refine (Nat.mod_le _ _).trans (Nat.mul_le_mul_left _ ?_)
    exact Nat.pow_le_pow_right (by decide) (Nat.mod_le m 256)
  · split
    · exact Nat.zero_le _
    · rename_i hm hb
      have hpos : 0 < payload b := Nat.pos_of_ne_zero fun h => hb (payload_eq_zero.1 h)
      have hm' : 16 ≤ m := by omega
      calc 65536 = 1 * 2 ^ 16 := by norm_num
        _ ≤ payload b * 2 ^ m := Nat.mul_le_mul hpos (Nat.pow_le_pow_right (by decide) hm')

/-- Nothing is lost when the exact term has 16 bits. -/
theorem narrowTerm_eq (h : payload b * 2 ^ m ≤ 65535) : narrowTerm b m = payload b * 2 ^ m := by
  unfold narrowTerm
  by_cases hb : payload b = 0
  · rw [if_pos (payload_eq_zero.1 hb), hb]
    split <;> simp
  · have hm : m < 16 := by
      by_contra hm
      have h16 : 1 * 2 ^ 16 ≤ payload b * 2 ^ m :=
        Nat.mul_le_mul (Nat.pos_of_ne_zero hb) (Nat.pow_le_pow_right (by decide) (by omega))
      norm_num at h16
      omega
    have hmod : m % 256 = m := Nat.mod_eq_of_lt (by omega)
    rw [hmod, if_pos hm.le, Nat.mod_eq_of_lt (by omega)]

theorem narrow_le (cs : Octets) (m : ℕ) : narrow cs m ≤ sum cs m := by
  induction cs generalizing m with
  | nil => exact le_refl _
  | cons b cs ih => exact Nat.add_le_add (narrowTerm_le b m) (ih _)

theorem narrow_eq (h : sum cs m ≤ 65535) : narrow cs m = sum cs m := by
  induction cs generalizing m with
  | nil => rfl
  | cons b cs ih =>
    rw [sum] at h
    rw [narrow, sum, narrowTerm_eq (by omega), ih (by omega)]

/-! ### The loop of `HPI_decode` -/

theorem intValue_eq (hv : v ≤ 65535) :
    (IntState.Overflows ⟨v, m % 256, l⟩ b ↔ 65535 < v + narrowTerm b m) ∧
      (v + narrowTerm b m ≤ 65535 → IntState.value ⟨v, m % 256, l⟩ b = v + narrowTerm b m) := by
  unfold IntState.Overflows IntState.value narrowTerm payload
  dsimp only
  rw [Nat.shiftLeft_eq]
  generalize (b &&& 0x7f).toNat * 2 ^ (m % 256) = q
  by_cases hm : m % 256 ≤ 16
  · simp only [if_pos hm]
    omega
  have hm' : 16 < m % 256 := Nat.lt_of_not_le hm
  simp only [if_neg hm, hm', true_and]
  by_cases hb : b &&& 0x7f = 0
  · rw [if_pos hb]
    exact ⟨iff_of_false (fun h => h.elim (fun h => h hb) (Nat.lt_irrefl v)) (by omega),
      fun _ => rfl⟩
  · rw [if_neg hb]
    exact ⟨iff_of_true (Or.inl hb) (by omega), fun h => by omega⟩

theorem intNext_eq (hv : v ≤ 65535) (h : v + narrowTerm b m ≤ 65535) :
    IntState.next ⟨v, m % 256, l⟩ b = ⟨v + narrowTerm b m, (m + 7) % 256, (l + 1) % 256⟩ := by
  rw [IntState.next, (intValue_eq hv).2 h]
  simp only [IntState.mk.injEq, true_and, and_true]
  omega

/-- The loop ends with the integer, when the cut terms fit. -/
theorem intLoop_split (hs : split bs = some (cs, rest)) (hv : v ≤ 65535)
    (h : v + narrow cs m ≤ 65535) :
    ∃ i, intLoop bs ⟨v, m % 256, l⟩ = .done i rest ∧ i.v = v + narrow cs m := by
  induction bs generalizing cs v m l with
  | nil => cases hs
  | cons b bs ih =>
    rw [intLoop]
    by_cases hb : b &&& 0x80 ≠ 0
    · obtain ⟨cs', hs', rfl⟩ := split_cons_some hb hs
      rw [narrow] at h
      have hterm : v + narrowTerm b m ≤ 65535 := by omega
      rw [if_neg (mt (intValue_eq hv).1.1 (by omega)), if_pos hb, intNext_eq hv hterm]
      obtain ⟨i, hi, hiv⟩ := ih (m := m + 7) hs' hterm (by omega)
      exact ⟨i, hi, by rw [hiv, narrow, Nat.add_assoc]⟩
    · rw [split_cons_of_eq hb] at hs
      cases hs
      simp only [narrow, Nat.add_zero] at h ⊢
      rw [if_neg (mt (intValue_eq hv).1.1 (by omega)), if_neg hb]
      exact ⟨_, rfl, (intValue_eq hv).2 h⟩

/-- Otherwise it refuses one of its octets. -/
theorem intLoop_split_bad (hs : split bs = some (cs, rest)) (hv : v ≤ 65535)
    (h : 65535 < v + narrow cs m) :
    ∃ i rest', intLoop bs ⟨v, m % 256, l⟩ = .bad i rest' := by
  induction bs generalizing cs v m l with
  | nil => cases hs
  | cons b bs ih =>
    rw [intLoop]
    by_cases hov : IntState.Overflows ⟨v, m % 256, l⟩ b
    · rw [if_pos hov]
      exact ⟨_, _, rfl⟩
    have hterm : v + narrowTerm b m ≤ 65535 := Nat.le_of_not_lt (mt (intValue_eq hv).1.2 hov)
    rw [if_neg hov]
    by_cases hb : b &&& 0x80 ≠ 0
    · obtain ⟨cs', hs', rfl⟩ := split_cons_some hb hs
      rw [narrow] at h
      rw [if_pos hb, intNext_eq hv hterm]
      exact ih hs' hterm (by omega)
    · rw [split_cons_of_eq hb] at hs
      cases hs
      simp only [narrow] at h
      omega

/-- Without the last octet of the integer, the loop does not end. -/
theorem intLoop_none (hs : split bs = none) (i i' : IntState) (rest : Octets) :
    intLoop bs i ≠ .done i' rest := by
  induction bs generalizing i with
  | nil => exact IntOut.noConfusion
  | cons b bs ih =>
    rw [intLoop]
    by_cases hb : b &&& 0x80 ≠ 0
    · rw [split_cons_of_ne hb, Option.map_eq_none_iff] at hs
      rw [if_pos hb]
      split
      · exact IntOut.noConfusion
      · exact ih hs _
    · rw [split_cons_of_eq hb] at hs
      cases hs

/-- The loop only needs more octets before the last one of the integer. -/
theorem intLoop_more {i i' : IntState} (h : intLoop bs i = .more i') : split bs = none := by
  induction bs generalizing i with
  | nil => rfl
  | cons b bs ih =>
    rw [intLoop] at h
    split at h
    · cases h
    · split at h
      · rename_i hb
        rw [split_cons_of_ne hb, ih h, Option.map_none]
      · cases h

/-- An octet is refused when it makes the cut terms exceed 16 bits. -/
theorem intLoop_bad {i : IntState} {rest' : Octets} (hv : v ≤ 65535)
    (h : intLoop bs ⟨v, m % 256, l⟩ = .bad i rest') :
    ∃ pre b r, bs = pre ++ b :: r ∧ rest' = b :: r ∧ 65535 < v + narrow (pre ++ [b]) m := by
  induction bs generalizing v m l with
  | nil => cases h
  | cons b bs ih =>
    rw [intLoop] at h
    by_cases hov : IntState.Overflows ⟨v, m % 256, l⟩ b
    · rw [if_pos hov] at h
      cases h
      exact ⟨[], b, bs, rfl, rfl, (intValue_eq hv).1.1 hov⟩
    have hterm : v + narrowTerm b m ≤ 65535 := Nat.le_of_not_lt (mt (intValue_eq hv).1.2 hov)
    rw [if_neg hov] at h
    split at h
    · rw [intNext_eq hv hterm] at h
      obtain ⟨pre, b', r, rfl, hr, hlt⟩ := ih hterm h
      exact ⟨b :: pre, b', r, rfl, hr, by rw [List.cons_append, narrow]; omega⟩
    · cases h

/-! ### Calls -/

/-- What `HPI_decode` gives: the value or the result, with the octets left. -/
inductive IntRes
  | value (v : ℕ) (rest : Octets)
  | result (r : Res) (rest : Octets)
  | stop
deriving DecidableEq

/-- What the caller of `HPI_decode` sees of a run. -/
def intRes : Out Hpack ℕ → IntRes
  | .ok v hp => .value v hp.ctx.blk
  | .err hp => .result hp.ctx.res hp.ctx.blk
  | .stop _ => .stop

/-- The codec when these octets are left in the block. -/
def Hpack.load (hp : Hpack) (blk : Octets) : Hpack := { hp with ctx.blk := blk }

/-- `HPI_decode` on a sequence of octets that comes in parts, each given when the ones before it
were not enough. -/
def hpiDecodeParts (pfx : ℕ) : List Octets → Hpack → IntRes
  | [], _ => .stop
  | part :: parts, hp =>
    match hpiDecode pfx (hp.load part) with
    | .ok v hp' => .value v (hp'.ctx.blk ++ parts.flatten)
    | .err hp' =>
      if hp'.ctx.res = .buf ∧ parts ≠ [] then hpiDecodeParts pfx parts hp'
      else .result hp'.ctx.res (hp'.ctx.blk ++ parts.flatten)
    | .stop _ => .stop

/-- The octets are an integer above 65535 whose cut terms do not exceed it. -/
def Overlooked (pfx : ℕ) (os : Octets) : Prop :=
  ∃ b bs cs rest, os = b :: bs ∧ split bs = some (cs, rest) ∧
    b.toNat % 2 ^ pfx = 2 ^ pfx - 1 ∧ 65535 < 2 ^ pfx - 1 + sum cs 0 ∧
    2 ^ pfx - 1 + narrow cs 0 ≤ 65535

/-- `HPI_decode` on these octets, in one or several parts, follows the exact value `V` of the
integer they start with. -/
structure Exactly (pfx : ℕ) (os : Octets) (hp : Hpack) : Prop where
  value : ∀ V rest, read pfx os = some (V, rest) → V ≤ 65535 →
    intRes (hpiDecode pfx (hp.load os)) = .value V rest
  large : ∀ V rest, read pfx os = some (V, rest) → 65535 < V →
    ∃ rest', intRes (hpiDecode pfx (hp.load os)) = .result .int rest'
  int : ∀ rest, intRes (hpiDecode pfx (hp.load os)) = .result .int rest →
    ∃ pre b r, os = pre ++ b :: r ∧ rest = b :: r ∧ 65535 < partialSum pfx (pre ++ [b])
  buf : ∀ rest, intRes (hpiDecode pfx (hp.load os)) = .result .buf rest →
    rest = [] ∧ read pfx os = none
  stores : ∀ V rest, intRes (hpiDecode pfx (hp.load os)) = .value V rest →
    read pfx os = some (V, rest)
  ends : intRes (hpiDecode pfx (hp.load os)) ≠ .stop ∧
    ∀ r rest, intRes (hpiDecode pfx (hp.load os)) = .result r rest → r = .int ∨ r = .buf
  parts : ∀ parts : List Octets, parts.flatten = os → parts ≠ [] → [] ∉ parts →
    hpiDecodeParts pfx parts hp = intRes (hpiDecode pfx (hp.load os))

/-- What the caller sees of the loop. -/
def IntOut.res : IntOut → IntRes
  | .more _ => .result .buf []
  | .done i rest => .value i.v rest
  | .bad _ rest => .result .int rest

theorem intRes_run (o : IntOut) (hp : Hpack) : intRes (o.run hp) = o.res := by
  cases o <;> rfl

theorem intLoop_res_len (blk : Octets) (v m l l' : ℕ) :
    (intLoop blk ⟨v, m, l⟩).res = (intLoop blk ⟨v, m, l'⟩).res := by
  induction blk generalizing v m l l' with
  | nil => rfl
  | cons b blk ih =>
    have hov : IntState.Overflows ⟨v, m, l⟩ b ↔ IntState.Overflows ⟨v, m, l'⟩ b := Iff.rfl
    rw [intLoop, intLoop]
    by_cases hbad : IntState.Overflows ⟨v, m, l⟩ b
    · rw [if_pos hbad, if_pos (hov.1 hbad)]
      rfl
    · rw [if_neg hbad, if_neg (mt hov.2 hbad)]
      split
      · exact ih ..
      · rfl

/-- The codec once it read the first octet of an integer. -/
def Hpack.prefixed (hp : Hpack) (v : ℕ) (blk : Octets) : Hpack :=
  { hp with state.magic := .int, state.hpi.v := v, state.hpi.l := 1, ctx.blk := blk }

theorem hpiDecode_load (hpfx : 4 ≤ pfx ∧ pfx ≤ 7) (hbsy : hp.state.bsy = false) (b : UInt8)
    (bs : Octets) :
    hpiDecode pfx (hp.load (b :: bs)) =
      (if b.toNat % 2 ^ pfx < hpiMask pfx then pure (b.toNat % 2 ^ pfx)
        else do
          modify fun hp => { hp with state.bsy := true, state.hpi.m := 0 }
          hpiDecodeLoop bs ⟨b.toNat % 2 ^ pfx, 0, 1⟩ : Cp ℕ)
        (hp.prefixed (b.toNat % 2 ^ pfx) bs) := by
  have hmask : b.toNat &&& hpiMask pfx = b.toNat % 2 ^ pfx := Nat.and_two_pow_sub_one_eq_mod _ _
  rw [hpiDecode, assert_bind_pos hpfx, bind_apply, get_apply, Out.bind_ok, ite_run,
    if_neg (by simp [Hpack.load, hbsy])]
  dsimp only [Hpack.load]
  rw [hmask]
  rfl

/-- An integer that fits in its prefix. -/
theorem hpiDecode_short (hpfx : 4 ≤ pfx ∧ pfx ≤ 7) (hbsy : hp.state.bsy = false)
    (hb : b.toNat % 2 ^ pfx < 2 ^ pfx - 1) (bs : Octets) :
    hpiDecode pfx (hp.load (b :: bs))
      = .ok (b.toNat % 2 ^ pfx) (hp.prefixed (b.toNat % 2 ^ pfx) bs) := by
  rw [hpiDecode_load hpfx hbsy, ite_run,
    if_pos (show b.toNat % 2 ^ pfx < hpiMask pfx from hb)]
  rfl

/-- A longer one. -/
theorem hpiDecode_long (hpfx : 4 ≤ pfx ∧ pfx ≤ 7) (hbsy : hp.state.bsy = false)
    (hb : b.toNat % 2 ^ pfx = 2 ^ pfx - 1) (bs : Octets) :
    hpiDecode pfx (hp.load (b :: bs)) = (intLoop bs ⟨2 ^ pfx - 1, 0, 1⟩).run
      { hp.prefixed (2 ^ pfx - 1) bs with state.bsy := true, state.hpi.m := 0 } := by
  rw [hpiDecode_load hpfx hbsy, hb, ite_run, if_neg (by simp [hpiMask]), bind_apply, modify_apply,
    Out.bind_ok, hpiDecodeLoop_eq]

theorem hpiDecode_resumed (hpfx : 4 ≤ pfx ∧ pfx ≤ 7) (hbsy : hp.state.bsy = true)
    (hmagic : hp.state.magic = .int) (hbs : bs ≠ []) :
    hpiDecode pfx (hp.load bs)
      = (intLoop bs { hp.state.hpi with l := 0 }).run (hp.load bs) := by
  rw [hpiDecode, assert_bind_pos hpfx, bind_apply, get_apply, Out.bind_ok, ite_run,
    if_pos (by simpa [Hpack.load] using hbsy)]
  rw [assert_bind_pos (by simpa [Hpack.load] using hmagic),
    assert_bind_pos (by simpa [Hpack.load] using hbs), hpiDecodeLoop_eq]
  rfl

/-- The parts of what is left of an integer are read as one sequence. -/
theorem hpiDecodeParts_resumed (hpfx : 4 ≤ pfx ∧ pfx ≤ 7) {parts : List Octets}
    (hne : parts ≠ []) (hnil : [] ∉ parts) (hbsy : hp.state.bsy = true)
    (hmagic : hp.state.magic = .int) :
    hpiDecodeParts pfx parts hp = (intLoop parts.flatten hp.state.hpi).res := by
  induction parts generalizing hp with
  | nil => exact absurd rfl hne
  | cons part parts ih =>
    have hpart : part ≠ [] := fun h => hnil (h ▸ List.mem_cons_self)
    rw [hpiDecodeParts, hpiDecode_resumed hpfx hbsy hmagic hpart, List.flatten_cons]
    rw [intLoop_res_len _ hp.state.hpi.v hp.state.hpi.m hp.state.hpi.l 0, intLoop_append]
    cases hloop : intLoop part { hp.state.hpi with l := 0 } with
    | done i rest => rfl
    | bad i rest => exact if_neg (by simp)
    | more i =>
      by_cases hparts : parts = []
      · subst hparts
        exact if_neg (by simp)
      · refine (if_pos ⟨rfl, hparts⟩).trans ?_
        exact @ih { hp.load [] with state.hpi := i, ctx.res := .buf } hparts
          (fun h => hnil (List.mem_cons_of_mem _ h)) hbsy hmagic

theorem hpiDecodeParts_eq (hpfx : 4 ≤ pfx ∧ pfx ≤ 7) (hbsy : hp.state.bsy = false)
    {parts : List Octets} (hne : parts ≠ []) (hnil : [] ∉ parts) :
    hpiDecodeParts pfx parts hp = intRes (hpiDecode pfx (hp.load parts.flatten)) := by
  obtain ⟨part, parts, rfl⟩ := List.exists_cons_of_ne_nil hne
  have hpart : part ≠ [] := fun h => hnil (h ▸ List.mem_cons_self)
  obtain ⟨b, bs, rfl⟩ := List.exists_cons_of_ne_nil hpart
  rw [hpiDecodeParts, List.flatten_cons, List.cons_append]
  rcases mod_two_pow_cases b pfx with hb | hb
  · rw [hpiDecode_short hpfx hbsy hb, hpiDecode_short hpfx hbsy hb]
    rfl
  rw [hpiDecode_long hpfx hbsy hb, hpiDecode_long hpfx hbsy hb, intRes_run, intLoop_append]
  cases hloop : intLoop bs ⟨2 ^ pfx - 1, 0, 1⟩ with
  | done i rest => rfl
  | bad i rest => exact if_neg (by simp)
  | more i =>
    by_cases hparts : parts = []
    · subst hparts
      exact if_neg (by simp)
    · refine (if_pos ⟨rfl, hparts⟩).trans ?_
      exact @hpiDecodeParts_resumed pfx { hp.prefixed (2 ^ pfx - 1) [] with
          state.bsy := true, state.hpi := i, ctx.res := .buf } hpfx parts hparts
        (fun h => hnil (List.mem_cons_of_mem _ h)) rfl rfl

theorem mask_le (hpfx : 4 ≤ pfx ∧ pfx ≤ 7) : 2 ^ pfx - 1 ≤ 127 := by
  have : 2 ^ pfx ≤ 2 ^ 7 := Nat.pow_le_pow_right (by decide) hpfx.2
  omega

/-- What the caller sees of an integer that does not fit in its prefix. -/
theorem intRes_long (hpfx : 4 ≤ pfx ∧ pfx ≤ 7) (hbsy : hp.state.bsy = false)
    (hb : b.toNat % 2 ^ pfx = 2 ^ pfx - 1) (bs : Octets) :
    intRes (hpiDecode pfx (hp.load (b :: bs))) = (intLoop bs ⟨2 ^ pfx - 1, 0 % 256, 1⟩).res := by
  rw [hpiDecode_long hpfx hbsy hb, intRes_run]

/-- An accepted integer is the sum of its cut terms. -/
theorem intLoop_value {V : ℕ} (hv : v ≤ 65535)
    (h : (intLoop bs ⟨v, m % 256, l⟩).res = .value V rest) :
    ∃ cs, split bs = some (cs, rest) ∧ V = v + narrow cs m ∧ V ≤ 65535 := by
  cases hs : split bs with
  | none =>
    cases hl : intLoop bs ⟨v, m % 256, l⟩ with
    | more i => rw [hl] at h; cases h
    | bad i r => rw [hl] at h; cases h
    | done i r => exact absurd hl (intLoop_none hs _ _ _)
  | some p =>
    obtain ⟨cs, rest'⟩ := p
    by_cases hfit : v + narrow cs m ≤ 65535
    · obtain ⟨i, hi, hiv⟩ := intLoop_split (l := l) hs hv hfit
      rw [hi] at h
      cases h
      exact ⟨cs, rfl, hiv, hiv ▸ hfit⟩
    · obtain ⟨i, r, hi⟩ := intLoop_split_bad (l := l) hs hv (Nat.lt_of_not_le hfit)
      rw [hi] at h
      cases h

/-- **Integers are decoded exactly, however they are cut into parts**, except those whose cut
terms hide that they exceed 16 bits. -/
theorem hpiDecode_exact {os : Octets} (hpfx : 4 ≤ pfx ∧ pfx ≤ 7) (hbsy : hp.state.bsy = false)
    (hos : os ≠ []) : Exactly pfx os hp ↔ ¬ Overlooked pfx os := by
  obtain ⟨b, bs, rfl⟩ := List.exists_cons_of_ne_nil hos
  have hmask : 2 ^ pfx - 1 ≤ 65535 := (mask_le hpfx).trans (by norm_num)
  have hparts : ∀ parts : List Octets, parts.flatten = b :: bs → parts ≠ [] → [] ∉ parts →
      hpiDecodeParts pfx parts hp = intRes (hpiDecode pfx (hp.load (b :: bs))) := by
    intro parts hflat hne hnil
    rw [hpiDecodeParts_eq hpfx hbsy hne hnil, hflat]
  rcases mod_two_pow_cases b pfx with hb | hb
  · -- the integer is its prefix
    have hres : intRes (hpiDecode pfx (hp.load (b :: bs))) = .value (b.toNat % 2 ^ pfx) bs := by
      rw [hpiDecode_short hpfx hbsy hb]
      rfl
    refine iff_of_true ⟨?_, ?_, ?_, ?_, ?_, ?_, hparts⟩ ?_
    · intro V rest hread _
      obtain ⟨rfl, rfl⟩ := (read_short hb).1 hread
      exact hres
    · intro V rest hread hV
      obtain ⟨rfl, -⟩ := (read_short hb).1 hread
      omega
    · intro rest h
      cases hres.symm.trans h
    · intro rest h
      cases hres.symm.trans h
    · intro V rest h
      cases hres.symm.trans h
      exact (read_short hb).2 ⟨rfl, rfl⟩
    · rw [hres]
      exact ⟨IntRes.noConfusion, fun r rest h => by cases h⟩
    · rintro ⟨b', bs', cs, rest, heq, -, hall, -⟩
      cases heq
      omega
  -- the octets after the prefix are added up
  have hres := intRes_long hpfx hbsy hb bs
  have hread := @read_long b bs pfx hb
  constructor
  · rintro hex ⟨b', bs', cs, rest, heq, hs, -, hV, hcut⟩
    cases heq
    obtain ⟨i, hi, -⟩ := intLoop_split (l := 1) hs hmask hcut
    obtain ⟨rest', hint⟩ := hex.large _ rest (by rw [hread, hs]; rfl) hV
    rw [hres, hi] at hint
    cases hint
  · intro hover
    have hcut : ∀ {cs rest}, split bs = some (cs, rest) → 65535 < 2 ^ pfx - 1 + sum cs 0 →
        65535 < 2 ^ pfx - 1 + narrow cs 0 := by
      intro cs rest hs hV
      by_contra hle
      exact hover ⟨b, bs, cs, rest, rfl, hs, hb, hV, Nat.le_of_not_lt hle⟩
    refine ⟨?_, ?_, ?_, ?_, ?_, ?_, hparts⟩
    · intro V rest h hV
      rw [hread, Option.map_eq_some_iff] at h
      obtain ⟨⟨cs, rest'⟩, hs, heq⟩ := h
      obtain ⟨rfl, rfl⟩ := Prod.mk.inj heq
      dsimp only at hV
      have hnarrow : narrow cs 0 = sum cs 0 := narrow_eq (by omega)
      obtain ⟨i, hi, hiv⟩ := intLoop_split (m := 0) (l := 1) hs hmask (by omega)
      rw [hres, hi, IntOut.res, hiv, hnarrow]
    · intro V rest h hV
      rw [hread, Option.map_eq_some_iff] at h
      obtain ⟨⟨cs, rest'⟩, hs, heq⟩ := h
      cases heq
      obtain ⟨i, rest', hi⟩ := intLoop_split_bad (l := 1) hs hmask (hcut hs hV)
      exact ⟨rest', by rw [hres, hi, IntOut.res]⟩
    · intro rest h
      rw [hres] at h
      cases hl : intLoop bs ⟨2 ^ pfx - 1, 0 % 256, 1⟩ with
      | more i => rw [hl] at h; cases h
      | done i r => rw [hl] at h; cases h
      | bad i r =>
        rw [hl] at h
        cases h
        obtain ⟨pre, b', r', rfl, rfl, hlt⟩ := intLoop_bad hmask hl
        refine ⟨b :: pre, b', r', rfl, rfl, ?_⟩
        rw [List.cons_append, partialSum, hb]
        exact lt_of_lt_of_le hlt (Nat.add_le_add_left (narrow_le _ _) _)
    · intro rest h
      rw [hres] at h
      cases hl : intLoop bs ⟨2 ^ pfx - 1, 0 % 256, 1⟩ with
      | done i r => rw [hl] at h; cases h
      | bad i r => rw [hl] at h; cases h
      | more i =>
        rw [hl] at h
        cases h
        exact ⟨rfl, by rw [hread, intLoop_more hl, Option.map_none]⟩
    · intro V rest h
      rw [hres] at h
      obtain ⟨cs, hs, rfl, hle⟩ := intLoop_value hmask h
      have hsum : 2 ^ pfx - 1 + sum cs 0 ≤ 65535 := by
        by_contra hV
        exact absurd (hcut hs (Nat.lt_of_not_le hV)) (Nat.not_lt.2 hle)
      rw [hread, hs, Option.map_some, narrow_eq (by omega)]
    · rw [hres]
      cases intLoop bs ⟨2 ^ pfx - 1, 0 % 256, 1⟩ with
      | more i => exact ⟨IntRes.noConfusion, fun r rest h => by cases h; exact Or.inr rfl⟩
      | done i r => exact ⟨IntRes.noConfusion, fun r rest h => by cases h⟩
      | bad i r => exact ⟨IntRes.noConfusion, fun r rest h => by cases h; exact Or.inl rfl⟩

/-- An octet of 16384 and one of 65536 times four add up to what fits on 16 bits. -/
theorem hpiDecode_exact_false :
    read 5 [31, 0x80, 0x80, 0x04] = some (65567, []) ∧
      intRes (hpiDecode 5 ((Hpack.init .decoder 64 64 true ⟨1, fun _ => 0⟩).load
        [31, 0x80, 0x80, 0x04])) = .value 31 [] := by
  decide +kernel

theorem hpiDecode_exact_padded :
    Exactly 5 [31, 0x9a, 0x8a, 0x00] (Hpack.init .decoder 64 64 true ⟨1, fun _ => 0⟩) := by
  refine (hpiDecode_exact (by decide) rfl (List.cons_ne_nil _ _)).2 ?_
  rintro ⟨b, bs, cs, rest, heq, hs, -, hV, -⟩
  cases heq
  cases (show split [0x9a, 0x8a, 0x00] = some ([0x9a, 0x8a, 0x00], []) from by decide).symm.trans hs
  exact absurd hV (by decide)

end Cashpack
