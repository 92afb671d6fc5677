import Cashpack.Encoder.Emit
import Cashpack.Encoder.Failure
import Cashpack.Octets.Integer
import Cashpack.Huffman.Encode
import Mathlib.Tactic.Ring

/-!
# The length of a string literal

A string literal is the integer `HPI_encode` writes for its length, then its octets.

## Main results

* `read_hpiOctets` : `HPI_encode` writes an integer that is read back.
* `putString_sends` : what `hpack_encode_string` sends.
* `encodeString_delimited` : the length is the number of octets that follow it, exactly when 16
  bits are enough for it.
-/

namespace Cashpack

open Prog PrefixInt

variable {hp hp' : Hpack} {fld : Field} {evt : StrEvt}

/-! ### Integers -/

theorem continued_octet :
    ∀ k < 128, payload (UInt8.ofNat (0x80 ||| k)) = k ∧ UInt8.ofNat (0x80 ||| k) &&& 0x80 ≠ 0 := by
  decide +kernel

theorem last_octet :
    ∀ k < 128, payload (UInt8.ofNat k) = k ∧ ¬ UInt8.ofNat k &&& 0x80 ≠ 0 := by
  decide +kernel

/-- The octets after the first one add the value. -/
theorem hpiOctetsLoop_split {fuel val : ℕ} (h : val < 128 ^ (fuel + 1)) (rest : Octets) (m : ℕ) :
    split (hpiOctetsLoop (fuel + 1) val ++ rest) = some (hpiOctetsLoop (fuel + 1) val, rest) ∧
      sum (hpiOctetsLoop (fuel + 1) val) m = val * 2 ^ m := by
  have hlast : ∀ val < 128, ∀ m, split ([UInt8.ofNat val] ++ rest)
      = some ([UInt8.ofNat val], rest) ∧ sum [UInt8.ofNat val] m = val * 2 ^ m := by
    intro val hval m
    obtain ⟨hpay, hbit⟩ := last_octet val hval
    exact ⟨split_cons_of_eq hbit rest, by rw [sum, sum, hpay, Nat.add_zero]⟩
  induction fuel generalizing val m with
  | zero =>
    rw [hpiOctetsLoop, if_neg (by omega)]
    exact hlast val (by omega) m
  | succ fuel ih =>
    rw [hpiOctetsLoop]
    split
    · have hand : val &&& 0x7f = val % 128 := Nat.and_two_pow_sub_one_eq_mod val 7
      have hshift : val >>> 7 = val / 128 := Nat.shiftRight_eq_div_pow val 7
      obtain ⟨hpay, hbit⟩ := continued_octet (val % 128) (Nat.mod_lt _ (by omega))
      have hdiv : val / 128 < 128 ^ (fuel + 1) := by
        rw [Nat.div_lt_iff_lt_mul (by omega), ← Nat.pow_succ]
        exact h
      obtain ⟨hsplit, hsum⟩ := ih hdiv (m + 7)
      rw [hand, hshift]
      refine ⟨?_, ?_⟩
      · rw [List.cons_append, split_cons_of_ne hbit, hsplit]
        rfl
      · rw [sum, hpay, hsum, Nat.pow_add]
        have hdm := Nat.div_add_mod val 128
        calc val % 128 * 2 ^ m + val / 128 * (2 ^ m * 2 ^ 7)
            = (128 * (val / 128) + val % 128) * 2 ^ m := by ring
          _ = val * 2 ^ m := by rw [hdm]
    · exact hlast val (by omega) m

theorem Hpp.pat_mod (p : Hpp) : p.pat.toNat % 2 ^ p.pfx = 0 := by
  cases p <;> decide

/-- The pattern leaves the prefix as it is. -/
theorem Hpp.or_mod (p : Hpp) {n : ℕ} (h : n < 2 ^ p.pfx) :
    (p.pat ||| UInt8.ofNat n).toNat % 2 ^ p.pfx = n := by
  have hle : 2 ^ p.pfx ≤ 2 ^ 7 := Nat.pow_le_pow_right (by decide) p.pfx_le.2
  have hn : (UInt8.ofNat n).toNat = n := by
    rw [UInt8.toNat_ofNat']
    omega
  rw [UInt8.toNat_or, Nat.or_mod_two_pow, p.pat_mod, hn, Nat.mod_eq_of_lt h, Nat.zero_or]

/-- **`HPI_encode` writes an integer that is read back.** -/
theorem read_hpiOctets (p : Hpp) {n : ℕ} (hn : n ≤ 65535) (rest : Octets) :
    PrefixInt.read p.pfx (hpiOctets p n ++ rest) = some (n, rest) := by
  have hpos := Nat.two_pow_pos p.pfx
  rw [hpiOctets, hpiMask]
  split
  · rename_i hlt
    have hmod := p.or_mod (show n < 2 ^ p.pfx by omega)
    rw [List.singleton_append, read_short (by rw [hmod]; exact hlt), hmod]
    exact ⟨rfl, rfl⟩
  · rename_i hge
    have hmod := p.or_mod (show 2 ^ p.pfx - 1 < 2 ^ p.pfx by omega)
    obtain ⟨hsplit, hsum⟩ := @hpiOctetsLoop_split 3 (n - (2 ^ p.pfx - 1))
      (lt_of_le_of_lt (Nat.sub_le _ _) (lt_of_le_of_lt hn (by norm_num))) rest 0
    rw [List.cons_append, read_long hmod, hsplit, Option.map_some, hsum, Nat.pow_zero, Nat.mul_one]
    congr 2
    omega

/-! ### Strings -/

/-- The string that is encoded. -/
def Field.str (fld : Field) (evt : StrEvt) : Option CStr := if evt = .name then fld.nam else fld.val

/-- It is to be coded with Huffman. -/
def Field.huf (fld : Field) (evt : StrEvt) : Bool := if evt = .name then fld.namHuf else fld.valHuf

theorem readStr_same (p : Ptr) (len : ℕ) (hp : Hpack) :
    (readStr p len hp).Holds (fun _ hp' => hp' = hp) (fun _ => True) fun _ => True := by
  unfold readStr
  split
  · exact rfl
  · trivial

theorem expect_same (r : Res) (c : Prop) [Decidable c] (hp : Hpack) :
    (expect r c hp).Holds (fun _ hp' => hp' = hp ∧ c) (fun _ => True) fun _ => True := by
  rw [expect_apply]
  split
  · rename_i hc
    exact ⟨rfl, hc⟩
  · trivial

theorem hpvValue_same (p : Ptr) (len : ℕ) (hp : Hpack) :
    (hpvValue p len hp).Holds (fun _ hp' => hp' = hp) (fun _ => True) fun _ => True := by
  refine .assert_bind trivial fun _ => ?_
  rw [bind_apply]
  refine (readStr_same p len hp).bind ?_
  rintro ⟨s, c⟩ _ rfl
  dsimp only
  rw [bind_apply]
  refine (expect_same ..).bind ?_
  rintro _ _ ⟨rfl, -⟩
  refine .assert_bind trivial fun _ => ?_
  rw [assert_apply]
  split
  · exact rfl
  · trivial

theorem hpvToken_same (p : Ptr) (len : ℕ) (hp : Hpack) :
    (hpvToken p len hp).Holds (fun _ hp' => hp' = hp) (fun _ => True) fun _ => True := by
  refine .assert_bind trivial fun _ => .assert_bind trivial fun _ => ?_
  rw [bind_apply, get_apply, Out.bind_ok, ite_run]
  split
  · rw [assert_apply]
    split
    · exact rfl
    · trivial
  rw [bind_apply]
  refine (readStr_same p len hp).bind ?_
  rintro ⟨s, c⟩ _ rfl
  dsimp only
  rw [ite_run]
  split
  · rw [ite_run]
    split
    · exact rfl
    · trivial
  rw [bind_apply]
  refine (expect_same ..).bind ?_
  rintro _ _ ⟨rfl, -⟩
  rw [assert_apply]
  split
  · exact rfl
  · trivial

/-- The part of `hpack_encode_string` after the checks. -/
def putString (huf : Bool) (str : Octets) : Cp Unit :=
  if huf then do
    hpiEncode .huf (hphSize str)
    hpePuts (hphEncode str)
  else do
    hpiEncode .str str.length
    hpeBcat str

/-- A length of 16 bits is sent, then octets: as many as the string has, or its code. -/
theorem putString_sends (huf : Bool) (str : Octets) (hm : hp.magic = .encoder) :
    (putString huf str hp).Holds
      (fun _ hp' => ∃ body : Octets, body.length = (if huf then hphSize str else str.length) ∧
        Sends hp (hpiOctets (if huf then .huf else .str) (body.length % 65536) ++ body) hp')
      (fun _ => False) fun _ => ¬ hp.Open := by
  cases huf with
  | true =>
    refine (((emits_hpiEncode .huf _).bind (emits_hpePuts (hphEncode str))) hp hm).mono
      (fun _ hp' h => ⟨hphEncode str, length_hphEncode str, ?_⟩) (fun _ h => h) fun _ h => h
    rw [length_hphEncode]
    exact h
  | false =>
    show ((do hpiEncode .str str.length; hpeBcat str : Cp Unit) hp).Holds _ _ _
    by_cases hroom : hp.ctx.cur.length < hp.ctx.arg.bufLen
    swap
    · rw [bind_apply, hpiEncode, bind_apply, get_apply, Out.bind_ok, assert_bind_neg hroom]
      exact fun ho => hroom ho.room
    rw [bind_apply]
    refine (emits_hpiEncode .str str.length hp hm).bind fun _ hp₁ h₁ => ?_
    have hlen := h₁.room hroom
    have hbody := @length_bcatOctets str hp₁.ctx.arg.bufLen str.length
      (hp₁.ctx.arg.bufLen - hp₁.ctx.cur.length) str.length (le_refl _) (le_refl _) (by omega)
      (by omega)
    refine (sends_hpeBcat str (h₁.magic.trans hm)).mono (fun _ hp' h => ⟨_, hbody, ?_⟩)
      (fun _ h => h) fun _ h ho => h (h₁.keeps_open ho)
    rw [hbody]
    exact h₁.trans h

/-- What `hpack_encode_string` does with a string it accepts. -/
theorem hpackEncodeString_ok (h : hpackEncodeString fld evt hp = .ok () hp') :
    ∃ s, fld.str evt = some s ∧ s.bytes.length ≤ uint16Max ∧
      putString (fld.huf evt) s.bytes hp = .ok () hp' := by
  obtain ⟨_, hp₁, h₁, h⟩ := bind_eq_ok h
  obtain ⟨str, hp₂, h₂, h⟩ := bind_eq_ok h
  obtain ⟨_, hp₃, h₃, h⟩ := bind_eq_ok h
  obtain ⟨_, hp₄, h₄, hput⟩ := bind_eq_ok h
  -- the checks leave the encoder as it is
  obtain rfl : hp₁ = hp := by
    rw [when_apply] at h₁
    split at h₁
    · rw [assert_apply] at h₁
      split at h₁
      · cases h₁
        rfl
      · cases h₁
    · cases h₁
      rfl
  have h₃' := expect_same .int (str.length ≤ uint16Max) hp₂
  rw [h₃] at h₃'
  obtain ⟨rfl, hlen⟩ := h₃'
  obtain rfl : hp₄ = hp₃ := by
    have hval : ((if evt = .name then hpvToken (.str str) str.length
        else hpvValue (.str str) str.length) hp₃).Holds (fun _ hp' => hp' = hp₃) (fun _ => True)
        fun _ => True := by
      rw [ite_run]
      split
      · exact hpvToken_same ..
      · exact hpvValue_same ..
    rw [h₄] at hval
    exact hval
  cases hs : fld.str evt with
  | none =>
    unfold Field.str at hs
    rw [hs] at h₂
    cases h₂
  | some s =>
    unfold Field.str at hs
    rw [hs] at h₂
    cases h₂
    exact ⟨s, rfl, hlen, hput⟩

/-- A length is sent, then as many octets. -/
def Delimited (hp hp' : Hpack) : Prop :=
  ∃ os len body, hp'.sent = hp.sent ++ os ∧ PrefixInt.read 7 os = some (len, body) ∧
    body.length = len

/-- The length that is sent has 16 bits. -/
theorem putString_delimited {huf : Bool} {str : Octets} (hm : hp.magic = .encoder)
    (h : putString huf str hp = .ok () hp') :
    Delimited hp hp' ↔ (if huf then hphSize str else str.length) ≤ 65535 := by
  have hsends := putString_sends huf str hm
  rw [h] at hsends
  obtain ⟨body, hbody, hsends⟩ := hsends
  have hpfx : (if huf then Hpp.huf else Hpp.str).pfx = 7 := by
    split <;> rfl
  have hread := read_hpiOctets (if huf then .huf else .str)
    (show body.length % 65536 ≤ 65535 by omega) body
  rw [hpfx] at hread
  rw [← hbody]
  constructor
  · rintro ⟨os, len, body', hos, hread', hlen'⟩
    have heq := List.append_cancel_left (hos.symm.trans hsends.sent)
    rw [heq, hread] at hread'
    cases hread'
    omega
  · intro hle
    exact ⟨_, _, _, hsends.sent, hread, by omega⟩

/-- The code of the string has at most 65535 octets. -/
def Field.Describable (fld : Field) (evt : StrEvt) : Prop :=
  fld.huf evt = true → ∀ s, fld.str evt = some s → hphBits s.bytes ≤ 8 * 65535

/-- **A string literal has the length it announces**, exactly when the string is not coded, or its
code can be described on 16 bits. -/
theorem encodeString_delimited (hm : hp.magic = .encoder)
    (h : hpackEncodeString fld evt hp = .ok () hp') :
    Delimited hp hp' ↔ fld.Describable evt := by
  obtain ⟨s, hs, hlen, hput⟩ := hpackEncodeString_ok h
  rw [putString_delimited hm hput, Field.Describable]
  cases hhuf : fld.huf evt with
  | true =>
    rw [if_pos rfl, hphSize_eq]
    constructor
    · intro hle _ s' hs'
      cases hs.symm.trans hs'
      omega
    · intro hbits
      have := hbits rfl s hs
      omega
  | false =>
    rw [if_neg Bool.false_ne_true]
    exact iff_of_true hlen fun h => Bool.noConfusion h

/-- A value of 18725 octets, each with a code of 28 bits. -/
def longValue : CStr where
  bytes := List.replicate 18725 0xf9
  noNul h := absurd (List.eq_of_mem_replicate h) (by decide)

/-- The field `a` with this value, to code with Huffman. -/
def longField : Field := { dynField with val := some longValue, valHuf := true }

theorem encodeString_delimited_short :
    ∃ hp, hpackEncodeString dynField .value startedEncoder = .ok () hp ∧
      Delimited startedEncoder hp := by
  have hrun : hpackEncodeString dynField .value startedEncoder
      = .ok () { startedEncoder with ctx := { startedEncoder.ctx with cur := [1, 98] } } := by
    decide +kernel
  exact ⟨_, hrun, (encodeString_delimited rfl hrun).2 fun h => Bool.noConfusion h⟩

theorem hphBits_replicate (n : ℕ) (c : UInt8) :
    hphBits (List.replicate n c) = n * (hphEnc c).len := by
  induction n with
  | zero => simp [hphBits]
  | succ n ih =>
    rw [hphBits] at ih ⊢
    rw [List.replicate_succ, List.map_cons, List.sum_cons, ih, Nat.add_mul, Nat.one_mul,
      Nat.add_comm]

/-- A value that passes the checks is sent. -/
theorem hpackEncodeString_value {s : CStr} (hval : fld.val = some s)
    (hlen : s.bytes.length ≤ uint16Max) (hchr : s.bytes.all isValueChar = true)
    (hfield : s.bytes.all isFieldValue = true) :
    hpackEncodeString fld .value hp = putString fld.valHuf s.bytes hp := by
  have hval' : hpvValue (.str s.bytes) s.bytes.length hp = .ok () hp := by
    have hstr : hp.str (.str s.bytes) s.bytes.length = some (s.bytes, 0) := by
      simp [Hpack.str, Hpack.at]
    have hne : Ptr.str s.bytes ≠ .null := Ptr.noConfusion
    rw [hpvValue, assert_bind_pos hne, bind_apply, readStr, hstr]
    dsimp only
    rw [Out.bind_ok, bind_apply, expect_apply, if_pos hchr, Out.bind_ok, assert_bind_pos hfield,
      assert_apply, if_pos rfl]
  have hne : StrEvt.value ≠ .name := StrEvt.noConfusion
  rw [hpackEncodeString]
  simp only [if_neg hne, when_apply, bind_apply, Out.bind_ok, hval, userStr, pure_apply,
    expect_apply, if_pos hlen, hval']
  rfl

/-- A valid value to code with Huffman is sent, even when its code has more than 65535 octets. -/
theorem encodeString_long {s : CStr} (hval : fld.val = some s) (hhuf : fld.valHuf = true)
    (hlen : s.bytes.length ≤ uint16Max) (hchr : s.bytes.all isValueChar = true)
    (hfield : s.bytes.all isFieldValue = true) (hbits : 8 * 65535 < hphBits s.bytes)
    (hm : hp.magic = .encoder) (ho : hp.Open) :
    ∃ hp', hpackEncodeString fld .value hp = .ok () hp' ∧ ¬ Delimited hp hp' := by
  obtain ⟨hp', hput, -⟩ := Emits.run
    ((emits_hpiEncode .huf (hphSize s.bytes)).bind (emits_hpePuts (hphEncode s.bytes))) hm ho
  have hrun : hpackEncodeString fld .value hp = putString true s.bytes hp := by
    rw [← hhuf]
    exact hpackEncodeString_value hval hlen hchr hfield
  refine ⟨hp', hrun.trans hput, ?_⟩
  rw [@putString_delimited hp hp' true s.bytes hm hput, if_pos rfl, hphSize_eq]
  omega

/-- The code has 65538 octets, and the length that is sent is 2. -/
theorem encodeString_delimited_false :
    ∃ hp, hpackEncodeString longField .value startedEncoder = .ok () hp ∧
      ¬ Delimited startedEncoder hp := by
  have hlen : longValue.bytes.length = 18725 := List.length_replicate
  have hbits : hphBits longValue.bytes = 18725 * 28 := by
    rw [show (28 : ℕ) = (hphEnc 0xf9).len by decide +kernel]
    exact hphBits_replicate _ _
  have hall : ∀ p : UInt8 → Bool, p 0xf9 = true → longValue.bytes.all p = true := by
    intro p hp
    rw [longValue, List.all_replicate, hp]
    simp
  refine encodeString_long (s := longValue) rfl rfl ?_ (hall _ (by decide)) (hall _ (by decide)) ?_
    rfl ⟨by decide, rfl⟩
  · rw [hlen, uint16Max]
    omega
  · rw [hbits]
    omega

end Cashpack
