import Cashpack.Huffman.Walk

/-!
# Coding strings

`HPH_encode` shifts the codes of a string into a 64-bit accumulator and writes octets out of it;
its invariant is that the lowest `sz` bits of the accumulator are left to write.

## Main results

* `hphEncode_bits` : the octets written are the codes of the string, then at most seven ones.
* `length_hphEncode` : `HPH_size` is the number of these octets.
-/

namespace Cashpack

open Bits

/-- The code of a string. -/
def hphCodes (str : Octets) : List Bool := str.flatMap hphCode

@[simp] theorem hphCodes_nil : hphCodes [] = [] := rfl

@[simp] theorem hphCodes_cons (c : UInt8) (str : Octets) :
    hphCodes (c :: str) = hphCode c ++ hphCodes str := rfl

/-- The number of bits of the code of a string. -/
def hphBits (str : Octets) : ℕ := (str.map fun c => (hphEnc c).len).sum

theorem length_hphCodes (str : Octets) : (hphCodes str).length = hphBits str := by
  induction str with
  | nil => rfl
  | cons c str ih => simp [ih, length_hphCode, hphBits]

/-- The octets that are complete are written, and less than eight bits are left. -/
theorem hphEncodeOctets_bits (bits : ℕ) {fuel sz : ℕ} (h : sz < 8 * (fuel + 1)) :
    ofOctets (hphEncodeOctets bits fuel sz).1 ++ ofNat (hphEncodeOctets bits fuel sz).2 bits
        = ofNat sz bits ∧ (hphEncodeOctets bits fuel sz).2 < 8 := by
  induction fuel generalizing sz with
  | zero => exact ⟨rfl, by simpa [hphEncodeOctets] using h⟩
  | succ fuel ih =>
    rw [hphEncodeOctets]
    split
    · rename_i hle
      obtain ⟨d, rfl⟩ := Nat.exists_eq_add_of_le hle
      have hsub : 8 + d - 8 = d := by omega
      obtain ⟨hbits, hlt⟩ := @ih d (by omega)
      refine ⟨?_, by simpa only [hsub] using hlt⟩
      have hoct : ofNat 8 (UInt8.ofNat (bits >>> d % 256)).toNat = ofNat 8 (bits >>> d) := by
        refine ofNat_congr fun i hi => ?_
        rw [UInt8.toNat_ofNat', Nat.mod_mod, show (256 : ℕ) = 2 ^ 8 from rfl,
          Nat.testBit_mod_two_pow, decide_eq_true hi, Bool.true_and]
      simp only [hsub, ofOctets_cons, List.append_assoc, hbits, hoct, ofNat_add]
    · exact ⟨rfl, by simp only; omega⟩

/-- A code is shifted into the accumulator. -/
theorem accumulate_bits (bits : ℕ) {sz : ℕ} (hsz : sz < 8) (c : UInt8) :
    ofNat (sz + (hphEnc c).len) (bits <<< (hphEnc c).len % 2 ^ 64 ||| (hphEnc c).cod)
      = ofNat sz bits ++ hphCode c := by
  have hle : (hphEnc c).len ≤ 30 := length_hphCode c ▸ length_hphCode_le c
  have hcod : (hphEnc c).cod < 2 ^ (hphEnc c).len := Nat.lt_of_succ_lt (hphEnc_code c).2.2
  rw [ofNat_add, hphCode]
  congr 1
  · refine ofNat_congr fun i hi => ?_
    have hhigh : (hphEnc c).cod.testBit ((hphEnc c).len + i) = false := by
      refine Nat.testBit_lt_two_pow (lt_of_lt_of_le hcod (Nat.pow_le_pow_right (by decide) ?_))
      omega
    have h64 : (hphEnc c).len + i < 64 := by omega
    rw [Nat.testBit_shiftRight, Nat.testBit_or, hhigh, Bool.or_false, Nat.testBit_mod_two_pow,
      Nat.testBit_shiftLeft, decide_eq_true h64, Nat.add_sub_cancel_left]
    simp
  · refine ofNat_congr fun i hi => ?_
    have hlow : ¬ i ≥ (hphEnc c).len := by omega
    rw [Nat.testBit_or, Nat.testBit_mod_two_pow, Nat.testBit_shiftLeft, decide_eq_false hlow]
    simp

theorem ofNat_ones (k : ℕ) : ofNat k (1 <<< k - 1) = List.replicate k true := by
  refine ext (by simp) fun i hi => ?_
  rw [length_ofNat] at hi
  rw [getD_ofNat _ _ _ hi, Nat.one_shiftLeft, Nat.testBit_two_pow_sub_one,
    List.getD_eq_getElem _ _ (by simpa using hi), List.getElem_replicate, decide_eq_true]
  omega

/-- The last octet is filled with ones. -/
theorem pad_bits (bits : ℕ) {sz : ℕ} (hsz : sz < 8) :
    ofNat 8 (UInt8.ofNat ((bits <<< (8 - sz) ||| 1 <<< (8 - sz) - 1) % 256)).toNat
      = ofNat sz bits ++ List.replicate (8 - sz) true := by
  have hmod : ∀ v : ℕ, ofNat 8 (UInt8.ofNat (v % 256)).toNat = ofNat 8 v := by
    intro v
    refine ofNat_congr fun i hi => ?_
    rw [UInt8.toNat_ofNat', Nat.mod_mod, show (256 : ℕ) = 2 ^ 8 from rfl,
      Nat.testBit_mod_two_pow, decide_eq_true hi, Bool.true_and]
  obtain ⟨pad, hpad⟩ : ∃ pad, sz + pad = 8 := ⟨8 - sz, by omega⟩
  have hsub : 8 - sz = pad := by omega
  have hones : 1 <<< pad - 1 < 2 ^ pad := by
    rw [Nat.one_shiftLeft]
    exact Nat.sub_lt (Nat.two_pow_pos pad) Nat.one_pos
  have hor : bits <<< pad ||| 1 <<< pad - 1 = bits <<< pad + (1 <<< pad - 1) := by
    rw [Nat.shiftLeft_eq, Nat.mul_comm, Nat.two_pow_add_eq_or_of_lt hones]
  rw [hsub, hmod, hor, ← hpad, ← ofNat_append _ _ hones, ofNat_ones]

/-- What is left in the accumulator is written, then the codes of the string. -/
theorem hphEncodeLoop_bits (str : Octets) {bits sz : ℕ} (hsz : sz < 8) :
    ∃ p < 8, ofOctets (hphEncodeLoop str bits sz)
      = ofNat sz bits ++ (hphCodes str ++ List.replicate p true) := by
  induction str generalizing bits sz with
  | nil =>
    rw [hphEncodeLoop]
    split
    · refine ⟨8 - sz, by omega, ?_⟩
      rw [ofOctets_cons, pad_bits bits hsz]
      simp
    · obtain rfl : sz = 0 := by omega
      exact ⟨0, by omega, rfl⟩
  | cons c str ih =>
    have hle : (hphEnc c).len ≤ 30 := length_hphCode c ▸ length_hphCode_le c
    obtain ⟨hbits, hlt⟩ := @hphEncodeOctets_bits
      (bits <<< (hphEnc c).len % 2 ^ 64 ||| (hphEnc c).cod) 8 (sz + (hphEnc c).len) (by omega)
    obtain ⟨p, hp, hrest⟩ := ih hlt
    refine ⟨p, hp, ?_⟩
    rw [hphEncodeLoop]
    dsimp only
    rw [ofOctets_append, hrest, ← List.append_assoc, hbits, accumulate_bits bits hsz c,
      hphCodes_cons, List.append_assoc, List.append_assoc]

/-- **`HPH_encode` writes the codes of the string and fills the last octet with ones.** -/
theorem hphEncode_bits (str : Octets) :
    ∃ p < 8, ofOctets (hphEncode str) = hphCodes str ++ List.replicate p true := by
  obtain ⟨p, hp, h⟩ := @hphEncodeLoop_bits str 0 0 (by omega)
  exact ⟨p, hp, h⟩

theorem hphSize_eq (str : Octets) : hphSize str = (hphBits str + 7) / 8 := by
  have hfold : ∀ (str : Octets) (n : ℕ),
      str.foldl (fun sz c => sz + (hphEnc c).len) n = n + hphBits str := by
    intro str
    induction str with
    | nil => exact fun n => rfl
    | cons c str ih =>
      intro n
      rw [List.foldl_cons, ih, hphBits, hphBits, List.map_cons, List.sum_cons, Nat.add_assoc]
  rw [hphSize, hfold, Nat.shiftRight_eq_div_pow, Nat.add_comm]

/-- **`HPH_size` is the number of octets that `HPH_encode` writes.** -/
theorem length_hphEncode (str : Octets) : (hphEncode str).length = hphSize str := by
  obtain ⟨p, hp, h⟩ := hphEncode_bits str
  have hlen := congrArg List.length h
  rw [length_ofOctets, List.length_append, length_hphCodes, List.length_replicate] at hlen
  rw [hphSize_eq]
  omega

end Cashpack
