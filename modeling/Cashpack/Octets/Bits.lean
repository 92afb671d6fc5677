import Cashpack.Octets.Basic
import Mathlib.Data.List.GetD

/-!
# Bits of numbers and of octets

Sequences of bits have the most significant bit first.  `Bits.Aligned n w v` says that the bits
`w` are aligned left in the number `v` of `n` bits, where the bits that follow them are null.
-/

namespace Bits

variable {n k v : ℕ} {w : List Bool}

/-- The `k` lowest bits of a number. -/
def ofNat : ℕ → ℕ → List Bool
  | 0, _ => []
  | k + 1, v => v.testBit k :: ofNat k v

/-- The bits of octets. -/
def ofOctets (x : Octets) : List Bool := x.flatMap fun b => ofNat 8 b.toNat

@[simp] theorem length_ofNat (k v : ℕ) : (ofNat k v).length = k := by
  induction k with
  | zero => rfl
  | succ k ih => simp [ofNat, ih]

theorem getD_ofNat (k v i : ℕ) (h : i < k) : (ofNat k v).getD i false = v.testBit (k - 1 - i) := by
  induction k generalizing i with
  | zero => omega
  | succ k ih =>
    cases i with
    | zero => rfl
    | succ i =>
      have := ih i (by omega)
      rw [ofNat, List.getD_cons_succ, this]
      congr 1
      omega

/-- Two sequences of the same length with the same bits. -/
theorem ext {w w' : List Bool} (hlen : w.length = w'.length)
    (h : ∀ i < w.length, w.getD i false = w'.getD i false) : w = w' := by
  refine List.ext_getElem hlen fun i hi hi' => ?_
  have := h i hi
  rwa [List.getD_eq_getElem _ _ hi, List.getD_eq_getElem _ _ hi'] at this

/-- Numbers of `n` bits with the same bits. -/
theorem eq_of_testBit {v v' : ℕ} (hv : v < 2 ^ n) (hv' : v' < 2 ^ n)
    (h : ∀ i < n, v.testBit i = v'.testBit i) : v = v' := by
  refine Nat.eq_of_testBit_eq fun i => ?_
  by_cases hi : i < n
  · exact h i hi
  · have hle : 2 ^ n ≤ 2 ^ i := Nat.pow_le_pow_right (by omega) (by omega)
    rw [Nat.testBit_lt_two_pow (lt_of_lt_of_le hv hle),
      Nat.testBit_lt_two_pow (lt_of_lt_of_le hv' hle)]

theorem ofNat_inj {v v' : ℕ} (hv : v < 2 ^ k) (hv' : v' < 2 ^ k) (h : ofNat k v = ofNat k v') :
    v = v' := by
  refine eq_of_testBit hv hv' fun i hi => ?_
  have hbit := congrArg (fun w => w.getD (k - 1 - i) false) h
  have hidx : k - 1 - (k - 1 - i) = i := by omega
  simpa only [getD_ofNat _ _ _ (show k - 1 - i < k by omega), hidx] using hbit

theorem ofNat_congr {v v' : ℕ} (h : ∀ i < k, v.testBit i = v'.testBit i) : ofNat k v = ofNat k v' := by
  induction k with
  | zero => rfl
  | succ k ih => rw [ofNat, ofNat, h k (by omega), ih fun i hi => h i (by omega)]

/-- The high bits, then the low ones. -/
theorem ofNat_add (j k v : ℕ) : ofNat (j + k) v = ofNat j (v >>> k) ++ ofNat k v := by
  induction j with
  | zero => simp [ofNat]
  | succ j ih =>
    rw [Nat.add_right_comm, ofNat, ih, ofNat, List.cons_append, Nat.testBit_shiftRight,
      Nat.add_comm k j]

theorem take_ofNat {l : ℕ} (h : l ≤ k) (v : ℕ) : (ofNat k v).take l = ofNat l (v >>> (k - l)) := by
  obtain ⟨d, rfl⟩ := Nat.exists_eq_add_of_le h
  rw [ofNat_add, List.take_left' (length_ofNat _ _), Nat.add_sub_cancel_left]

/-- Put low bits after high ones. -/
theorem ofNat_append (j : ℕ) (v : ℕ) {b : ℕ} (hb : b < 2 ^ k) :
    ofNat j v ++ ofNat k b = ofNat (j + k) (v <<< k + b) := by
  have hhigh : (v <<< k + b) >>> k = v := by
    rw [Nat.shiftRight_eq_div_pow, Nat.shiftLeft_eq, Nat.mul_comm, Nat.mul_add_div
      (Nat.two_pow_pos k), Nat.div_eq_of_lt hb, Nat.add_zero]
  have hlow : ofNat k (v <<< k + b) = ofNat k b := by
    refine ofNat_congr fun i hi => ?_
    rw [Nat.shiftLeft_eq, Nat.mul_comm, Nat.testBit_two_pow_mul_add v hb, if_pos hi]
  rw [ofNat_add, hhigh, hlow]

@[simp] theorem ofOctets_nil : ofOctets [] = [] := rfl

@[simp] theorem ofOctets_cons (b : UInt8) (x : Octets) :
    ofOctets (b :: x) = ofNat 8 b.toNat ++ ofOctets x := rfl

@[simp] theorem ofOctets_append (x y : Octets) : ofOctets (x ++ y) = ofOctets x ++ ofOctets y := by
  simp [ofOctets]

@[simp] theorem length_ofOctets (x : Octets) : (ofOctets x).length = 8 * x.length := by
  induction x with
  | nil => rfl
  | cons b x ih => simp [ih]; omega

/-! ### Bits aligned left -/

/-- The bits `w` are the first bits of the `n` bits of `v`, and the others are null. -/
structure Aligned (n : ℕ) (w : List Bool) (v : ℕ) : Prop where
  le : w.length ≤ n
  lt : v < 2 ^ n
  bit : ∀ i < n, v.testBit (n - 1 - i) = w.getD i false

theorem aligned_nil (n : ℕ) : Aligned n [] 0 := by
  refine ⟨Nat.zero_le _, Nat.two_pow_pos n, fun i _ => ?_⟩
  simp

theorem Aligned.testBit (h : Aligned n w v) {i : ℕ} (hi : i < n) :
    v.testBit i = w.getD (n - 1 - i) false := by
  rw [← h.bit (n - 1 - i) (by omega)]
  congr 1
  omega

/-- The bits determine the number. -/
theorem Aligned.unique {v' : ℕ} (h : Aligned n w v) (h' : Aligned n w v') : v = v' :=
  eq_of_testBit h.lt h'.lt fun i hi => by rw [h.testBit hi, h'.testBit hi]

/-- Put `k` more bits after those that are there. -/
theorem Aligned.append (h : Aligned n w v) {b : ℕ} (hb : b < 2 ^ k) (hk : w.length + k ≤ n) :
    Aligned n (w ++ ofNat k b) (v ||| b <<< (n - k - w.length)) := by
  refine ⟨by simp; omega, Nat.or_lt_two_pow h.lt ?_, fun i hi => ?_⟩
  · calc b <<< (n - k - w.length) = b * 2 ^ (n - k - w.length) := Nat.shiftLeft_eq _ _
      _ < 2 ^ k * 2 ^ (n - k - w.length) := Nat.mul_lt_mul_of_pos_right hb (Nat.two_pow_pos _)
      _ = 2 ^ (k + (n - k - w.length)) := (Nat.pow_add ..).symm
      _ ≤ 2 ^ n := Nat.pow_le_pow_right (by omega) (by omega)
  · rw [Nat.testBit_or, h.bit i hi, Nat.testBit_shiftLeft]
    by_cases hlow : i < w.length
    · have hhigh : b.testBit (n - 1 - i - (n - k - w.length)) = false := by
        refine Nat.testBit_lt_two_pow (lt_of_lt_of_le hb (Nat.pow_le_pow_right (by omega) ?_))
        omega
      rw [List.getD_append _ _ _ _ hlow, hhigh, Bool.and_false, Bool.or_false]
    · have hnone : w.getD i false = false := List.getD_eq_default _ _ (by omega)
      rw [List.getD_append_right _ _ _ _ (by omega), hnone, Bool.false_or]
      by_cases hin : i - w.length < k
      · have hidx : k - 1 - (i - w.length) = n - 1 - i - (n - k - w.length) := by omega
        rw [getD_ofNat _ _ _ hin, hidx]
        have hge : n - 1 - i ≥ n - k - w.length := by omega
        simp [hge]
      · have hlt : ¬ n - 1 - i ≥ n - k - w.length := by omega
        have hout : (ofNat k b).getD (i - w.length) false = false :=
          List.getD_eq_default _ _ (by simp; omega)
        rw [hout, decide_eq_false hlt, Bool.false_and]

/-- Shift out the first bits. -/
theorem Aligned.drop (h : Aligned n w v) (l : ℕ) :
    Aligned n (w.drop l) (v <<< l % 2 ^ n) := by
  have hle := h.le
  refine ⟨by simp; omega, Nat.mod_lt _ (Nat.two_pow_pos n), fun i hi => ?_⟩
  rw [Nat.testBit_mod_two_pow, Nat.testBit_shiftLeft, List.getD_eq_getElem?_getD,
    List.getElem?_drop, ← List.getD_eq_getElem?_getD]
  have hin : n - 1 - i < n := by omega
  by_cases hil : l + i < n
  · have hge : n - 1 - i ≥ l := by omega
    have hidx : n - 1 - i - l = n - 1 - (l + i) := by omega
    simp only [hin, hge, hidx, h.bit _ hil, decide_true, Bool.true_and]
  · have hlt : ¬ n - 1 - i ≥ l := by omega
    have hnone : w.getD (l + i) false = false := List.getD_eq_default _ _ (by omega)
    simp only [hlt, hnone, decide_false, Bool.false_and, Bool.and_false]

/-- The first `k` bits, as an index. -/
theorem Aligned.top (h : Aligned n w v) (hk : k ≤ 8) (hn : 8 ≤ n) :
    ofNat k (v >>> (n - k) &&& 0xff) = (w ++ List.replicate 8 false).take k := by
  refine ext (by simp; omega) fun i hi => ?_
  rw [length_ofNat] at hi
  have hff : (255 : ℕ).testBit (k - 1 - i) = true := by
    rw [show (255 : ℕ) = 2 ^ 8 - 1 from rfl, Nat.testBit_two_pow_sub_one, decide_eq_true_iff]
    omega
  have hidx : n - k + (k - 1 - i) = n - 1 - i := by omega
  rw [getD_ofNat _ _ _ hi, Nat.testBit_and, Nat.testBit_shiftRight, hff, Bool.and_true, hidx,
    h.bit i (by omega), List.getD_eq_getElem?_getD, List.getD_eq_getElem?_getD,
    List.getElem?_take_of_lt hi, List.getElem?_append]
  split
  · rfl
  · rw [List.getElem?_eq_none (by omega), List.getElem?_replicate]
    split <;> rfl

theorem Aligned.top_lt (h : Aligned n w v) (hk : k ≤ n) : v >>> (n - k) &&& 0xff < 2 ^ k := by
  refine lt_of_le_of_lt Nat.and_le_left ?_
  rw [Nat.shiftRight_eq_div_pow, Nat.div_lt_iff_lt_mul (Nat.two_pow_pos _), ← Nat.pow_add]
  have hsum : k + (n - k) = n := by omega
  rw [hsum]
  exact h.lt

theorem aligned_ones {k : ℕ} (hk : k ≤ n) :
    Aligned n (List.replicate k true) ((2 ^ n - 1) <<< (n - k) % 2 ^ n) := by
  refine ⟨by simpa using hk, Nat.mod_lt _ (Nat.two_pow_pos n), fun i hi => ?_⟩
  have hin : n - 1 - i < n := by omega
  rw [Nat.testBit_mod_two_pow, Nat.testBit_shiftLeft, Nat.testBit_two_pow_sub_one,
    List.getD_eq_getElem?_getD, List.getElem?_replicate]
  by_cases hik : i < k
  · have hge : n - 1 - i ≥ n - k := by omega
    have hlt : n - 1 - i - (n - k) < n := by omega
    simp [hin, hge, hlt, hik]
  · have hlt : ¬ n - 1 - i ≥ n - k := by omega
    simp [hlt, hik]

/-- The number of a sequence is the one of the ones of its length only if it is all ones. -/
theorem Aligned.ones_iff (h : Aligned n w v) :
    v = (2 ^ n - 1) <<< (n - w.length) % 2 ^ n ↔ w = List.replicate w.length true := by
  have hones := aligned_ones (n := n) h.le
  refine ⟨fun hv => ?_, fun hw => ?_⟩
  · refine ext (by simp) fun i hi => ?_
    have hin : i < n := lt_of_lt_of_le hi h.le
    rw [← h.bit i hin, ← hones.bit i hin, hv]
  · rw [← hw] at hones
    exact h.unique hones

end Bits
