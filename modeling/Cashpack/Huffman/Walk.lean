import Cashpack.Huffman.Code
import Cashpack.Huffman.Prefix
import Cashpack.Octets.Bits
import Mathlib.Data.List.Pairwise

/-!
# The code and the tables

The code table is a prefix code, of which EOS is not a part.  A decoding table is reached by the
octets of its path, and its entry for some bits ends a code, names the table that one more octet
leads to, or is the one of EOS.

## Main results

* `hphCode_prefixFree` : the codes of the characters make up a prefix code.
* `hphDec_entry` : what the entries of the decoding tables stand for.
-/

namespace Cashpack

open PrefixCode

/-! ### The code -/

/-- The code of a character. -/
def hphCode (c : UInt8) : List Bool := Bits.ofNat (hphEnc c).len (hphEnc c).cod

/-- The code of EOS. -/
def hphEos : List Bool := List.replicate 30 true

/-- The codes that start with the one of an entry are numbered below those that start with the
one of another entry. -/
def Before (e e' : ℕ × ℕ × ℕ) : Prop := (e.2.1 + 1) * 2 ^ (32 - e.2.2) ≤ e'.2.1 * 2 ^ (32 - e'.2.2)

instance (e e' : ℕ × ℕ × ℕ) : Decidable (Before e e') :=
  inferInstanceAs (Decidable ((e.2.1 + 1) * 2 ^ (32 - e.2.2) ≤ e'.2.1 * 2 ^ (32 - e'.2.2)))

instance : Trans Before Before Before where
  trans {a b c} h h' := by
    have hlt : b.2.1 * 2 ^ (32 - b.2.2) ≤ (b.2.1 + 1) * 2 ^ (32 - b.2.2) :=
      Nat.mul_le_mul_right _ (Nat.le_succ _)
    exact (h.trans hlt).trans h'

theorem huffmanTable_pairwise : huffmanTable.Pairwise Before :=
  List.isChain_iff_pairwise.1 (by decide +kernel)

theorem huffmanTable_code : ∀ e ∈ huffmanTable, 5 ≤ e.2.2 ∧ e.2.2 ≤ 30 ∧ e.2.1 + 1 < 2 ^ e.2.2 := by
  decide +kernel

theorem huffmanTable_total :
    ∀ n : Fin 256, (huffmanTable.find? fun e => e.1 = n.val).isSome = true := by
  decide +kernel

/-- The entry of a character in the code table. -/
theorem hphEnc_mem (c : UInt8) : (c.toNat, (hphEnc c).cod, (hphEnc c).len) ∈ huffmanTable := by
  have hlt := c.toNat_lt
  obtain ⟨e, he⟩ := Option.isSome_iff_exists.1 (huffmanTable_total ⟨c.toNat, hlt⟩)
  have henc : hphEnc c = ⟨e.2.1, e.2.2⟩ := by
    simp only [hphEnc, hphEncTable, List.getD_eq_getElem?_getD, List.getElem?_map,
      List.getElem?_range (show c.toNat < 256 from hlt), Option.map_some, Option.getD_some, he]
  have hchr : e.1 = c.toNat := by simpa using List.find?_some he
  rw [henc, ← hchr]
  exact List.mem_of_find?_eq_some he

theorem hphEnc_code (c : UInt8) :
    5 ≤ (hphEnc c).len ∧ (hphEnc c).len ≤ 30 ∧ (hphEnc c).cod + 1 < 2 ^ (hphEnc c).len :=
  huffmanTable_code _ (hphEnc_mem c)

theorem length_hphCode (c : UInt8) : (hphCode c).length = (hphEnc c).len := Bits.length_ofNat _ _

theorem le_length_hphCode (c : UInt8) : 5 ≤ (hphCode c).length :=
  (length_hphCode c).symm ▸ (hphEnc_code c).1

theorem length_hphCode_le (c : UInt8) : (hphCode c).length ≤ 30 :=
  (length_hphCode c).symm ▸ (hphEnc_code c).2.1

/-- A code that starts another one is a quotient of it. -/
theorem cod_of_prefix {k k' v v' : ℕ} (hv : v < 2 ^ k) (hv' : v' < 2 ^ k')
    (h : Bits.ofNat k v <+: Bits.ofNat k' v') : k ≤ k' ∧ v = v' / 2 ^ (k' - k) := by
  have hle : k ≤ k' := by simpa using h.length_le
  obtain ⟨d, rfl⟩ := Nat.exists_eq_add_of_le hle
  refine ⟨hle, ?_⟩
  rw [Bits.ofNat_add, List.prefix_iff_eq_take, Bits.length_ofNat, List.take_left' (by simp)] at h
  rw [Nat.add_sub_cancel_left, ← Nat.shiftRight_eq_div_pow]
  refine Bits.ofNat_inj hv ?_ h
  rwa [Nat.shiftRight_eq_div_pow, Nat.div_lt_iff_lt_mul (Nat.two_pow_pos _), ← Nat.pow_add]

/-- The numbers of the codes that start with a code. -/
theorem not_before_of_prefix {e e' : ℕ × ℕ × ℕ} (he : e ∈ huffmanTable) (he' : e' ∈ huffmanTable)
    (h : Bits.ofNat e.2.2 e.2.1 <+: Bits.ofNat e'.2.2 e'.2.1) : ¬ Before e e' ∧ ¬ Before e' e := by
  obtain ⟨-, hlen, hcod⟩ := huffmanTable_code e he
  obtain ⟨-, hlen', hcod'⟩ := huffmanTable_code e' he'
  obtain ⟨hle, hdiv⟩ := cod_of_prefix (by omega) (by omega) h
  obtain ⟨d, hd⟩ := Nat.exists_eq_add_of_le hle
  have hshift : 2 ^ (32 - e.2.2) = 2 ^ d * 2 ^ (32 - e'.2.2) := by
    rw [← Nat.pow_add]
    congr 1
    omega
  rw [hd, Nat.add_sub_cancel_left] at hdiv
  have hpos := Nat.two_pow_pos (32 - e'.2.2)
  have hlow : e.2.1 * 2 ^ d ≤ e'.2.1 := hdiv ▸ Nat.div_mul_le_self _ _
  have hhigh : e'.2.1 < (e.2.1 + 1) * 2 ^ d := by
    rw [hdiv]
    exact Nat.lt_mul_of_div_lt (Nat.lt_succ_self _) (Nat.two_pow_pos d)
  constructor
  · intro hb
    rw [Before, hshift, ← Nat.mul_assoc] at hb
    exact absurd (Nat.le_of_mul_le_mul_right hb hpos) (by omega)
  · intro hb
    rw [Before, hshift, ← Nat.mul_assoc] at hb
    exact absurd (Nat.le_of_mul_le_mul_right hb hpos) (by omega)

theorem hphCode_prefixFree : PrefixFree hphCode := by
  intro a b h
  obtain ⟨hab, hba⟩ := not_before_of_prefix (hphEnc_mem a) (hphEnc_mem b) h
  by_contra hne
  have hsym : huffmanTable.Pairwise fun e e' => e ≠ e' → Before e e' ∨ Before e' e :=
    huffmanTable_pairwise.imp fun h _ => Or.inl h
  have : Std.Symm fun e e' : ℕ × ℕ × ℕ => e ≠ e' → Before e e' ∨ Before e' e :=
    ⟨fun _ _ h hne => (h hne.symm).symm⟩
  have hall := List.Pairwise.forall_of_forall (fun e _ h => absurd rfl h) hsym (hphEnc_mem a)
    (hphEnc_mem b) fun heq => hne (UInt8.toNat_inj.1 (Prod.mk.inj heq).1)
  exact hall.elim hab hba

/-- No code is all ones. -/
theorem hphCode_ne_ones (c : UInt8) : hphCode c ≠ List.replicate (hphCode c).length true := by
  intro h
  obtain ⟨-, -, hcod⟩ := hphEnc_code c
  have hones : Bits.ofNat (hphEnc c).len (2 ^ (hphEnc c).len - 1) =
      List.replicate (hphEnc c).len true := by
    refine Bits.ext (by simp) fun i hi => ?_
    rw [Bits.length_ofNat] at hi
    rw [Bits.getD_ofNat _ _ _ hi, Nat.testBit_two_pow_sub_one, List.getD_eq_getElem?_getD,
      List.getElem?_replicate, if_pos hi, Option.getD_some, decide_eq_true_iff]
    omega
  rw [length_hphCode, ← hones] at h
  have := Bits.ofNat_inj (by omega) (by omega) h
  omega

/-- Nothing is read after the code of EOS. -/
theorem stuck_eos (s : List Bool) : Stuck hphCode (hphEos ++ s) := by
  have hones : ∀ c, ∀ k, hphCode c ≠ List.replicate k true := by
    intro c k h
    refine hphCode_ne_ones c ?_
    rw [h, List.length_replicate]
  refine Stuck.append (fun c h => ?_) (fun c h => ?_) s
  · obtain ⟨-, hc⟩ := List.prefix_replicate_iff.1 h
    exact hones c _ hc
  · have hle := h.length_le
    have := length_hphCode_le c
    have hlen : hphEos.length = (hphCode c).length := by
      rw [hphEos, List.length_replicate] at hle ⊢
      omega
    exact hones c 30 (h.eq_of_length hlen).symm

/-! ### The decoding tables -/

/-- The number made up by the octets that lead to a table. -/
def DecName.code (n : DecName) : ℕ :=
  n.2.foldl (fun v b => 2 * v + b.toNat) (2 ^ (8 * n.1 - n.2.length) - 1)

/-- The bits that lead to a table. -/
def DecName.path (n : DecName) : List Bool := Bits.ofNat (8 * n.1) (DecName.code n)

/-- The names of the tables. -/
def hphNames : List DecName := hphTables.map HphDec.name

/-- The number of bits without which `hph_decode_lookup` does not look at a table. -/
def HphDec.first (dec : HphDec) : ℕ := (dec.oct.headD ⟨0, 0, none⟩).len

/-- What the entry of a table at index `i` stands for. -/
def HphDec.Stands (dec : HphDec) (i : ℕ) (oct : HphOct) : Prop :=
  match oct.nxt with
  | some n => oct.len = 8 ∧ dec.len = 8 ∧ n.1 = dec.name.1 + 1 ∧
      DecName.code n = DecName.code dec.name <<< 8 + i ∧ n ∈ hphNames
  | none => if oct.len = 0 then
      8 * dec.name.1 + dec.len = 30 ∧ DecName.code dec.name <<< dec.len + i = 2 ^ 30 - 1
    else
      oct.len ≤ dec.len ∧
      hphEnc (UInt8.ofNat oct.chr) = ⟨DecName.code dec.name <<< oct.len + i >>> (dec.len - oct.len),
        8 * dec.name.1 + oct.len⟩

instance (dec : HphDec) (i : ℕ) (oct : HphOct) : Decidable (dec.Stands i oct) := by
  unfold HphDec.Stands
  cases oct.nxt with
  | some n => exact inferInstanceAs (Decidable (_ ∧ _))
  | none => exact inferInstanceAs (Decidable (ite _ _ _))

theorem hphTables_size : ∀ dec ∈ hphTables, dec.len ≤ 8 ∧ dec.oct.length = 2 ^ dec.len ∧
    0 < dec.first ∧ ∀ oct ∈ dec.oct, oct.len = 0 ∨ dec.first ≤ oct.len := by
  decide +kernel

theorem hphTables_stands : ∀ dec ∈ hphTables, ∀ p ∈ dec.oct.zipIdx, dec.Stands p.2 p.1 := by
  decide +kernel

theorem hphDec_mem {n : DecName} (h : n ∈ hphNames) : hphDec n ∈ hphTables ∧ (hphDec n).name = n := by
  obtain ⟨dec, hdec, rfl⟩ := List.mem_map.1 h
  have hsome : (hphTables.find? fun d => d.name = dec.name).isSome = true :=
    List.find?_isSome.2 ⟨dec, hdec, by simp⟩
  obtain ⟨dec', hfind⟩ := Option.isSome_iff_exists.1 hsome
  rw [hphDec, hfind, Option.getD_some]
  exact ⟨List.mem_of_find?_eq_some hfind, by simpa using List.find?_some hfind⟩

theorem hphDec0_mem : hphDec0 ∈ hphNames := by decide +kernel

/-- An entry found after the path of a table, for the bits `w` and the null bits that follow
them. -/
inductive Found (n : DecName) (w : List Bool) (oct : HphOct) : Prop
  /-- It ends the code of a character. -/
  | chr (last : oct.nxt = none) (pos : 0 < oct.len) (le : oct.len ≤ 8)
      (code : hphCode (UInt8.ofNat oct.chr) =
        DecName.path n ++ (w ++ List.replicate 8 false).take oct.len)
  /-- It names the table that follows. -/
  | sub {n' : DecName} (next : oct.nxt = some n') (len : oct.len = 8) (mem : n' ∈ hphNames)
      (deep : 0 < n'.1)
      (path : DecName.path n' = DecName.path n ++ (w ++ List.replicate 8 false).take 8)
  /-- It is the one of EOS. -/
  | eos (len : oct.len = 0) (path : DecName.path n ++ w.take (hphDec n).len = hphEos)

/-- What the entries of the decoding tables stand for. -/
theorem hphDec_entry {n : DecName} {w : List Bool} {bits : ℕ} (hn : n ∈ hphNames)
    (h : Bits.Aligned 16 w bits) :
    ∃ oct, (hphDec n).oct[bits >>> (16 - (hphDec n).len) &&& 0xff]? = some oct ∧
      Found n w oct ∧ (oct.len = 0 ∨ (hphDec n).first ≤ oct.len) := by
  obtain ⟨hmem, hname⟩ := hphDec_mem hn
  obtain ⟨hlen, hsize, -, hfirst⟩ := hphTables_size _ hmem
  have htop := h.top hlen (by omega)
  have hlt := h.top_lt (k := (hphDec n).len) (by omega)
  generalize hi : bits >>> (16 - (hphDec n).len) &&& 0xff = i at htop hlt
  have hin : i < (hphDec n).oct.length := hsize ▸ hlt
  refine ⟨_, List.getElem?_eq_getElem hin, ?_, hfirst _ (List.getElem_mem hin)⟩
  have hstands := hphTables_stands _ hmem ((hphDec n).oct[i], i)
    (List.mk_mem_zipIdx_iff_getElem?.2 (List.getElem?_eq_getElem hin))
  generalize (hphDec n).oct[i] = oct at hstands
  have htake : ∀ l ≤ (hphDec n).len, (w ++ List.replicate 8 false).take l =
      Bits.ofNat l (i >>> ((hphDec n).len - l)) := by
    intro l hl
    rw [← Bits.take_ofNat hl, htop, List.take_take, Nat.min_eq_left hl]
  have hshift : ∀ l ≤ (hphDec n).len, i >>> ((hphDec n).len - l) < 2 ^ l := by
    intro l hl
    have hsum : l + ((hphDec n).len - l) = (hphDec n).len := by omega
    rw [Nat.shiftRight_eq_div_pow, Nat.div_lt_iff_lt_mul (Nat.two_pow_pos _), ← Nat.pow_add, hsum]
    exact hlt
  unfold HphDec.Stands at hstands
  dsimp only at hstands
  split at hstands
  · obtain ⟨hlen8, hdec8, hdeep, hcode, hmem'⟩ := hstands
    refine .sub ‹_› hlen8 hmem' (by omega) ?_
    rw [htake 8 (by omega), hdec8, Nat.sub_self, Nat.shiftRight_zero]
    rw [hname] at hcode hdeep
    have hlt8 : i < 2 ^ 8 := hdec8 ▸ hlt
    rw [DecName.path, DecName.path, Bits.ofNat_append _ _ hlt8, hcode, hdeep, Nat.mul_succ]
  · split at hstands
    · obtain ⟨hdepth, hcode⟩ := hstands
      rw [hname] at hdepth hcode
      have hall := htake (hphDec n).len (Nat.le_refl _)
      rw [Nat.sub_self, Nat.shiftRight_zero] at hall
      have heos : DecName.path n ++ (w ++ List.replicate 8 false).take (hphDec n).len = hphEos := by
        rw [hall, DecName.path, Bits.ofNat_append _ _ hlt, hcode, hdepth]
        decide +kernel
      -- the null bits that are looked ahead are not those of EOS
      have hw : (hphDec n).len ≤ w.length := by
        by_contra hlt'
        have hbit := congrArg (fun s => s.getD (8 * n.1 + w.length) true) heos
        rw [DecName.path, List.getD_append_right _ _ _ _ (by simp), Bits.length_ofNat,
          Nat.add_sub_cancel_left, List.getD_eq_getElem?_getD, List.getElem?_take_of_lt (by omega),
          List.getElem?_append_right (Nat.le_refl _), Nat.sub_self, List.getElem?_replicate_of_lt
          (by omega), Option.getD_some, hphEos, List.getD_eq_getElem?_getD,
          List.getElem?_replicate_of_lt (by omega)] at hbit
        exact absurd hbit (by decide)
      rw [List.take_append_of_le_length hw] at heos
      exact .eos ‹_› heos
    · obtain ⟨hle, henc⟩ := hstands
      refine .chr ‹_› (by omega) (by omega) ?_
      rw [hphCode, henc, htake _ hle, DecName.path, Bits.ofNat_append _ _ (hshift _ hle), hname]

end Cashpack
