import Cashpack.Decoder.Exact
import Cashpack.Decoder.Room
import Cashpack.Huffman.Encode

/-!
# Decoding Huffman strings

`HPH_decode` reads octets into its window and looks codes up in the tables until the window does
not hold the next one.  Its invariant is that the bits read so far are the codes of the characters
written, then the path of the current table and the bits of the window, which no code starts.

## Main results

* `hphDecode_exact` : `HPH_decode` accepts the codes of characters, filled with at most seven ones,
  and nothing else, however the string is cut into parts.
* `hphDecode_hphEncode` : what `HPH_encode` writes is decoded.
-/

namespace Cashpack

open Prog PrefixCode

variable {hp : Hpack} {n n' : DecName} {w : List Bool} {st : StrState} {cs x y rest : Octets}

/-! ### Codes and tables -/

theorem path_lt_code : ∀ n ∈ hphNames, ∃ e ∈ huffmanTable,
    DecName.path n <+: Bits.ofNat e.2.2 e.2.1 ∧ 8 * n.1 < e.2.2 := by
  decide +kernel

theorem length_path (n : DecName) : (DecName.path n).length = 8 * n.1 := Bits.length_ofNat _ _

theorem hphTables_first : ∀ dec ∈ hphTables, dec.first ≤ 8 := by
  decide +kernel

/-- Every entry of the code table is the one of a character. -/
theorem huffmanTable_chr : ∀ e ∈ huffmanTable,
    hphEnc (UInt8.ofNat e.1) = ⟨e.2.1, e.2.2⟩ := by
  decide +kernel

/-- The path of a table starts a code. -/
theorem path_prefix (h : n ∈ hphNames) :
    ∃ c, DecName.path n <+: hphCode c ∧ (DecName.path n).length < (hphCode c).length := by
  obtain ⟨e, he, hpre, hlt⟩ := path_lt_code n h
  refine ⟨UInt8.ofNat e.1, ?_, ?_⟩
  · rw [hphCode, huffmanTable_chr e he]
    exact hpre
  · rw [length_path, length_hphCode, huffmanTable_chr e he]
    exact hlt

/-- No code starts the bits for which the window is too short. -/
theorem Found.stuck {oct : HphOct} (h : Found n w oct) (hlt : w.length < oct.len ∨ oct.len = 0) :
    Stuck hphCode (DecName.path n ++ w) := by
  have hpre : ∀ l, w.length ≤ l → DecName.path n ++ w <+:
      DecName.path n ++ (w ++ List.replicate 8 false).take l := by
    intro l hl
    rw [List.prefix_append_right_inj, List.take_append, List.take_of_length_le hl]
    exact List.prefix_append _ _
  cases h with
  | chr last pos le code =>
    have hlen := hlt.resolve_right (by omega)
    refine stuck_of_prefix hphCode_prefixFree (a := UInt8.ofNat oct.chr)
      (code ▸ hpre oct.len (by omega)) ?_
    rw [code, List.length_append, List.length_append, List.length_take, List.length_append,
      List.length_replicate]
    omega
  | sub next len mem deep path =>
    obtain ⟨c, hc, hclt⟩ := path_prefix mem
    have hle := path ▸ hpre 8 (by omega)
    refine stuck_of_prefix hphCode_prefixFree (hle.trans hc) ?_
    exact lt_of_le_of_lt hle.length_le hclt
  | eos len path =>
    rw [← List.take_append_drop (hphDec n).len w, ← List.append_assoc, path]
    exact stuck_eos _

/-! ### Lookups -/

/-- The table and the window of a string being decoded. -/
structure StrState.Walks (st : StrState) (n : DecName) (w : List Bool) : Prop where
  dec : st.dec = some n
  mem : n ∈ hphNames
  bits : Bits.Aligned 16 w st.bits
  blen : w.length = st.blen

/-- The codec once these characters were written, with a state of the string. -/
def Hpack.spell (hp : Hpack) (st : StrState) (cs : Octets) : Hpack :=
  { hp.write cs with state.str := st }

theorem Hpack.spell_spell (hp : Hpack) (st st' : StrState) (cs ds : Octets) :
    (hp.spell st cs).spell st' ds = hp.spell st' (cs ++ ds) := by
  simp only [Hpack.spell, Hpack.write, List.append_assoc, List.length_append, Nat.sub_sub]

/-- The outcome of the loop of `hph_decode_lookup` in a window of the bits `w` after table `n`. -/
inductive Looked (hp : Hpack) (n : DecName) (w : List Bool) (eos : Bool) : Out Hpack Bool → Prop
  /-- The window does not hold the next code. -/
  | short {st : StrState} {cs : Octets} {n' : DecName} {w' : List Bool} {e : Bool}
    (walks : st.Walks n' w') (len : st.len = hp.state.str.len) (left : w'.length < 8)
    (bits : DecName.path n ++ w = hphCodes cs ++ (DecName.path n' ++ w'))
    (stuck : Stuck hphCode (DecName.path n' ++ w'))
    (flag : (e = eos ∧ w.length < 8 ∧ n' = n) ∨ e = decide (0 < n'.1)) :
    Looked hp n w eos (.ok e (hp.spell st cs))
  /-- The code of EOS was met. -/
  | eos {hp' : Hpack} {cs : Octets} {r : List Bool} (res : hp'.ctx.res = .huf)
    (bits : DecName.path n ++ w = hphCodes cs ++ (hphEos ++ r)) : Looked hp n w eos (.err hp')

@[simp] theorem Hpack.spell_nil (hp : Hpack) : hp.spell hp.state.str [] = hp := by
  simp only [Hpack.spell, Hpack.write_nil]

theorem Hpack.Room.spell {m : ℕ} (h : hp.Room (cs.length + m)) (st : StrState) :
    (hp.spell st cs).Room m := h.write.congr rfl rfl rfl rfl

/-- The state of the string once the entry `oct` was followed. -/
def StrState.follow (st : StrState) (oct : HphOct) : StrState where
  dec := some (oct.nxt.getD hphDec0)
  len := st.len
  bits := st.bits <<< oct.len % 65536
  blen := st.blen - oct.len

/-- The characters written when the entry is followed. -/
def HphOct.chrs (oct : HphOct) : Octets :=
  match oct.nxt with
  | none => [UInt8.ofNat oct.chr]
  | some _ => []

/-- A turn of the loop of `hph_decode_lookup`. -/
theorem hphDecodeLookupLoop_turn (hst : hp.state.str.Walks n w) (fuel : ℕ) (eos : Bool)
    (hroom : hp.Room 1) :
    ∃ oct, Found n w oct ∧ (oct.len = 0 ∨ (hphDec n).first ≤ oct.len) ∧
      hphDecodeLookupLoop (fuel + 1) eos hp =
        if (hphDec n).first ≤ w.length then
          if oct.len = 0 then .err { hp with ctx.res := .huf }
          else if w.length < oct.len then .ok eos hp
          else hphDecodeLookupLoop fuel oct.nxt.isSome (hp.spell (hp.state.str.follow oct) oct.chrs)
        else .ok eos hp := by
  obtain ⟨oct, hget, hfound, hfirst⟩ := hphDec_entry hst.mem hst.bits
  refine ⟨oct, hfound, hfirst, ?_⟩
  have hblen := hst.blen
  have hdec := hst.dec
  rw [hphDecodeLookupLoop, bind_apply, get_apply, Out.bind_ok]
  dsimp only
  rw [hdec]
  dsimp only
  rw [ite_run, ← hblen]
  change (if (hphDec n).first ≤ w.length then _ else _) = _
  by_cases hle : (hphDec n).first ≤ w.length
  swap
  · rw [if_neg hle, if_neg hle, pure_apply]
  rw [if_pos hle, if_pos hle, hget]
  dsimp only
  rw [bind_apply, expect_apply]
  by_cases h0 : oct.len = 0
  · rw [if_neg (by omega), if_pos h0, Out.bind_err]
  rw [if_pos (by omega), if_neg h0, Out.bind_ok, ite_run]
  by_cases hlt : w.length < oct.len
  · rw [if_pos hlt, if_pos hlt, pure_apply]
  rw [if_neg hlt, if_neg hlt, bind_apply, modify_apply, Out.bind_ok, bind_apply, hphDecodeChr]
  cases hnxt : oct.nxt with
  | some n' =>
    dsimp only
    rw [pure_apply, Out.bind_ok, bind_apply, modify_apply, Out.bind_ok]
    simp only [StrState.follow, HphOct.chrs, Hpack.spell, Hpack.write_nil, hnxt, hblen]
    rfl
  | none =>
    dsimp only
    have hroom' : Hpack.Room 1 { hp with state.str.dec := none } := hroom.congr rfl rfl rfl rfl
    rw [bind_apply, hpdPutc_eq _ hroom', Out.bind_ok, bind_apply, modify_apply, Out.bind_ok,
      pure_apply, Out.bind_ok, bind_apply, modify_apply, Out.bind_ok]
    simp only [StrState.follow, HphOct.chrs, Hpack.spell, hnxt, hblen]
    rfl

/-- The entry followed is in the window, and what is left of the bits comes after its code. -/
theorem Found.follow {oct : HphOct} (h : Found n w oct) (hst : st.Walks n w) (hpos : oct.len ≠ 0)
    (hle : oct.len ≤ w.length) :
    ∃ n', (st.follow oct).Walks n' (w.drop oct.len) ∧ oct.nxt.isSome = decide (0 < n'.1) ∧
      DecName.path n ++ w = hphCodes oct.chrs ++ (DecName.path n' ++ w.drop oct.len) := by
  have hblen : (w.drop oct.len).length = st.blen - oct.len := by
    rw [List.length_drop, hst.blen]
  have htake : (w ++ List.replicate 8 false).take oct.len = w.take oct.len :=
    List.take_append_of_le_length hle
  have hbits : Bits.Aligned 16 (w.drop oct.len) (st.bits <<< oct.len % 65536) := hst.bits.drop _
  cases h with
  | chr last pos le code =>
    refine ⟨hphDec0, ⟨?_, hphDec0_mem, hbits, hblen⟩, ?_, ?_⟩
    · rw [StrState.follow, last, Option.getD_none]
    · rw [last]
      rfl
    · rw [HphOct.chrs, last]
      dsimp only
      rw [hphCodes_cons, hphCodes_nil, List.append_nil, code, htake]
      rw [List.append_assoc]
      show _ = DecName.path n ++ (w.take oct.len ++ w.drop oct.len)
      rw [List.take_append_drop]
  | @sub n' next len mem deep path =>
    refine ⟨n', ⟨?_, mem, hbits, hblen⟩, ?_, ?_⟩
    · rw [StrState.follow, next, Option.getD_some]
    · rw [next, Option.isSome_some, eq_comm, decide_eq_true_iff]
      exact deep
    · rw [HphOct.chrs, next]
      dsimp only
      rw [len] at htake ⊢
      rw [hphCodes_nil, List.nil_append, path, htake, List.append_assoc, List.take_append_drop]
  | eos len _ => exact absurd len hpos

/-- EOS is found after its code. -/
theorem Found.eos_of_len {oct : HphOct} (h : Found n w oct) (h0 : oct.len = 0) :
    ∃ r, DecName.path n ++ w = hphEos ++ r := by
  cases h with
  | chr _ pos _ _ => omega
  | sub _ len _ _ _ => omega
  | eos _ path =>
    refine ⟨w.drop (hphDec n).len, ?_⟩
    rw [← path, List.append_assoc, List.take_append_drop]

theorem Found.len_le {oct : HphOct} (h : Found n w oct) : oct.len ≤ 8 := by
  cases h with
  | chr _ _ le _ => exact le
  | sub _ len _ _ _ => omega
  | eos len _ => omega

theorem le_length_hphCodes (cs : Octets) : 5 * cs.length ≤ (hphCodes cs).length := by
  induction cs with
  | nil => exact Nat.zero_le _
  | cons c cs ih =>
    have := le_length_hphCode c
    rw [hphCodes_cons, List.length_append, List.length_cons]
    omega

theorem hphCodes_append (cs ds : Octets) : hphCodes (cs ++ ds) = hphCodes cs ++ hphCodes ds := by
  rw [hphCodes, hphCodes, hphCodes, List.flatMap_append]

/-- Room for the characters that bits start with, and for one more octet. -/
def Hpack.RoomFor (t : List Bool) (hp : Hpack) : Prop :=
  ∀ ds, hphCodes ds <+: t → hp.Room (ds.length + 1)

namespace Hpack.RoomFor

variable {t t' : List Bool}

theorem room (h : hp.RoomFor t) : hp.Room 1 := h [] List.nil_prefix

theorem mono (h : hp.RoomFor t) (hle : t' <+: t) : hp.RoomFor t' :=
  fun ds hds => h ds (hds.trans hle)

theorem congr (h : hp.RoomFor t) {hp' : Hpack} (harg : hp'.ctx.arg = hp.ctx.arg)
    (horg : hp'.ctx.org = hp.ctx.org) (hout : hp'.ctx.out = hp.ctx.out)
    (hlen : hp'.ctx.bufLen = hp.ctx.bufLen) : hp'.RoomFor t :=
  fun ds hds => (h ds hds).congr harg horg hout hlen

theorem spell (h : hp.RoomFor t) (ht : t = hphCodes cs ++ t') (st : StrState) :
    (hp.spell st cs).RoomFor t' := by
  intro ds hds
  refine Room.spell (m := ds.length + 1) ?_ st
  rw [← Nat.add_assoc, ← List.length_append]
  refine h (cs ++ ds) ?_
  rw [ht, hphCodes_append]
  exact (List.prefix_append_right_inj _).2 hds

/-- Each code has five bits or more. -/
theorem of_length (h : hp.Room (t.length / 5 + 1)) : hp.RoomFor t := by
  intro ds hds
  have hle := le_length_hphCodes ds
  have := hds.length_le
  exact h.mono (by omega)

end Hpack.RoomFor

/-- The loop goes on after an entry. -/
theorem Looked.trans {w' : List Bool} {eos eos' : Bool} {o : Out Hpack Bool}
    (h : Looked (hp.spell st cs) n' w' eos' o)
    (hbits : DecName.path n ++ w = hphCodes cs ++ (DecName.path n' ++ w'))
    (hlen : st.len = hp.state.str.len) (heos : eos' = decide (0 < n'.1)) :
    Looked hp n w eos o := by
  cases h with
  | short walks len left bits stuck flag =>
    rw [Hpack.spell_spell]
    refine .short walks (len.trans hlen) left ?_ stuck (Or.inr ?_)
    · rw [hbits, bits, hphCodes_append, List.append_assoc]
    · rcases flag with ⟨rfl, -, rfl⟩ | h
      · exact heos
      · exact h
  | eos res bits =>
    exact .eos res (by rw [hbits, bits, hphCodes_append, List.append_assoc])

/-- **The loop of `hph_decode_lookup`** stops where the window does not hold the next code, or at
the code of EOS. -/
theorem hphDecodeLookupLoop_looked (hp : Hpack) (fuel : ℕ) (hst : hp.state.str.Walks n w)
    (eos : Bool)
    (hfuel : w.length < fuel) (hle : w.length < 16)
    (hroom : hp.RoomFor (DecName.path n ++ w)) :
    Looked hp n w eos (hphDecodeLookupLoop fuel eos hp) := by
  induction fuel generalizing hp n w eos with
  | zero => omega
  | succ fuel ih =>
    obtain ⟨oct, hfound, hfirst, hrun⟩ :=
      hphDecodeLookupLoop_turn hst fuel eos hroom.room
    rw [hrun]
    -- the window is too short, for the entry or even for the table
    have hshort : w.length < 8 → (w.length < oct.len ∨ oct.len = 0) →
        Looked hp n w eos (.ok eos hp) := by
      intro h8 hlt
      have hsame : Looked hp n w eos (.ok eos (hp.spell hp.state.str [])) :=
        .short hst rfl h8 rfl (hfound.stuck hlt) (Or.inl ⟨rfl, h8, rfl⟩)
      rwa [Hpack.spell_nil] at hsame
    have hlen8 := hfound.len_le
    have hfirst8 := hphTables_first _ (hphDec_mem hst.mem).1
    by_cases hin : (hphDec n).first ≤ w.length
    swap
    · rw [if_neg hin]
      exact hshort (by omega) (by omega)
    rw [if_pos hin]
    by_cases h0 : oct.len = 0
    · rw [if_pos h0]
      obtain ⟨r, hr⟩ := hfound.eos_of_len h0
      exact @Looked.eos hp n w eos _ [] r rfl hr
    rw [if_neg h0]
    by_cases hlt : w.length < oct.len
    · rw [if_pos hlt]
      exact hshort (by omega) (Or.inl hlt)
    rw [if_neg hlt]
    obtain ⟨n', hst', hflag, hbits⟩ := hfound.follow hst h0 (Nat.le_of_not_lt hlt)
    refine (ih (hp.spell (hp.state.str.follow oct) oct.chrs) hst' oct.nxt.isSome
      ?_ ?_ (hroom.spell hbits _)).trans hbits rfl hflag
    · rw [List.length_drop]
      omega
    · rw [List.length_drop]
      omega

/-! ### Octets -/

/-- The bits `s` of a string were read, as these characters. -/
structure StrState.Reads (st : StrState) (s : List Bool) (cs : Octets) (n : DecName)
    (w : List Bool) : Prop where
  walks : st.Walks n w
  left : w.length < 8
  reads : PrefixCode.Reads hphCode s cs (DecName.path n ++ w)

/-- The outcome of the loop of `HPH_decode` on the octets `y`, that `rest` follows: `next` is what
it does then. -/
inductive Spelt (hp : Hpack) (s : List Bool) (cs : Octets) (n : DecName) (w : List Bool)
    (y rest : Octets) (eos : Bool) (next : Bool → Cp Bool) : Out Hpack Bool → Prop
  | reads {st : StrState} {ds : Octets} {n' : DecName} {w' : List Bool} {e : Bool}
    (reads : st.Reads (s ++ Bits.ofOctets y) (cs ++ ds) n' w')
    (len : st.len + y.length = hp.state.str.len)
    (flag : (e = eos ∧ y = [] ∧ n' = n) ∨ e = decide (0 < n'.1)) :
    Spelt hp s cs n w y rest eos next (next e ((hp.spell st ds).load rest))
  | eos {hp' : Hpack} {ds : Octets} {r : List Bool} (res : hp'.ctx.res = .huf)
    (bits : s ++ Bits.ofOctets y = hphCodes ds ++ (hphEos ++ r)) :
    Spelt hp s cs n w y rest eos next (.err hp')

/-- The codec once an octet entered the window. -/
def Hpack.feed (hp : Hpack) (b : UInt8) (k : ℕ) (blk : Octets) : Hpack :=
  { hp with
    state.str.bits := hp.state.str.bits ||| b.toNat <<< (8 - hp.state.str.blen)
    state.str.blen := hp.state.str.blen + 8
    state.str.len := k
    ctx.blk := blk }

theorem StrState.Walks.feed (h : hp.state.str.Walks n w) (h8 : w.length < 8) (b : UInt8) (k : ℕ)
    (blk : Octets) : (hp.feed b k blk).state.str.Walks n (w ++ Bits.ofNat 8 b.toNat) where
  dec := h.dec
  mem := h.mem
  bits := by
    have := h.bits.append (k := 8) b.toNat_lt (by omega)
    rwa [h.blen] at this
  blen := by
    rw [List.length_append, Bits.length_ofNat, h.blen]
    rfl

/-- A turn of the loop of `HPH_decode`. -/
theorem hphDecodeLoop_turn {b : UInt8} {blk : Octets} (hst : hp.state.str.Walks n w)
    (h8 : w.length < 8) (hblk : hp.ctx.blk = b :: blk) (k j : ℕ) (eos : Bool) :
    hphDecodeLoop (k + 1) (j + 1) eos hp =
      (hphDecodeLookupLoop 17 eos >>= fun e => hphDecodeLoop k j e) (hp.feed b k blk) := by
  have hlt : hp.state.str.blen < 8 := hst.blen ▸ h8
  have hle : 8 ≤ (hp.feed b k blk).state.str.blen := Nat.le_add_left ..
  rw [hphDecodeLoop, bind_apply, expect_apply, if_pos (Nat.succ_pos j), Out.bind_ok, bind_apply,
    get_apply, Out.bind_ok, assert_bind_pos hlt, hblk]
  dsimp only
  rw [bind_apply, modify_apply, Out.bind_ok]
  change (hphDecodeLookup eos >>= _) (hp.feed b k blk) = _
  rw [bind_apply, hphDecodeLookup, bind_apply, get_apply, Out.bind_ok, assert_bind_pos hle]
  rfl

/-- The bits read between two states. -/
theorem StrState.Reads.since {s v w' : List Bool} {st' : StrState} {ds : Octets}
    (h : st.Reads s cs n w) (h' : st'.Reads (s ++ v) (cs ++ ds) n' w') :
    DecName.path n ++ (w ++ v) = hphCodes ds ++ (DecName.path n' ++ w') := by
  have heq := h'.reads.eq
  rw [h.reads.eq, ← hphCodes, ← hphCodes, hphCodes_append] at heq
  simp only [List.append_assoc] at heq
  exact List.append_cancel_left heq

/-- What comes after the code of EOS is not looked at. -/
theorem StrState.Reads.append_eos {s r : List Bool} {ds : Octets} (h : st.Reads s cs n w)
    {v : List Bool} (hv : DecName.path n ++ (w ++ v) = hphCodes ds ++ (hphEos ++ r))
    (u : List Bool) : s ++ (v ++ u) = hphCodes (cs ++ ds) ++ (hphEos ++ (r ++ u)) := by
  calc s ++ (v ++ u) = hphCodes cs ++ ((DecName.path n ++ (w ++ v)) ++ u) := by
        rw [h.reads.eq, hphCodes]
        simp only [List.append_assoc]
    _ = _ := by
        rw [hv, hphCodes_append]
        simp only [List.append_assoc]

/-- **The loop of `HPH_decode`** on octets of the string. -/
theorem hphDecodeLoop_spelt (hp : Hpack) {s : List Bool} {k : ℕ}
    (hst : hp.state.str.Reads s cs n w)
    (hlen : hp.state.str.len = y.length + k) (hblk : hp.ctx.blk = y ++ rest)
    (hroom : hp.RoomFor (DecName.path n ++ (w ++ Bits.ofOctets y))) (j : ℕ)
    (eos : Bool) :
    Spelt hp s cs n w y rest eos (hphDecodeLoop k j)
      (hphDecodeLoop (y.length + k) (y.length + j) eos hp) := by
  induction y generalizing hp s cs n w eos with
  | nil =>
    have hsame : (hp.spell hp.state.str []).load rest = hp := by
      rw [Hpack.spell_nil, Hpack.load, ← show hp.ctx.blk = rest from hblk]
    have hread : hp.state.str.Reads (s ++ Bits.ofOctets []) (cs ++ []) n w := by simpa using hst
    have hdone : Spelt hp s cs n w [] rest eos (hphDecodeLoop k j)
        (hphDecodeLoop k j eos ((hp.spell hp.state.str []).load rest)) :=
      .reads hread rfl (Or.inl ⟨rfl, rfl, rfl⟩)
    rw [hsame] at hdone
    simpa using hdone
  | cons b y ih =>
    rw [Bits.ofOctets_cons, ← List.append_assoc w] at hroom
    have hfirst : DecName.path n ++ (w ++ Bits.ofNat 8 b.toNat)
        <+: DecName.path n ++ ((w ++ Bits.ofNat 8 b.toNat) ++ Bits.ofOctets y) := by
      rw [List.prefix_append_right_inj]
      exact List.prefix_append _ _
    have hwin : (w ++ Bits.ofNat 8 b.toNat).length = w.length + 8 := by
      rw [List.length_append, Bits.length_ofNat]
    rw [List.length_cons] at hlen
    rw [List.length_cons, Nat.add_right_comm, Nat.add_right_comm y.length 1 j,
      hphDecodeLoop_turn hst.walks hst.left hblk, bind_apply]
    have hlook := hphDecodeLookupLoop_looked (hp.feed b (y.length + k) (y ++ rest)) 17
      (hst.walks.feed hst.left b (y.length + k) (y ++ rest)) eos
      (by rw [hwin]; have := hst.left; omega) (by rw [hwin]; have := hst.left; omega)
      ((hroom.mono hfirst).congr rfl rfl rfl rfl)
    generalize hphDecodeLookupLoop 17 eos (hp.feed b (y.length + k) (y ++ rest)) = o at hlook
    cases hlook with
    | @eos hp' ds r res bits =>
      have hbits := hst.append_eos bits (Bits.ofOctets y)
      rw [← Bits.ofOctets_cons] at hbits
      exact .eos res hbits
    | @short st₁ cs₁ n₁ w₁ e walks len left bits stuck flag =>
      have hread₁ : PrefixCode.Reads hphCode (DecName.path n ++ w ++ Bits.ofNat 8 b.toNat) cs₁
          (DecName.path n₁ ++ w₁) := ⟨by rw [List.append_assoc, bits, hphCodes], stuck⟩
      have hst₁ : st₁.Reads (s ++ Bits.ofNat 8 b.toNat) (cs ++ cs₁) n₁ w₁ :=
        ⟨walks, left, hst.reads.append hread₁⟩
      have hbits : DecName.path n ++ ((w ++ Bits.ofNat 8 b.toNat) ++ Bits.ofOctets y)
          = hphCodes cs₁ ++ (DecName.path n₁ ++ (w₁ ++ Bits.ofOctets y)) := by
        rw [← List.append_assoc, bits]
        simp only [List.append_assoc]
      have hfeed : (hp.feed b (y.length + k) (y ++ rest)).RoomFor
          (DecName.path n ++ ((w ++ Bits.ofNat 8 b.toNat) ++ Bits.ofOctets y)) :=
        hroom.congr rfl rfl rfl rfl
      have hroom₁ := hfeed.spell hbits st₁
      rw [Out.bind_ok]
      have hnext := ih ((hp.feed b (y.length + k) (y ++ rest)).spell st₁ cs₁) hst₁ len rfl
        hroom₁ e
      generalize hphDecodeLoop (y.length + k) (y.length + j) e _ = o at hnext
      cases hnext with
      | @eos hp' ds r res bits' =>
        rw [List.append_assoc, ← Bits.ofOctets_cons] at bits'
        exact .eos res bits'
      | @reads st ds n' w' e' reads len' flag' =>
        have hstate : (((hp.feed b (y.length + k) (y ++ rest)).spell st₁ cs₁).spell st ds).load
            rest = (hp.spell st (cs₁ ++ ds)).load rest := by
          rw [Hpack.spell_spell]
          rfl
        have hreads : st.Reads (s ++ Bits.ofOctets (b :: y)) (cs ++ (cs₁ ++ ds)) n' w' := by
          rw [Bits.ofOctets_cons, ← List.append_assoc, ← List.append_assoc]
          exact reads
        rw [hstate]
        refine .reads hreads ?_ ?_
        · have hlen₁ : st.len + y.length = y.length + k := len'.trans len
          rw [List.length_cons, hlen]
          omega
        · right
          rcases flag' with ⟨rfl, -, rfl⟩ | h
          · exact flag.resolve_left fun h => by rw [hwin] at h; omega
          · exact h

/-! ### Strings -/

/-- The bits are the codes of these characters, filled with at most seven ones. -/
def Spells (s : List Bool) (cs : Octets) : Prop :=
  ∃ p < 8, s = hphCodes cs ++ List.replicate p true

/-- Too few ones for the code of EOS. -/
theorem stuck_ones {p : ℕ} (hp : p < 30) : Stuck hphCode (List.replicate p true) := by
  intro c h
  have hpre : hphCode c <+: hphEos ++ [] := by
    rw [List.append_nil]
    exact h.trans ((List.prefix_replicate_iff.2 ⟨by simp; omega, by simp⟩ :
      List.replicate p true <+: List.replicate 30 true))
  exact stuck_eos [] c hpre

theorem Spells.reads {s : List Bool} (h : Spells s cs) :
    ∃ p < 8, PrefixCode.Reads hphCode s cs (List.replicate p true) := by
  obtain ⟨p, hp, hs⟩ := h
  exact ⟨p, hp, hs, stuck_ones (by omega)⟩

/-- Bits are filled in one way. -/
theorem Spells.unique {s : List Bool} {ds : Octets} (h : Spells s cs) (h' : Spells s ds) :
    cs = ds := by
  obtain ⟨p, -, hr⟩ := h.reads
  obtain ⟨p', -, hr'⟩ := h'.reads
  exact (hr.unique hphCode_prefixFree hr').1

/-- The code of EOS is not a filling. -/
theorem not_spells_eos {s r : List Bool} {ds : Octets} (h : s = hphCodes ds ++ (hphEos ++ r)) :
    ¬ Spells s cs := by
  intro hf
  obtain ⟨p, hp, hr⟩ := hf.reads
  have heq := (hr.unique hphCode_prefixFree ⟨h, stuck_eos r⟩).2
  have hlen := congrArg List.length heq
  rw [List.length_replicate, List.length_append, hphEos, List.length_replicate] at hlen
  omega

/-- The end of `HPH_decode`, once the octets of the string were read. -/
def hphDecodeFinish (eos : Bool) : Cp Unit := do
  expect .huf (eos = false)
  hphDecodePad
  hpdPutc 0

/-- The table of `HPH_decode` is set when the string starts. -/
def StrState.opened (st : StrState) : StrState := { st with dec := some (st.dec.getD hphDec0) }

theorem StrState.opened_of_some (h : st.dec = some n) : st.opened = st := by
  cases st
  cases h
  rfl

/-- The parts of `HPH_decode`. -/
theorem hphDecode_eq (len : ℕ) (hp : Hpack) :
    hphDecode len hp = (hphDecodeLoop hp.state.str.len (min len hp.ctx.blk.length) false >>=
      hphDecodeFinish) { hp with state.str := hp.state.str.opened } := by
  rw [hphDecode, bind_apply, get_apply, Out.bind_ok, bind_apply, when_apply]
  cases hdec : hp.state.str.dec with
  | none =>
    rw [if_pos rfl, modify_apply, Out.bind_ok]
    simp only [StrState.opened, hdec, Option.getD_none]
    rfl
  | some n =>
    rw [if_neg (Option.some_ne_none n), Out.bind_ok, StrState.opened_of_some hdec]
    rfl

/-- The window is filled with ones, in the first table. -/
theorem StrState.Reads.spells {s : List Bool} {ds : Octets} (h : st.Reads s cs n w)
    (hf : Spells s ds) : ds = cs ∧ n.1 = 0 ∧ w = List.replicate w.length true := by
  obtain ⟨p, hp, hr⟩ := hf.reads
  obtain ⟨rfl, heq⟩ := hr.unique hphCode_prefixFree h.reads
  have hlen := congrArg List.length heq
  rw [List.length_replicate, List.length_append, length_path] at hlen
  have hn : n.1 = 0 := by omega
  have hpath : DecName.path n = [] := List.eq_nil_of_length_eq_zero (by rw [length_path, hn])
  rw [hpath, List.nil_append] at heq
  refine ⟨rfl, hn, ?_⟩
  rw [← heq, List.length_replicate]

/-- A window of ones, in the first table, fills the bits. -/
theorem StrState.Reads.of_ones {s : List Bool} (h : st.Reads s cs n w) (hn : n.1 = 0)
    (hw : w = List.replicate w.length true) : Spells s cs := by
  have hpath : DecName.path n = [] := List.eq_nil_of_length_eq_zero (by rw [length_path, hn])
  refine ⟨w.length, h.left, ?_⟩
  rw [← hw, h.reads.eq, hpath, List.nil_append, hphCodes]

/-- **The end of `HPH_decode`**: the string is over exactly when its bits are filled. -/
theorem hphDecodeFinish_eq (hp : Hpack) {s : List Bool} (h : hp.state.str.Reads s cs n w)
    (hroom : hp.Room 1) :
    (Spells s cs ∧ hphDecodeFinish (decide (0 < n.1)) hp = .ok () (hp.write [0])) ∨
      ((∀ ds, ¬ Spells s ds) ∧
        hphDecodeFinish (decide (0 < n.1)) hp = .err { hp with ctx.res := .huf }) := by
  have hlt : hp.state.str.blen < 8 := h.walks.blen ▸ h.left
  rw [hphDecodeFinish, bind_apply, expect_apply]
  by_cases hn : 0 < n.1
  · right
    refine ⟨fun ds hf => ?_, ?_⟩
    · have := (h.spells hf).2.1
      omega
    · rw [decide_eq_true hn, if_neg Bool.noConfusion, Out.bind_err]
  have hn0 : n.1 = 0 := by omega
  rw [decide_eq_false hn, if_pos rfl, Out.bind_ok, bind_apply, hphDecodePad, bind_apply, get_apply,
    Out.bind_ok, ite_run]
  have hones := h.walks.bits.ones_iff
  rw [h.walks.blen] at hones
  by_cases hpos : 0 < hp.state.str.blen
  · rw [if_pos hpos, assert_bind_pos hlt, expect_apply]
    by_cases hbits : hp.state.str.bits = 0xffff <<< (16 - hp.state.str.blen) % 65536
    · left
      refine ⟨h.of_ones hn0 ?_, ?_⟩
      · rw [h.walks.blen]
        exact hones.1 hbits
      · rw [if_pos hbits, Out.bind_ok]
        exact hpdPutc_eq 0 hroom
    · right
      refine ⟨fun ds hf => hbits (hones.2 ?_), ?_⟩
      · rw [← h.walks.blen]
        exact (h.spells hf).2.2
      · rw [if_neg hbits, Out.bind_err]
  · left
    have hw : w = [] := List.eq_nil_of_length_eq_zero (by rw [h.walks.blen]; omega)
    have hbits : hp.state.str.bits = 0 := by
      have := h.walks.bits
      rw [hw] at this
      exact this.unique (Bits.aligned_nil 16)
    refine ⟨h.of_ones hn0 (by rw [hw]; rfl), ?_⟩
    rw [if_neg hpos, assert_apply, if_pos hbits, Out.bind_ok]
    exact hpdPutc_eq 0 hroom

/-- The call of `HPH_decode` that reads the last octets of a string. -/
theorem hphDecode_last (hp : Hpack) {s : List Bool} (hst : hp.state.str.opened.Reads s cs n w)
    (hlen : hp.state.str.len = y.length) (hblk : hp.ctx.blk = y ++ rest)
    (hzero : y = [] → n.1 = 0)
    (hroom : hp.RoomFor (DecName.path n ++ (w ++ Bits.ofOctets y))) :
    (∃ st ds, Spells (s ++ Bits.ofOctets y) (cs ++ ds) ∧
      hphDecode hp.state.str.len hp = .ok () ((hp.spell st (ds ++ [0])).load rest)) ∨
    ((∀ ds, ¬ Spells (s ++ Bits.ofOctets y) ds) ∧
      ∃ hp', hphDecode hp.state.str.len hp = .err hp' ∧ hp'.ctx.res = .huf) := by
  have hmin : min hp.state.str.len hp.ctx.blk.length = y.length + 0 := by
    rw [hlen, hblk, List.length_append]
    omega
  have hspelt := hphDecodeLoop_spelt { hp with state.str := hp.state.str.opened } hst
    (k := 0) hlen hblk (hroom.congr rfl rfl rfl rfl) 0 false
  rw [hphDecode_eq, hmin, bind_apply, hlen]
  change Spelt _ _ _ _ _ _ _ _ _ (hphDecodeLoop y.length _ _ _) at hspelt
  generalize hphDecodeLoop y.length (y.length + 0) false _ = o at hspelt
  cases hspelt with
  | @eos hp' ds r res bits =>
    exact Or.inr ⟨fun ds => not_spells_eos bits, hp', rfl, res⟩
  | @reads st ds n' w' e reads len flag =>
    have he : e = decide (0 < n'.1) := by
      rcases flag with ⟨rfl, hy, rfl⟩ | h
      · rw [hzero hy]
        rfl
      · exact h
    have hroom' : (hp.spell st ds).Room 1 := (hroom.spell (hst.since reads) st).room
    rw [hphDecodeLoop, pure_apply, Out.bind_ok, he]
    rcases hphDecodeFinish_eq ((hp.spell st ds).load rest) reads
      (hroom'.congr rfl rfl rfl rfl) with ⟨hf, hrun⟩ | ⟨hf, hrun⟩
    · refine Or.inl ⟨st, ds, hf, ?_⟩
      refine Eq.trans hrun ?_
      simp only [Hpack.spell, ← Hpack.write_write]
      rfl
    · exact Or.inr ⟨hf, _, hrun, rfl⟩

/-- The codec once these characters of a string were decoded, with a result. -/
def Hpack.spelled (hp : Hpack) (st : StrState) (cs rest : Octets) (r : Res) : Hpack :=
  { (hp.spell st cs).load rest with ctx.res := r }

theorem Hpack.spelled_spelled (hp : Hpack) (st st' : StrState) (cs ds rest rest' : Octets)
    (r r' : Res) :
    (hp.spelled st cs rest r).spelled st' ds rest' r' = hp.spelled st' (cs ++ ds) rest' r' := by
  simp only [Hpack.spelled, Hpack.spell, Hpack.write, Hpack.load, List.append_assoc,
    List.length_append, Nat.sub_sub]

/-- A call of `HPH_decode` that reads other octets of a string. -/
theorem hphDecode_part (hp : Hpack) {s : List Bool} {k : ℕ}
    (hst : hp.state.str.opened.Reads s cs n w)
    (hlen : hp.state.str.len = y.length + k) (hk : 0 < k) (hblk : hp.ctx.blk = y)
    (hroom : hp.RoomFor (DecName.path n ++ (w ++ Bits.ofOctets y))) :
    (∃ st ds n' w', st.Reads (s ++ Bits.ofOctets y) (cs ++ ds) n' w' ∧ st.len = k ∧
      hphDecode hp.state.str.len hp = .err (hp.spelled st ds [] .buf)) ∨
    ((∃ ds r, s ++ Bits.ofOctets y = hphCodes ds ++ (hphEos ++ r)) ∧
      ∃ hp', hphDecode hp.state.str.len hp = .err hp' ∧ hp'.ctx.res = .huf) := by
  obtain ⟨k, rfl⟩ := Nat.exists_eq_succ_of_ne_zero (Nat.ne_of_gt hk)
  have hmin : min hp.state.str.len hp.ctx.blk.length = y.length + 0 := by
    rw [hlen, hblk]
    omega
  have hspelt := hphDecodeLoop_spelt { hp with state.str := hp.state.str.opened } hst hlen
    (hblk.trans (List.append_nil y).symm) (hroom.congr rfl rfl rfl rfl) 0 false
  rw [hphDecode_eq, hmin, bind_apply, hlen]
  generalize hphDecodeLoop (y.length + (k + 1)) (y.length + 0) false _ = o at hspelt
  cases hspelt with
  | @eos hp' ds r res bits => exact Or.inr ⟨⟨ds, r, bits⟩, hp', rfl, res⟩
  | @reads st ds n' w' e reads len flag =>
    refine Or.inl ⟨st, ds, n', w', reads, ?_, ?_⟩
    · have hlen' : st.len + y.length = hp.state.str.len := len
      omega
    · rw [hphDecodeLoop, bind_apply, expect_apply, if_neg (Nat.lt_irrefl 0), Out.bind_err,
        Out.bind_err]
      rfl

/-- `HPH_decode` on a string that comes in parts, each given when the octets before it were not
enough: the last one may go on after the string. -/
def hphDecodeParts (last : Octets) : List Octets → Hpack → Out Hpack Unit
  | [], hp => hphDecode hp.state.str.len (hp.load last)
  | part :: parts, hp =>
    match hphDecode hp.state.str.len (hp.load part) with
    | .ok _ hp' => .ok () hp'
    | .err hp' => if hp'.ctx.res = .buf then hphDecodeParts last parts hp' else .err hp'
    | .stop w => .stop w

/-- The next part is given when the octets of one were not enough. -/
theorem hphDecodeParts_cons (hp : Hpack) {last part : Octets} {parts : List Octets} {hp' : Hpack}
    (h : hphDecode hp.state.str.len (hp.load part) = .err hp') :
    hphDecodeParts last (part :: parts) hp
      = if hp'.ctx.res = .buf then hphDecodeParts last parts hp' else .err hp' := by
  rw [hphDecodeParts, h]

/-- The parts of what is left of a string. -/
theorem hphDecodeParts_spelt (hp : Hpack) (rest : Octets) {s : List Bool} {parts : List Octets}
    (hst : hp.state.str.opened.Reads s cs n w)
    (hlen : hp.state.str.len = (parts.flatten ++ y).length) (hy : y = [] → parts = [] ∧ n.1 = 0)
    (hroom : hp.RoomFor (DecName.path n ++ (w ++ Bits.ofOctets (parts.flatten ++ y)))) :
    (∃ st ds r, Spells (s ++ Bits.ofOctets (parts.flatten ++ y)) (cs ++ ds) ∧
      hphDecodeParts (y ++ rest) parts hp
        = .ok () (hp.spelled st (ds ++ [0]) rest r)) ∨
    ((∀ ds, ¬ Spells (s ++ Bits.ofOctets (parts.flatten ++ y)) ds) ∧
      ∃ hp', hphDecodeParts (y ++ rest) parts hp = .err hp' ∧ hp'.ctx.res = .huf) := by
  induction parts generalizing hp s cs n w with
  | nil =>
    rw [List.flatten_nil, List.nil_append] at hlen hroom ⊢
    rw [hphDecodeParts]
    rcases hphDecode_last (hp.load (y ++ rest)) hst hlen rfl (fun h => (hy h).2)
      (hroom.congr rfl rfl rfl rfl) with ⟨st, ds, hf, hrun⟩ | h
    · exact Or.inl ⟨st, ds, hp.ctx.res, hf, hrun⟩
    · exact Or.inr h
  | cons part parts ih =>
    have hne : y ≠ [] := fun h => List.cons_ne_nil _ _ (hy h).1
    have hk : 0 < (parts.flatten ++ y).length := by
      rw [List.length_append]
      have := List.length_pos_of_ne_nil hne
      omega
    have hsum : ((part :: parts).flatten ++ y).length
        = part.length + (parts.flatten ++ y).length := by
      rw [List.flatten_cons, List.append_assoc, List.length_append]
    rw [hsum] at hlen
    rw [List.flatten_cons, List.append_assoc, Bits.ofOctets_append, ← List.append_assoc w]
      at hroom
    have hfirst : DecName.path n ++ (w ++ Bits.ofOctets part) <+:
        DecName.path n ++ ((w ++ Bits.ofOctets part) ++ Bits.ofOctets (parts.flatten ++ y)) := by
      rw [List.prefix_append_right_inj]
      exact List.prefix_append _ _
    rw [List.flatten_cons, List.append_assoc, Bits.ofOctets_append, ← List.append_assoc]
    rcases hphDecode_part (hp.load part) hst hlen hk rfl
      ((hroom.mono hfirst).congr rfl rfl rfl rfl) with
      ⟨st, ds, n', w', hread, hleft, hrun⟩ | ⟨⟨ds, r, hbits⟩, hp', hrun, hres⟩
    · have hbuf : ((hp.load part).spelled st ds [] .buf).ctx.res = .buf := rfl
      rw [hphDecodeParts_cons hp hrun, if_pos hbuf]
      have hopen : st.opened = st := StrState.opened_of_some hread.walks.dec
      have hrest : DecName.path n ++ ((w ++ Bits.ofOctets part) ++
          Bits.ofOctets (parts.flatten ++ y)) = hphCodes ds ++
            (DecName.path n' ++ (w' ++ Bits.ofOctets (parts.flatten ++ y))) := by
        rw [← List.append_assoc, hst.since hread]
        simp only [List.append_assoc]
      have hroom' := hroom.spell hrest st
      have hread' : st.opened.Reads (s ++ Bits.ofOctets part) (cs ++ ds) n' w' := by rwa [hopen]
      have hnext := ih ((hp.load part).spelled st ds [] .buf) hread' hleft
        (fun h => absurd h hne) (hroom'.congr rfl rfl rfl rfl)
      rcases hnext with ⟨st', ds', r, hf, hrun'⟩ | ⟨hf, hp', hrun', hres⟩
      · refine Or.inl ⟨st', ds ++ ds', r, ?_, ?_⟩
        · rw [← List.append_assoc]
          exact hf
        · rw [hrun', List.append_assoc, Hpack.spelled_spelled]
          rfl
      · exact Or.inr ⟨hf, hp', hrun', hres⟩
    · rw [hphDecodeParts_cons hp hrun, if_neg (by rw [hres]; exact Res.noConfusion)]
      refine Or.inr ⟨fun ds' => ?_, hp', rfl, hres⟩
      have hbits' : s ++ Bits.ofOctets part ++ Bits.ofOctets (parts.flatten ++ y)
          = hphCodes ds ++ (hphEos ++ (r ++ Bits.ofOctets (parts.flatten ++ y))) := by
        rw [hbits]
        simp only [List.append_assoc]
      exact not_spells_eos hbits'

/-- A string that was not started. -/
theorem reads_fresh {len : ℕ} :
    (StrState.opened ⟨none, len, 0, 0⟩).Reads [] [] hphDec0 [] where
  walks := ⟨rfl, hphDec0_mem, Bits.aligned_nil 16, rfl⟩
  left := Nat.zero_lt_succ _
  reads := reads_nil (stuck_ones (p := 0) (by omega))

/-- The parts of a string that was not started. -/
theorem hphDecodeParts_fresh (rest : Octets) {parts : List Octets} (hx : x = parts.flatten ++ y)
    (hy : y = [] → parts = []) (hst : hp.state.str = ⟨none, x.length, 0, 0⟩)
    (hroom : hp.RoomFor (Bits.ofOctets x)) :
    (∃ st ds r, Spells (Bits.ofOctets x) ds ∧
      hphDecodeParts (y ++ rest) parts hp = .ok () (hp.spelled st (ds ++ [0]) rest r)) ∨
    ((∀ ds, ¬ Spells (Bits.ofOctets x) ds) ∧
      ∃ hp', hphDecodeParts (y ++ rest) parts hp = .err hp' ∧ hp'.ctx.res = .huf) := by
  subst hx
  have hspelt := hphDecodeParts_spelt hp rest (hst ▸ reads_fresh) (congrArg StrState.len hst)
    (fun h => ⟨hy h, rfl⟩) hroom
  simpa only [List.nil_append] using hspelt

/-- The characters that filled bits start with are the first ones of the string. -/
theorem Spells.isPrefix {s : List Bool} {ds : Octets} (h : Spells s cs) (hds : hphCodes ds <+: s) :
    ds <+: cs := by
  obtain ⟨p, hp, rfl⟩ := h
  induction ds generalizing cs with
  | nil => exact List.nil_prefix
  | cons d ds ih =>
    rw [hphCodes_cons] at hds
    cases cs with
    | nil =>
      refine absurd ((List.prefix_append _ _).trans hds) ?_
      exact stuck_ones (by omega) d
    | cons c cs =>
      obtain ⟨r, hr⟩ := hds
      rw [hphCodes_cons, List.append_assoc, List.append_assoc] at hr
      obtain ⟨rfl, hrest⟩ := hphCode_prefixFree.head hr
      exact List.cons_prefix_cons.2 ⟨rfl, ih ⟨r, hrest⟩⟩

/-- Room for the string and its terminator is enough. -/
theorem Spells.roomFor {s : List Bool} (h : Spells s cs) (hroom : hp.Room (cs.length + 1)) :
    hp.RoomFor s :=
  fun _ hds => hroom.mono (Nat.succ_le_succ (h.isPrefix hds).length_le)

/-- **Huffman strings are decoded exactly**, however they are cut into parts: the octets `x` of a
string are accepted when their bits are the codes of some characters, filled with at most seven
ones, which are then written; and only then. -/
theorem hphDecode_exact (rest : Octets) {parts : List Octets} (hx : x = parts.flatten ++ y)
    (hy : y = [] → parts = []) (hst : hp.state.str = ⟨none, x.length, 0, 0⟩) :
    (∀ cs, Spells (Bits.ofOctets x) cs → hp.Room (cs.length + 1) →
      ∃ st r, hphDecodeParts (y ++ rest) parts hp
        = .ok () (hp.spelled st (cs ++ [0]) rest r)) ∧
    ((∀ cs, ¬ Spells (Bits.ofOctets x) cs) → hp.Room (8 * x.length / 5 + 1) →
      ∃ hp', hphDecodeParts (y ++ rest) parts hp = .err hp' ∧ hp'.ctx.res = .huf) := by
  constructor
  · intro cs hf hroom
    rcases hphDecodeParts_fresh rest hx hy hst (hf.roomFor hroom) with
      ⟨st, ds, r, hf', hrun⟩ | ⟨hno, -⟩
    · obtain rfl := hf.unique hf'
      exact ⟨st, r, hrun⟩
    · exact absurd hf (hno cs)
  · intro hno hroom
    have hroom' : hp.RoomFor (Bits.ofOctets x) := .of_length (by rwa [Bits.length_ofOctets])
    rcases hphDecodeParts_fresh rest hx hy hst hroom' with ⟨st, ds, r, hf', -⟩ | ⟨-, h⟩
    · exact absurd hf' (hno ds)
    · exact h

/-- A decoder at the start of a Huffman string of two octets. -/
def hufDecoder : Hpack :=
  { smallDecoder with
    state := { smallDecoder.state with magic := .huf, str := ⟨none, 2, 0, 0⟩ }
    ctx := { smallDecoder.ctx with arg := ⟨1, 3, 2⟩, org := 1, bufLen := 3 } }

theorem hufDecoder_room : hufDecoder.Room 3 := ⟨by decide, by decide, by decide⟩

theorem hphDecode_exact_parts :
    ∃ st r, hphDecodeParts [0x7f] [[0x1c]] hufDecoder
      = .ok () (hufDecoder.spelled st [0x61, 0x62, 0] [] r) :=
  (hphDecode_exact [] (x := [0x1c, 0x7f]) (y := [0x7f]) rfl (fun h => by cases h) rfl).1
    [0x61, 0x62] ⟨5, by decide, by decide +kernel⟩ hufDecoder_room

end Cashpack
