import Cashpack.Wire.Format
import Cashpack.Decoder.Room

/-!
# Reading a field

What the functions of the decoder do on the octets of an integer, of a string and of a field, as
long as the working buffer has room: `Hpack.advance` is the codec that went on past them.

## Main results

* `hpiDecode_wire`, `hpackDecodeString_wire` : integers and strings.
* `hpackDecodeField_wire` : the name and the value of a literal field.
-/

namespace Cashpack

open Prog Fifo PrefixInt

variable {hp : Hpack} {os ns vs rest s out out' : Octets} {n : ℕ} {p : Hpp} {evt : StrEvt}

/-! ### Going on -/

/-- The codec with `rest` left to decode, after it wrote `out` and notified `evts`. -/
def Hpack.advance (hp : Hpack) (st : State) (fld : Fld) (rest out : Octets)
    (evts : List Event) : Hpack :=
  { hp with
    state := st
    ctx.fld := fld
    ctx.blk := rest
    ctx.out := hp.ctx.out ++ out
    ctx.bufLen := hp.ctx.bufLen - out.length
    ctx.log := hp.ctx.log ++ evts }

theorem Hpack.advance_advance (hp : Hpack) (st st' : State) (fld fld' : Fld) (rest rest' : Octets)
    (evts evts' : List Event) :
    (hp.advance st fld rest out evts).advance st' fld' rest' out' evts'
      = hp.advance st' fld' rest' (out ++ out') (evts ++ evts') := by
  simp only [Hpack.advance, List.append_assoc, List.length_append, Nat.sub_sub]

/-- Nothing written, nothing notified. -/
theorem Hpack.advance_nil (hp : Hpack) (st : State) (fld : Fld) (rest : Octets) :
    hp.advance st fld rest [] [] = { hp with state := st, ctx.fld := fld, ctx.blk := rest } := by
  simp only [Hpack.advance, List.append_nil, List.length_nil, Nat.sub_zero]

theorem Hpack.Room.advance {st : State} {fld : Fld} {evts : List Event}
    (h : hp.Room (out.length + n)) : (hp.advance st fld rest out evts).Room n :=
  h.write.congr rfl rfl rfl rfl

theorem Hpack.write_eq_advance (hp : Hpack) (s : Octets) :
    hp.write s = hp.advance hp.state hp.ctx.fld hp.ctx.blk s [] := by
  simp only [Hpack.write, Hpack.advance, List.append_nil]

theorem Hpack.notify_eq_advance (hb : hp.ctx.tooBig = false) (evts : List Event) :
    hp.notify evts = hp.advance hp.state hp.ctx.fld hp.ctx.blk [] evts := by
  simp only [Hpack.notify, Hpack.advance, hb, Bool.false_eq_true, if_false, List.append_nil,
    List.length_nil, Nat.sub_zero]

/-! ### Integers -/

/-- The octets of an integer are counted. -/
theorem intLoop_done_l {bs : Octets} {i i' : IntState} (h : intLoop bs i = .done i' rest) :
    ∃ k, bs.length = k + rest.length ∧ i'.l = (i.l + k) % 256 := by
  induction bs generalizing i with
  | nil => cases h
  | cons b bs ih =>
    rw [intLoop] at h
    split at h
    · cases h
    · split at h
      · obtain ⟨k, hk, hl⟩ := ih h
        refine ⟨k + 1, by rw [List.length_cons, hk]; omega, ?_⟩
        rw [hl]
        show ((i.l + 1) % 256 + k) % 256 = _
        omega
      · obtain ⟨rfl, rfl⟩ := IntOut.done.inj h
        exact ⟨1, by rw [List.length_cons, Nat.add_comm], rfl⟩

/-- `HPI_decode` reads an integer, whatever its coding. -/
theorem hpiDecode_wire (h : IntWire p n os) (hblk : hp.ctx.blk = os ++ rest)
    (hbsy : hp.state.bsy = false) :
    ∃ i : IntState, i.l = os.length ∧ hpiDecode p.pfx hp
      = .ok n (hp.advance { hp.state with magic := .int, hpi := i } hp.ctx.fld rest [] []) := by
  obtain ⟨hread, -, hn, hshort⟩ := h
  cases os with
  | nil => cases hread
  | cons b cs =>
    rw [List.length_cons] at hshort
    have hload : hp.load (b :: (cs ++ rest)) = hp := by
      rw [Hpack.load, ← List.cons_append, ← hblk]
    rcases mod_two_pow_cases b p.pfx with hb | hb
    · obtain ⟨rfl, rfl⟩ := (read_short hb).1 hread
      have hrun : hpiDecode p.pfx (hp.load (b :: ([] ++ rest))) = _ :=
        hpiDecode_short p.pfx_le hbsy hb ([] ++ rest)
      rw [hload] at hrun
      refine ⟨⟨b.toNat % 2 ^ p.pfx, hp.state.hpi.m, 1⟩, rfl, hrun.trans ?_⟩
      rw [Hpack.advance_nil]
      rfl
    · rw [read_long hb] at hread
      obtain ⟨⟨cs', rest'⟩, hs, heq⟩ := Option.map_eq_some_iff.1 hread
      obtain ⟨hv, rfl⟩ := Prod.mk.inj heq
      have hcs : cs = cs' := by
        have := split_eq hs
        rwa [List.append_nil] at this
      subst hcs
      have hmask := mask_le p.pfx_le
      have hn' : 2 ^ p.pfx - 1 + sum cs 0 ≤ 65535 := hv.trans_le hn
      have hnarrow : narrow cs 0 = sum cs 0 := narrow_eq (by omega)
      obtain ⟨i, hi, hiv⟩ := intLoop_split (l := 1) (m := 0) (split_append hs rest)
        (v := 2 ^ p.pfx - 1) (by omega) (by rw [hnarrow]; exact hn')
      have hrun : hpiDecode p.pfx (hp.load (b :: (cs ++ rest))) = _ :=
        hpiDecode_long p.pfx_le hbsy hb (cs ++ rest)
      have hz : (0 : ℕ) % 256 = 0 := rfl
      rw [hz] at hi
      rw [hload, hi, List.nil_append] at hrun
      obtain ⟨k, hk, hl⟩ := intLoop_done_l hi
      rw [List.length_append, List.nil_append] at hk
      refine ⟨i, ?_, hrun.trans ?_⟩
      · rw [hl, List.length_cons]
        show (1 + k) % 256 = _
        omega
      · rw [IntOut.run, hiv, hnarrow, hv, Hpack.advance_nil]
        show Out.ok n { hp with
          state := { hp.state with magic := .int, hpi := i, bsy := false }, ctx.blk := rest } = _
        rw [← hbsy]

/-! ### Strings -/

theorem leads_str {b : UInt8} : Hpp.str.Leads b → b &&& Hpp.huf.pat = 0 :=
  Octets.forall_octet (p := fun b => Hpp.str.Leads b → b &&& Hpp.huf.pat = 0)
    (by decide +kernel) b

theorem leads_huf {b : UInt8} : Hpp.huf.Leads b → b &&& Hpp.huf.pat ≠ 0 :=
  Octets.forall_octet (p := fun b => Hpp.huf.Leads b → b &&& Hpp.huf.pat ≠ 0)
    (by decide +kernel) b

/-- The state after the length of a string, which is a Huffman string or not. -/
def State.opensStr (st : State) (huf : Bool) (i : IntState) (len : ℕ) : State :=
  { st with
    magic := if huf then .huf else .str
    stp := st.stp.next
    hpi := i
    str := if huf then ⟨none, len, 0, 0⟩ else { st.str with len := len } }

/-- `HPACK_PAT_HUF` or `HPACK_PAT_STR`. -/
def strHpp (huf : Bool) : Hpp := if huf then .huf else .str

/-- The part of `hpackDecodeStringLen` that follows the integer. -/
def hpackDecodeStringOpen (evt : StrEvt) (huf : Prop) [Decidable huf] (len : ℕ) : Cp Unit := do
  modify fun hp => { hp with
    state.magic := if huf then .huf else .str
    state.str.len := len
    state.stp := hp.state.stp.next }
  when huf <| modify fun hp => { hp with
    state.str.dec := none, state.str.blen := 0, state.str.bits := 0 }
  when (evt = .name) (expect .len (0 < len))
  when (0 < len) do
    let hp ← get
    expect .buf (hp.ctx.blk ≠ [])

theorem hpackDecodeStringOpen_eq {huf : Prop} [Decidable huf] {b : Bool} (hb : huf ↔ b = true)
    (hname : evt = .name → 0 < n)
    (hne : 0 < n → hp.ctx.blk ≠ []) :
    hpackDecodeStringOpen evt huf n hp = .ok ()
      { hp with state := hp.state.opensStr b hp.state.hpi n } := by
  have hexpect : ∀ hp : Hpack, when (evt = .name) (expect .len (0 < n)) hp = .ok () hp := by
    intro hp
    rw [when_expect, expect_apply, if_pos hname]
  have hmore : ∀ st : State, when (0 < n) (do
      let hp ← get
      expect .buf (hp.ctx.blk ≠ [])) { hp with state := st }
      = .ok () { hp with state := st } := by
    intro st
    rw [when_apply]
    split
    · rw [bind_apply, get_apply, Out.bind_ok, expect_apply, if_pos (hne ‹_›)]
    · rfl
  rw [hpackDecodeStringOpen, bind_apply, modify_apply, Out.bind_ok, bind_apply, when_apply]
  cases b with
  | false =>
    have hf : ¬ huf := fun h => Bool.false_ne_true (hb.1 h)
    rw [if_neg hf, if_neg hf, Out.bind_ok, bind_apply, hexpect, Out.bind_ok]
    exact hmore _
  | true =>
    have ht : huf := hb.2 rfl
    rw [if_pos ht, if_pos ht, modify_apply, Out.bind_ok, bind_apply, hexpect, Out.bind_ok]
    exact hmore _

theorem hpackDecodeStringLen_eq (evt : StrEvt) (hp : Hpack) :
    hpackDecodeStringLen evt hp
      = (hpiDecode 7 >>=
          hpackDecodeStringOpen evt (hp.ctx.blk.headD 0 &&& Hpp.huf.pat ≠ 0)) hp := rfl

/-- The length of a string is read, and the coding of its octets. -/
theorem hpackDecodeStringLen_wire (evt : StrEvt) {huf : Bool} (h : IntWire (strHpp huf) n os)
    (hblk : hp.ctx.blk = os ++ rest) (hbsy : hp.state.bsy = false)
    (hname : evt = .name → 0 < n) (hne : 0 < n → rest ≠ []) :
    ∃ i, hpackDecodeStringLen evt hp
      = .ok () (hp.advance (hp.state.opensStr huf i n) hp.ctx.fld rest [] []) := by
  have hpfx : (strHpp huf).pfx = 7 := by cases huf <;> rfl
  have hhuf : hp.ctx.blk.headD 0 &&& Hpp.huf.pat ≠ 0 ↔ huf = true := by
    rw [hblk]
    have hl := h.leads rest
    cases huf with
    | false => exact ⟨fun hc => absurd (leads_str hl) hc, Bool.noConfusion⟩
    | true => exact ⟨fun _ => rfl, fun _ => leads_huf hl⟩
  obtain ⟨i, -, hrun⟩ := hpiDecode_wire h hblk hbsy
  refine ⟨i, ?_⟩
  rw [hpfx] at hrun
  rw [hpackDecodeStringLen_eq, bind_apply, hrun, Out.bind_ok]
  exact hpackDecodeStringOpen_eq hhuf hname hne

/-- The octets of a string are copied. -/
theorem hpackDecodeRawString_wire (hlen : hp.state.str.len = s.length)
    (hblk : hp.ctx.blk = s ++ rest) (hroom : hp.Room (s.length + 1)) :
    hpackDecodeRawString s.length hp = .ok () (hp.advance
      { hp.state with str := { hp.state.str with len := 0 } } hp.ctx.fld rest (s ++ [0]) []) := by
  have hle : s.length ≤ hp.ctx.blk.length := by
    rw [hblk, List.length_append]
    omega
  have htake : hp.ctx.blk.take s.length = s := by rw [hblk, List.take_left]
  have hdrop : hp.ctx.blk.drop s.length = rest := by rw [hblk, List.drop_left]
  have hcat : hpdCat s hp = .ok () (hp.write s) := hpdCat_eq (hroom.mono (Nat.le_succ _))
  have hputc : hpdPutc 0 (hp.write s) = .ok () ((hp.write s).write [0]) :=
    hpdPutc_eq 0 hroom.write
  rw [hpackDecodeRawString, bind_apply, get_apply, Out.bind_ok]
  dsimp only
  rw [Nat.min_eq_left hle, htake, bind_apply, hcat, Out.bind_ok, bind_apply, when_apply, if_pos hle,
    hputc, Out.bind_ok, Hpack.write_write, bind_apply, modify_apply, Out.bind_ok, bind_apply,
    get_apply, Out.bind_ok, expect_apply]
  show (if hp.state.str.len - s.length = 0 then _ else _) = _
  rw [if_pos (by omega)]
  simp only [Hpack.write, Hpack.advance, hdrop, hlen, Nat.sub_self, List.append_nil]

/-- The octets of a string follow its length. -/
theorem hpackDecodeString_open (evt : StrEvt) (huf : Bool) {len body : Octets}
    (hlen : IntWire (strHpp huf) body.length len) (hblk : hp.ctx.blk = len ++ (body ++ rest))
    (hbsy : hp.state.bsy = false) (hstp : hp.state.stp = .namLen ∨ hp.state.stp = .valLen)
    (hname : evt = .name → body ≠ []) :
    ∃ i, hpackDecodeString evt hp
      = (if huf then hphDecode body.length else hpackDecodeRawString body.length)
          (hp.advance (hp.state.opensStr huf i body.length) hp.ctx.fld (body ++ rest) [] []) := by
  have hbody : 0 < body.length → body ++ rest ≠ [] := fun hpos h =>
    List.ne_nil_of_length_pos hpos (List.append_eq_nil_iff.1 h).1
  obtain ⟨i, hrun⟩ := hpackDecodeStringLen_wire evt hlen hblk hbsy
    (fun hevt => List.length_pos_of_ne_nil (hname hevt)) hbody
  have hne : hp.ctx.blk ≠ [] := by
    rw [hblk]
    exact fun h => hlen.ne_nil (List.append_eq_nil_iff.1 h).1
  have hstp' : hp.state.stp ≠ .fldInt := by
    rcases hstp with h | h <;> rw [h] <;> decide
  have hpos : 0 < body.length ∨ evt ≠ .name := by
    by_cases hevt : evt = .name
    · exact Or.inl (List.length_pos_of_ne_nil (hname hevt))
    · exact Or.inr hevt
  refine ⟨i, ?_⟩
  rw [hpackDecodeString, bind_apply, get_apply, Out.bind_ok, bind_apply, expect_apply, if_pos hne,
    Out.bind_ok, assert_bind_pos hstp', bind_apply, when_apply, if_pos hstp, hrun, Out.bind_ok,
    bind_apply, get_apply, Out.bind_ok]
  cases huf with
  | false =>
    refine (assert_bind_pos hpos _ _).trans ?_
    exact assert_bind_pos rfl _ _
  | true => exact assert_bind_pos hpos _ _

theorem Spells.eq_nil (h : Spells [] s) : s = [] := by
  obtain ⟨p, -, hs⟩ := h
  have hlen := congrArg List.length hs
  have hle := le_length_hphCodes s
  rw [List.length_nil, List.length_append] at hlen
  exact List.eq_nil_of_length_eq_zero (by omega)

/-- The octets of a Huffman string are decoded. -/
theorem hphDecode_wire {x : Octets} (hx : Spells (Bits.ofOctets x) s)
    (hst : hp.state.str = ⟨none, x.length, 0, 0⟩) (hblk : hp.ctx.blk = x ++ rest)
    (hroom : hp.Room (s.length + 1)) :
    ∃ str, hphDecode x.length hp = .ok ()
      (hp.advance { hp.state with str := str } hp.ctx.fld rest (s ++ [0]) []) := by
  have hlen : hp.state.str.len = x.length := by rw [hst]
  have hreads : hp.state.str.opened.Reads [] [] hphDec0 [] := by
    rw [hst]
    exact reads_fresh
  have hfor : hp.RoomFor (DecName.path hphDec0 ++ ([] ++ Bits.ofOctets x)) :=
    hx.roomFor hroom
  rcases hphDecode_last hp hreads hlen hblk (fun _ => rfl) hfor with ⟨st, ds, hds, hrun⟩ | ⟨h, -⟩
  · obtain rfl := hx.unique hds
    rw [hlen] at hrun
    refine ⟨st, hrun.trans ?_⟩
    simp only [Hpack.load, Hpack.spell, Hpack.write, Hpack.advance, List.append_nil]
  · exact absurd hx (h s)

/-- A string is written with its terminator, whatever its coding. -/
theorem hpackDecodeString_wire (evt : StrEvt) (h : StrWire s os) (hblk : hp.ctx.blk = os ++ rest)
    (hbsy : hp.state.bsy = false) (hstp : hp.state.stp = .namLen ∨ hp.state.stp = .valLen)
    (hname : evt = .name → s ≠ []) (hroom : hp.Room (s.length + 1)) :
    ∃ st : State, st.bsy = false ∧ st.idx = hp.state.idx ∧ st.stp = hp.state.stp.next ∧
      hpackDecodeString evt hp
        = .ok () (hp.advance st hp.ctx.fld rest (s ++ [0]) []) := by
  have hroom' : ∀ st blk, (hp.advance st hp.ctx.fld blk [] []).Room (s.length + 1) := fun st blk =>
    Hpack.Room.advance (by rwa [List.length_nil, Nat.zero_add])
  cases h with
  | raw hlen =>
    rw [List.append_assoc] at hblk
    obtain ⟨i, hrun⟩ := hpackDecodeString_open evt false hlen hblk hbsy hstp hname
    have hraw := hpackDecodeRawString_wire rfl (Eq.refl (s ++ rest))
      (hroom' (hp.state.opensStr false i s.length) (s ++ rest))
    rw [Hpack.advance_advance, List.nil_append, List.nil_append] at hraw
    refine ⟨_, ?_, ?_, ?_, hrun.trans hraw⟩
    exacts [hbsy, rfl, rfl]
  | @huf len x hlen hx =>
    rw [List.append_assoc] at hblk
    have hne : evt = .name → x ≠ [] := by
      rintro hevt rfl
      exact hname hevt hx.eq_nil
    obtain ⟨i, hrun⟩ := hpackDecodeString_open evt true hlen hblk hbsy hstp hne
    obtain ⟨str, hhuf⟩ := hphDecode_wire hx rfl (Eq.refl (x ++ rest))
      (hroom' (hp.state.opensStr true i x.length) (x ++ rest))
    rw [Hpack.advance_advance, List.nil_append, List.nil_append] at hhuf
    refine ⟨_, ?_, ?_, ?_, hrun.trans hhuf⟩
    exacts [hbsy, rfl, rfl]

/-! ### Validation -/

theorem head_of_pseudo : ∀ s ∈ hpphTable, s.head? = some 0x3a := by decide

theorem tokenChar_ne : ∀ c, TokenChar c → c ≠ 0x3a := by
  rintro c hc rfl
  revert hc
  decide

theorem isFieldValue_of_char {c : UInt8} : ValueChar c → isFieldValue c = true :=
  Octets.forall_octet (p := fun c => ValueChar c → isFieldValue c = true) (by decide +kernel) c

theorem Ptr.out_ne_null (off : ℕ) : Ptr.out off ≠ .null := Ptr.noConfusion

/-- A valid name passes the validation. -/
theorem hpvToken_eq {off : ℕ} (hs : hp.str (.out off) s.length = some (s, 0))
    (hv : ValidName s) : hpvToken (.out off) s.length hp = .ok () hp := by
  obtain ⟨hne, hchars⟩ := hv
  rw [hpvToken, assert_bind_pos (Ptr.out_ne_null off),
    assert_bind_pos (List.length_pos_of_ne_nil hne), bind_apply, get_apply, Out.bind_ok, ite_run,
    if_neg (fun h => Ptr.noConfusion h.2), bind_apply, readStr_eq hs, Out.bind_ok]
  dsimp only
  rw [ite_run]
  by_cases hhead : s.head? = some 0x3a
  · have hmem : hpphTable.contains s = true := by
      rw [List.contains_iff_mem]
      refine hchars.resolve_right fun hall => ?_
      exact tokenChar_ne 0x3a (hall _ (List.mem_of_head? hhead)) rfl
    rw [if_pos hhead, ite_run, if_pos hmem, pure_apply]
  · have hall : ∀ c ∈ s, TokenChar c :=
      hchars.resolve_left fun hmem => hhead (head_of_pseudo s hmem)
    have hall' : s.all isTokenChar = true :=
      List.all_eq_true.2 fun c hc => (isTokenChar_iff c).2 (hall c hc)
    rw [if_neg hhead, bind_apply, expect_apply, if_pos hall', Out.bind_ok, assert_apply,
      if_pos rfl]

/-- A valid value passes the validation. -/
theorem hpvValue_eq {off : ℕ} (hs : hp.str (.out off) s.length = some (s, 0))
    (hv : ValidValue s) : hpvValue (.out off) s.length hp = .ok () hp := by
  have hchars : s.all isValueChar = true :=
    List.all_eq_true.2 fun c hc => (isValueChar_iff c).2 (hv c hc)
  have hfield : s.all isFieldValue = true :=
    List.all_eq_true.2 fun c hc => isFieldValue_of_char (hv c hc)
  rw [hpvValue, assert_bind_pos (Ptr.out_ne_null off), bind_apply, readStr_eq hs, Out.bind_ok]
  dsimp only
  rw [bind_apply, expect_apply, if_pos hchars, Out.bind_ok, assert_bind_pos hfield, assert_apply,
    if_pos rfl]

/-! ### Values -/

/-- A string of the working buffer. -/
theorem Hpack.str_out {a b : Octets} (hout : hp.ctx.out = a ++ (s ++ 0 :: b)) :
    hp.str (.out a.length) s.length = some (s, 0) := by
  simp only [Hpack.str, Hpack.at, hout, List.drop_left, List.take_left]

/-- `HPD_notify` gives the name and the value to the application. -/
theorem hpdNotify_eq {nam val : Octets} (hn : nam ≠ []) (hb : hp.ctx.tooBig = false) {i j : ℕ}
    (hfld : hp.ctx.fld = ⟨.out i, .out j, nam.length, val.length⟩)
    (hnam : hp.str (.out i) nam.length = some (nam, 0))
    (hval : hp.str (.out j) val.length = some (val, 0)) :
    hpdNotify hp = .ok () (hp.notify [.name nam, .value val]) := by
  have hnotifies : hp.Notifies := Or.inl hb
  have hnotifies' : (hp.notify [.name nam]).Notifies := Or.inl hb
  rw [hpdNotify, bind_apply, get_apply, Out.bind_ok, hfld, assert_bind_pos (Ptr.out_ne_null i),
    assert_bind_pos (Ptr.out_ne_null j), assert_bind_pos (List.length_pos_of_ne_nil hn), bind_apply,
    readStr_eq hnam, Out.bind_ok]
  dsimp only
  rw [assert_bind_pos rfl, bind_apply, readStr_eq hval, Out.bind_ok]
  dsimp only
  rw [assert_bind_pos rfl, bind_apply, hpcNotify_eq hnotifies, Out.bind_ok,
    hpcNotify_eq hnotifies', Hpack.notify_notify]
  rfl

/-- The length of the string at the end of the working buffer. -/
theorem bufDiff_eq {a : Octets} (hout : hp.ctx.out = a ++ (s ++ [0])) :
    bufDiff (.out a.length) hp = .ok (s.length + 1) hp := by
  have hlen : hp.ctx.out.length = a.length + (s.length + 1) := by
    rw [hout, List.length_append, List.length_append, List.length_singleton]
  rw [bufDiff, bind_apply, get_apply, Out.bind_ok]
  dsimp only
  rw [assert_bind_pos (by omega), pure_apply, hlen, Nat.add_sub_cancel_left]

/-- A value is read, validated and notified with the name before it. -/
theorem hpackDecodeFieldValue_wire {nam val a : Octets} {sz : ℕ} (hv : StrWire val vs)
    (hvalid : ValidValue val) (hn : nam ≠ []) (hb : hp.ctx.tooBig = false)
    (hblk : hp.ctx.blk = vs ++ rest) (hbsy : hp.state.bsy = false)
    (hstp : hp.state.stp = .valLen) (hout : hp.ctx.out = a ++ (nam ++ [0]))
    (hfld : hp.ctx.fld = ⟨.out a.length, .out hp.ctx.out.length, nam.length, sz⟩)
    (hroom : hp.Room (val.length + 1)) :
    ∃ st : State, st.bsy = false ∧ st.stp = .fldInt ∧ hpackDecodeFieldValue hp = .ok ()
      (hp.advance st ⟨.out a.length, .out hp.ctx.out.length, nam.length, val.length⟩ rest
        (val ++ [0]) [.name nam, .value val]) := by
  obtain ⟨st, hst, -, -, hrun⟩ :=
    hpackDecodeString_wire .value hv hblk hbsy (Or.inr hstp) (fun h => by cases h) hroom
  -- the codec after the string, then once the size of the value is set
  generalize hfld' : (⟨.out a.length, .out hp.ctx.out.length, nam.length, val.length⟩ : Fld) = fld'
  have hdiff : bufDiff hp.ctx.fld.val (hp.advance st hp.ctx.fld rest (val ++ [0]) [])
      = .ok (val.length + 1) (hp.advance st hp.ctx.fld rest (val ++ [0]) []) := by
    have hfv : hp.ctx.fld.val = .out hp.ctx.out.length := by rw [hfld]
    rw [hfv]
    exact bufDiff_eq rfl
  have hset : { hp.advance st hp.ctx.fld rest (val ++ [0]) [] with
      ctx.fld.valSz := val.length + 1 - 1 } = hp.advance st fld' rest (val ++ [0]) [] := by
    rw [hfld, ← hfld']
    rfl
  have hnam : (hp.advance st fld' rest (val ++ [0]) []).str (.out a.length) nam.length
      = some (nam, 0) := by
    refine Hpack.str_out (b := val ++ [0]) ?_
    show hp.ctx.out ++ (val ++ [0]) = _
    rw [hout, List.append_assoc, List.append_assoc]
    rfl
  have hval : (hp.advance st fld' rest (val ++ [0]) []).str (.out hp.ctx.out.length) val.length
      = some (val, 0) := Hpack.str_out (b := []) rfl
  have hb' : (hp.advance st fld' rest (val ++ [0]) []).ctx.tooBig = false := hb
  have hcheck : hpvValue fld'.val fld'.valSz (hp.advance st fld' rest (val ++ [0]) [])
      = .ok () (hp.advance st fld' rest (val ++ [0]) []) := by
    rw [← hfld'] at hval ⊢
    exact hpvValue_eq hval hvalid
  have hnotify := hpdNotify_eq hn hb' hfld'.symm hnam hval
  rw [Hpack.notify_eq_advance hb', Hpack.advance_advance, List.append_nil, List.nil_append]
    at hnotify
  refine ⟨{ st with stp := .fldInt }, hst, rfl, ?_⟩
  rw [hpackDecodeFieldValue, bind_apply, hrun, Out.bind_ok, bind_apply, get_apply, Out.bind_ok,
    bind_apply]
  refine (congrArg (fun o => Out.bind o _) hdiff).trans ?_
  rw [Out.bind_ok, bind_apply, modify_apply, Out.bind_ok, hset, bind_apply, get_apply, Out.bind_ok,
    bind_apply]
  refine (congrArg (fun o => Out.bind o _) hcheck).trans ?_
  rw [Out.bind_ok, bind_apply, hnotify, Out.bind_ok, modify_apply]
  rfl

end Cashpack
