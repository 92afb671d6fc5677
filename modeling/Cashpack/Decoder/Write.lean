import Cashpack.Decoder.Memory

/-!
# Writing to the working buffer

What the functions that fill the working buffer of a decoder do to it, and what the checks of a
name or a value say of the strings they accept.

## Main results

* `hpdCat_holds` : octets are written at the end of the buffer, or after the field was moved to
  the front of it.
* `hpdPuts_holds`, `hpdNotify_holds` : copying a string, and notifying a field.
* `hpvToken_holds`, `hpvValue_holds` : a string that passes the checks is a valid name, or a
  valid value.
-/

namespace Cashpack

open Prog

variable {hp hp' : Hpack} {nam tail s : Octets}

/-! ### Writes -/

/-- The codec with more octets in its working buffer. -/
def Hpack.write (hp : Hpack) (s : Octets) : Hpack :=
  { hp with ctx.out := hp.ctx.out ++ s, ctx.bufLen := hp.ctx.bufLen - s.length }

/-- The codec once the field, of which the name is at offset `n`, was moved to the front of the
working buffer. -/
def Hpack.slide (hp : Hpack) (n : ℕ) : Hpack :=
  { hp with
    ctx.tooBig := true
    ctx.org := hp.ctx.arg.buf
    ctx.out := hp.ctx.out.drop n
    ctx.bufLen := hp.ctx.arg.bufLen - (hp.ctx.out.length - n)
    ctx.fld.nam := .out 0
    ctx.fld.val := if hp.ctx.fld.val = .null then .null else .out (hp.ctx.fld.namSz + 1) }

/-- The field is moved to make room for `len` octets. -/
structure Slides (len n : ℕ) (hp : Hpack) : Prop where
  full : hp.ctx.bufLen < len
  nam : hp.ctx.fld.nam = .out n
  moves : hp.ctx.org + n ≠ hp.ctx.arg.buf
  le : n ≤ hp.ctx.out.length
  fits : len + (hp.ctx.out.length - n) ≤ hp.ctx.arg.bufLen

theorem hpdSkip_holds (len : ℕ) (hp : Hpack) :
    (hpdSkip len hp).Holds
      (fun _ hp' => (len ≤ hp.ctx.bufLen ∧ hp' = hp) ∨ ∃ n, Slides len n hp ∧ hp' = hp.slide n)
      (fun hp' => hp.ctx.bufLen < len ∧ hp' = { hp with ctx.tooBig := true, ctx.res := .big })
      fun _ => True := by
  rw [hpdSkip, bind_apply, get_apply, Out.bind_ok, ite_run]
  split
  · exact Or.inl ⟨‹_›, rfl⟩
  rename_i hfull
  rw [bind_apply, modify_apply, Out.bind_ok]
  cases hnam : hp.ctx.fld.nam with
  | out n =>
    dsimp only
    rw [bind_apply, expect_apply]
    split
    swap
    · exact ⟨Nat.lt_of_not_le hfull, rfl⟩
    rename_i hne
    refine .assert_bind trivial fun hle => .assert_bind trivial fun _ => ?_
    rw [bind_apply, expect_apply]
    split
    · exact Or.inr ⟨n, ⟨Nat.lt_of_not_le hfull, hnam, hne, hle, ‹_›⟩, rfl⟩
    · exact ⟨Nat.lt_of_not_le hfull, rfl⟩
  | null => trivial
  | tbl _ => trivial
  | str _ => trivial
  | unknownName => trivial
  | unknownValue => trivial

/-- Octets were written at the end of the buffer, or the field was moved over the previous ones
before that. -/
inductive Wrote (s : Octets) (hp : Hpack) : Hpack → Prop
  | append (h : s.length ≤ hp.ctx.bufLen) : Wrote s hp (hp.write s)
  | slide {n : ℕ} (h : Slides s.length n hp) : Wrote s hp ((hp.slide n).write s)

theorem hpdCat_holds (s : Octets) (hp : Hpack) :
    (hpdCat s hp).Holds (fun _ => Wrote s hp)
      (fun hp' => hp.ctx.bufLen < s.length ∧
        hp' = { hp with ctx.tooBig := true, ctx.res := .big })
      fun _ => True := by
  have hwrite : ∀ hp₁ : Hpack, (hpdWrite s hp₁).Holds (fun _ hp' => hp' = hp₁.write s)
      (fun _ => False) fun _ => True := by
    intro hp₁
    unfold hpdWrite
    split
    · exact rfl
    · trivial
  rw [hpdCat, bind_apply]
  refine (hpdSkip_holds _ hp).bind fun _ hp₁ h => ?_
  refine (hwrite hp₁).mono (fun _ hp' h' => ?_) (fun _ h' => h'.elim) fun _ h' => h'
  rcases h with ⟨hle, rfl⟩ | ⟨n, hs, rfl⟩
  · exact h' ▸ .append hle
  · exact h' ▸ .slide hs

/-! ### Strings -/

/-- The address is in the dynamic table, or is the one of a string outside of the codec. -/
def Ptr.Lasting : Ptr → Prop
  | .tbl _ | .str _ => True
  | _ => False

/-- Such a string does not depend on the working buffer. -/
theorem Hpack.str_lasting {hp' : Hpack} {p : Ptr} (n : ℕ) (hp₀ : p.Lasting)
    (htbl : hp'.tbl = hp.tbl) : hp'.str p n = hp.str p n := by
  cases p with
  | tbl off => simp only [Hpack.str, Hpack.at, htbl]
  | str s => rfl
  | _ => exact hp₀.elim

theorem Hpack.str_str (hp : Hpack) (s : Octets) : hp.str (.str s) s.length = some (s, 0) := by
  simp [Hpack.str, Hpack.at]

theorem holds_readStr {α : Type} {Q : α → Hpack → Prop} {E : Hpack → Prop} {p : Ptr} {n : ℕ}
    {f : Octets × UInt8 → Cp α}
    (h : ∀ s c, hp.str p n = some (s, c) → (f (s, c) hp).Holds Q E fun _ => True) :
    ((readStr p n >>= f) hp).Holds Q E fun _ => True :=
  (holds_readStr_bind (b := False) fun s c hs => (h s c hs).mono (fun _ _ h => h) (fun _ h => h)
    fun _ _ hb => hb.elim).mono (fun _ _ h => h) (fun _ h => h) fun _ _ => trivial

/-- A string that is not the placeholder of a monitor is copied with its terminator. -/
theorem hpdPuts_holds {p : Ptr} (len : ℕ) (hlast : p.Lasting) (hp : Hpack) :
    (hpdPuts p len hp).Holds
      (fun _ hp' => ∃ s, hp.str p len = some (s, 0) ∧ Wrote (s ++ [0]) hp hp')
      (fun hp' => hp' = { hp with ctx.tooBig := true, ctx.res := .big })
      fun _ => True := by
  have h₁ : p ≠ .unknownName := by
    rintro rfl
    exact hlast
  have h₂ : p ≠ .unknownValue := by
    rintro rfl
    exact hlast
  rw [hpdPuts, bind_apply, get_apply, Out.bind_ok, ite_run, if_neg h₁, ite_run, if_neg h₂]
  refine holds_readStr fun s c hs => .assert_bind trivial fun hc => ?_
  obtain rfl : c = 0 := hc
  exact (hpdCat_holds _ hp).mono (fun _ _ h => ⟨s, hs, h⟩) (fun _ h => h.2) fun _ h => h

theorem hpdNotify_holds (hp : Hpack) :
    (hpdNotify hp).Holds
      (fun _ hp' => 0 < hp.ctx.fld.namSz ∧ ∃ nam val,
        hp.str hp.ctx.fld.nam hp.ctx.fld.namSz = some (nam, 0) ∧
        hp.str hp.ctx.fld.val hp.ctx.fld.valSz = some (val, 0) ∧
        hp' = hp.notify [.name nam, .value val])
      (fun _ => False) fun _ => True := by
  rw [hpdNotify, bind_apply, get_apply, Out.bind_ok]
  refine .assert_bind trivial fun _ => .assert_bind trivial fun _ => ?_
  refine .assert_bind trivial fun hpos => holds_readStr fun nam c hnam => ?_
  refine .assert_bind trivial fun hc => holds_readStr fun val c' hval => ?_
  refine .assert_bind trivial fun hc' => ?_
  obtain rfl : c = 0 := hc
  obtain rfl : c' = 0 := hc'
  rw [bind_apply]
  refine ((hpcNotify_holds (b := False) (.name nam)).mono (fun _ _ h => h) (fun _ h => h)
    fun _ _ => trivial).bind fun _ hp₁ h₁ => ?_
  subst h₁
  refine (hpcNotify_holds (b := False) (.value val)).mono (fun _ hp' h => ?_) (fun _ h => h)
    fun _ _ => trivial
  rw [Hpack.notify_notify] at h
  exact ⟨hpos, nam, val, hnam, hval, h⟩

/-! ### Fields in the working buffer -/

/-- The name of the field being decoded is in the working buffer, before `tail`. -/
def Laid (nam tail : Octets) (hp : Hpack) : Prop :=
  ∃ n, hp.ctx.fld.nam = .out n ∧ hp.ctx.out.drop n = nam ++ tail ∧ hp.ctx.fld.namSz = nam.length

theorem Laid.wrote (h : Laid nam tail hp) (htail : tail ≠ []) (hw : Wrote s hp hp') :
    Laid nam (tail ++ s) hp' := by
  obtain ⟨n, hnam, hout, hsz⟩ := h
  have hlt : n < hp.ctx.out.length := by
    by_contra hge
    rw [List.drop_eq_nil_of_le (by omega)] at hout
    exact htail (List.append_eq_nil_iff.1 hout.symm).2
  cases hw with
  | append _ =>
    refine ⟨n, hnam, ?_, hsz⟩
    show (hp.ctx.out ++ s).drop n = _
    rw [List.drop_append_of_le_length (by omega), hout, List.append_assoc]
  | @slide m hs =>
    obtain rfl : m = n := Ptr.out.inj (hs.nam.symm.trans hnam)
    refine ⟨0, rfl, ?_, hsz⟩
    show hp.ctx.out.drop m ++ s = _
    rw [hout, List.append_assoc]

/-- What is read of a name that is in the working buffer. -/
theorem Laid.str {c : UInt8} (h : Laid nam (c :: tail) hp) :
    hp.str hp.ctx.fld.nam hp.ctx.fld.namSz = some (nam, c) := by
  obtain ⟨n, hnam, hout, hsz⟩ := h
  simp [Hpack.str, Hpack.at, hnam, hout, hsz]

/-- A string that can be read in the working buffer is laid there. -/
theorem laid_of_str {n : ℕ} {c : UInt8} (hnam : hp.ctx.fld.nam = .out n)
    (h : hp.str hp.ctx.fld.nam hp.ctx.fld.namSz = some (nam, c)) : ∃ tail, Laid nam (c :: tail) hp := by
  have hlen := Hpack.str_length h
  rw [hnam, Hpack.str, Hpack.at] at h
  dsimp only at h
  cases hd : (hp.ctx.out.drop n).drop hp.ctx.fld.namSz with
  | nil =>
    rw [hd] at h
    cases h
  | cons b tail =>
    rw [hd] at h
    obtain ⟨rfl, rfl⟩ := Prod.mk.inj (Option.some.inj h)
    refine ⟨tail, n, hnam, ?_, hlen.symm⟩
    rw [← hd, List.take_append_drop]

theorem bufDiff_holds (p : Ptr) (hp : Hpack) :
    (bufDiff p hp).Holds
      (fun d hp' => hp' = hp ∧ ∃ n, p = .out n ∧ n < hp.ctx.out.length ∧ d = hp.ctx.out.length - n)
      (fun _ => False) fun _ => True := by
  rw [bufDiff, bind_apply, get_apply, Out.bind_ok]
  cases p with
  | out n => exact .assert_bind trivial fun hlt => ⟨rfl, n, rfl, hlt, rfl⟩
  | null => trivial
  | tbl _ => trivial
  | str _ => trivial
  | unknownName => trivial
  | unknownValue => trivial

/-- The codec once the name of a field, of `n` octets, starts in the working buffer. -/
def Hpack.startName (hp : Hpack) (n : ℕ) : Hpack :=
  { hp with ctx.fld.nam := .out hp.ctx.out.length, ctx.fld.namSz := n }

/-- The codec once the value of a field, of `n` octets, starts in the working buffer. -/
def Hpack.startValue (hp : Hpack) (n : ℕ) : Hpack :=
  { hp with ctx.fld.val := .out hp.ctx.out.length, ctx.fld.valSz := n }

theorem laid_startName (hw : Wrote (nam ++ [0]) (hp.startName nam.length) hp') :
    Laid nam [0] hp' := by
  cases hw with
  | append _ =>
    refine ⟨_, rfl, ?_, rfl⟩
    show (hp.ctx.out ++ (nam ++ [0])).drop hp.ctx.out.length = _
    simp
  | slide h =>
    obtain rfl := Ptr.out.inj h.nam
    refine ⟨0, rfl, ?_, rfl⟩
    show hp.ctx.out.drop hp.ctx.out.length ++ (nam ++ [0]) = _
    simp

/-- A value written after its name can be read there. -/
theorem str_startValue {val : Octets} (h : Laid nam [0] hp)
    (hw : Wrote (val ++ [0]) (hp.startValue val.length) hp') :
    hp'.str hp'.ctx.fld.val hp'.ctx.fld.valSz = some (val, 0) := by
  obtain ⟨n, hnam, hout, hsz⟩ := h
  cases hw with
  | append _ =>
    simp [Hpack.write, Hpack.startValue, Hpack.str, Hpack.at]
  | slide h =>
    obtain rfl : _ = n := Ptr.out.inj (h.nam.symm.trans hnam)
    simp [Hpack.slide, Hpack.write, Hpack.startValue, Hpack.str, Hpack.at, hout, hsz]

/-- `HPT_decode` on an entry that is in a table. -/
theorem hptDecode_holds {idx : ℕ} {hf : HptField} {val : Octets} (hidx : 0 < idx)
    (hfield : hptField idx hp = .ok hf hp) (hlnam : hf.nam.Lasting) (hlval : hf.val.Lasting)
    (hnam : hp.str hf.nam hf.namSz = some (nam, 0))
    (hval : hp.str hf.val hf.valSz = some (val, 0)) :
    (hptDecode idx hp).Holds
      (fun _ hp' => ∃ hp₁ hp₂, Wrote (nam ++ [0]) (hp.startName nam.length) hp₁ ∧
        Wrote (val ++ [0]) (hp₁.startValue val.length) hp₂ ∧
        hp' = hp₂.notify [.name nam, .value val])
      (fun hp' => ∃ hp₁ : Hpack, (hp₁ = hp.startName nam.length ∨
        ∃ hp₀, Wrote (nam ++ [0]) (hp.startName nam.length) hp₀ ∧
          hp₁ = hp₀.startValue val.length) ∧
        hp' = { hp₁ with ctx.tooBig := true, ctx.res := .big })
      fun _ => True := by
  have hnlen : hf.namSz = nam.length := (Hpack.str_length hnam).symm
  have hvlen : hf.valSz = val.length := (Hpack.str_length hval).symm
  rw [hptDecode, bind_apply, expect_apply, if_pos hidx, Out.bind_ok, bind_apply, hfield, Out.bind_ok]
  refine .assert_bind trivial fun _ => .assert_bind trivial fun _ => .assert_bind trivial fun _ => ?_
  rw [bind_apply, modify_apply, Out.bind_ok, bind_apply, hnlen]
  refine ((hpdPuts_holds _ hlnam (hp.startName nam.length)).mono (fun _ _ h => h) (fun _ h => ?_)
    fun _ h => h).bind ?_
  · exact ⟨_, Or.inl rfl, h⟩
  rintro _ hp₁ ⟨nam', hnam', hw₁⟩
  obtain rfl : nam = nam' := by
    have h : (hp.startName nam.length).str hf.nam nam.length = hp.str hf.nam nam.length :=
      Hpack.str_lasting nam.length hlnam rfl
    rw [h, ← hnlen, hnam] at hnam'
    exact (Prod.mk.inj (Option.some.inj hnam')).1
  have htbl : (hp₁.startValue val.length).tbl = hp.tbl := by
    cases hw₁ <;> rfl
  rw [bind_apply, modify_apply, Out.bind_ok, bind_apply, hvlen]
  refine ((hpdPuts_holds _ hlval (hp₁.startValue val.length)).mono (fun _ _ h => h)
    (fun _ h => ?_) fun _ h => h).bind ?_
  · exact ⟨_, Or.inr ⟨hp₁, hw₁, rfl⟩, h⟩
  rintro _ hp₂ ⟨val', hval', hw₂⟩
  obtain rfl : val = val' := by
    rw [Hpack.str_lasting _ hlval htbl, ← hvlen, hval] at hval'
    exact (Prod.mk.inj (Option.some.inj hval')).1
  have hlaid₁ : Laid nam [0] hp₁ := laid_startName hw₁
  have hlaid₂ := (show Laid nam [0] (hp₁.startValue val.length) from hlaid₁).wrote
    (List.cons_ne_nil _ _) hw₂
  have hval₂ := str_startValue hlaid₁ hw₂
  refine (hpdNotify_holds hp₂).mono ?_ (fun _ h => h.elim) fun _ h => h
  rintro _ hp' ⟨-, nam', val', hn, hv, h⟩
  obtain rfl : nam = nam' := (Prod.mk.inj (Option.some.inj (hlaid₂.str.symm.trans hn))).1
  obtain rfl : val = val' := (Prod.mk.inj (Option.some.inj (hval₂.symm.trans hv))).1
  exact ⟨hp₁, hp₂, hw₁, hw₂, h⟩

/-! ### Validation -/

/-- The characters of a token, less the upper-case letters. -/
def TokenChar (c : UInt8) : Prop :=
  (0x61 ≤ c ∧ c ≤ 0x7a) ∨ (0x30 ≤ c ∧ c ≤ 0x39) ∨
    c ∈ ([0x21, 0x23, 0x24, 0x25, 0x26, 0x27, 0x2a, 0x2b, 0x2d, 0x2e, 0x5e, 0x5f, 0x60, 0x7c,
      0x7e] : Octets)

/-- The characters of a value. -/
def ValueChar (c : UInt8) : Prop := c = 0x09 ∨ (0x20 ≤ c ∧ c ≤ 0x7e) ∨ 0x80 ≤ c

instance (c : UInt8) : Decidable (TokenChar c) := by unfold TokenChar; infer_instance

instance (c : UInt8) : Decidable (ValueChar c) := by unfold ValueChar; infer_instance

/-- A pseudo-header or a token in lower case. -/
def ValidName (s : Octets) : Prop := s ≠ [] ∧ (s ∈ hpphTable ∨ ∀ c ∈ s, TokenChar c)

/-- A value that can be written in a header. -/
def ValidValue (s : Octets) : Prop := ∀ c ∈ s, ValueChar c

instance (s : Octets) : Decidable (ValidValue s) := List.decidableBAll ValueChar s

instance (s : Octets) : Decidable (ValidName s) :=
  have : Decidable (∀ c ∈ s, TokenChar c) := List.decidableBAll TokenChar s
  inferInstanceAs (Decidable (s ≠ [] ∧ (s ∈ hpphTable ∨ ∀ c ∈ s, TokenChar c)))

theorem isTokenChar_iff (c : UInt8) : isTokenChar c = true ↔ TokenChar c :=
  Octets.forall_octet (p := fun c => isTokenChar c = true ↔ TokenChar c) (by decide +kernel) c

theorem isValueChar_iff (c : UInt8) : isValueChar c = true ↔ ValueChar c :=
  Octets.forall_octet (p := fun c => isValueChar c = true ↔ ValueChar c) (by decide +kernel) c

/-- Neither the end of a string nor the end of a line. -/
def NoBreak (s : Octets) : Prop := 0x00 ∉ s ∧ 0x0d ∉ s ∧ 0x0a ∉ s

theorem ValidName.noBreak {s : Octets} (h : ValidName s) : NoBreak s := by
  obtain ⟨-, h | h⟩ := h
  · have hall : ∀ s ∈ hpphTable, 0x00 ∉ s ∧ 0x0d ∉ s ∧ 0x0a ∉ s := by decide
    exact hall s h
  · refine ⟨fun hc => ?_, fun hc => ?_, fun hc => ?_⟩
    · exact absurd (h _ hc) (by decide)
    · exact absurd (h _ hc) (by decide)
    · exact absurd (h _ hc) (by decide)

theorem ValidValue.noBreak {s : Octets} (h : ValidValue s) : NoBreak s := by
  refine ⟨fun hc => ?_, fun hc => ?_, fun hc => ?_⟩
  · exact absurd (h _ hc) (by decide)
  · exact absurd (h _ hc) (by decide)
  · exact absurd (h _ hc) (by decide)

/-- A value that passes the check is valid. -/
theorem hpvValue_holds (p : Ptr) (len : ℕ) (hp : Hpack) :
    (hpvValue p len hp).Holds
      (fun _ hp' => hp' = hp ∧ ∃ s, hp.str p len = some (s, 0) ∧ ValidValue s)
      (fun hp' => hp' = { hp with ctx.res := .chr }) fun _ => True := by
  refine .assert_bind trivial fun _ => holds_readStr fun s c hs => ?_
  dsimp only
  rw [bind_apply, expect_apply]
  split
  swap
  · exact rfl
  rename_i hall
  refine .assert_bind trivial fun _ => ?_
  rw [assert_apply]
  split
  · rename_i hc
    obtain rfl : c = 0 := hc
    exact ⟨rfl, s, hs, fun b hb => (isValueChar_iff b).1 (List.all_eq_true.1 hall b hb)⟩
  · trivial

/-- A name that passes the check of a decoder that is not a monitor is valid. -/
theorem hpvToken_holds (p : Ptr) (len : ℕ) (hmon : hp.mon = false) :
    (hpvToken p len hp).Holds
      (fun _ hp' => hp' = hp ∧ ∃ s c, hp.str p len = some (s, c) ∧ ValidName s)
      (fun hp' => hp' = { hp with ctx.res := .hdr } ∨ hp' = { hp with ctx.res := .chr })
      fun _ => True := by
  refine .assert_bind trivial fun _ => .assert_bind trivial fun hlen => ?_
  rw [bind_apply, get_apply, Out.bind_ok, ite_run]
  split
  · rw [assert_apply, if_neg (by simp [hmon])]
    trivial
  refine holds_readStr fun s c hs => ?_
  have hne : s ≠ [] := by
    rintro rfl
    exact absurd (Hpack.str_length hs) (by simp; omega)
  dsimp only
  rw [ite_run]
  split
  · rw [ite_run]
    split
    · rename_i hin
      exact ⟨rfl, s, c, hs, hne, Or.inl (by simpa using hin)⟩
    · exact Or.inl rfl
  · rw [bind_apply, expect_apply]
    split
    swap
    · exact Or.inr rfl
    rename_i hall
    rw [Out.bind_ok, assert_apply]
    split
    · exact ⟨rfl, s, c, hs, hne, Or.inr fun b hb =>
        (isTokenChar_iff b).1 (List.all_eq_true.1 hall b hb)⟩
    · trivial

end Cashpack
