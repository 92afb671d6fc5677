import Cashpack.Decoder.Update

/-!
# The memory of a decoder

A decoder allocates memory when it is resized, long before a size update of the peer makes use
of it.  `Table.Fits` relates the memory to the limits in force and to the limit to come; every
call keeps it but `hpack_trim`, which gives back the memory of a resize that was not signalled
yet.  What does not depend on the memory holds in every state.

## Main results

* `decoder_sound` : in every state a decoder reaches, the table holds a list of entries
  and keeps to its limit.
* `decoder_fits` : under the condition that no such memory is given back, the table fits in its
  memory in every state reached, and no access goes past the end of it.
-/

namespace Cashpack

open Prog Fifo

/-- A table that keeps to its limit.  When `b` holds, the limit in force and the limit to come
fit in the memory of the table. -/
structure Table.Fits (b : Prop) (t : Table) : Prop where
  rep : ∃ l, t.Rep l
  len_le : t.sz.len ≤ t.sz.limit
  lim_le : t.sz.lim ≤ t.sz.max
  mem : t.tbl.length = t.sz.mem
  mem_le : t.sz.mem ≤ uint16Max
  /-- The resizes not signalled yet. -/
  pend : (t.sz.min < 0 ∧ t.sz.nxt < 0) ∨ (0 ≤ t.sz.min ∧ t.sz.min ≤ t.sz.nxt)
  max_le : b → t.sz.max ≤ t.sz.mem
  nxt_le : b → t.sz.nxt ≤ t.sz.mem

theorem Size.limit_le_max {sz : Size} (h : sz.lim ≤ sz.max) : sz.limit ≤ sz.max := by
  unfold Size.limit
  split <;> omega

variable {b : Prop}

namespace Table.Fits

variable {t t' : Table}

theorem limit_le (h : t.Fits b) (hb : b) : t.sz.limit ≤ t.sz.mem :=
  (Size.limit_le_max h.lim_le).trans (h.max_le hb)

/-- Only the table and its length change, and the table keeps to the limit. -/
theorem of_rep {l : List Entry} (h : t.Fits b) (hrep : t'.Rep l)
    (hle : total Entry.size l ≤ t.sz.limit) (hlen : t'.tbl.length = t.tbl.length)
    (hsz : t'.sz = { t.sz with len := total Entry.size l }) : t'.Fits b where
  rep := ⟨l, hrep⟩
  len_le := by rw [hsz]; exact hle
  lim_le := by rw [hsz]; exact h.lim_le
  mem := by rw [hlen, hsz]; exact h.mem
  mem_le := by rw [hsz]; exact h.mem_le
  pend := by rw [hsz]; exact h.pend
  max_le := by rw [hsz]; exact h.max_le
  nxt_le := by rw [hsz]; exact h.nxt_le

end Table.Fits

/-! ### Decoding -/

variable {hp : Hpack} {Q : Fld → Prop}

theorem fits_hptField (idx : ℕ) :
    Keeps (InBounds b) (Hpack.Inv (OnDecoder (Table.Fits b)) Q) (hptField idx) := by
  intro hp h
  obtain ⟨l, hrep⟩ := h.1.1.rep
  refine (hptField_holds hrep idx).mono (fun _ hp' h' => ?_) (fun hp' h' => ?_) fun _ h' => h'
  · exact h' ▸ h
  · exact h' ▸ h

theorem fits_hptIndex :
    Keeps (InBounds b) (Hpack.Inv (OnDecoder (Table.Fits b)) Fld.Ext) hptIndex := by
  rintro hp ⟨⟨h', hm⟩, hext⟩
  have h : hp.toTable.Fits b := h'
  obtain ⟨l, hrep⟩ := h.rep
  have hmem : b → hp.sz.limit ≤ hp.tbl.length := fun hb => h.mem ▸ h.limit_le hb
  refine (hptIndex_holds hrep hext h.lim_le hmem).mono ?_ (fun _ h' => h'.elim) fun _ h' => h'
  rintro _ _ ⟨e, t, -, -, rfl, hrep', hlen, hsz⟩
  exact ⟨⟨h.of_rep hrep' (total_fit_le _ _) hlen hsz, hm⟩, hext⟩

/-- Right after the last update of a resize, the table may be longer than its new limit. -/
theorem ResizeStep.allocated {n : ℕ} {hp hp' : Hpack} (h : hp.toTable.Fits b)
    (hs : ResizeStep n hp hp') :
    hp'.sz.lim ≤ hp'.sz.max ∧ hp'.sz.mem = hp.sz.mem ∧ (b → hp'.sz.max ≤ hp'.sz.mem) ∧
      (b → hp'.sz.nxt ≤ hp'.sz.mem) ∧
      ((hp'.sz.min < 0 ∧ hp'.sz.nxt < 0) ∨ (0 ≤ hp'.sz.min ∧ hp'.sz.min ≤ hp'.sz.nxt)) ∧
      (hp'.sz.limit = hp.sz.limit ∨ n ≤ hp'.sz.max) := by
  have h₁ := h.lim_le
  have h₂ := h.max_le
  have h₃ := h.nxt_le
  have h₄ := h.pend
  cases hs with
  | none hmin => exact ⟨h₁, rfl, h₂, h₃, h₄, Or.inl rfl⟩
  | min hmin hlt hn =>
    refine ⟨h₁, rfl, h₂, h₃, Or.inr ⟨?_, le_refl _⟩, Or.inl rfl⟩
    simp only
    omega
  | nxt hmin heq hn =>
    refine ⟨?_, rfl, fun hb => ?_, fun _ => ?_, Or.inl ⟨?_, ?_⟩, Or.inr ?_⟩
    · simp only
      omega
    · have := h₃ hb
      simp only
      omega
    · simp only
      omega
    · exact neg_one_lt_zero
    · exact neg_one_lt_zero
    · simp only
      omega

theorem fits_hpackDecodeSize (n : ℕ) :
    Keeps (InBounds b) (Hpack.Inv (OnDecoder (Table.Fits b)) Q)
      (do hpackDecodeResize n; hpackDecodeLimit n) := by
  rintro hp ⟨⟨h', hm⟩, hQ⟩
  have h : hp.toTable.Fits b := h'
  obtain ⟨l, hrep⟩ := h.rep
  have hcases := hpackDecodeResize_cases (b := b) n hp
  rw [bind_apply]
  refine (hcases.mono (fun _ _ h' => h') (fun hp' h' => ?_) fun _ h' => h').bind ?_
  · exact h' ▸ ⟨⟨h, hm⟩, hQ⟩
  rintro _ hp₁ hs
  obtain ⟨h₁, hmem, h₂, h₃, h₄, hlen⟩ := hs.allocated h
  have hrep₁ : hp₁.toTable.Rep l := by
    cases hs <;> exact ⟨hrep.cnt, hrep.len, hrep.mem⟩
  have hsame : hp₁.tbl = hp.tbl ∧ hp₁.sz.len = hp.sz.len ∧ hp₁.ctx.fld = hp.ctx.fld ∧
      hp₁.magic = hp.magic := by
    cases hs <;> exact ⟨rfl, rfl, rfl, rfl⟩
  obtain ⟨htbl, hlen', hfld, hmagic⟩ := hsame
  have hm₁ : hp₁.magic ≠ .encoder := hmagic ▸ hm
  have hmem₁ : hp₁.tbl.length = hp₁.sz.mem := by
    rw [htbl, hmem]
    exact h.mem
  have hmem_le : hp₁.sz.mem ≤ uint16Max := hmem ▸ h.mem_le
  refine (hpackDecodeLimit_holds hrep₁).mono ?_ ?_ fun _ h' => h'
  · rintro _ _ ⟨hle, rfl⟩
    refine ⟨⟨⟨⟨_, hrep₁.limitTo n⟩, ?_, ?_, hmem₁, hmem_le, h₄, h₂, h₃⟩, hm₁⟩, ?_⟩
    · exact (total_fit_le n l).trans (Size.limit_natCast _ n).ge
    · exact Int.ofNat_le.2 hle
    · exact hfld.symm ▸ hQ
  · rintro _ ⟨hlt, rfl⟩
    refine ⟨⟨⟨⟨l, hrep₁⟩, ?_, h₁, hmem₁, hmem_le, h₄, h₂, h₃⟩, hm₁⟩, hfld.symm ▸ hQ⟩
    have := h.len_le
    rcases hlen with hlen | hlen
    · exact hlen' ▸ hlen ▸ this
    · omega

theorem fits_hpackDecodeUpdate :
    Keeps (InBounds b) (Hpack.Inv (OnDecoder (Table.Fits b)) Q) hpackDecodeUpdate :=
  .bind .get fun _ => .bind (keeps_expect _ _) fun _ => .bind (keeps_hpiDecode _) fun n =>
    fits_hpackDecodeSize n

/-! ### The other calls -/

/-- More or less memory, as long as the table and the limits fit. -/
theorem Table.Fits.move {t : Table} (h : t.Fits b) {n : ℕ} (junk : Octets) (hlen : t.sz.len ≤ n)
    (hn : n ≤ uint16Max) (hmax : b → t.sz.max ≤ n) (hnxt : b → t.sz.nxt ≤ n)
    (hjunk : (t.tbl.take n ++ junk).length = n) :
    Table.Fits b { t with tbl := t.tbl.take n ++ junk, sz.mem := n } where
  rep := by
    obtain ⟨l, hrep⟩ := h.rep
    exact ⟨l, hrep.move junk hlen⟩
  len_le := h.len_le
  lim_le := h.lim_le
  mem := hjunk
  mem_le := hn
  pend := h.pend
  max_le := hmax
  nxt_le := hnxt

/-- The entries of the table stay the same. -/
theorem rep_hpackRealloc (l : List Entry) (mem : ℕ) (re : Option Block) :
    Keeps (fun _ => True) (fun hp : Hpack => hp.toTable.Rep l) (hpackRealloc mem re) := by
  refine .get_bind fun hp h => ?_
  rw [ite_run]
  split
  · exact h
  refine .assert_bind trivial fun hlen => ?_
  rw [ite_run]
  split
  · exact h
  · cases re with
    | none => exact h
    | some blk => exact h.move _ hlen

theorem rep_hpackResize (l : List Entry) (len : ℕ) (re : Option Block) :
    Keeps (fun _ => True) (fun hp : Hpack => hp.toTable.Rep l) (hpackResize len re) := by
  refine .bind .get fun hp => .ite (fun _ => .pure _) fun _ => ?_
  refine .ite (fun _ => .bind (.assert _ trivial) fun _ => .pure _) fun _ => ?_
  refine .bind ((reads_hpackResizeMem _ _).keeps fun _ => trivial) fun mem => ?_
  have hdefunct : Keeps (fun _ => True) (fun hp : Hpack => hp.toTable.Rep l)
      (modify fun hp => { hp with magic := .defunct }) := .modify fun _ h => h
  refine .ite (fun _ => .bind hdefunct fun _ => .pure _) fun _ => ?_
  refine .bind (rep_hpackRealloc l _ _) fun res => .ite (fun _ => ?_) fun _ => ?_
  · exact .bind hdefunct fun _ => .pure _
  refine .bind (.bind .get fun hp => .ite (fun _ => ?_) fun _ => ?_) fun _ => .pure _
  · exact .bind (.assert _ trivial) fun _ => .modify fun _ h => h.congr rfl rfl rfl
  · exact .bind (.assert _ trivial) fun _ => .modify fun _ h => h.congr rfl rfl rfl

/-- Trimming keeps the entries, which fit in the memory that is left. -/
theorem hpackTrim_rep {l : List Entry} {re : Option Block} (h : hp.toTable.Rep l)
    (hlen : hp.sz.len ≤ if hp.magic = .encoder then hp.sz.limit else hp.sz.max) :
    (hpackTrim re hp).Holds (fun _ hp' => hp'.toTable.Rep l) (fun _ => False) fun _ => True := by
  rw [hpackTrim, bind_apply, get_apply, Out.bind_ok, ite_run]
  split
  · exact h
  rw [ite_run]
  split
  · exact h
  rw [ite_run]
  split
  · exact .assert_bind trivial fun _ => h
  refine .assert_bind trivial fun _ => ?_
  generalize (if hp.magic = .encoder then hp.sz.limit else hp.sz.max) = max at hlen ⊢
  rw [ite_run]
  split
  · cases re with
    | none => exact h
    | some blk => exact h.move _ hlen
  · exact h

theorem fits_hpackRealloc {mem : ℕ} (re : Option Block) (h : hp.toTable.Fits b)
    (hle : mem ≤ uint16Max) :
    (hpackRealloc mem re hp).Holds
      (fun r hp' => hp'.toTable.Fits b ∧ hp'.ctx.fld = hp.ctx.fld ∧ hp'.magic = hp.magic ∧
        (r = .ok → mem ≤ hp'.sz.mem))
      (fun _ => False) (InBounds b) := by
  unfold hpackRealloc
  rw [bind_apply, get_apply, Out.bind_ok, ite_run]
  split
  · exact ⟨h, rfl, rfl, fun _ => ‹_›⟩
  · rename_i hlt
    refine .assert_bind InBounds.abort fun hlen => ?_
    rw [ite_run]
    split
    · exact ⟨h, rfl, rfl, Res.noConfusion⟩
    · cases re with
      | none => exact ⟨h, rfl, rfl, Res.noConfusion⟩
      | some blk =>
        have h₁ := h.max_le
        have h₂ := h.nxt_le
        have h₃ := h.mem
        refine ⟨h.move _ hlen hle (fun hb => ?_) (fun hb => ?_) ?_, rfl, rfl, fun _ => le_refl _⟩
        · have := h₁ hb
          omega
        · have := h₂ hb
          omega
        · simp only [List.length_append, List.length_take, Block.length_octets]
          omega

theorem toSsize_of_le {n : ℕ} (h : n ≤ uint16Max) : toSsize n = n := by
  unfold toSsize uint16Max at *
  rw [if_pos (by omega)]

/-- A resize is recorded next to those that were not signalled. -/
theorem fits_hpackResizeRecord {n : ℕ} (hle : n ≤ uint16Max) (h : hp.toTable.Fits b)
    (hn : n ≤ hp.sz.mem) :
    (hpackResizeRecord n hp).Holds
      (fun _ hp' => hp'.toTable.Fits b ∧ hp'.ctx.fld = hp.ctx.fld ∧ hp'.magic = hp.magic)
      (fun _ => False) (InBounds b) := by
  unfold hpackResizeRecord
  rw [bind_apply, get_apply, Out.bind_ok, ite_run, toSsize_of_le hle]
  have hnxt : (n : ℤ) ≤ hp.sz.mem := Int.ofNat_le.2 hn
  obtain ⟨l, hrep⟩ := h.rep
  split
  · refine .assert_bind InBounds.abort fun _ => ⟨⟨⟨l, hrep.congr rfl rfl rfl⟩, h.len_le, h.lim_le,
      h.mem, h.mem_le, Or.inr ⟨?_, le_refl _⟩, h.max_le, fun _ => hnxt⟩, rfl, rfl⟩
    exact Int.natCast_nonneg n
  · refine .assert_bind InBounds.abort fun _ => ⟨⟨⟨l, hrep.congr rfl rfl rfl⟩, h.len_le, h.lim_le,
      h.mem, h.mem_le, Or.inr ⟨?_, ?_⟩, h.max_le, fun _ => hnxt⟩, rfl, rfl⟩
    · simp only
      split <;> omega
    · simp only
      split <;> omega

theorem fits_hpackResize (len : ℕ) (re : Option Block) :
    Keeps (InBounds b) (Hpack.Inv (OnDecoder (Table.Fits b)) Q) (hpackResize len re) := by
  refine .get_bind fun hp hinv => ?_
  obtain ⟨⟨h', hm⟩, hQ⟩ := hinv
  have h : hp.toTable.Fits b := h'
  have hm' : hp.magic ≠ .encoder := hm
  have hmax : (if hp.realloc = false then hp.sz.mem else uint16Max) ≤ uint16Max := by
    have := h.mem_le
    split <;> omega
  generalize (if hp.realloc = false then hp.sz.mem else uint16Max) = max at hmax
  have hmem : hpackResizeMem len max hp = .ok len hp := by
    simp only [hpackResizeMem, bind_apply, get_apply, Out.bind_ok, hm', if_false, pure_apply]
  rw [ite_run]
  split
  · exact ⟨⟨h, hm⟩, hQ⟩
  rw [ite_run]
  split
  · exact .assert_bind InBounds.abort fun _ => ⟨⟨h, hm⟩, hQ⟩
  rw [bind_apply, hmem, Out.bind_ok, ite_run]
  split
  · exact ⟨⟨h, Magic.noConfusion⟩, hQ⟩
  have hle : len ≤ uint16Max := by omega
  rw [bind_apply]
  refine ((fits_hpackRealloc re h hle).mono (fun _ _ h' => h') (fun _ h' => h'.elim)
    fun _ h' => h').bind ?_
  rintro r hp' ⟨hfits, hfld, hmagic, hok⟩
  have hQ' : Q hp'.ctx.fld := hfld.symm ▸ hQ
  have hm' : hp'.magic ≠ .encoder := hmagic ▸ hm
  rw [ite_run]
  split
  · exact ⟨⟨hfits, Magic.noConfusion⟩, hQ'⟩
  rename_i hr
  rw [bind_apply]
  refine ((fits_hpackResizeRecord hle hfits (hok (by tauto))).mono (fun _ _ h' => h')
    (fun _ h' => h'.elim) fun _ h' => h').bind ?_
  rintro _ hp'' ⟨hfits', hfld', hmagic'⟩
  exact ⟨⟨hfits', show hp''.magic ≠ .encoder from hmagic' ▸ hm'⟩, show Q hp''.ctx.fld from
    hfld'.symm ▸ hQ'⟩

/-- The call does not give back memory that a resize not signalled yet will need. -/
def TrimOk (op : DecOp) (hp : Hpack) : Prop :=
  match op with
  | .trim (some _) => hp.magic = .decoder → hp.realloc = true → hp.ctx.res = .ok →
      hp.sz.nxt ≤ hp.sz.max
  | _ => True

theorem fits_hpackTrim {re : Option Block} (h : Hpack.Inv (OnDecoder (Table.Fits b)) Q hp)
    (htrim : b → TrimOk (.trim re) hp) :
    (hpackTrim re hp).Holds (fun _ => Hpack.Inv (OnDecoder (Table.Fits b)) Q)
      (Hpack.Inv (OnDecoder (Table.Fits b)) Q) (InBounds b) := by
  obtain ⟨⟨h', hm⟩, hQ⟩ := h
  have h : hp.toTable.Fits b := h'
  have hm' : hp.magic ≠ .encoder := hm
  unfold hpackTrim
  rw [bind_apply, get_apply, Out.bind_ok, ite_run]
  split
  · exact ⟨⟨h, hm⟩, hQ⟩
  rename_i hre
  rw [ite_run]
  split
  · exact ⟨⟨h, hm⟩, hQ⟩
  rename_i hmagic
  rw [ite_run]
  split
  · exact .assert_bind InBounds.abort fun _ => ⟨⟨h, hm⟩, hQ⟩
  rename_i hres
  refine .assert_bind InBounds.abort fun _ => ?_
  simp only [ite_run]
  split
  · cases re with
    | none => exact ⟨⟨h, hm⟩, hQ⟩
    | some blk =>
      rename_i hlt
      have hlen := h.len_le.trans (Size.limit_le_max h.lim_le)
      have hmem := h.mem
      have hmem_le := h.mem_le
      refine ⟨⟨h.move (blk.octets hp.tbl.length (hp.sz.max - hp.tbl.length)) hlen (by omega)
        (fun _ => le_refl _) (fun hb => ?_) ?_, hm⟩, hQ⟩
      · exact htrim hb (by tauto) (by simpa using hre) (by tauto)
      · simp only [List.length_append, List.length_take, Block.length_octets]
        omega
  · exact ⟨⟨h, hm⟩, hQ⟩

theorem fits_hpackForeach (static dynamic : Bool) :
    Keeps (InBounds b) (Hpack.Inv (OnDecoder (Table.Fits b)) Fld.Ext)
      (hpackForeach static dynamic) := by
  refine .bind .get fun hp => .ite (fun _ => .pure _) fun _ => ?_
  refine .bind (fun hp' h => ⟨h.1, fun _ => Ptr.noConfusion, fun _ => Ptr.noConfusion⟩) fun _ => ?_
  refine .bind (.when fun _ => keeps_hpcNotifyAll _) fun _ => .bind (.when fun _ => ?_) fun _ =>
    .pure _
  refine .bind (fun hp' h => ?_) fun evts => keeps_hpcNotifyAll _
  obtain ⟨l, hrep⟩ := h.1.1.rep
  have hrep' : hp'.toTable.Rep l := hrep
  rw [onTable_eq (hptForeach_eq hrep')]
  exact h

/-! ### Runs -/

/-- The state of a decoder between two calls. -/
abbrev Hpack.Decoder (b : Prop) : Hpack → Prop := Hpack.Inv (OnDecoder (Table.Fits b)) Fld.Ext

theorem fits_exec (op : DecOp) (h : hp.Decoder b) (hop : b → TrimOk op hp) :
    (op.exec hp).Holds (fun _ => Hpack.Decoder b) (Hpack.Decoder b) (InBounds b) := by
  cases op with
  | resize len re => exact fits_hpackResize len re hp h
  | trim re => exact fits_hpackTrim h hop
  | decode dec =>
    exact keeps_hpackDecode (stable_onDecoder _) fits_hptField fits_hptIndex fits_hpackDecodeUpdate dec hp h
  | fields dec cur =>
    exact (keeps_hpackDecodeFields (stable_onDecoder _) fits_hptField fits_hptIndex
      fits_hpackDecodeUpdate dec cur).bind (fun _ => .pure _) hp h
  | skip =>
    refine Keeps.bind .get (fun _ => .ite (fun _ => .pure _) fun _ => ?_) hp h
    exact .bind (keeps_modify fun _ => ⟨rfl, rfl⟩) fun _ => .pure _
  | foreach static dynamic => exact fits_hpackForeach static dynamic hp h

/-- A decoder that was just created. -/
theorem decoder_new (h : NewDecoder hp) : hp.Decoder b := by
  obtain ⟨mem, max, realloc, mon, blk, hle, hmem, rfl⟩ := h.init
  have hlim : (-1 : ℤ) ≤ max := by omega
  refine ⟨⟨⟨⟨[], rfl, rfl, [], _, rfl, .nil 0⟩, Nat.zero_le _, hlim, Block.length_octets .., hmem,
    Or.inl ⟨neg_one_lt_zero, neg_one_lt_zero⟩, fun _ => hle, fun _ => ?_⟩, Magic.noConfusion⟩,
    fun _ => Ptr.noConfusion, fun _ => Ptr.noConfusion⟩
  exact neg_one_lt_zero.le.trans (Int.natCast_nonneg _)

/-- What does not depend on the memory holds in every state a decoder reaches. -/
theorem decoder_sound {hp₀ hp : Hpack} (hnew : NewDecoder hp₀)
    (hrun : Reach DecOp.exec (fun _ _ => True) hp₀ hp) : hp.Decoder False := by
  refine hrun.invariant (decoder_new hnew) fun op hp r hp' h _ hr => ?_
  have := fits_exec op h False.elim
  rwa [hr] at this

/-- **A decoder keeps to its memory** as long as no call gives back the memory of a resize that
was not signalled: the limits in force and to come are allocated in every state reached, and
no call makes an access past the end of the table. -/
theorem decoder_fits {max : ℕ} {rsz : ℤ} {ha : Alloc} {hp₀ hp : Hpack}
    (hnew : hpackDecoder max rsz ha () = .ok (some hp₀) ())
    (hrun : Reach DecOp.exec TrimOk hp₀ hp) :
    hp.sz.len ≤ hp.sz.limit ∧ hp.sz.limit ≤ hp.sz.mem ∧ hp.tbl.length = hp.sz.mem ∧
      (0 ≤ hp.sz.nxt → hp.sz.nxt ≤ hp.sz.mem) ∧
      ∀ op, TrimOk op hp → op.exec hp ≠ .stop .overrun := by
  have hinv : hp.Decoder True := by
    refine hrun.invariant (decoder_new (.decoder hnew)) fun op hp r hp' h hop hr => ?_
    have := fits_exec op h fun _ => hop
    rwa [hr] at this
  have h : hp.toTable.Fits True := hinv.1.1
  refine ⟨h.len_le, h.limit_le trivial, h.mem, fun _ => h.nxt_le trivial, fun op hop hstop => ?_⟩
  have := fits_exec op hinv fun _ => hop
  rw [hstop] at this
  exact this trivial rfl

/-- A decoder of 64 octets. -/
def smallDecoder : Hpack := Hpack.init .decoder 64 64 true zeroBlock

/-- The same once it was resized to 128 octets. -/
def resizedDecoder : Hpack :=
  { Hpack.init .decoder 128 64 true zeroBlock with sz := ⟨128, 64, -1, -1, 0, 128, 128⟩ }

/-- The same once it was trimmed. -/
def trimmedDecoder : Hpack :=
  { Hpack.init .decoder 64 64 true zeroBlock with sz := ⟨64, 64, -1, -1, 0, 128, 128⟩ }

theorem smallDecoder_new : hpackDecoder 64 (-1) ⟨some zeroBlock, true⟩ ()
    = .ok (some smallDecoder) () := rfl

theorem smallDecoder_resize : (DecOp.resize 128 (some zeroBlock)).exec smallDecoder
    = .ok .ok resizedDecoder := by decide +kernel

theorem resizedDecoder_trim : (DecOp.trim (some zeroBlock)).exec resizedDecoder
    = .ok .ok trimmedDecoder := by decide +kernel

theorem decoder_fits_resized :
    resizedDecoder.sz.limit ≤ resizedDecoder.sz.mem ∧ resizedDecoder.sz.nxt ≤ 128 := by
  obtain ⟨-, hlim, -, hnxt, -⟩ := decoder_fits smallDecoder_new
    (.step (.refl _) (show TrimOk (.resize 128 (some zeroBlock)) smallDecoder from trivial)
      smallDecoder_resize)
  exact ⟨hlim, hnxt (by decide)⟩

/-- The update to 128 octets, then an entry of 73 octets. -/
def overrunBlock : Octets := [0x3f, 0x61, 0x40, 0x01, 0x61, 0x28] ++ List.replicate 40 0x62

/-- A trim between a resize and its update: the decoder is alive with a limit to come that is
not allocated, and the block that follows makes it write past the end of its table. -/
theorem decoder_fits_trim_false :
    ∃ hp₀ hp : Hpack, hpackDecoder 64 (-1) ⟨some zeroBlock, true⟩ () = .ok (some hp₀) () ∧
      Reach DecOp.exec (fun _ _ => True) hp₀ hp ∧ hp.magic = .decoder ∧ 0 ≤ hp.sz.nxt ∧
      ¬ hp.sz.nxt ≤ hp.sz.mem ∧
      (DecOp.decode ⟨overrunBlock, 1, 4096, true, false⟩).exec hp = .stop .overrun := by
  refine ⟨smallDecoder, trimmedDecoder, rfl, ?_, rfl, by decide, by decide, by rfl⟩
  exact .step (.step (.refl _) trivial smallDecoder_resize) trivial resizedDecoder_trim

end Cashpack
