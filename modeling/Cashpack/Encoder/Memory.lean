import Cashpack.Encoder.Frame

/-!
# The memory of an encoder

Whatever is called on an encoder, its table never has more memory than a length of 16 bits can
tell, and the maximum of its peer stays below that too.

## Main results

* `bounded_exec` : every call keeps these bounds.
* `encoder_bounded` : they hold in every state an encoder reaches.
-/

namespace Cashpack

open Prog

variable {hp : Hpack}

/-- The memory of a table and the maximum of the decoder have 16 bits. -/
structure Bounded (c : Core) : Prop where
  tbl : c.table.tbl.length ≤ uint16Max
  mem : c.table.sz.mem ≤ uint16Max
  max : c.table.sz.max ≤ uint16Max

theorem entriesFree_bounded : EntriesFree Bounded := by
  intro c t ht h
  have htbl : t.tbl.length = c.table.tbl.length := congrArg Prod.snd ht
  have hmem : t.sz.mem = c.table.sz.mem := congrArg (fun s => s.1.mem) ht
  have hmax : t.sz.max = c.table.sz.max := congrArg (fun s => s.1.max) ht
  exact ⟨htbl ▸ h.tbl, hmem ▸ h.mem, hmax ▸ h.max⟩

/-- A change that leaves the memory and the maximum alone. -/
theorem bounded_modify {f : Hpack → Hpack}
    (hf : ∀ hp : Hpack, (f hp).tbl = hp.tbl ∧ (f hp).sz.mem = hp.sz.mem ∧
      (f hp).sz.max = hp.sz.max) : KeepsOutside Bounded (modify f) := by
  intro hp h
  obtain ⟨htbl, hmem, hmax⟩ := hf hp
  refine ⟨⟨?_, ?_, ?_⟩, trivial⟩
  · show (f hp).tbl.length ≤ _
    exact htbl ▸ h.1.tbl
  · show (f hp).sz.mem ≤ _
    exact hmem ▸ h.1.mem
  · show (f hp).sz.max ≤ _
    exact hmax ▸ h.1.max

/-! ### Encoding -/

theorem bounded_hpackCap (lim max : ℤ) : KeepsOutside Bounded (hpackCap lim max) := by
  refine .bind (keeps_assert _) fun _ => .bind .get fun hp => .ite (fun _ => .pure _) fun _ => ?_
  refine .ite (fun _ => .bind ?_ fun _ => .pure _) fun _ => .bind ?_ fun _ => .pure _
  · exact bounded_modify fun _ => ⟨rfl, rfl, rfl⟩
  · exact bounded_modify fun _ => ⟨rfl, rfl, rfl⟩

theorem bounded_hpackEncodeSettle {lim : ℤ} (hlim : lim ≤ uint16Max) :
    KeepsOutside Bounded (hpackEncodeSettle lim) := by
  refine .bind .get fun hp => .ite (fun _ => .bind (keeps_assert _) fun _ => ?_) fun _ => ?_
  · refine .bind (fun hp h => ⟨⟨h.1.tbl, h.1.mem, ?_⟩, trivial⟩) fun _ => .ite (fun _ => ?_) fun _ => ?_
    · show lim.toNat ≤ uint16Max
      omega
    · exact .bind (keeps_assert _) fun _ => .pure _
    · exact bounded_hpackCap _ _
  · refine .bind (bounded_hpackCap _ _) fun lim => .bind .get fun hp => ?_
    exact .bind (keeps_assert _) fun _ => .pure _

theorem bounded_hpackEncodeUpdated : KeepsOutside Bounded hpackEncodeUpdated := by
  refine .bind .get fun hp => .ite (fun _ => .bind (keeps_assert _) fun _ => ?_) fun _ => ?_
  · exact bounded_modify fun _ => ⟨rfl, rfl, rfl⟩
  · exact .when fun _ => .bind (keeps_assert _) fun _ => bounded_modify fun _ => ⟨rfl, rfl, rfl⟩

theorem bounded_hpackAdjust (len : ℕ) : KeepsOutside Bounded (hpackAdjust len) :=
  .bind (keeps_onTable_limits entriesFree_bounded fun _ => limits_hptAdjust _) fun _ =>
    keeps_hpcNotifyAll _

theorem bounded_hpackEncodeUpdate (lim : ℤ) : KeepsOutside Bounded (hpackEncodeUpdate lim) := by
  refine .bind .get fun hp => .bind (keeps_assert _) fun _ => .bind (keeps_assert _) fun _ => ?_
  intro hp h
  refine .assert_bind (fun h => h.elim) fun hlim => ?_
  refine Keeps.bind (bounded_hpackEncodeSettle hlim) (fun lim => ?_) hp h
  refine .bind (keeps_assert _) fun _ => .bind .get fun hp => ?_
  refine .bind (bounded_hpackAdjust _) fun _ => .bind (keeps_hpiEncode _ _) fun _ => ?_
  refine .bind (keeps_notify_outside _) fun _ => .bind bounded_hpackEncodeUpdated fun _ => ?_
  exact .bind .get fun hp => keeps_assert _

theorem bounded_hpackEncodeResize : KeepsOutside Bounded hpackEncodeResize := by
  refine .bind .get fun hp => .when fun _ => .bind (keeps_assert _) fun _ => ?_
  refine .bind (bounded_hpackEncodeUpdate _) fun _ => .bind .get fun hp => ?_
  refine .bind (keeps_assert _) fun _ => .bind (.when fun _ => bounded_hpackEncodeUpdate _) ?_
  exact fun _ => .bind .get fun hp => keeps_assert _

theorem bounded_hpackEncodeLimit : KeepsOutside Bounded hpackEncodeLimit := by
  refine .bind .get fun hp => .when fun _ => .bind (keeps_assert _) fun _ => .when fun _ => ?_
  exact .bind (bounded_hpackEncodeUpdate _) fun _ => bounded_modify fun _ => ⟨rfl, rfl, rfl⟩

theorem bounded_hpackEncodeBegin (enc : Encoding) : KeepsOutside Bounded (hpackEncodeBegin enc) := by
  refine .bind .get fun hp => .bind (keeps_assert _) fun _ => .bind (.when fun _ => ?_) fun _ => ?_
  · exact .bind (keeps_assert _) fun _ => bounded_modify fun _ => ⟨rfl, rfl, rfl⟩
  · exact bounded_modify fun _ => ⟨rfl, rfl, rfl⟩

theorem bounded_hpackEncode (enc : Encoding) : KeepsOutside Bounded (hpackEncode enc) :=
  keeps_hpackEncode entriesFree_bounded (fun _ h => ⟨h.tbl, h.mem, h.max⟩) bounded_hpackEncodeBegin
    bounded_hpackEncodeResize bounded_hpackEncodeLimit (fun _ h => ⟨h.tbl, h.mem, h.max⟩) enc

/-! ### Memory management -/

/-- A move to a block of `mem` octets. -/
theorem Bounded.move (h : Bounded hp.core) {mem : ℕ} (blk : Block) (hmem : mem ≤ uint16Max)
    {hp' : Hpack} (htbl : hp'.tbl = (hp.move mem blk).tbl) (hm : hp'.sz.mem = mem)
    (hmax : hp'.sz.max = hp.sz.max) : Bounded hp'.core := by
  refine ⟨?_, ?_, ?_⟩
  · show hp'.tbl.length ≤ _
    simp only [htbl, Hpack.move, List.length_append, List.length_take, Block.octets,
      List.length_map, List.length_range]
    omega
  · exact hm.trans_le hmem
  · show hp'.sz.max ≤ _
    exact hmax ▸ h.max

theorem bounded_hpackRealloc {mem : ℕ} (re : Option Block) (hmem : mem ≤ uint16Max) :
    KeepsOutside Bounded (hpackRealloc mem re) := by
  refine .bind .get fun hp => .ite (fun _ => .pure _) fun _ => .bind (keeps_assert _) fun _ => ?_
  refine .ite (fun _ => .pure _) fun _ => ?_
  cases re with
  | none => exact .pure _
  | some blk =>
    exact .bind (fun hp h => ⟨h.1.move blk hmem rfl rfl rfl, trivial⟩) fun _ => .pure _

theorem bounded_hpackResize (len : ℕ) (re : Option Block) :
    KeepsOutside Bounded (hpackResize len re) := by
  intro hp h
  have hdefunct : KeepsOutside Bounded (modify fun hp => { hp with magic := .defunct }) :=
    bounded_modify fun _ => ⟨rfl, rfl, rfl⟩
  rw [hpackResize, bind_apply, get_apply, Out.bind_ok, ite_run]
  split
  · exact h
  rw [ite_run]
  split
  · exact .assert_bind (fun h => h.elim) fun _ => h
  have hbound : (if hp.realloc = false then hp.sz.mem else uint16Max) ≤ uint16Max := by
    split
    · exact h.1.mem
    · exact le_refl _
  generalize (if hp.realloc = false then hp.sz.mem else uint16Max) = max at hbound
  have hsame : Keeps (InBounds False) (Hpack.Outside Bounded) (hpackResizeMem len max) := by
    refine .bind .get fun hp => .ite (fun _ => .ite (fun _ => ?_) fun _ => .ite (fun _ => ?_) ?_) ?_
    · refine .bind (keeps_assert _) fun _ => .bind (keeps_assert _) fun _ => ?_
      exact .bind (keeps_assert _) fun _ => .pure _
    · exact .bind (keeps_assert _) fun _ => .pure _
    · exact fun _ => .pure _
    · exact fun _ => .pure _
  refine Keeps.bind hsame (fun mem => .ite (fun _ => ?_) fun hle => ?_) hp h
  · exact .bind hdefunct fun _ => .pure _
  · refine .bind (bounded_hpackRealloc re (by omega)) fun r => .ite (fun _ => ?_) fun _ => ?_
    · exact .bind hdefunct fun _ => .pure _
    · refine .bind (.bind .get fun hp => .ite (fun _ => ?_) fun _ => ?_) fun _ => .pure _
      · exact .bind (keeps_assert _) fun _ => bounded_modify fun _ => ⟨rfl, rfl, rfl⟩
      · exact .bind (keeps_assert _) fun _ => bounded_modify fun _ => ⟨rfl, rfl, rfl⟩

theorem bounded_hpackLimit (len : ℕ) (re : Option Block) :
    KeepsOutside Bounded (hpackLimit len re) := by
  intro hp h
  rw [hpackLimit, bind_apply, get_apply, Out.bind_ok, ite_run]
  split
  · exact h
  rw [ite_run]
  split
  · exact .assert_bind (fun h => h.elim) fun _ => h
  rw [ite_run]
  split
  · exact h
  have hmem : (if hp.sz.max ≤ len ∧ hp.sz.mem < hp.sz.max then hp.sz.max else hp.sz.mem) ≤
      uint16Max := by
    split
    · exact h.1.max
    · exact h.1.mem
  refine Keeps.bind (bounded_hpackRealloc re hmem) (fun r => .ite (fun _ => ?_) fun _ => ?_) hp h
  · exact .bind (.when fun _ => bounded_modify fun _ => ⟨rfl, rfl, rfl⟩) fun _ => .pure _
  · exact .bind (bounded_modify fun _ => ⟨rfl, rfl, rfl⟩) fun _ => .pure _

theorem bounded_hpackTrim (re : Option Block) : KeepsOutside Bounded (hpackTrim re) := by
  intro hp h
  rw [hpackTrim, bind_apply, get_apply, Out.bind_ok, ite_run]
  split
  · exact h
  rw [ite_run]
  split
  · exact h
  rw [ite_run]
  split
  · exact .assert_bind (fun h => h.elim) fun _ => h
  refine .assert_bind (fun h => h.elim) fun _ => ?_
  generalize (if hp.magic = .encoder then hp.sz.limit else hp.sz.max) = max
  rw [ite_run]
  split
  · rename_i hlt
    cases re with
    | none => exact h
    | some blk =>
      have hmem := h.1.mem
      exact ⟨h.1.move blk (hlt.le.trans hmem) rfl rfl rfl, trivial⟩
  · exact h

theorem bounded_hpackForeach (static dynamic : Bool) :
    KeepsOutside Bounded (hpackForeach static dynamic) := by
  refine .bind .get fun hp => .ite (fun _ => .pure _) fun _ => ?_
  refine .bind (bounded_modify fun _ => ⟨rfl, rfl, rfl⟩) fun _ => ?_
  refine .bind (.when fun _ => keeps_hpcNotifyAll _) fun _ => .bind (.when fun _ => ?_) fun _ =>
    .pure _
  exact .bind (keeps_onTable_limits entriesFree_bounded fun _ => limits_reads reads_hptForeach) fun evts =>
    keeps_hpcNotifyAll _

/-! ### Runs -/

theorem bounded_exec (op : EncOp) : KeepsOutside Bounded op.exec := by
  cases op with
  | limit len re => exact bounded_hpackLimit len re
  | resize len re => exact bounded_hpackResize len re
  | trim re => exact bounded_hpackTrim re
  | encode enc => exact .bind (bounded_hpackEncode enc) fun _ => .pure _
  | foreach static dynamic => exact bounded_hpackForeach static dynamic

/-- The bounds hold in every state an encoder reaches. -/
theorem encoder_bounded {max : ℕ} {lim : ℤ} {hp₀ : Hpack} (hnew : NewEncoder max lim hp₀)
    (hrun : Reach EncOp.exec (fun _ _ => True) hp₀ hp) : Bounded hp.core := by
  have h₀ : Hpack.Outside Bounded hp₀ := by
    obtain ⟨realloc, blk, hmax, hlim, rfl⟩ := hnew.init
    have hmem : (if 0 ≤ lim then lim.toNat else max) ≤ uint16Max := by
      split <;> omega
    refine ⟨⟨?_, hmem, hmax⟩, trivial⟩
    show (Block.octets _ _ _).length ≤ _
    rw [Block.length_octets]
    exact hmem
  refine (hrun.invariant h₀ fun op hp r hp' h _ hr => ?_).1
  have := bounded_exec op hp h
  rwa [hr] at this

end Cashpack
