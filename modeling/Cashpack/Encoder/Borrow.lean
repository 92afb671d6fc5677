import Cashpack.Encoder.Failure
import Cashpack.Table.Alias

/-!
# Names borrowed from the dynamic table

A field that is encoded with the index of a name of the dynamic table is inserted with this name,
read from the table while the entries make room for the new one.

## Main results

* `index_aliased` : `HPT_index` leaves the new entry followed by the entries that are kept
  exactly when the name is not copied over the header of the first of these.
-/

namespace Cashpack

open Prog Fifo

variable {hp : Hpack}

/-- **Insertion of a borrowed name**: `HPT_index` is called on an encoder with the name of an entry
of its table, and a value outside of it.  The table then holds the new entry followed by the
longest prefix of the others that fits, or nothing if the entry is too large for the limit, if
and only if the entry is too large, or nothing is kept and the name has fewer than 64 octets,
or what the name overwrites of the sizes of the first entry that is kept is the same. -/
theorem index_aliased {l₁ l₂ : List Entry} {src e : Entry} (h : hp.toTable.Rep (l₁ ++ src :: l₂))
    (henc : hp.magic = .encoder) (hb : hp.ctx.tooBig = false) (hlim : hp.sz.lim ≤ hp.sz.max)
    (hmem : hp.sz.limit ≤ hp.tbl.length)
    (hnam : hp.ctx.fld.nam = .tbl (total Entry.size l₁ + hptHeaderSz))
    (hnamSz : hp.ctx.fld.namSz = src.nam.length) (h0 : 0 ∉ src.nam) (he : e.nam = src.nam)
    (hval : hp.str hp.ctx.fld.val hp.ctx.fld.valSz = some (e.val, 0))
    (hext : ∀ off, hp.ctx.fld.val ≠ .tbl off) :
    ∃ t : Table, hptIndex hp =
        .ok () ((hp.withTable t).notify (insertEvents hp.sz.limit (l₁ ++ src :: l₂) e)) ∧
      (t.Rep (fit Entry.size hp.sz.limit (e :: (l₁ ++ src :: l₂))) ↔
        (e.size ≤ hp.sz.limit →
          AliasFits src.nam (room Entry.size hp.sz.limit e.size (l₁ ++ src :: l₂)))) := by
  have hparts := h.parts
  have hsrc : src.size = 32 + src.nam.length + src.val.length := rfl
  have hlen : hp.toTable.sz.len = total Entry.size l₁ + (src.size + total Entry.size l₂) := by
    rw [h.len, total_append, total_cons]
  have hle : hp.toTable.sz.len ≤ hp.tbl.length := by
    rw [h.len]
    exact (Table.rep_iff.1 h).2.2.1
  have hread : Octets.read (total Entry.size l₁ + hptHeaderSz) (e.nam.length + 1) hp.tbl =
      e.nam ++ [0] := by
    rw [he]
    exact hparts.nam
  obtain ⟨t, hins, hiff⟩ := hptInsert_aliased (e := e) h hlim ((total_fit_le _ _).trans hmem)
    (by rw [hlen, he, hptHeaderSz]; omega) (Nat.le_add_left _ _) hread (he ▸ h0)
  refine ⟨t, ?_, he ▸ hiff⟩
  have hvalSz : e.val.length = hp.ctx.fld.valSz := Hpack.str_length hval
  have hval0 : hp.ctx.fld.val ≠ .null := by
    intro hnull
    simp [hnull, Hpack.str, Hpack.at] at hval
  have hout : hp.ctx.fld.val.outside hp.sz.len = true := by
    cases hp' : hp.ctx.fld.val with
    | tbl off => exact absurd hp' (hext off)
    | _ => rfl
  have hstr : hp.str (.tbl (total Entry.size l₁ + hptHeaderSz)) src.nam.length =
      some (e.nam, 0) := by
    rw [Octets.read_add] at hread
    have hn : (Octets.read (total Entry.size l₁ + hptHeaderSz) e.nam.length hp.tbl).length =
        e.nam.length := Octets.length_read _ _ _ (by rw [hptHeaderSz, he]; omega)
    obtain ⟨htake, hone⟩ := List.append_inj hread hn
    rw [Hpack.str, Hpack.at, ← he]
    simp only [Octets.read] at htake hone
    rw [← List.drop_drop] at hone
    cases hd : (hp.tbl.drop (total Entry.size l₁ + hptHeaderSz)).drop e.nam.length with
    | nil =>
      rw [hd] at hone
      cases hone
    | cons c cs =>
      rw [hd] at hone
      obtain rfl : c = 0 := (List.cons.inj hone).1
      simp only [hd, htake]
  have hpos := src.nam_pos
  have hnle := src.nam_le
  have hvle : hp.ctx.fld.valSz ≤ uint16Max := hvalSz ▸ e.val_le
  have hnotif : (hp.withTable t).Notifies := Or.inl hb
  have hins' : hptInsert (decide (hp.magic = .encoder)) (.tbl (total Entry.size l₁ + hptHeaderSz))
      src.nam.length e.val hp.toTable =
        .ok (insertEvents hp.sz.limit (l₁ ++ src :: l₂) e) t := by
    rw [henc, ← he]
    exact hins
  simp only [hptIndex, bind_apply, get_apply, Out.bind_ok, assert_apply, hnam, hnamSz, ne_eq,
    reduceCtorEq, not_false_eq_true, if_true, hval0, hpos, hnle, hvle, readStr_eq hstr,
    readStr_eq hval, hout, Hpack.src, onTable_eq hins']
  exact hpcNotifyAll_eq hnotif _

theorem one_le_uint16Max : 1 ≤ uint16Max := by decide

theorem zero_notMem_replicate (n : ℕ) : (0 : UInt8) ∉ List.replicate n 97 :=
  fun h => absurd (List.eq_of_mem_replicate h) (by decide)

theorem zero_notMem_b : (0 : UInt8) ∉ [98] := by decide

/-- The entry with the name `a`, or ten times this octet, and the value `b`. -/
def insertedEntry (n : ℕ) (hn : 0 < n) (hle : n ≤ uint16Max) : Entry :=
  ⟨List.replicate n 97, [98], hn.trans_eq List.length_replicate.symm,
    List.length_replicate.le.trans hle, one_le_uint16Max⟩

/-- The same field, to insert. -/
def insertedField (n : ℕ) : Field :=
  ⟨false, true, false, false, false, false, false, false, 0, 0, 0,
    some ⟨List.replicate n 97, zero_notMem_replicate n⟩, some ⟨[98], zero_notMem_b⟩⟩

/-- The field with the name of the entry 62 and the value `c`, to insert. -/
def borrowingField : Field :=
  ⟨false, true, false, false, true, false, false, false, 0, 0, 62, none, some ⟨[99], by decide⟩⟩

/-- An encoder that was given these fields. -/
def encoderAfter (flds : List Field) : Hpack :=
  match hpackEncode (encodingOf flds) smallEncoder with
  | .ok _ hp => hp
  | _ => smallEncoder

/-- The encoder with one entry, when it comes to insert the second. -/
def borrowingEncoder : Hpack :=
  { encoderAfter [insertedField 1] with
    ctx := { (encoderAfter [insertedField 1]).ctx with fld := ⟨.tbl 30, .str [99], 1, 1⟩ } }

theorem borrowingEncoder_rep : borrowingEncoder.toTable.Rep
    ([] ++ insertedEntry 1 (by decide) (by decide) :: []) := by
  refine Table.rep_iff.2 ⟨by decide +kernel, by decide +kernel, by decide +kernel, ?_⟩
  refine (isTable_read_cons (by decide +kernel)).2 ⟨⟨?_, ?_, ?_, ?_, ?_⟩, isTable_nil.2 ?_⟩ <;>
    decide +kernel

theorem index_aliased_short : ∃ t : Table, t.Rep (fit Entry.size 100
    [⟨[97], [99], by decide, by decide, by decide⟩,
      insertedEntry 1 (by decide) (by decide)]) := by
  obtain ⟨t, -, hiff⟩ := index_aliased (e := ⟨[97], [99], by decide, by decide, by decide⟩)
    borrowingEncoder_rep (by decide +kernel) (by decide +kernel) (by decide +kernel)
    (by decide +kernel) rfl rfl (by decide) rfl rfl fun _ => Ptr.noConfusion
  have hlimit : borrowingEncoder.sz.limit = 100 := by decide +kernel
  have hroom : room Entry.size 100 34 ([] ++ insertedEntry 1 (by decide) (by decide) :: []) =
      [insertedEntry 1 (by decide) (by decide)] := by decide +kernel
  rw [hlimit] at hiff
  refine ⟨t, hiff.2 fun _ => ?_⟩
  rw [show Entry.size _ = 34 from rfl, hroom]
  exact List.nil_suffix

/-- With a name of ten octets, the size of the value of the entry that is kept is overwritten with
the first octet of the name. -/
theorem index_aliased_false :
    (EncOp.encode (encodingOf [insertedField 10, borrowingField])).exec smallEncoder =
        .ok .ok (encoderAfter [insertedField 10, borrowingField]) ∧
      fit Entry.size (encoderAfter [insertedField 10, borrowingField]).sz.limit
        [⟨List.replicate 10 97, [99], by decide, by decide, by decide⟩,
          insertedEntry 10 (by decide) (by decide)] =
        [⟨List.replicate 10 97, [99], by decide, by decide, by decide⟩,
          insertedEntry 10 (by decide) (by decide)] ∧
      Octets.read (43 + 18) 2 (encoderAfter [insertedField 10, borrowingField]).tbl = [1, 97] ∧
      ¬ (encoderAfter [insertedField 10, borrowingField]).toTable.Rep
        [⟨List.replicate 10 97, [99], by decide, by decide, by decide⟩,
          insertedEntry 10 (by decide) (by decide)] := by
  refine ⟨by decide +kernel, by decide +kernel, by decide +kernel, fun hrep => ?_⟩
  have hparts := @Table.Rep.parts _ [⟨List.replicate 10 97, [99], by decide, by decide,
    by decide⟩] [] _ hrep
  exact absurd hparts.sizes (by decide +kernel)

end Cashpack
