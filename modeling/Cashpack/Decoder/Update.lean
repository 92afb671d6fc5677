import Cashpack.Decoder.Runs

/-!
# Size updates received by a decoder

`hpack_decode_update` in two parts: what an update does to a resize that is being signalled
(`hpackDecodeResize_cases`), and the new limit it puts on the table (`hpackDecodeLimit_eq`).
-/

namespace Cashpack

open Prog Fifo

variable {b : Prop} {hp hp' : Hpack} {l : List Entry} {n : ℕ}

/-! ### The resize being signalled -/

/-- What an update of `n` does to the resize being signalled. -/
inductive ResizeStep (n : ℕ) (hp : Hpack) : Hpack → Prop
  /-- There is none: this was the only update of the block. -/
  | none (hmin : hp.sz.min < 0) : ResizeStep n hp { hp with ctx.canUpd := false }
  /-- The smallest size comes first. -/
  | min (hmin : 0 ≤ hp.sz.min) (hlt : hp.sz.min < hp.sz.nxt) (hn : (n : ℤ) = hp.sz.min) :
      ResizeStep n hp { hp with sz.min := hp.sz.nxt }
  /-- The last size, or less, ends the resize. -/
  | nxt (hmin : 0 ≤ hp.sz.min) (heq : hp.sz.min = hp.sz.nxt) (hn : (n : ℤ) ≤ hp.sz.nxt) :
      ResizeStep n hp { hp with
        sz.max := hp.sz.nxt.toNat
        sz.lim := n
        sz.min := -1
        sz.nxt := -1
        ctx.canUpd := false }

/-- An update is one of these steps, or is refused with UPD. -/
theorem hpackDecodeResize_cases (n : ℕ) (hp : Hpack) :
    (hpackDecodeResize n hp).Holds (fun _ => ResizeStep n hp)
      (fun hp' => hp' = { hp with ctx.res := .upd }) (InBounds b) := by
  rw [hpackDecodeResize, bind_apply, get_apply, Out.bind_ok, ite_run]
  by_cases hmin : 0 ≤ hp.sz.min
  · rw [if_pos hmin]
    refine .assert_bind InBounds.abort fun hle => ?_
    rw [ite_run]
    by_cases hlt : hp.sz.min < hp.sz.nxt
    · rw [if_pos hlt, bind_apply, expect_apply]
      split
      · exact .min hmin hlt ‹_›
      · exact rfl
    · rw [if_neg hlt, bind_apply, expect_apply]
      split
      · rename_i hn
        refine .assert_bind InBounds.abort fun _ => ?_
        exact .nxt hmin (by omega) (by omega)
      · exact rfl
  · rw [if_neg hmin]
    exact .none (by omega)

/-! ### The new limit -/

theorem hpackAdjust_holds (h : hp.toTable.Rep l) :
    (hpackAdjust hp.sz.len hp).Holds
      (fun _ hp' => hp' = (hp.withTable (hp.toTable.keep (fit Entry.size hp.sz.limit l))).notify
        (evictEvents (l.length - (fit Entry.size hp.sz.limit l).length)))
      (fun _ => False) (InBounds b) := by
  by_cases hlim : hp.sz.lim ≤ hp.sz.max ∨ hp.sz.max < hp.sz.nxt
  · have := hptAdjust_eq (k := 0) h hlim
    rw [room_zero, Nat.add_zero] at this
    rw [hpackAdjust, bind_apply, onTable_eq this, Out.bind_ok]
    exact (hpcNotifyAll_holds _ _).mono (fun _ hp' h' => h') (fun _ h' => h') fun _ h' => h'
  · simp only [hpackAdjust, bind_apply, onTable, hptAdjust, get_apply, Out.bind_ok, assert_apply,
      hlim, if_false, Out.bind_stop]
    exact InBounds.abort

/-- The table under a new limit. -/
def Table.limitTo (t : Table) (n : ℕ) (l : List Entry) : Table :=
  { t with sz.lim := n }.keep (fit Entry.size n l)

theorem Table.Rep.limitTo {t : Table} (h : t.Rep l) (n : ℕ) :
    (t.limitTo n l).Rep (fit Entry.size n l) :=
  Table.Rep.keep (t := { t with sz.lim := n }) ⟨h.cnt, h.len, h.mem⟩ (fit_isPrefix n l)

theorem Size.limit_natCast (sz : Size) (n : ℕ) : { sz with lim := n }.limit = n := by
  simp [Size.limit]

/-- A limit up to the maximum evicts what does not fit. -/
theorem hpackDecodeLimit_eq (h : hp.toTable.Rep l) (hn : hp.Notifies) (hle : n ≤ hp.sz.max) :
    hpackDecodeLimit n hp = .ok () ((hp.withTable (hp.toTable.limitTo n l)).notify
      (evictEvents (l.length - (fit Entry.size n l).length) ++ [Event.table n])) := by
  have hrep : { hp with sz.lim := n }.toTable.Rep l := ⟨h.cnt, h.len, h.mem⟩
  have hn' : { hp with sz.lim := n }.Notifies := hn
  have hlim : (n : ℤ) ≤ hp.sz.max ∨ (hp.sz.max : ℤ) < hp.sz.nxt := Or.inl (by omega)
  have hadj := hpackAdjust_eq hrep hn' hlim
  rw [Size.limit_natCast] at hadj
  rw [hpackDecodeLimit, bind_apply, get_apply, Out.bind_ok, bind_apply, expect_apply, if_pos hle,
    Out.bind_ok, bind_apply, modify_apply, Out.bind_ok, bind_apply, hadj, Out.bind_ok]
  refine (hpcNotify_eq ?_ _).trans ?_
  · exact hn
  · rw [Hpack.notify_notify]
    rfl

theorem hpackDecodeLimit_len (h : hp.sz.max < n) :
    hpackDecodeLimit n hp = .err { hp with ctx.res := .len } := by
  rw [hpackDecodeLimit, bind_apply, get_apply, Out.bind_ok, bind_apply, expect_apply,
    if_neg (by omega), Out.bind_err]

theorem hpackDecodeLimit_holds (h : hp.toTable.Rep l) :
    (hpackDecodeLimit n hp).Holds
      (fun _ hp' => n ≤ hp.sz.max ∧ hp' = (hp.withTable (hp.toTable.limitTo n l)).notify
        (evictEvents (l.length - (fit Entry.size n l).length) ++ [.table n]))
      (fun hp' => hp.sz.max < n ∧ hp' = { hp with ctx.res := .len }) (InBounds b) := by
  by_cases hle : n ≤ hp.sz.max
  · have hrep : { hp with sz.lim := n }.toTable.Rep l := ⟨h.cnt, h.len, h.mem⟩
    have hadj := hpackAdjust_holds (b := b) hrep
    rw [Size.limit_natCast] at hadj
    rw [hpackDecodeLimit, bind_apply, get_apply, Out.bind_ok, bind_apply, expect_apply,
      if_pos hle, Out.bind_ok, bind_apply, modify_apply, Out.bind_ok, bind_apply]
    refine (hadj.mono (fun _ _ h' => h') (fun _ h' => h'.elim) fun _ h' => h').bind ?_
    rintro _ _ rfl
    refine (hpcNotify_holds _).mono (fun _ _ h' => ⟨hle, ?_⟩)
      (fun _ h' => h'.elim) fun _ h' => h'
    rw [h', Hpack.notify_notify]
    rfl
  · rw [hpackDecodeLimit_len (by omega)]
    exact ⟨by omega, rfl⟩

end Cashpack
