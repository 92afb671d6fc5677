import Cashpack.Codec.Alloc
import Cashpack.Prog.Reads

/-!
# What only reads the codec

The functions that look entries up, search for them or list them leave the table as it is, and
so do `hpack_search` and `hpack_entry` with the whole codec.
-/

namespace Cashpack

open Prog

/-! ### The dynamic table -/

theorem reads_readEntry (he : ℕ) : Reads (readEntry he) := by
  intro t
  unfold readEntry
  split
  · exact rfl
  · trivial

theorem reads_readTbl (off n : ℕ) : Reads (readTbl off n) := by
  intro t
  unfold readTbl
  split
  · exact rfl
  · trivial

theorem reads_readCStr (off : ℕ) : Reads (readCStr off) := by
  intro t
  unfold readCStr
  split
  · exact rfl
  · trivial

theorem reads_hptDynamicLoop (idx off he : ℕ) : Reads (hptDynamicLoop idx off he) := by
  induction idx generalizing off he with
  | zero => exact .halt _
  | succ idx ih =>
    refine .bind (reads_readEntry _) fun tmp => .bind (.assert _) fun _ => ?_
    exact .bind (.assert _) fun _ => .bind (.assert _) fun _ => .ite (.pure _) (ih _ _)

theorem reads_hptDynamic (idx : ℕ) : Reads (hptDynamic idx) :=
  .bind .get fun _ => .bind (.assert _) fun _ => .bind (.assert _) fun _ =>
    reads_hptDynamicLoop _ _ _

theorem reads_hptForeachLoop (i off he : ℕ) : Reads (hptForeachLoop i off he) := by
  induction i generalizing off he with
  | zero => exact .bind .get fun _ => .bind (.assert _) fun _ => .pure _
  | succ i ih =>
    refine .bind .get fun t => .bind (.assert _) fun _ => .bind (reads_readEntry _) fun tmp => ?_
    refine .bind (.assert _) fun _ => .bind (.assert _) fun _ => .bind (.assert _) fun _ => ?_
    refine .bind (reads_readTbl _ _) fun nam => .bind (reads_readTbl _ _) fun val => ?_
    exact .bind (ih _ _) fun _ => .pure _

theorem reads_hptForeach : Reads hptForeach := .bind .get fun _ => reads_hptForeachLoop _ _ _

theorem reads_hptSearchLoop (nam val : Octets) (cnt i namIdx off he : ℕ) :
    Reads (hptSearchLoop nam val cnt i namIdx off he) := by
  induction cnt generalizing i namIdx off he with
  | zero => exact .bind .get fun _ => .bind (.assert _) fun _ => .pure _
  | succ cnt ih =>
    refine .bind .get fun t => .bind (.assert _) fun _ => .bind (reads_readEntry _) fun tmp => ?_
    refine .bind (.assert _) fun _ => .bind (.assert _) fun _ => .bind (.assert _) fun _ => ?_
    refine .bind (reads_readCStr _) fun n => .ite ?_ (ih _ _ _ _)
    exact .bind (reads_readCStr _) fun v => .ite (.pure _) (ih _ _ _ _)

theorem reads_hptSearchDynamic (nam val : Octets) (idx : ℕ) :
    Reads (hptSearchDynamic nam val idx) :=
  .bind .get fun _ => .bind (reads_hptSearchLoop _ _ _ _ _ _ _) fun _ => .pure _

theorem reads_hptBsearchLoop (nam val : Octets) (fuel : ℕ) (min max : ℤ) (idx : ℕ) :
    Reads (hptBsearchLoop nam val fuel min max idx) := by
  induction fuel generalizing min max idx with
  | zero => exact .halt _
  | succ fuel ih =>
    refine .ite (.bind (.assert _) fun _ => ?_) (.pure _)
    split
    · exact .halt _
    · exact .ite (.pure _) (.ite (ih _ _ _) (ih _ _ _))

theorem reads_hptBsearch (nam val : Octets) : Reads (hptBsearch nam val) :=
  reads_hptBsearchLoop _ _ _ _ _ _

/-! ### The codec -/

theorem reads_onTable {α : Type} {f : Prog Table α} (hf : Reads f) : Reads (onTable f) := by
  intro hp
  have ht := hf hp.toTable
  unfold onTable
  cases hr : f hp.toTable with
  | ok a t =>
    rw [hr] at ht
    obtain rfl : t = hp.toTable := ht
    exact rfl
  | err t =>
    rw [hr] at ht
    exact ht
  | stop w => trivial

theorem reads_ctxHp : Reads ctxHp := .bind .get fun _ => .when (.halt _)

theorem reads_hptSearch (nam val : Octets) : Reads (hptSearch nam val) := by
  refine .bind (reads_onTable (reads_hptBsearch _ _)) fun r => .ite (.pure _) ?_
  refine .bind (.assert _) fun _ => .bind reads_ctxHp fun _ => ?_
  exact reads_onTable (reads_hptSearchDynamic _ _ _)

/-- `hpack_search` changes nothing. -/
theorem reads_hpackSearch (nam val : Option CStr) : Reads (hpackSearch nam val) := by
  refine .bind .get fun hp => ?_
  cases nam with
  | none => exact .pure _
  | some nam => exact .ite (.pure _) (.bind (reads_hptSearch _ _) fun r => .pure _)

/-- `hpack_resize` finds out how much memory it wants before it changes anything. -/
theorem reads_hpackResizeMem (len max : ℕ) : Reads (hpackResizeMem len max) := by
  refine .bind .get fun hp => .ite (.ite ?_ ?_) (.pure _)
  · exact .bind (.assert _) fun _ => .bind (.assert _) fun _ => .bind (.assert _) fun _ => .pure _
  · exact .ite (.bind (.assert _) fun _ => .pure _) (.pure _)

/-- `HPT_field` changes nothing, unless it refuses the index. -/
theorem hptField_reads (idx : ℕ) (hp : Hpack) :
    (hptField idx hp).Holds (fun _ hp' => hp' = hp) (fun hp' => hp' = { hp with ctx.res := .idx })
      fun _ => True := by
  have hread : ∀ {β : Type} {f : Prog Hpack β}, Reads f → (f hp).Holds (fun _ hp' => hp' = hp)
      (fun hp' => hp' = { hp with ctx.res := .idx }) fun _ => True :=
    fun hf => (hf hp).mono (fun _ _ h => h) (fun _ h => h.elim) fun _ h => h
  refine .assert_bind trivial fun _ => ?_
  rw [ite_run]
  split
  · cases hptStatic[idx - 1]? with
    | some e => exact rfl
    | none => trivial
  rw [bind_apply]
  refine (hread reads_ctxHp).bind fun _ hp' hs => ?_
  subst hs
  rw [bind_apply, get_apply, Out.bind_ok, ite_run]
  split
  · exact rfl
  rw [bind_apply, expect_apply]
  split
  · rw [Out.bind_ok, bind_apply]
    refine (hread (reads_onTable (reads_hptDynamic _))).bind fun he hp'' hs => ?_
    subst hs
    rw [bind_apply]
    exact (hread (reads_onTable (reads_readEntry _))).bind fun tmp hp'' hs => hs
  · exact rfl

/-- `hpack_entry` changes nothing. -/
theorem reads_hpackEntry (idx : ℕ) : Reads (hpackEntry idx) := by
  refine .bind .get fun hp => .ite (.pure _) (.ite (.pure _) ?_)
  intro hp
  rw [bind_apply, attempt_apply]
  have hf := hptField_reads idx hp
  cases hr : hptField idx hp with
  | ok hf' hp' =>
    rw [hr] at hf
    exact hf
  | err hp' => trivial
  | stop w => trivial

end Cashpack
