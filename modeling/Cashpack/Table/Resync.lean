import Cashpack.Table.Refine

/-!
# Diverged tables

An encoder and a monitor that lost blocks hold different entries in their dynamic tables.  This
file lets both insert the same fields, under the same limit, and compares the tables.

## Main results

* `runCalls_insert` : a sequence of insertions is one cut of the whole history.
* `runCalls_resync` : the inserted entries that fit have the same indices in both tables, and the
  tables are equal once the inserted entries exceed the limit.
-/

namespace Cashpack

open Prog Fifo

variable {hp hp₁ hp₂ : Hpack} {l l₁ l₂ es : List Entry} {L : ℕ}

/-- Calls to `HPT_index` that insert the entries `es` one after the other, under the limit `L`. -/
def Hpack.Inserts (hp : Hpack) (L : ℕ) (es : List Entry) (calls : List TblCall) : Prop :=
  List.Forall₂ (fun e c => c.op = .index e ∧ c.limit = L ∧ c.Legal hp) es calls

theorem Hpack.Inserts.legal {calls : List TblCall} (h : hp.Inserts L es calls) :
    ∀ c ∈ calls, c.Legal hp := by
  induction h with
  | nil => exact fun _ h => absurd h List.not_mem_nil
  | cons hc _ ih =>
    intro c hmem
    rcases List.mem_cons.1 hmem with rfl | hmem
    · exact hc.2.2
    · exact ih c hmem

/-- On lists, the calls are insertions into a first-in first-out store. -/
theorem Hpack.Inserts.foldl {calls : List TblCall} (h : hp.Inserts L es calls) :
    ∀ l : List Entry, calls.foldl (fun l c => c.fifo l) l
      = es.foldl (fun l e => fit Entry.size L (e :: l)) l := by
  induction h with
  | nil => exact fun _ => rfl
  | cons hc _ ih =>
    obtain ⟨hop, hlim, -⟩ := hc
    intro l
    rw [List.foldl_cons, List.foldl_cons, ih, TblCall.fifo, hop, hlim]

/-- Insertions into a table that fits in the limit keep the newest entries of the whole history:
the inserted ones, and the former entries of the table after them. -/
theorem runCalls_insert {calls : List TblCall} (h : hp.toTable.Rep l)
    (hown : hp.ctx.hp = hp.addr) (hfit : total Entry.size l ≤ L)
    (hc : hp.Inserts L es calls) :
    ∃ hp' : Hpack, runCalls calls hp = .ok () hp' ∧
      hp'.toTable.Rep (fit Entry.size L (es.reverse ++ l)) ∧
      hp'.Lists (fit Entry.size L (es.reverse ++ l)) := by
  obtain ⟨hp', hrun, hrep, hown'⟩ := runCalls_rep calls h hown hc.legal
  have hlist : calls.foldl (fun l c => c.fifo l) l = fit Entry.size L (es.reverse ++ l) := by
    rw [hc.foldl, ← foldl_insert, fit_of_total_le hfit]
  rw [hlist] at hrep
  exact ⟨hp', hrun, hrep, hrep.lists hown'⟩

/-- **Diverged tables resynchronise**: two tables that fit in the limit `L` insert the same
entries.  The newest of these that fit come first in both tables, and the tables hold the same
entries once the inserted ones exceed the limit. -/
theorem runCalls_resync {calls₁ calls₂ : List TblCall}
    (h₁ : hp₁.toTable.Rep l₁) (h₂ : hp₂.toTable.Rep l₂)
    (hown₁ : hp₁.ctx.hp = hp₁.addr) (hown₂ : hp₂.ctx.hp = hp₂.addr)
    (hfit₁ : total Entry.size l₁ ≤ L) (hfit₂ : total Entry.size l₂ ≤ L)
    (hc₁ : hp₁.Inserts L es calls₁) (hc₂ : hp₂.Inserts L es calls₂) :
    ∃ (hp₁' hp₂' : Hpack) (l₁' l₂' : List Entry),
      runCalls calls₁ hp₁ = .ok () hp₁' ∧ runCalls calls₂ hp₂ = .ok () hp₂' ∧
      hp₁'.toTable.Rep l₁' ∧ hp₂'.toTable.Rep l₂' ∧ hp₁'.Lists l₁' ∧ hp₂'.Lists l₂' ∧
      fit Entry.size L es.reverse <+: l₁' ∧ fit Entry.size L es.reverse <+: l₂' ∧
      (L < total Entry.size es → l₁' = l₂' ∧ hp₁'.cnt = hp₂'.cnt ∧
        hp₁'.sz.len = hp₂'.sz.len) := by
  obtain ⟨hp₁', hrun₁, hrep₁, hlists₁⟩ := runCalls_insert h₁ hown₁ hfit₁ hc₁
  obtain ⟨hp₂', hrun₂, hrep₂, hlists₂⟩ := runCalls_insert h₂ hown₂ hfit₂ hc₂
  refine ⟨hp₁', hp₂', _, _, hrun₁, hrun₂, hrep₁, hrep₂, hlists₁, hlists₂,
    fit_prefix_append .., fit_prefix_append .., fun hover => ?_⟩
  rw [← total_reverse] at hover
  have heq : fit Entry.size L (es.reverse ++ l₁) = fit Entry.size L (es.reverse ++ l₂) := by
    rw [fit_append_of_lt hover, fit_append_of_lt hover]
  have hcnt : hp₁'.cnt = hp₂'.cnt := by
    rw [show hp₁'.cnt = _ from hrep₁.cnt, show hp₂'.cnt = _ from hrep₂.cnt, heq]
  have hlen : hp₁'.sz.len = hp₂'.sz.len := by
    rw [show hp₁'.sz.len = _ from hrep₁.len, show hp₂'.sz.len = _ from hrep₂.len, heq]
  exact ⟨heq, hcnt, hlen⟩

/-- The entry that `insertCall nam val` inserts. -/
def octetEntry (nam val : UInt8) : Entry :=
  ⟨[nam], [val], Nat.one_pos, Nat.le_of_ble_eq_true rfl, Nat.le_of_ble_eq_true rfl⟩

/-- `emptyCodec` when it holds an entry already. -/
def strayCodec : Hpack :=
  { emptyCodec with
    cnt := 1
    sz := { emptyCodec.sz with len := 34 }
    tbl := entryOctets [0, 0, 0, 0] (List.replicate 10 0) 0 [120] [121] ++ List.replicate 30 0 }

theorem strayCodec_rep : strayCodec.toTable.Rep [octetEntry 120 121] where
  cnt := rfl
  len := rfl
  mem := ⟨_, _, rfl, by
    rw [← List.append_nil (entryOctets _ _ _ _ _)]
    exact .cons ⟨_, _, rfl, rfl, rfl⟩ (.nil _)⟩

theorem runCalls_resync_stray :
    ∃ (hp₁' hp₂' : Hpack) (l : List Entry),
      runCalls [insertCall 97 98, insertCall 99 100] emptyCodec = .ok () hp₁' ∧
      runCalls [insertCall 97 98, insertCall 99 100] strayCodec = .ok () hp₂' ∧
      hp₁'.toTable.Rep l ∧ hp₂'.toTable.Rep l ∧ [octetEntry 99 100] <+: l := by
  have hc₁ : emptyCodec.Inserts 64 [octetEntry 97 98, octetEntry 99 100]
      [insertCall 97 98, insertCall 99 100] :=
    .cons ⟨rfl, rfl, insertCall_legal ..⟩ (.cons ⟨rfl, rfl, insertCall_legal ..⟩ .nil)
  have hc₂ : strayCodec.Inserts 64 [octetEntry 97 98, octetEntry 99 100]
      [insertCall 97 98, insertCall 99 100] :=
    .cons ⟨rfl, rfl, (insertCall_legal ..).of_magic rfl rfl rfl⟩
      (.cons ⟨rfl, rfl, (insertCall_legal ..).of_magic rfl rfl rfl⟩ .nil)
  obtain ⟨hp₁', hp₂', l₁, l₂, hrun₁, hrun₂, hrep₁, hrep₂, -, -, hp₁, -, hover⟩ :=
    runCalls_resync ⟨rfl, rfl, [], emptyCodec.tbl, rfl, .nil 0⟩ strayCodec_rep rfl rfl
      (by decide) (by decide) hc₁ hc₂
  obtain ⟨rfl, -⟩ := hover (by decide)
  exact ⟨hp₁', hp₂', l₁, hrun₁, hrun₂, hrep₁, hrep₂, hp₁⟩

end Cashpack
