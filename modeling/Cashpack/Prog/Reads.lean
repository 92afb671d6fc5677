import Cashpack.Prog.Keeps
import Cashpack.Prog.NoFail

/-!
# Programs that only read

`Prog.Reads x` says that the program `x` returns in the state it was run in, or does not return.
Such a program keeps every invariant and never fails.
-/

namespace Prog

variable {σ α β : Type}

/-- The program returns in the state it was run in, or does not return. -/
def Reads (x : Prog σ α) : Prop :=
  ∀ s, (x s).Holds (fun _ s' => s' = s) (fun _ => False) fun _ => True

theorem Reads.ok {x : Prog σ α} (h : Reads x) {s s' : σ} {a : α} (hrun : x s = .ok a s') :
    s' = s := by
  have hs := h s
  rwa [hrun] at hs

theorem Reads.noFail {x : Prog σ α} (h : Reads x) : NoFail x := by
  intro s s' hrun
  have hs := h s
  rwa [hrun] at hs

theorem Reads.keeps {x : Prog σ α} {S : Stop → Prop} {I : σ → Prop} (h : Reads x)
    (hS : ∀ w, S w) : Keeps S I x :=
  fun s hI => (h s).mono (fun _ _ hs => hs ▸ hI) (fun _ hf => hf.elim) fun w _ => hS w

namespace Reads

theorem pure (a : α) : Reads (Pure.pure a : Prog σ α) := fun _ => rfl

theorem bind {x : Prog σ α} {f : α → Prog σ β} (hx : Reads x) (hf : ∀ a, Reads (f a)) :
    Reads (x >>= f) :=
  fun s => (hx s).bind fun a s' hs => hs ▸ hf a s'

theorem get : Reads (Prog.get : Prog σ σ) := fun _ => rfl

theorem halt (w : Stop) : Reads (Prog.halt w : Prog σ α) := fun _ => trivial

theorem assert (c : Prop) [Decidable c] : Reads (Prog.assert c : Prog σ Unit) := by
  intro s
  rw [assert_apply]
  split
  · exact rfl
  · trivial

theorem ite {c : Prop} [Decidable c] {x y : Prog σ α} (hx : Reads x) (hy : Reads y) :
    Reads (if c then x else y) := by
  split
  · exact hx
  · exact hy

theorem when {c : Prop} [Decidable c] {x : Prog σ Unit} (hx : Reads x) : Reads (Prog.when c x) :=
  .ite hx (.pure ())

end Reads

end Prog
