import Cashpack.Prog.Basic

/-!
# Programs that do not fail

`Prog.NoFail x` says that the program `x` never returns an error, with one rule for each way to
build a program.
-/

namespace Prog

variable {σ α β : Type}

/-- The program never returns an error. -/
def NoFail (x : Prog σ α) : Prop := ∀ s s', x s ≠ .err s'

theorem Out.ok_ne_err (a : α) (s s' : σ) : (Out.ok a s : Out σ α) ≠ .err s' := nofun

theorem Out.stop_ne_err (w : Stop) (s : σ) : (Out.stop w : Out σ α) ≠ .err s := nofun

namespace NoFail

theorem pure (a : α) : NoFail (Pure.pure a : Prog σ α) := fun _ _ => Out.ok_ne_err _ _ _

theorem bind {x : Prog σ α} {f : α → Prog σ β} (hx : NoFail x) (hf : ∀ a, NoFail (f a)) :
    NoFail (x >>= f) := by
  intro s s'
  rw [bind_apply]
  cases h : x s with
  | ok a s₁ => exact hf a s₁ s'
  | err s₁ => exact absurd h (hx s s₁)
  | stop w => exact Out.stop_ne_err _ _

theorem get : NoFail (Prog.get : Prog σ σ) := fun _ _ => Out.ok_ne_err _ _ _

theorem modify (f : σ → σ) : NoFail (Prog.modify f) := fun _ _ => Out.ok_ne_err _ _ _

theorem halt (w : Stop) : NoFail (Prog.halt w : Prog σ α) := fun _ _ => Out.stop_ne_err _ _

theorem assert (c : Prop) [Decidable c] : NoFail (Prog.assert c : Prog σ Unit) := by
  intro s s'
  rw [assert_apply]
  split
  · exact Out.ok_ne_err _ _ _
  · exact Out.stop_ne_err _ _

theorem ite {c : Prop} [Decidable c] {x y : Prog σ α} (hx : NoFail x) (hy : NoFail y) :
    NoFail (if c then x else y) := by
  split
  · exact hx
  · exact hy

theorem when {c : Prop} [Decidable c] {x : Prog σ Unit} (hx : NoFail x) : NoFail (Prog.when c x) :=
  .ite hx (.pure ())

end NoFail

end Prog
