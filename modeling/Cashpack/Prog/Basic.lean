import Mathlib.Tactic.NormNum

/-!
# Programs that return, fail or stop

A deterministic program over a state `σ` either returns a value, returns an error to its
caller (the state keeps what was done so far), or does not return at all: a failed assertion,
an invalid memory access, or a loop that runs past the bound given for it.

## Main definitions

* `Prog.Out σ α` : the outcome of a run.
* `Prog σ α` : a program, as a function from the state to the outcome; a monad whose `bind`
  passes errors and stops on.
* `Prog.assert` : the check that stops a program.
* `Prog.attempt` : run a program and look at whether it returned an error.
-/

/-- Why a run ends without returning. -/
inductive Prog.Stop
  /-- An assertion failed. -/
  | abort
  /-- An invalid pointer was used. -/
  | fault
  /-- A read or a write went past the end of the memory it was made in. -/
  | overrun
  /-- A loop ran past its bound. -/
  | spin
deriving DecidableEq, Repr

/-- The outcome of a run. -/
inductive Prog.Out (σ α : Type)
  /-- The program returned `a` in state `s`. -/
  | ok (a : α) (s : σ)
  /-- The program returned an error to its caller. -/
  | err (s : σ)
  /-- The program did not return. -/
  | stop (w : Prog.Stop)
deriving DecidableEq

/-- A program over the state `σ` with results in `α`. -/
def Prog (σ α : Type) : Type := σ → Prog.Out σ α

namespace Prog

variable {σ α β γ : Type}

/-- Continue after a successful run. -/
def Out.bind (x : Out σ α) (f : α → Prog σ β) : Out σ β :=
  match x with
  | .ok a s => f a s
  | .err s => .err s
  | .stop w => .stop w

instance : Monad (Prog σ) where
  pure a := fun s => .ok a s
  bind x f := fun s => (x s).bind f

instance : LawfulMonad (Prog σ) :=
  .mk' _
    (fun x => funext fun s => by
      show (x s).bind _ = x s
      cases x s <;> rfl)
    (fun _ _ => rfl)
    (fun x f g => funext fun s => by
      show ((x s).bind f).bind g = (x s).bind _
      cases x s <;> rfl)

/-- The current state. -/
def get : Prog σ σ := fun s => .ok s s

/-- Change the state. -/
def modify (f : σ → σ) : Prog σ Unit := fun s => .ok () (f s)

/-- Return an error. -/
def fail : Prog σ α := fun s => .err s

/-- Do not return. -/
def halt (w : Stop) : Prog σ α := fun _ => .stop w

/-- A run-time assertion. -/
def assert (c : Prop) [Decidable c] : Prog σ Unit :=
  fun s => if c then .ok () s else .stop .abort

/-- Run `x` when `c` holds. -/
def when (c : Prop) [Decidable c] (x : Prog σ Unit) : Prog σ Unit := if c then x else pure ()

/-- Run `x` and go on even when it returns an error, with `none`. -/
def attempt (x : Prog σ α) : Prog σ (Option α) := fun s =>
  match x s with
  | .ok a s => .ok (some a) s
  | .err s => .ok none s
  | .stop w => .stop w

/-! ### Evaluation -/

@[simp] theorem Out.bind_ok (a : α) (s : σ) (f : α → Prog σ β) : (Out.ok a s).bind f = f a s := rfl

@[simp] theorem Out.bind_err (s : σ) (f : α → Prog σ β) : (Out.err s).bind f = .err s := rfl

@[simp] theorem Out.bind_stop (w : Stop) (f : α → Prog σ β) :
    (Out.stop w : Out σ α).bind f = .stop w := rfl

@[simp] theorem pure_apply (a : α) (s : σ) : (pure a : Prog σ α) s = .ok a s := rfl

@[simp] theorem bind_apply (x : Prog σ α) (f : α → Prog σ β) (s : σ) :
    (x >>= f) s = (x s).bind f := rfl

/-- A sequence that returns, returned from its two parts. -/
theorem bind_eq_ok {x : Prog σ α} {f : α → Prog σ β} {s s' : σ} {b : β}
    (h : (x >>= f) s = .ok b s') : ∃ a s₁, x s = .ok a s₁ ∧ f a s₁ = .ok b s' := by
  rw [bind_apply] at h
  cases hx : x s with
  | ok a s₁ => exact ⟨a, s₁, rfl, by rwa [hx] at h⟩
  | err _ => rw [hx] at h; cases h
  | stop _ => rw [hx] at h; cases h

@[simp] theorem map_apply (f : α → β) (x : Prog σ α) (s : σ) :
    (f <$> x) s = (x s).bind fun a => pure (f a) := rfl

@[simp] theorem get_apply (s : σ) : (get : Prog σ σ) s = .ok s s := rfl

@[simp] theorem modify_apply (f : σ → σ) (s : σ) : modify f s = .ok () (f s) := rfl

@[simp] theorem fail_apply (s : σ) : (fail : Prog σ α) s = .err s := rfl

@[simp] theorem halt_apply (w : Stop) (s : σ) : (halt w : Prog σ α) s = .stop w := rfl

theorem assert_apply (c : Prop) [Decidable c] (s : σ) :
    assert c s = if c then .ok () s else .stop .abort := rfl

theorem assert_bind_pos {c : Prop} [Decidable c] (h : c) (f : Unit → Prog σ β) (s : σ) :
    (assert c >>= f) s = f () s := by
  rw [bind_apply, assert_apply, if_pos h, Out.bind_ok]

theorem assert_bind_neg {c : Prop} [Decidable c] (h : ¬ c) (f : Unit → Prog σ β) (s : σ) :
    (assert c >>= f) s = .stop .abort := by
  rw [bind_apply, assert_apply, if_neg h, Out.bind_stop]

theorem assert_eq_ok {c : Prop} [Decidable c] {s s' : σ} (h : assert c s = .ok () s') :
    c ∧ s' = s := by
  rw [assert_apply] at h
  by_cases hc : c
  · rw [if_pos hc] at h
    cases h
    exact ⟨hc, rfl⟩
  · rw [if_neg hc] at h
    cases h

theorem assert_bind_eq_ok {c : Prop} [Decidable c] {f : Unit → Prog σ β} {s s' : σ} {b : β}
    (h : (assert c >>= f) s = .ok b s') : c ∧ f () s = .ok b s' := by
  obtain ⟨_, s₁, h₁, h⟩ := bind_eq_ok h
  obtain ⟨hc, hs⟩ := assert_eq_ok h₁
  exact ⟨hc, hs ▸ h⟩

theorem when_apply (c : Prop) [Decidable c] (x : Prog σ Unit) (s : σ) :
    when c x s = if c then x s else .ok () s := by
  unfold when
  split <;> rfl

theorem attempt_apply (x : Prog σ α) (s : σ) :
    attempt x s = match x s with
      | .ok a s => .ok (some a) s
      | .err s => .ok none s
      | .stop w => .stop w := rfl

theorem attempt_eq_some {x : Prog σ α} {s s' : σ} {a : α}
    (h : attempt x s = .ok (some a) s') : x s = .ok a s' := by
  rw [attempt_apply] at h
  cases hx : x s with
  | ok a s₁ => rw [hx] at h; cases h; rfl
  | err _ => rw [hx] at h; cases h
  | stop _ => rw [hx] at h; cases h

@[simp] theorem ite_run (c : Prop) [Decidable c] (x y : Prog σ α) (s : σ) :
    (if c then x else y) s = if c then x s else y s := by
  split <;> rfl

end Prog
