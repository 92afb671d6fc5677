import Cashpack.Prog.Basic

/-!
# Invariants of programs

`Prog.Keeps S I x` says that the program `x` keeps the invariant `I`, whether it returns a
value or an error, and that when it stops it is for a reason in `S`.  There is one rule for
each way to build a program; applied to a state, such a fact is about one run (`Prog.Out.Holds`).

`Prog.Reach` is reachability by calls to a family of programs, each under a condition on the
state it is called in, with the induction rule for invariants.
-/

namespace Prog

variable {σ α β ι : Type}

/-- `Q` holds of the value and the state returned, `E` of the state an error leaves, and `S` of
the reason to stop. -/
def Out.Holds (Q : α → σ → Prop) (E : σ → Prop) (S : Stop → Prop) : Out σ α → Prop
  | .ok a s => Q a s
  | .err s => E s
  | .stop w => S w

section

variable {Q Q' : α → σ → Prop} {R : β → σ → Prop} {E E' : σ → Prop} {S S' : Stop → Prop}

theorem Out.Holds.mono {x : Out σ α} (h : x.Holds Q E S) (hQ : ∀ a s, Q a s → Q' a s)
    (hE : ∀ s, E s → E' s) (hS : ∀ w, S w → S' w) : x.Holds Q' E' S' := by
  cases x with
  | ok a s => exact hQ a s h
  | err s => exact hE s h
  | stop w => exact hS w h

theorem Out.Holds.bind {x : Out σ α} {f : α → Prog σ β} (h : x.Holds Q E S)
    (hf : ∀ a s, Q a s → (f a s).Holds R E S) : (x.bind f).Holds R E S := by
  cases x with
  | ok a s => exact hf a s h
  | err s => exact h
  | stop w => exact h

end

/-- Two facts about the same run. -/
theorem Out.Holds.and {Q Q' : α → σ → Prop} {E E' : σ → Prop} {S S' : Stop → Prop} {x : Out σ α}
    (h : x.Holds Q E S) (h' : x.Holds Q' E' S') :
    x.Holds (fun a s => Q a s ∧ Q' a s) (fun s => E s ∧ E' s) S := by
  cases x with
  | ok a s => exact ⟨h, h'⟩
  | err s => exact ⟨h, h'⟩
  | stop w => exact h

/-- Nothing is said of the outcome. -/
theorem Out.Holds.any (x : Out σ α) : x.Holds (fun _ _ => True) (fun _ => True) fun _ => True := by
  cases x <;> trivial

theorem Out.Holds.assert_bind {R : β → σ → Prop} {E : σ → Prop} {S : Stop → Prop} {s : σ}
    {c : Prop} [Decidable c] {f : Unit → Prog σ β} (hS : S .abort)
    (h : c → (f () s).Holds R E S) : ((Prog.assert c >>= f) s).Holds R E S := by
  rw [bind_apply, assert_apply]
  split
  · exact h ‹_›
  · exact hS

/-- An attempt returns whether it failed. -/
theorem Out.Holds.attempt {Q : α → σ → Prop} {E E' : σ → Prop} {S : Stop → Prop} {x : Prog σ α}
    {s : σ} (h : (x s).Holds Q E S) :
    (Prog.attempt x s).Holds (fun r s' => r.elim (E s') fun a => Q a s') E' S := by
  rw [attempt_apply]
  cases hx : x s with
  | ok a s' =>
    rw [hx] at h
    exact h
  | err s' =>
    rw [hx] at h
    exact h
  | stop w =>
    rw [hx] at h
    exact h

/-- `x` keeps the invariant `I` and only stops for a reason in `S`. -/
def Keeps (S : Stop → Prop) (I : σ → Prop) (x : Prog σ α) : Prop :=
  ∀ s, I s → (x s).Holds (fun _ => I) I S

namespace Keeps

variable {S : Stop → Prop} {I : σ → Prop}

theorem pure (a : α) : Keeps S I (Pure.pure a : Prog σ α) := fun _ h => h

theorem bind {x : Prog σ α} {f : α → Prog σ β} (hx : Keeps S I x) (hf : ∀ a, Keeps S I (f a)) :
    Keeps S I (x >>= f) :=
  fun s h => (hx s h).bind fun a s' h' => hf a s' h'

/-- What follows a program that keeps the invariant starts in a state where it holds. -/
theorem bind_holds {S' : Stop → Prop} {R : β → σ → Prop} {E : σ → Prop} {x : Prog σ α}
    {f : α → Prog σ β} {s : σ} (hx : Keeps S I x) (h : I s)
    (hf : ∀ a s', I s' → (f a s').Holds R E S') (hE : ∀ s', I s' → E s')
    (hS : ∀ w, S w → S' w) : ((x >>= f) s).Holds R E S' :=
  ((hx s h).mono (fun _ _ h => h) hE hS).bind hf

/-- The state read is the one the rest starts in. -/
theorem get_bind {f : σ → Prog σ β} (hf : ∀ s, I s → (f s s).Holds (fun _ => I) I S) :
    Keeps S I (get >>= f) := hf

theorem get : Keeps S I (Prog.get : Prog σ σ) := fun _ h => h

theorem modify {f : σ → σ} (hf : ∀ s, I s → I (f s)) : Keeps S I (Prog.modify f) := hf

theorem fail : Keeps S I (Prog.fail : Prog σ α) := fun _ h => h

theorem halt {w : Stop} (hw : S w) : Keeps S I (Prog.halt w : Prog σ α) := fun _ _ => hw

theorem assert (c : Prop) [Decidable c] (hw : S .abort) : Keeps S I (Prog.assert c : Prog σ _) := by
  intro s h
  rw [assert_apply]
  split
  · exact h
  · exact hw

theorem when {c : Prop} [Decidable c] {x : Prog σ Unit} (hx : c → Keeps S I x) :
    Keeps S I (Prog.when c x) := by
  unfold Prog.when
  split
  · exact hx ‹_›
  · exact .pure ()

theorem attempt {x : Prog σ α} (hx : Keeps S I x) : Keeps S I (Prog.attempt x) := by
  intro s h
  have hs := hx s h
  rw [attempt_apply]
  cases hxs : x s with
  | ok a s' =>
    rw [hxs] at hs
    exact hs
  | err s' =>
    rw [hxs] at hs
    exact hs
  | stop w =>
    rw [hxs] at hs
    exact hs

theorem ite {c : Prop} [Decidable c] {x y : Prog σ α} (hx : c → Keeps S I x)
    (hy : ¬ c → Keeps S I y) : Keeps S I (if c then x else y) := by
  split
  · exact hx ‹_›
  · exact hy ‹_›

end Keeps

/-! ### Runs -/

/-- `s'` is reached from `s` by calls that return, each made in a state where `C` allows it. -/
inductive Reach (exec : ι → Prog σ α) (C : ι → σ → Prop) : σ → σ → Prop
  | refl (s : σ) : Reach exec C s s
  | step {s s' s'' : σ} {i : ι} {a : α} (before : Reach exec C s s') (allowed : C i s')
      (call : exec i s' = .ok a s'') : Reach exec C s s''

/-- An invariant that the calls keep holds in every state reached. -/
theorem Reach.invariant {exec : ι → Prog σ α} {C : ι → σ → Prop} {I : σ → Prop} {s s' : σ}
    (h : Reach exec C s s') (h₀ : I s)
    (hstep : ∀ i s a s', I s → C i s → exec i s = .ok a s' → I s') : I s' := by
  induction h with
  | refl => exact h₀
  | step _ hc hrun ih => exact hstep _ _ _ _ ih hc hrun

/-- A weaker condition reaches more states. -/
theorem Reach.mono {exec : ι → Prog σ α} {C C' : ι → σ → Prop} {s s' : σ}
    (h : Reach exec C s s') (hC : ∀ i s, C i s → C' i s) : Reach exec C' s s' := by
  induction h with
  | refl => exact .refl _
  | step _ hc hrun ih => exact .step ih (hC _ _ hc) hrun

end Prog
