import Cashpack.Prog.Keeps

/-!
# Two runs side by side

`Prog.Agree R X x y` says that the programs `x` and `y`, run from two states related by `R`, end
the same way with related states, unless `y` leaves early with an error in a state where `X`
holds.  There is one rule for each way to build a program.
-/

namespace Prog

variable {σ α β : Type}

/-- Two outcomes are the same with related states, or the second one is an error in `X`. -/
inductive Out.Rel (R : σ → σ → Prop) (X : σ → Prop) : Out σ α → Out σ α → Prop
  | ok (a : α) {s s' : σ} (h : R s s') : Out.Rel R X (.ok a s) (.ok a s')
  | err {s s' : σ} (h : R s s') : Out.Rel R X (.err s) (.err s')
  | stop (w : Stop) : Out.Rel R X (.stop w) (.stop w)
  | exit (x : Out σ α) {s' : σ} (h : X s') : Out.Rel R X x (.err s')

section

variable {R R' : σ → σ → Prop} {X X' : σ → Prop}

theorem Out.Rel.mono {x y : Out σ α} (h : x.Rel R X y) (hR : ∀ s s', R s s' → R' s s')
    (hX : ∀ s, X s → X' s) : x.Rel R' X' y := by
  cases h with
  | ok a h => exact .ok a (hR _ _ h)
  | err h => exact .err (hR _ _ h)
  | stop w => exact .stop w
  | exit x h => exact .exit x (hX _ h)

theorem Out.Rel.bind {x y : Out σ α} {f g : α → Prog σ β} (h : x.Rel R X y)
    (hf : ∀ a s s', R s s' → (f a s).Rel R X (g a s')) : (x.bind f).Rel R X (y.bind g) := by
  cases h with
  | ok a h => exact hf a _ _ h
  | err h => exact .err h
  | stop w => exact .stop w
  | exit x h => exact .exit _ h

/-- The value returned, if there is one. -/
def Out.value : Out σ α → Option α
  | .ok a _ => some a
  | _ => none

theorem Out.Rel.value_eq {x y : Out σ α} (h : x.Rel R (fun _ => False) y) : x.value = y.value := by
  cases h with
  | ok a h => rfl
  | err h => rfl
  | stop w => rfl
  | exit x h => exact h.elim

/-- What is known of the first run adds to the relation. -/
theorem Out.Rel.and {x y : Out σ α} {P : α → σ → Prop} {E : σ → Prop} {S : Stop → Prop}
    (h : x.Rel R X y) (hx : x.Holds P E S) :
    x.Rel (fun s s' => R s s' ∧ ((∃ a, P a s) ∨ E s)) X y := by
  cases h with
  | ok a h => exact .ok a ⟨h, Or.inl ⟨a, hx⟩⟩
  | err h => exact .err ⟨h, Or.inr hx⟩
  | stop w => exact .stop w
  | exit x h => exact .exit x h

end

/-- What is known of each run adds to the relation. -/
theorem Out.Rel.keep {R : σ → σ → Prop} {I I' : σ → Prop} {S S' : Stop → Prop} {x y : Out σ α}
    (h : x.Rel R (fun _ => False) y) (hx : x.Holds (fun _ => I) I S)
    (hy : y.Holds (fun _ => I') I' S') :
    x.Rel (fun s s' => R s s' ∧ I s ∧ I' s') (fun _ => False) y := by
  cases h with
  | ok a h => exact .ok a ⟨h, hx, hy⟩
  | err h => exact .err ⟨h, hx, hy⟩
  | stop w => exact .stop w
  | exit x h => exact h.elim

/-! ### Values that differ -/

/-- Both outcomes are values, with their states, in `V`, or errors in `E`, or the same stop. -/
inductive Out.Both (V : α → β → σ → σ → Prop) (E : σ → σ → Prop) : Out σ α → Out σ β → Prop
  | ok {a : α} {b : β} {s s' : σ} (h : V a b s s') : Out.Both V E (.ok a s) (.ok b s')
  | err {s s' : σ} (h : E s s') : Out.Both V E (.err s) (.err s')
  | stop (w : Stop) : Out.Both V E (.stop w) (.stop w)

section

variable {γ δ : Type} {V V' : α → β → σ → σ → Prop} {W : γ → δ → σ → σ → Prop} {E E' : σ → σ → Prop}
  {x : Out σ α} {y : Out σ β}

theorem Out.Both.mono (h : x.Both V E y) (hV : ∀ a b s s', V a b s s' → V' a b s s')
    (hE : ∀ s s', E s s' → E' s s') : x.Both V' E' y := by
  cases h with
  | ok h => exact .ok (hV _ _ _ _ h)
  | err h => exact .err (hE _ _ h)
  | stop w => exact .stop w

theorem Out.Both.bind {f : α → Prog σ γ} {g : β → Prog σ δ} (h : x.Both V E y)
    (hf : ∀ a b s s', V a b s s' → (f a s).Both W E (g b s')) : (x.bind f).Both W E (y.bind g) := by
  cases h with
  | ok h => exact hf _ _ _ _ h
  | err h => exact .err h
  | stop w => exact .stop w

/-- What is known of each run adds to what relates them. -/
theorem Out.Both.and {Q : α → σ → Prop} {Q' : β → σ → Prop} {F F' : σ → Prop} {S S' : Stop → Prop}
    (h : x.Both V E y) (hx : x.Holds Q F S) (hy : y.Holds Q' F' S') :
    x.Both (fun a b s s' => V a b s s' ∧ Q a s ∧ Q' b s') (fun s s' => E s s' ∧ F s ∧ F' s') y := by
  cases h with
  | ok h => exact .ok ⟨h, hx, hy⟩
  | err h => exact .err ⟨h, hx, hy⟩
  | stop w => exact .stop w

/-- Two values, with their states. -/
theorem Out.Both.of_ok {a : α} {b : β} {s s' : σ} (h : x.Both V E y) (hx : x = .ok a s)
    (hy : y = .ok b s') : V a b s s' := by
  subst hx
  subst hy
  cases h with
  | ok h => exact h

end

theorem Out.Rel.both {R : σ → σ → Prop} {x y : Out σ α} (h : x.Rel R (fun _ => False) y) :
    x.Both (fun a b s s' => a = b ∧ R s s') R y := by
  cases h with
  | ok a h => exact .ok ⟨rfl, h⟩
  | err h => exact .err h
  | stop w => exact .stop w
  | exit x h => exact h.elim

/-! ### Programs -/

/-- The two programs end the same way from related states. -/
def Agree (R : σ → σ → Prop) (X : σ → Prop) (x y : Prog σ α) : Prop :=
  ∀ s s', R s s' → (x s).Rel R X (y s')

/-- A program that does the same from related states. -/
abbrev Respects (R : σ → σ → Prop) (X : σ → Prop) (x : Prog σ α) : Prop := Agree R X x x

namespace Agree

variable {R : σ → σ → Prop} {X : σ → Prop}

theorem pure (a : α) : Respects R X (Pure.pure a : Prog σ α) := fun _ _ h => .ok a h

theorem bind {x y : Prog σ α} {f g : α → Prog σ β} (hx : Agree R X x y)
    (hf : ∀ a, Agree R X (f a) (g a)) : Agree R X (x >>= f) (y >>= g) :=
  fun s s' h => (hx s s' h).bind fun a s s' h => hf a s s' h

/-- What is read of the two states may differ. -/
theorem get_bind {f g : σ → Prog σ β} (hf : ∀ s s', R s s' → (f s s).Rel R X (g s' s')) :
    Agree R X (get >>= f) (get >>= g) := hf

theorem modify {f g : σ → σ} (hf : ∀ s s', R s s' → R (f s) (g s')) :
    Agree R X (modify f) (modify g) := fun s s' h => .ok () (hf s s' h)

theorem fail : Respects R X (fail : Prog σ α) := fun _ _ h => .err h

theorem halt (w : Stop) : Respects R X (halt w : Prog σ α) := fun _ _ _ => .stop w

theorem assert (c : Prop) [Decidable c] : Respects R X (assert c) := by
  intro s s' h
  rw [assert_apply, assert_apply]
  split
  · exact .ok () h
  · exact .stop .abort

theorem ite {c : Prop} [Decidable c] {x y x' y' : Prog σ α} (hx : c → Agree R X x x')
    (hy : ¬ c → Agree R X y y') : Agree R X (if c then x else y) (if c then x' else y') := by
  split
  · exact hx ‹_›
  · exact hy ‹_›

theorem when {c : Prop} [Decidable c] {x y : Prog σ Unit} (hx : c → Agree R X x y) :
    Agree R X (Prog.when c x) (Prog.when c y) :=
  .ite hx fun _ => .pure ()

/-- Without an early exit, an attempt ends the same way too. -/
theorem attempt {x y : Prog σ α} (hx : Agree R (fun _ => False) x y) :
    Agree R X (attempt x) (attempt y) := by
  intro s s' h
  rw [attempt_apply, attempt_apply]
  generalize hxs : x s = o
  generalize hys : y s' = o'
  have hrel := hx s s' h
  rw [hxs, hys] at hrel
  cases hrel with
  | ok a h => exact .ok _ h
  | err h => exact .ok _ h
  | stop w => exact .stop w
  | exit _ h => exact h.elim

end Agree

end Prog
