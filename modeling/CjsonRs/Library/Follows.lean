import CjsonRs.Library.Run

/-!
# Two runs side by side

`Follows R x y` says that `y` does on one state what `x` does on another, related by `R`, when
`x` returns. The rules take a program apart along its sequences and choices, so that a relation
that its single steps keep is kept by the program.
-/

namespace CjsonRs.Library.Run

variable {σ τ ε α β : Type} {R : σ → τ → Prop}

/-- Where `x` returns, `y` returns the same, and the states stay related. -/
def Follows (R : σ → τ → Prop) (x : Run σ ε α) (y : Run τ ε α) : Prop :=
  ∀ s t a s', R s t → x s = .ok (a, s') → ∃ t', y t = .ok (a, t') ∧ R s' t'

section Rules

variable {x x' : Run σ ε α} {y y' : Run τ ε α} {f : α → Run σ ε β} {g : α → Run τ ε β}

theorem follows_pure (a : α) : Follows R (pure a : Run σ ε α) (pure a) := by
  intro s t a' s' hR hRun
  cases hRun
  exact ⟨t, rfl, hR⟩

/-- A fault is followed by anything. -/
theorem follows_fault (e : ε) (y : Run τ ε α) : Follows R (fault e) y := by
  intro s t a s' _ hRun
  cases hRun

/-- A change of the state that is made on both sides. -/
theorem follows_step {u : σ → σ} {v : τ → τ} (a : α) (hKeep : ∀ s t, R s t → R (u s) (v t)) :
    Follows R (fun s => .ok (a, u s) : Run σ ε α) (fun t => .ok (a, v t)) := by
  intro s t a' s' hR hRun
  cases hRun
  exact ⟨v t, rfl, hKeep s t hR⟩

/-- A sequence, where `P` is known of what the first part returns. -/
theorem Follows.bind_of {P : α → Prop} (h : Follows R x y)
    (hP : ∀ s t a s', R s t → x s = .ok (a, s') → P a) (hf : ∀ a, P a → Follows R (f a) (g a)) :
    Follows R (x >>= f) (y >>= g) := by
  intro s t b s'' hR hRun
  obtain ⟨a, s', hx, hfRun⟩ := bind_run_eq_ok.mp hRun
  obtain ⟨t', hy, hR'⟩ := h s t a s' hR hx
  obtain ⟨t'', hg, hR''⟩ := hf a (hP s t a s' hR hx) s' t' b s'' hR' hfRun
  exact ⟨t'', (bind_run_ok hy).trans hg, hR''⟩

theorem Follows.bind (h : Follows R x y) (hf : ∀ a, Follows R (f a) (g a)) :
    Follows R (x >>= f) (y >>= g) :=
  h.bind_of (P := fun _ => True) (fun _ _ _ _ _ _ => trivial) fun a _ => hf a

theorem Follows.map (h : Follows R x y) (r : α → β) : Follows R (r <$> x) (r <$> y) := by
  rw [map_eq_pure_bind, map_eq_pure_bind]
  exact h.bind fun a => follows_pure (r a)

theorem follows_ite {b : Prop} [Decidable b] (h : b → Follows R x y)
    (h' : ¬ b → Follows R x' y') :
    Follows R (if b then x else x') (if b then y else y') := by
  split
  · exact h ‹b›
  · exact h' ‹¬ b›

end Rules

end CjsonRs.Library.Run
