import CjsonRs.Library.Except

/-!
# Computations over a state that can fault

`Run σ ε α` reads and changes a state `σ` and returns an `α` or faults with an `ε`. The
rules run such a computation forwards (`bind_run`, `ite_run`) and read a successful run
backwards (`bind_run_eq_ok`). `Meets x s S Q` is a specification: what a run from `s` returns,
and when it does. `Avoids e x s` says that the run does not fault with `e`.
-/

namespace CjsonRs.Library

/-- A computation over a state that returns a value or faults. -/
abbrev Run (σ ε α : Type) : Type := StateT σ (Except ε) α

namespace Run

variable {σ ε α β : Type}

/-- The fault `e`. -/
def fault (e : ε) : Run σ ε α := fun _ => .error e

@[simp] theorem pure_run (a : α) (s : σ) : (pure a : Run σ ε α) s = .ok (a, s) := rfl

@[simp] theorem get_run (s : σ) : (get : Run σ ε σ) s = .ok (s, s) := rfl

theorem bind_run (x : Run σ ε α) (f : α → Run σ ε β) (s : σ) :
    (x >>= f) s = x s >>= fun r => f r.1 r.2 := rfl

/-- Run the first part of a sequence. -/
theorem bind_run_ok {x : Run σ ε α} {f : α → Run σ ε β} {s s' : σ} {a : α}
    (h : x s = .ok (a, s')) : (x >>= f) s = f a s' := by
  rw [bind_run, h, ok_bind]

theorem map_run_ok {x : Run σ ε α} {f : α → β} {s s' : σ} {a : α} (h : x s = .ok (a, s')) :
    (f <$> x) s = .ok (f a, s') := by
  rw [map_eq_pure_bind, bind_run_ok h, pure_run]

/-- Read a successful sequence backwards. -/
theorem bind_run_eq_ok {x : Run σ ε α} {f : α → Run σ ε β} {s : σ} {r : β × σ} :
    (x >>= f) s = .ok r ↔ ∃ a s', x s = .ok (a, s') ∧ f a s' = .ok r := by
  rw [bind_run, bind_eq_ok]
  constructor
  · rintro ⟨⟨a, s'⟩, hx, hf⟩
    exact ⟨a, s', hx, hf⟩
  · rintro ⟨a, s', hx, hf⟩
    exact ⟨(a, s'), hx, hf⟩

theorem ite_run (c : Prop) [Decidable c] (x y : Run σ ε α) (s : σ) :
    (if c then x else y) s = if c then x s else y s := by
  split <;> rfl

/-- What follows a choice follows both of its branches. -/
theorem ite_bind (c : Prop) [Decidable c] (x y : Run σ ε α) (f : α → Run σ ε β) :
    ((if c then x else y) >>= f) = if c then x >>= f else y >>= f := by
  split <;> rfl

/-! ## Specifications -/

/-- `x` returns something with `Q` from `s`, or faults because `S` fails. -/
def Meets (x : Run σ ε α) (s : σ) (S : Prop) (Q : α → σ → Prop) : Prop :=
  match x s with
  | .ok (a, s') => Q a s'
  | .error _ => ¬ S

section Meets

variable {x : Run σ ε α} {f : α → Run σ ε β} {s s' : σ} {a : α} {S S' : Prop}
  {Q Q' : α → σ → Prop} {R : β → σ → Prop}

theorem meets_iff : Meets x s S Q ↔ (∀ a s', x s = .ok (a, s') → Q a s') ∧
    (S → ∃ a s', x s = .ok (a, s')) := by
  unfold Meets
  cases h : x s with
  | error e => simp
  | ok r =>
    constructor
    · intro hQ
      refine ⟨fun a s' hEq => ?_, fun _ => ⟨r.1, r.2, rfl⟩⟩
      cases hEq
      exact hQ
    · rintro ⟨hQ, -⟩
      exact hQ r.1 r.2 rfl

/-- What is returned. -/
theorem Meets.post (h : Meets x s S Q) (hRun : x s = .ok (a, s')) : Q a s' :=
  (meets_iff.mp h).1 a s' hRun

theorem Meets.returns (h : Meets x s S Q) (hS : S) : ∃ a s', x s = .ok (a, s') ∧ Q a s' := by
  obtain ⟨a, s', hRun⟩ := (meets_iff.mp h).2 hS
  exact ⟨a, s', hRun, h.post hRun⟩

theorem Meets.mono (h : Meets x s S Q) (hS : S' → S) (hQ : ∀ a s', Q a s' → Q' a s') :
    Meets x s S' Q' := by
  refine meets_iff.mpr ⟨fun a s' hRun => hQ a s' (h.post hRun), fun hS' => ?_⟩
  exact (meets_iff.mp h).2 (hS hS')

theorem Meets.weaken (h : Meets x s S Q) (hS : S' → S) : Meets x s S' Q :=
  h.mono hS fun _ _ hQ => hQ

theorem meets_of_run (hRun : x s = .ok (a, s')) (h : Q a s') : Meets x s S Q := by
  unfold Meets
  rw [hRun]
  exact h

theorem meets_pure (h : Q a s) : Meets (pure a : Run σ ε α) s S Q := h

theorem meets_fault {e : ε} (hRun : x s = .error e) (h : ¬ S) : Meets x s S Q := by
  unfold Meets
  rw [hRun]
  exact h

theorem Meets.bind (h : Meets x s S Q) (hf : ∀ a s', Q a s' → Meets (f a) s' S R) :
    Meets (x >>= f) s S R := by
  refine meets_iff.mpr ⟨fun b s'' hRun => ?_, fun hS => ?_⟩
  · obtain ⟨a, s', hx, hfRun⟩ := bind_run_eq_ok.mp hRun
    exact (hf a s' (h.post hx)).post hfRun
  · obtain ⟨a, s', hx, hQ⟩ := h.returns hS
    obtain ⟨b, s'', hfRun, -⟩ := (hf a s' hQ).returns hS
    exact ⟨b, s'', (bind_run_ok hx).trans hfRun⟩

theorem Meets.map {g : α → β} (h : Meets x s S fun a s' => R (g a) s') :
    Meets (g <$> x) s S R := by
  rw [map_eq_pure_bind]
  exact h.bind fun a s' hR => meets_pure hR

/-- Run the first part of a sequence. -/
theorem meets_bind_of_run (hRun : x s = .ok (a, s')) (h : Meets (f a) s' S R) :
    Meets (x >>= f) s S R := by
  unfold Meets at h ⊢
  rw [bind_run_ok hRun]
  exact h

theorem meets_ite {c : Prop} [Decidable c] {y : Run σ ε α} (h : c → Meets x s S Q)
    (h' : ¬ c → Meets y s S Q) : Meets (if c then x else y) s S Q := by
  split
  · exact h ‹c›
  · exact h' ‹¬ c›

end Meets

/-! ## Faults that do not happen -/

/-- The run from `s` does not end in the fault `e`. -/
def Avoids (e : ε) (x : Run σ ε α) (s : σ) : Prop := x s ≠ .error e

section Avoids

variable {x : Run σ ε α} {f : α → Run σ ε β} {s s' : σ} {a : α} {e e' : ε}

theorem avoids_of_run (hRun : x s = .ok (a, s')) : Avoids e x s := by
  intro hFault
  rw [hRun] at hFault
  cases hFault

theorem avoids_of_fault (hRun : x s = .error e') (hne : e' ≠ e) : Avoids e x s := by
  intro hFault
  rw [hRun] at hFault
  cases hFault
  exact hne rfl

theorem avoids_pure : Avoids e (pure a : Run σ ε α) s := avoids_of_run rfl

/-- A sequence avoids a fault when its parts do, the second one after what the first returns. -/
theorem Avoids.bind (h : Avoids e x s) (hf : ∀ a s', x s = .ok (a, s') → Avoids e (f a) s') :
    Avoids e (x >>= f) s := by
  intro hFault
  rw [bind_run] at hFault
  cases hx : x s with
  | error e' =>
    rw [hx, error_bind] at hFault
    cases hFault
    exact h hx
  | ok r =>
    rw [hx, ok_bind] at hFault
    exact hf r.1 r.2 hx hFault

theorem avoids_bind_of_run (hRun : x s = .ok (a, s')) (h : Avoids e (f a) s') :
    Avoids e (x >>= f) s := by
  unfold Avoids at h ⊢
  rw [bind_run_ok hRun]
  exact h

end Avoids

end Run

end CjsonRs.Library
