import Mathlib.Logic.Basic

/-!
# Trees with labels

Finite trees with a label at every node and an ordered list of subtrees. A function on the labels
gives one on the trees (`map`), a predicate on them a predicate on the trees (`All`), and a
weight of the labels is added up over a tree (`total`).
-/

namespace CjsonRs.Library

/-- A tree with a label at every node. -/
inductive Rose (α : Type) where
  | node (label : α) (children : List (Rose α))

namespace Rose

variable {α β γ : Type} {t : Rose α} {ts us : List (Rose α)} {f g : α → β} {p q : α → Prop}

/-- Induction over a tree with the hypothesis of every child. -/
theorem induct {P : Rose α → Prop} {Q : List (Rose α) → Prop}
    (node : ∀ a ts, Q ts → P (.node a ts)) (nil : Q [])
    (cons : ∀ t ts, P t → Q ts → Q (t :: ts)) : (∀ t, P t) ∧ ∀ ts, Q ts := by
  refine ⟨fun t => ?_, fun ts => ?_⟩
  · exact @Rose.rec α P Q (fun a ts => node a ts) nil (fun t ts => cons t ts) t
  · exact @Rose.rec_1 α P Q (fun a ts => node a ts) nil (fun t ts => cons t ts) ts

/-- The label of the root. -/
def label : Rose α → α
  | .node a _ => a

mutual

/-- The tree with other labels. -/
def map (f : α → β) : Rose α → Rose β
  | .node a ts => .node (f a) (mapAll f ts)

def mapAll (f : α → β) : List (Rose α) → List (Rose β)
  | [] => []
  | t :: ts => t.map f :: mapAll f ts

end

mutual

/-- Every label satisfies `p`. -/
def All (p : α → Prop) : Rose α → Prop
  | .node a ts => p a ∧ AllList p ts

def AllList (p : α → Prop) : List (Rose α) → Prop
  | [] => True
  | t :: ts => t.All p ∧ AllList p ts

end

mutual

/-- The sum of the weights of the labels. -/
def total (w : α → Nat) : Rose α → Nat
  | .node a ts => w a + totalList w ts

def totalList (w : α → Nat) : List (Rose α) → Nat
  | [] => 0
  | t :: ts => t.total w + totalList w ts

end

/-- Two changes of the labels agree on a tree when they agree on its labels. -/
theorem map_eq_map_iff : (∀ t : Rose α, t.map f = t.map g ↔ t.All fun a => f a = g a) ∧
    ∀ ts, mapAll f ts = mapAll g ts ↔ AllList (fun a => f a = g a) ts := by
  apply induct
  · intro a ts ih
    rw [map, map, All, Rose.node.injEq, ih]
  · rw [mapAll, mapAll, AllList]
    exact iff_of_true rfl trivial
  · intro t ts ihT ihTs
    rw [mapAll, mapAll, AllList, List.cons.injEq, ihT, ihTs]

theorem map_map (g : β → γ) : (∀ t : Rose α, (t.map f).map g = t.map fun a => g (f a)) ∧
    ∀ ts, mapAll g (mapAll f ts) = mapAll (fun a => g (f a)) ts := by
  apply induct
  · intro a ts ih
    rw [map, map, map, ih]
  · rfl
  · intro t ts ihT ihTs
    rw [mapAll, mapAll, mapAll, ihT, ihTs]

theorem total_mono {w w' : α → Nat} (hLe : ∀ a, w a ≤ w' a) :
    (∀ t : Rose α, t.total w ≤ t.total w') ∧ ∀ ts, totalList w ts ≤ totalList w' ts := by
  apply induct
  · intro a ts ih
    rw [total, total]
    exact Nat.add_le_add (hLe a) ih
  · exact Nat.le_refl 0
  · intro t ts ihT ihTs
    rw [totalList, totalList]
    exact Nat.add_le_add ihT ihTs

end Rose

end CjsonRs.Library
