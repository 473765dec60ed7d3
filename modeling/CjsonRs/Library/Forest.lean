import Mathlib.Data.Finset.Card
import Mathlib.Data.List.Nodup
import Mathlib.Logic.Function.Basic
import Mathlib.Logic.Relation

/-!
# Ordered forests

A forest is given by the list of children of every node: no node occurs twice in a list or
in two lists, and no chain of children is infinite. `Below kids a x` says that `x` is `a` or
a descendant of `a`. Grafting a root below a node that is not below it, shortening a list of
children and pruning a subtree leave a forest.
-/

namespace CjsonRs.Library

/-- The children of every node form an ordered forest. -/
structure IsForest {α : Type} (kids : α → List α) : Prop where
  nodup : ∀ a, (kids a).Nodup
  parent : ∀ {a b c}, c ∈ kids a → c ∈ kids b → a = b
  wf : WellFounded fun c a => c ∈ kids a

namespace Forest

variable {α : Type} {kids kids' : α → List α} {a b c x : α}

/-- `x` is `a` or a descendant of `a`. -/
def Below (kids : α → List α) (a x : α) : Prop :=
  Relation.ReflTransGen (fun a c => c ∈ kids a) a x

/-- `a` is in no list of children. -/
def IsRoot (kids : α → List α) (a : α) : Prop := ∀ p, a ∉ kids p

theorem below_refl (a : α) : Below kids a a := Relation.ReflTransGen.refl

theorem below_child (h : c ∈ kids a) : Below kids a c := Relation.ReflTransGen.single h

theorem Below.trans (h : Below kids a b) (h' : Below kids b c) : Below kids a c :=
  Relation.ReflTransGen.trans h h'

/-- What is below a node is the node or below one of its children. -/
theorem below_iff : Below kids a x ↔ x = a ∨ ∃ c ∈ kids a, Below kids c x := by
  constructor
  · intro h
    rcases Relation.ReflTransGen.cases_head h with rfl | ⟨c, hc, hx⟩
    · exact Or.inl rfl
    · exact Or.inr ⟨c, hc, hx⟩
  · rintro (rfl | ⟨c, hc, hx⟩)
    · exact below_refl x
    · exact (below_child hc).trans hx

/-- What is below a node is the node or has its parent below it. -/
theorem below_tail (h : Below kids a x) : x = a ∨ ∃ p, Below kids a p ∧ x ∈ kids p := by
  rcases Relation.ReflTransGen.cases_tail h with rfl | ⟨p, hp, hx⟩
  · exact Or.inl rfl
  · exact Or.inr ⟨p, hp, hx⟩

/-- A node without children has nothing below it but itself. -/
theorem below_leaf (h : kids a = []) : Below kids a x ↔ x = a := by
  rw [below_iff, h]
  simp

/-- No node is below one of its children. -/
theorem not_below_child (h : IsForest kids) (hc : c ∈ kids a) : ¬ Below kids c a := by
  induction a using h.wf.induction generalizing c with
  | _ a ih =>
    intro hBelow
    rcases below_iff.mp hBelow with rfl | ⟨d, hd, hBelow⟩
    · exact ih a hc hc (below_refl a)
    · exact ih c hc hd (hBelow.trans (below_child hc))

theorem ne_of_child (h : IsForest kids) (hc : c ∈ kids a) : c ≠ a := by
  rintro rfl
  exact not_below_child h hc (below_refl c)

/-- Of two nodes above one node, one is above the other. -/
theorem below_comparable (h : IsForest kids) (ha : Below kids a x) (hb : Below kids b x) :
    Below kids a b ∨ Below kids b a := by
  induction ha with
  | refl => exact Or.inr hb
  | tail hap hx ih =>
    rcases below_tail hb with rfl | ⟨q, hbq, hx'⟩
    · exact Or.inl (Relation.ReflTransGen.tail hap hx)
    · rw [h.parent hx hx'] at ih
      exact ih hbq

/-- The subtrees of two siblings are apart. -/
theorem siblings_apart (h : IsForest kids) {p : α} (ha : a ∈ kids p) (hb : b ∈ kids p)
    (hab : a ≠ b) (hx : Below kids a x) : ¬ Below kids b x := by
  have hUp : ∀ {a b}, a ∈ kids p → b ∈ kids p → a ≠ b → ¬ Below kids a b := by
    intro a b ha hb hab hBelow
    rcases below_tail hBelow with rfl | ⟨q, haq, hbq⟩
    · exact hab rfl
    · rw [h.parent hbq hb] at haq
      exact not_below_child h ha haq
  intro hx'
  rcases below_comparable h hx hx' with hBelow | hBelow
  · exact hUp ha hb hab hBelow
  · exact hUp hb ha (Ne.symm hab) hBelow

/-- A root is below no other node. -/
theorem not_below_of_root (hRoot : IsRoot kids x) (hne : x ≠ a) : ¬ Below kids a x := by
  intro h
  rcases below_tail h with rfl | ⟨p, -, hp⟩
  · exact hne rfl
  · exact hRoot p hp

/-- A node is below a root when only finitely many nodes have children. -/
theorem exists_root (h : IsForest kids) {S : Finset α} (hS : ∀ {a c}, c ∈ kids a → a ∈ S) (x : α) :
    ∃ r, IsRoot kids r ∧ Below kids r x := by
  classical
  -- A parent leaves fewer nodes that are not below it.
  induction hCard : (S.filter fun a => ¬ Below kids x a).card using Nat.strong_induction_on
    generalizing x with
  | _ n ih =>
    by_cases hRoot : IsRoot kids x
    · exact ⟨x, hRoot, below_refl x⟩
    obtain ⟨p, hp⟩ : ∃ p, x ∈ kids p := not_forall_not.mp hRoot
    have hLt : (S.filter fun a => ¬ Below kids p a).card < n := by
      rw [← hCard]
      refine Finset.card_lt_card (Finset.ssubset_iff_of_subset ?_ |>.mpr ⟨p, ?_, ?_⟩)
      · intro a ha
        rw [Finset.mem_filter] at ha ⊢
        exact ⟨ha.1, fun hBelow => ha.2 ((below_child hp).trans hBelow)⟩
      · exact Finset.mem_filter.mpr ⟨hS hp, not_below_child h hp⟩
      · exact fun hMem => (Finset.mem_filter.mp hMem).2 (below_refl p)
    obtain ⟨r, hr, hBelow⟩ := ih _ hLt p rfl
    exact ⟨r, hr, hBelow.trans (below_child hp)⟩

/-- Two roots are not both above a node. -/
theorem root_unique (h : IsForest kids) (ha : IsRoot kids a) (hb : IsRoot kids b)
    (hax : Below kids a x) (hbx : Below kids b x) : a = b := by
  by_contra hne
  rcases below_comparable h hax hbx with hBelow | hBelow
  · exact not_below_of_root hb (Ne.symm hne) hBelow
  · exact not_below_of_root ha hne hBelow

/-- Fewer children, fewer nodes below. -/
theorem Below.mono (hSub : ∀ p, ∀ c ∈ kids p, c ∈ kids' p) (h : Below kids a x) :
    Below kids' a x :=
  Relation.ReflTransGen.mono (fun p c hc => hSub p c hc) a x h

/-- Lists of children that agree below a node have the same nodes below it. -/
theorem below_congr (hEq : ∀ p, Below kids a p → kids' p = kids p) :
    Below kids' a x ↔ Below kids a x := by
  constructor
  · intro h
    induction h with
    | refl => exact below_refl a
    | tail _ hc ih =>
      rw [hEq _ ih] at hc
      exact ih.trans (below_child hc)
  · intro h
    induction h with
    | refl => exact below_refl a
    | tail hap hc ih =>
      have hc' := hc
      rw [← hEq _ hap] at hc'
      exact ih.trans (below_child hc')

/-! ## Subtrees -/

open Classical in
/-- The lists of children without the subtree of `a`. -/
noncomputable def prune (kids : α → List α) (a : α) (x : α) : List α :=
  if Below kids a x then [] else kids x

theorem prune_of_not_below (h : ¬ Below kids a x) : prune kids a x = kids x := if_neg h

theorem prune_of_below (h : Below kids a x) : prune kids a x = [] := if_pos h

theorem prune_sublist : (prune kids a x).Sublist (kids x) := by
  by_cases hx : Below kids a x
  · rw [prune_of_below hx]
    exact List.nil_sublist _
  · rw [prune_of_not_below hx]

/-- What was not below `a` is below what it was below before. -/
theorem Below.prune (h : Below kids b x) (hx : ¬ Below kids a x) : Below (prune kids a) b x := by
  induction h with
  | refl => exact below_refl b
  | @tail p c _ hc ih =>
    have hp : ¬ Below kids a p := fun hap => hx (hap.trans (below_child hc))
    refine (ih hp).trans (below_child ?_)
    rw [prune_of_not_below hp]
    exact hc

/-! ## Two forests apart -/

/-- The lists of children of two forests, the first at the nodes in `S`. -/
def join (S : α → Prop) [DecidablePred S] (kids kids' : α → List α) (a : α) : List α :=
  if S a then kids a else kids' a

/-- The lists of children stay within `S`. -/
def Inside (S : α → Prop) (kids : α → List α) : Prop := ∀ a, ∀ c ∈ kids a, S a ∧ S c

section Join

variable {S : α → Prop} [DecidablePred S]

theorem mem_join (h : Inside S kids) (h' : Inside (¬ S ·) kids') :
    c ∈ join S kids kids' a ↔ c ∈ kids a ∨ c ∈ kids' a := by
  unfold join
  by_cases ha : S a
  · rw [if_pos ha]
    exact ⟨Or.inl, fun hc => hc.elim id fun hc => absurd ha (h' a c hc).1⟩
  · rw [if_neg ha]
    exact ⟨Or.inr, fun hc => hc.elim (fun hc => absurd (h a c hc).1 ha) id⟩

theorem Below.join_left (h : Inside S kids) (h' : Inside (¬ S ·) kids') (hx : Below kids a x) :
    Below (join S kids kids') a x :=
  hx.mono fun _ _ hc => (mem_join h h').mpr (Or.inl hc)

theorem Below.join_right (h : Inside S kids) (h' : Inside (¬ S ·) kids') (hx : Below kids' a x) :
    Below (join S kids kids') a x :=
  hx.mono fun _ _ hc => (mem_join h h').mpr (Or.inr hc)

end Join

theorem mem_update [DecidableEq α] {p i : α} {ks : List α}
    (hSub : ∀ c ∈ ks, c = i ∨ c ∈ kids p) (hc : c ∈ Function.update kids p ks a) :
    (a = p ∧ c = i) ∨ c ∈ kids a := by
  by_cases ha : a = p
  · subst ha
    rw [Function.update_self] at hc
    rcases hSub c hc with rfl | hc
    · exact Or.inl ⟨rfl, rfl⟩
    · exact Or.inr hc
  · rw [Function.update_of_ne ha] at hc
    exact Or.inr hc

end Forest

/-! ## Changes -/

namespace IsForest

open Forest

variable {α : Type} {kids kids' : α → List α}

/-- Dropping children, of any nodes. -/
theorem shrink (h : IsForest kids) (hSub : ∀ a, (kids' a).Sublist (kids a)) :
    IsForest kids' where
  nodup a := (h.nodup a).sublist (hSub a)
  parent hc hc' := h.parent ((hSub _).subset hc) ((hSub _).subset hc')
  wf := Subrelation.wf (fun hc => (hSub _).subset hc) h.wf

/-- Putting a root among the children of a node that is not below it, possibly in the place
of some of them. -/
theorem graft [DecidableEq α] {p i : α} {ks : List α} (h : IsForest kids) (hRoot : IsRoot kids i)
    (hBelow : ¬ Below kids i p) (hNodup : ks.Nodup) (hSub : ∀ c ∈ ks, c = i ∨ c ∈ kids p) :
    IsForest (Function.update kids p ks) where
  nodup a := by
    by_cases ha : a = p
    · rw [ha, Function.update_self]
      exact hNodup
    · rw [Function.update_of_ne ha]
      exact h.nodup a
  parent hc hc' := by
    rcases mem_update hSub hc with ⟨rfl, rfl⟩ | hOld <;>
      rcases mem_update hSub hc' with ⟨rfl, hEq⟩ | hOld'
    · rfl
    · exact absurd hOld' (hRoot _)
    · rw [hEq] at hOld
      exact absurd hOld (hRoot _)
    · exact h.parent hOld hOld'
  wf := by
    -- Nothing below `i` has new children, so its subtree is still well founded.
    have hApart : ∀ x, ¬ Below kids x p → Acc (fun c a => c ∈ Function.update kids p ks a) x := by
      intro x
      induction x using h.wf.induction with
      | _ x ih =>
        intro hx
        constructor
        intro y hy
        have hxp : x ≠ p := fun hEq => hx (hEq ▸ below_refl x)
        rw [Function.update_of_ne hxp] at hy
        exact ih y hy (fun hyp => hx ((below_child hy).trans hyp))
    constructor
    intro x
    induction x using h.wf.induction with
    | _ x ih =>
      constructor
      intro y hy
      rcases mem_update hSub hy with ⟨-, rfl⟩ | hy
      · exact hApart y hBelow
      · exact ih y hy

/-- No node of a forest is its own descendant. -/
theorem acyclic (h : IsForest kids) (x : α) :
    ¬ Relation.TransGen (fun a c => c ∈ kids a) x x := by
  intro hCycle
  obtain ⟨c, hc, hBelow⟩ := Relation.TransGen.head'_iff.mp hCycle
  exact not_below_child h hc hBelow

/-- Putting a root among the children of a node makes a cycle just when the node is below it. -/
theorem graft_acyclic_iff [DecidableEq α] {p i : α} {ks : List α} (h : IsForest kids)
    (hRoot : IsRoot kids i) (hNodup : ks.Nodup) (hMem : ∀ c, c ∈ ks ↔ c = i ∨ c ∈ kids p) :
    (∀ x, ¬ Relation.TransGen (fun a c => c ∈ Function.update kids p ks a) x x) ↔
      ¬ Below kids i p := by
  constructor
  · intro hAcyclic hBelow
    have hSub : ∀ a, ∀ c ∈ kids a, c ∈ Function.update kids p ks a := by
      intro a c hc
      by_cases ha : a = p
      · rw [ha, Function.update_self]
        exact (hMem c).mpr (Or.inr (ha ▸ hc))
      · rw [Function.update_of_ne ha]
        exact hc
    refine hAcyclic i (Relation.TransGen.tail' (hBelow.mono hSub) ?_)
    show i ∈ Function.update kids p ks p
    rw [Function.update_self]
    exact (hMem i).mpr (Or.inl rfl)
  · intro hBelow
    exact (h.graft hRoot hBelow hNodup fun c hc => (hMem c).mp hc).acyclic

/-- Two forests on disjoint sets of nodes. -/
theorem join {S : α → Prop} [DecidablePred S] (h : IsForest kids) (h' : IsForest kids')
    (hIn : Inside S kids) (hIn' : Inside (¬ S ·) kids') : IsForest (Forest.join S kids kids') where
  nodup a := by
    unfold Forest.join
    split
    · exact h.nodup a
    · exact h'.nodup a
  parent hc hc' := by
    rcases (mem_join hIn hIn').mp hc with hc | hc <;>
      rcases (mem_join hIn hIn').mp hc' with hc' | hc'
    · exact h.parent hc hc'
    · exact absurd (hIn _ _ hc).2 (hIn' _ _ hc').2
    · exact absurd (hIn _ _ hc').2 (hIn' _ _ hc).2
    · exact h'.parent hc hc'
  wf := by
    -- A chain of children that enters one of the forests stays there.
    have hFirst : ∀ x, S x → Acc (fun c a => c ∈ Forest.join S kids kids' a) x := by
      intro x
      induction x using h.wf.induction with
      | _ x ih =>
        intro hx
        refine ⟨x, fun c hc => ?_⟩
        rcases (mem_join hIn hIn').mp hc with hc | hc
        · exact ih c hc (hIn x c hc).2
        · exact absurd hx (hIn' x c hc).1
    constructor
    intro x
    induction x using h'.wf.induction with
    | _ x ih =>
      refine ⟨x, fun c hc => ?_⟩
      rcases (mem_join hIn hIn').mp hc with hc | hc
      · exact hFirst c (hIn x c hc).2
      · exact ih c hc

protected theorem prune (h : IsForest kids) (a : α) : IsForest (Forest.prune kids a) :=
  h.shrink fun _ => prune_sublist

end IsForest

end CjsonRs.Library
