import Mathlib.Data.List.Duplicate
import Mathlib.Data.List.Perm.Basic
import Mathlib.Logic.Relation

/-!
# Matching two lists

`Matches R xs ys` pairs the elements of two lists off, in any order, so that the partners are
related. A search that only asks for some related element of `ys` for every element of `xs`
finds such a pairing when `ys` is not longer and no two elements of `xs` share one. When they do,
a list of elements of `ys` still becomes `ys` by overwriting what occurs twice.
-/

namespace CjsonRs.Library

variable {α β γ : Type} {R : α → β → Prop} {S : β → γ → Prop} {x : α} {xs : List α} {ys : List β}
  {zs : List γ}

/-- The elements of `xs` and `ys` pair off into related ones. -/
def Matches (R : α → β → Prop) (xs : List α) (ys : List β) : Prop :=
  ∃ ys', List.Forall₂ R xs ys' ∧ ys'.Perm ys

theorem matches_nil : Matches R [] ys ↔ ys = [] := by
  constructor
  · rintro ⟨ys', hPaired, hPerm⟩
    cases hPaired
    exact hPerm.nil_eq.symm
  · rintro rfl
    exact ⟨[], List.Forall₂.nil, List.Perm.refl []⟩

/-- A pairing takes an element out of each list. -/
theorem matches_cons :
    Matches R (x :: xs) ys ↔ ∃ l y r, ys = l ++ y :: r ∧ R x y ∧ Matches R xs (l ++ r) := by
  constructor
  · rintro ⟨ys', hPaired, hPerm⟩
    cases hPaired with
    | @cons _ y _ ys' hxy hPaired =>
      obtain ⟨l, r, rfl⟩ := List.append_of_mem (hPerm.subset List.mem_cons_self)
      exact ⟨l, y, r, rfl, hxy, ys', hPaired, (hPerm.trans List.perm_middle).cons_inv⟩
  · rintro ⟨l, y, r, rfl, hxy, ys', hPaired, hPerm⟩
    exact ⟨y :: ys', List.Forall₂.cons hxy hPaired, (hPerm.cons y).trans List.perm_middle.symm⟩

namespace Matches

theorem length_eq (h : Matches R xs ys) : xs.length = ys.length := by
  obtain ⟨ys', hPaired, hPerm⟩ := h
  exact hPaired.length_eq.trans hPerm.length_eq

theorem exists_right (h : Matches R xs ys) (hx : x ∈ xs) : ∃ y ∈ ys, R x y := by
  induction xs generalizing ys with
  | nil => cases hx
  | cons x' xs ih =>
    obtain ⟨l, y, r, rfl, hxy, h⟩ := matches_cons.mp h
    rcases List.mem_cons.mp hx with rfl | hx
    · exact ⟨y, by simp, hxy⟩
    · obtain ⟨y', hMem, hxy'⟩ := ih h hx
      refine ⟨y', ?_, hxy'⟩
      rcases List.mem_append.mp hMem with hMem | hMem <;> simp [hMem]

/-- Read the pairs the other way around. -/
theorem flip {R' : β → α → Prop} (h : Matches R xs ys) (hFlip : ∀ x ∈ xs, ∀ y, R x y → R' y x) :
    Matches R' ys xs := by
  induction xs generalizing ys with
  | nil =>
    obtain rfl := matches_nil.mp h
    exact matches_nil.mpr rfl
  | cons x xs ih =>
    obtain ⟨l, y, r, rfl, hxy, h⟩ := matches_cons.mp h
    have hTail := ih h fun x' hx' => hFlip x' (List.mem_cons_of_mem x hx')
    obtain ⟨xs', hPaired, hPerm⟩ :=
      matches_cons.mpr ⟨[], x, xs, rfl, hFlip x List.mem_cons_self y hxy, hTail⟩
    obtain ⟨xs'', hPaired, hPerm'⟩ := List.perm_comp_forall₂ List.perm_middle hPaired
    exact ⟨xs'', hPaired, hPerm'.trans hPerm⟩

/-- Follow the pairs of two matchings. -/
theorem trans {T : α → γ → Prop} (h : Matches R xs ys) (h' : Matches S ys zs)
    (hTrans : ∀ x ∈ xs, ∀ y z, R x y → S y z → T x z) : Matches T xs zs := by
  obtain ⟨ys', hPaired, hPerm⟩ := h
  obtain ⟨zs', hPaired', hPerm'⟩ := h'
  obtain ⟨zs'', hPaired', hPerm''⟩ := List.perm_comp_forall₂ hPerm hPaired'
  refine ⟨zs'', ?_, hPerm''.trans hPerm'⟩
  clear hPerm hPerm' hPerm''
  induction hPaired generalizing zs'' with
  | nil =>
    cases hPaired'
    exact List.Forall₂.nil
  | @cons x y xs ys' hxy _ ih =>
    cases hPaired' with
    | @cons _ z _ zs'' hyz hPaired' =>
      refine List.Forall₂.cons (hTrans x List.mem_cons_self y z hxy hyz) (ih ?_ zs'' hPaired')
      exact fun x' hx' => hTrans x' (List.mem_cons_of_mem x hx')

end Matches

/-- When every element of `xs` has a related one in a list that is not longer, and no two of
them share it, the two lists match: none of `ys` is left over. -/
theorem matches_of_apart (hLength : ys.length ≤ xs.length) (hSome : ∀ x ∈ xs, ∃ y ∈ ys, R x y)
    (hApart : xs.Pairwise fun x x' => ∀ y, ¬ (R x y ∧ R x' y)) : Matches R xs ys := by
  induction xs generalizing ys with
  | nil => exact matches_nil.mpr (List.length_eq_zero_iff.mp (Nat.le_zero.mp hLength))
  | cons x xs ih =>
    obtain ⟨y, hy, hxy⟩ := hSome x List.mem_cons_self
    obtain ⟨l, r, rfl⟩ := List.append_of_mem hy
    obtain ⟨hx, hApart⟩ := List.pairwise_cons.mp hApart
    refine matches_cons.mpr ⟨l, y, r, rfl, hxy, ih ?_ ?_ hApart⟩
    · simp only [List.length_append, List.length_cons] at hLength ⊢
      omega
    · intro x' hx'
      obtain ⟨y', hMem, hxy'⟩ := hSome x' (List.mem_cons_of_mem x hx')
      refine ⟨y', ?_, hxy'⟩
      -- The partner of `x` is taken, so `x'` has another one.
      rcases List.mem_append.mp hMem with hMem | hMem
      · exact List.mem_append_left r hMem
      · rcases List.mem_cons.mp hMem with rfl | hMem
        · exact absurd ⟨hxy, hxy'⟩ (hx x' hx' y')
        · exact List.mem_append_right l hMem

/-- Related elements can be chosen for all of a list. -/
theorem exists_partners (hSome : ∀ x ∈ xs, ∃ y ∈ ys, R x y) :
    ∃ zs, List.Forall₂ R xs zs ∧ zs ⊆ ys := by
  induction xs with
  | nil => exact ⟨[], .nil, List.nil_subset ys⟩
  | cons x xs ih =>
    obtain ⟨y, hy, hxy⟩ := hSome x List.mem_cons_self
    obtain ⟨zs, hPaired, hSub⟩ := ih fun x' hx' => hSome x' (List.mem_cons_of_mem x hx')
    exact ⟨y :: zs, .cons hxy hPaired, List.cons_subset.mpr ⟨hy, hSub⟩⟩

/-! ## Overwriting repetitions -/

section Repetitions

variable {α : Type} {l xs ys : List α} {c : α}

theorem exists_twice (h : List.Duplicate c xs) : ∃ xs₁ xs₂, xs = xs₁ ++ c :: xs₂ ∧ c ∈ xs₂ := by
  induction h with
  | @cons_mem xs hMem => exact ⟨[], xs, rfl, hMem⟩
  | @cons_duplicate d xs _ ih =>
    obtain ⟨xs₁, xs₂, rfl, hMem⟩ := ih
    exact ⟨d :: xs₁, xs₂, rfl, hMem⟩

/-- Of a list with elements of `l` and of a shorter list, one lies in `l` or occurs twice. -/
theorem exists_repetition (hSub : xs ⊆ l ++ ys) (hLength : ys.length < xs.length) :
    ∃ xs₁ c xs₂, xs = xs₁ ++ c :: xs₂ ∧ c ∈ l ++ (xs₁ ++ xs₂) := by
  by_cases hNodup : xs.Nodup
  · have hNot : ¬ xs ⊆ ys := by
      intro hAll
      have hLe := (List.subperm_of_subset hNodup hAll).length_le
      omega
    rw [List.subset_def] at hNot
    push Not at hNot
    obtain ⟨c, hc, hNew⟩ := hNot
    obtain ⟨xs₁, xs₂, rfl⟩ := List.append_of_mem hc
    have hOld : c ∈ l := (List.mem_append.mp (hSub hc)).resolve_right hNew
    exact ⟨xs₁, c, xs₂, rfl, List.mem_append_left _ hOld⟩
  · obtain ⟨c, hTwice⟩ := List.exists_duplicate_iff_not_nodup.mpr hNodup
    obtain ⟨xs₁, xs₂, rfl, hMem⟩ := exists_twice hTwice
    exact ⟨xs₁, c, xs₂, rfl, List.mem_append_right l (List.mem_append_right xs₁ hMem)⟩

theorem reaches_of_subset_append {R : List α → List α → Prop}
    (hPerm : ∀ {xs ys}, xs.Perm ys → R xs ys)
    (hTwice : ∀ {l r c d}, c ∈ l ++ r → R (l ++ c :: r) (l ++ d :: r))
    (hSub : xs ⊆ l ++ ys) (hLength : xs.length = ys.length) :
    Relation.ReflTransGen R (l ++ xs) (l ++ ys) := by
  induction ys generalizing l xs with
  | nil =>
    rw [List.length_eq_zero_iff.mp hLength]
  | cons d ys ih =>
    -- The next element is brought to its place, or overwrites a repeated one.
    obtain ⟨xs₁, xs₂, hReach, hSub', hLength'⟩ : ∃ xs₁ xs₂,
        Relation.ReflTransGen R (l ++ xs) (l ++ (xs₁ ++ d :: xs₂)) ∧
          xs₁ ++ xs₂ ⊆ l ++ d :: ys ∧ (xs₁ ++ xs₂).length = ys.length := by
      by_cases hMem : d ∈ xs
      · obtain ⟨xs₁, xs₂, rfl⟩ := List.append_of_mem hMem
        refine ⟨xs₁, xs₂, .refl, fun c hc => ?_,
          Nat.succ.inj (List.perm_middle.length_eq.symm.trans hLength)⟩
        exact hSub (List.perm_middle.symm.subset (List.mem_cons_of_mem d hc))
      · have hRest : xs ⊆ l ++ ys := by
          intro c hc
          have hNe : c ≠ d := fun hEq => hMem (hEq ▸ hc)
          simpa [hNe] using hSub hc
        obtain ⟨xs₁, c, xs₂, rfl, hc⟩ := exists_repetition hRest (by simp [hLength])
        refine ⟨xs₁, xs₂, ?_, fun c' hc' => ?_,
          Nat.succ.inj (List.perm_middle.length_eq.symm.trans hLength)⟩
        · have hStep : R ((l ++ xs₁) ++ c :: xs₂) ((l ++ xs₁) ++ d :: xs₂) :=
            hTwice (by simpa using hc)
          rw [List.append_assoc, List.append_assoc] at hStep
          exact .single hStep
        · exact hSub (List.perm_middle.symm.subset (List.mem_cons_of_mem c hc'))
    have hMove : R (l ++ (xs₁ ++ d :: xs₂)) ((l ++ [d]) ++ (xs₁ ++ xs₂)) := by
      apply hPerm
      simpa using List.perm_middle.append_left l
    have hSubFill : xs₁ ++ xs₂ ⊆ (l ++ [d]) ++ ys := by simpa using hSub'
    have hFill := ih hSubFill hLength'
    rw [List.append_assoc l [d] ys] at hFill
    exact (hReach.tail hMove).trans hFill

/-- When lists may be reordered, and an element that also occurs elsewhere be overwritten, a list
of elements of `ys` becomes `ys` if it is as long. -/
theorem reaches_of_subset {R : List α → List α → Prop}
    (hPerm : ∀ {xs ys}, xs.Perm ys → R xs ys)
    (hTwice : ∀ {l r c d}, c ∈ l ++ r → R (l ++ c :: r) (l ++ d :: r))
    (hSub : xs ⊆ ys) (hLength : xs.length = ys.length) : Relation.ReflTransGen R xs ys :=
  reaches_of_subset_append (l := []) hPerm hTwice hSub hLength

end Repetitions

end CjsonRs.Library
