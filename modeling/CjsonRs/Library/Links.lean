import Mathlib.Data.List.Nodup
import Mathlib.Logic.Function.Basic

/-!
# Doubly linked lists

A store of links gives some cells a pointer back and a pointer on. `Seg L p c as p' c'` says
that `as` is a segment of a list: it is entered at the pointer `c` from the cell `p`, every
cell points back to the one before it, and it leaves with the pointer `c'` from the last
cell `p'`. `IsList L c as` is a whole list, with nothing in front and nothing behind.

The splices `unlink`, `pushBack`, `insertBefore` and `replace` change a store of links as
the usual pointer code does; each comes with the list it leaves.
-/

namespace CjsonRs.Library

/-- The pointers of a cell. -/
structure Link (α : Type) where
  prev : Option α
  next : Option α

namespace Link

variable {α : Type} {L L' : α → Option (Link α)}

/-- A segment of a doubly linked list. -/
def Seg (L : α → Option (Link α)) :
    Option α → Option α → List α → Option α → Option α → Prop
  | p, c, [], p', c' => p' = p ∧ c' = c
  | p, c, a :: as, p', c' => c = some a ∧ ∃ n, L a = some ⟨p, n⟩ ∧ Seg L (some a) n as p' c'

/-- A list that nothing precedes and that ends with `NULL`. -/
def IsList (L : α → Option (Link α)) (c : Option α) (as : List α) : Prop :=
  ∃ p, Seg L none c as p none

theorem seg_append {p c p'' c'' : Option α} {xs ys : List α} :
    Seg L p c (xs ++ ys) p'' c'' ↔ ∃ p' c', Seg L p c xs p' c' ∧ Seg L p' c' ys p'' c'' := by
  induction xs generalizing p c with
  | nil =>
    constructor
    · exact fun h => ⟨p, c, ⟨rfl, rfl⟩, h⟩
    · rintro ⟨_, _, ⟨rfl, rfl⟩, h⟩
      exact h
  | cons x xs ih =>
    constructor
    · rintro ⟨hc, n, hn, h⟩
      obtain ⟨p', c', hXs, hYs⟩ := ih.mp h
      exact ⟨p', c', ⟨hc, n, hn, hXs⟩, hYs⟩
    · rintro ⟨p', c', ⟨hc, n, hn, hXs⟩, hYs⟩
      exact ⟨hc, n, hn, ih.mpr ⟨p', c', hXs, hYs⟩⟩

/-- A segment only depends on the links of its cells. -/
theorem Seg.congr {p c p' c' : Option α} {as : List α} (h : Seg L p c as p' c')
    (hEq : ∀ a ∈ as, L' a = L a) : Seg L' p c as p' c' := by
  induction as generalizing p c with
  | nil => exact h
  | cons a as ih =>
    obtain ⟨hc, n, hn, h⟩ := h
    refine ⟨hc, n, (hEq a List.mem_cons_self).trans hn, ih h ?_⟩
    exact fun b hb => hEq b (List.mem_cons_of_mem a hb)

theorem IsList.congr {c : Option α} {as : List α} (h : IsList L c as)
    (hEq : ∀ a ∈ as, L' a = L a) : IsList L' c as := by
  obtain ⟨p, h⟩ := h
  exact ⟨p, h.congr hEq⟩

/-- The order of its cells and its two ends say how a segment is linked. -/
theorem Seg.links_eq {p c d p' q' c' : Option α} {as : List α} (h : Seg L p c as p' c')
    (h' : Seg L' p d as q' c') : d = c ∧ ∀ a ∈ as, L' a = L a := by
  induction as generalizing p c d with
  | nil =>
    obtain ⟨-, rfl⟩ := h
    obtain ⟨-, rfl⟩ := h'
    refine ⟨rfl, fun a ha => ?_⟩
    cases ha
  | cons a as ih =>
    obtain ⟨rfl, n, hn, h⟩ := h
    obtain ⟨rfl, n', hn', h'⟩ := h'
    obtain ⟨rfl, hRest⟩ := ih h h'
    refine ⟨rfl, fun b hb => ?_⟩
    rcases List.mem_cons.mp hb with rfl | hb
    · exact hn'.trans hn.symm
    · exact hRest b hb

theorem IsList.links_eq {c d : Option α} {as : List α} (h : IsList L c as)
    (h' : IsList L' d as) : d = c ∧ ∀ a ∈ as, L' a = L a := by
  obtain ⟨p, h⟩ := h
  obtain ⟨q, h'⟩ := h'
  exact h.links_eq h'

theorem Seg.cell {p c p' c' : Option α} {a : α} {as : List α} (h : Seg L p c as p' c')
    (ha : a ∈ as) : ∃ l, L a = some l := by
  obtain ⟨xs, ys, rfl⟩ := List.append_of_mem ha
  obtain ⟨q, d, -, -, n, hn, -⟩ := seg_append.mp h
  exact ⟨_, hn⟩

/-- The last cell of a segment is the cell in front for an empty one. -/
theorem Seg.last {p c p' c' : Option α} {as : List α} (h : Seg L p c as p' c') :
    (as = [] ∧ p' = p ∧ c' = c) ∨ ∃ xs a, as = xs ++ [a] ∧ p' = some a := by
  rcases List.eq_nil_or_concat as with rfl | ⟨xs, a, rfl⟩
  · exact Or.inl ⟨rfl, h.1, h.2⟩
  · rw [List.concat_eq_append] at h ⊢
    obtain ⟨q, d, -, rfl, n, -, rfl, rfl⟩ := seg_append.mp h
    exact Or.inr ⟨xs, a, rfl, rfl⟩

/-- Two lists at one pointer are the same list. -/
theorem Seg.unique {p q c p' q' : Option α} {as bs : List α} (ha : Seg L p c as p' none)
    (hb : Seg L q c bs q' none) : as = bs := by
  induction as generalizing p q c bs with
  | nil =>
    obtain ⟨-, rfl⟩ := ha
    cases bs with
    | nil => rfl
    | cons b bs => cases hb.1
  | cons a as ih =>
    obtain ⟨rfl, n, hn, ha⟩ := ha
    cases bs with
    | nil => cases hb.2
    | cons b bs =>
      obtain ⟨hab, m, hm, hb⟩ := hb
      cases hab
      rw [hn] at hm
      cases hm
      rw [ih ha hb]

theorem IsList.unique {c : Option α} {as bs : List α} (ha : IsList L c as) (hb : IsList L c bs) :
    as = bs := by
  obtain ⟨p, ha⟩ := ha
  obtain ⟨q, hb⟩ := hb
  exact ha.unique hb

@[simp] theorem isList_nil : IsList L none [] := ⟨none, rfl, rfl⟩

/-- A list at a cell starts with it. -/
theorem IsList.cons {a : α} {as : List α} (h : IsList L (some a) as) :
    ∃ bs, as = a :: bs := by
  obtain ⟨p, h⟩ := h
  cases as with
  | nil => cases h.2
  | cons b bs =>
    cases h.1
    exact ⟨bs, rfl⟩

/-! ## Walking on -/

/-- `as` is what a walk along the pointers on meets from the pointer `c`, up to `NULL`. -/
def Path (L : α → Option (Link α)) : Option α → List α → Prop
  | c, [] => c = none
  | c, a :: as => c = some a ∧ ∃ l, L a = some l ∧ Path L l.next as

theorem Seg.path {p c p' : Option α} {as : List α} (h : Seg L p c as p' none) : Path L c as := by
  induction as generalizing p c with
  | nil => exact h.2.symm
  | cons a as ih =>
    obtain ⟨rfl, n, hn, h⟩ := h
    exact ⟨rfl, _, hn, ih h⟩

theorem IsList.path {c : Option α} {as : List α} (h : IsList L c as) : Path L c as := by
  obtain ⟨p, h⟩ := h
  exact h.path

/-- A walk comes to a cell from the start or from a cell in front of it. -/
theorem Path.before {c : Option α} {xs ys : List α} {a : α} (h : Path L c (xs ++ a :: ys)) :
    (xs = [] ∧ c = some a) ∨ ∃ b l, L b = some l ∧ l.next = some a := by
  induction xs generalizing c with
  | nil => exact Or.inl ⟨rfl, h.1⟩
  | cons b xs ih =>
    obtain ⟨-, l, hl, hRest⟩ := h
    rcases ih hRest with ⟨-, hNext⟩ | hLater
    · exact Or.inr ⟨b, l, hl, hNext⟩
    · exact Or.inr hLater

/-- A walk that passes a cell goes on as the walk from it. -/
theorem Path.suffix {c : Option α} {xs ys : List α} {a : α} (h : Path L c (xs ++ a :: ys)) :
    Path L (some a) (a :: ys) := by
  induction xs generalizing c with
  | nil => exact ⟨rfl, h.2⟩
  | cons b xs ih =>
    obtain ⟨-, l, -, hRest⟩ := h
    exact ih hRest

/-- There is one walk from a pointer. -/
theorem Path.unique {c : Option α} {as bs : List α} (ha : Path L c as) (hb : Path L c bs) :
    as = bs := by
  induction as generalizing c bs with
  | nil =>
    cases bs with
    | nil => rfl
    | cons b bs => cases ha.symm.trans hb.1
  | cons a as ih =>
    obtain ⟨rfl, l, hl, ha⟩ := ha
    cases bs with
    | nil => cases hb
    | cons b bs =>
      obtain ⟨hab, m, hm, hb⟩ := hb
      cases hab
      cases hl.symm.trans hm
      rw [ih ha hb]

/-! ## Single writes -/

section Writes

variable [DecidableEq α]

/-- Write the pointer on of a cell. -/
def setNext (L : α → Option (Link α)) (a : α) (v : Option α) : α → Option (Link α) :=
  Function.update L a ((L a).map fun l => { l with next := v })

/-- Write the pointer back of a cell. -/
def setPrev (L : α → Option (Link α)) (a : α) (v : Option α) : α → Option (Link α) :=
  Function.update L a ((L a).map fun l => { l with prev := v })

/-- Write the pointer on of the cell at a pointer, if there is one. -/
def setNextAt (L : α → Option (Link α)) (p v : Option α) : α → Option (Link α) :=
  match p with
  | none => L
  | some a => setNext L a v

/-- Write the pointer back of the cell at a pointer, if there is one. -/
def setPrevAt (L : α → Option (Link α)) (p v : Option α) : α → Option (Link α) :=
  match p with
  | none => L
  | some a => setPrev L a v

theorem setNext_of_ne {a b : α} (h : b ≠ a) (v : Option α) : setNext L a v b = L b :=
  Function.update_of_ne h _ _

theorem setPrev_of_ne {a b : α} (h : b ≠ a) (v : Option α) : setPrev L a v b = L b :=
  Function.update_of_ne h _ _

@[simp] theorem setNext_self (a : α) (v : Option α) :
    setNext L a v a = (L a).map fun l => { l with next := v } := Function.update_self ..

@[simp] theorem setPrev_self (a : α) (v : Option α) :
    setPrev L a v a = (L a).map fun l => { l with prev := v } := Function.update_self ..

theorem setNextAt_of_ne {p v : Option α} {b : α} (h : p ≠ some b) : setNextAt L p v b = L b := by
  cases p with
  | none => rfl
  | some a => exact setNext_of_ne (fun hb => h (by rw [hb])) v

theorem setPrevAt_of_ne {p v : Option α} {b : α} (h : p ≠ some b) : setPrevAt L p v b = L b := by
  cases p with
  | none => rfl
  | some a => exact setPrev_of_ne (fun hb => h (by rw [hb])) v

/-- Where a list is entered after its last cell got a new pointer on. -/
def entry (c p v : Option α) : Option α := if p.isNone then v else c

/-- Redirect the end of a segment. -/
theorem Seg.setNextAt {c p' c' : Option α} {as : List α} (h : Seg L none c as p' c')
    (hNodup : as.Nodup) (v : Option α) : Seg (setNextAt L p' v) none (entry c p' v) as p' v := by
  rcases h.last with ⟨rfl, rfl, -⟩ | ⟨xs, a, rfl, rfl⟩
  · exact ⟨rfl, rfl⟩
  · obtain ⟨q, d, hXs, rfl, n, hn, -, -⟩ := seg_append.mp h
    have ha : a ∉ xs := by
      have := List.nodup_append.mp hNodup
      exact fun hMem => this.2.2 a hMem a (by simp) rfl
    refine seg_append.mpr ⟨q, some a, hXs.congr ?_, rfl, v, ?_, rfl, rfl⟩
    · exact fun b hb => setNext_of_ne (ne_of_mem_of_not_mem hb ha) v
    · rw [Link.setNextAt, setNext_self, hn]
      rfl

/-- Redirect the start of a segment. -/
theorem Seg.setPrevAt {p c p' : Option α} {as : List α} (h : Seg L p c as p' none)
    (hNodup : as.Nodup) (v : Option α) : ∃ p'', Seg (setPrevAt L c v) v c as p'' none := by
  cases as with
  | nil =>
    obtain ⟨-, rfl⟩ := h
    exact ⟨v, rfl, rfl⟩
  | cons a as =>
    obtain ⟨rfl, n, hn, h⟩ := h
    refine ⟨p', rfl, n, ?_, h.congr ?_⟩
    · rw [Link.setPrevAt, setPrev_self, hn]
      rfl
    · exact fun b hb => setPrev_of_ne (ne_of_mem_of_not_mem hb (List.nodup_cons.mp hNodup).1) v

/-- Write both pointers of a cell. -/
def setLink (L : α → Option (Link α)) (a : α) (p n : Option α) : α → Option (Link α) :=
  Function.update L a (some ⟨p, n⟩)

theorem setLink_of_ne {a b : α} (h : b ≠ a) (p n : Option α) : setLink L a p n b = L b :=
  Function.update_of_ne h _ _

@[simp] theorem setLink_self (a : α) (p n : Option α) : setLink L a p n a = some ⟨p, n⟩ :=
  Function.update_self ..

theorem isSome_setNext {a b : α} (v : Option α) (h : (L b).isSome) : (setNext L a v b).isSome := by
  by_cases hb : b = a
  · subst hb
    rw [setNext_self, Option.isSome_map]
    exact h
  · rw [setNext_of_ne hb]
    exact h

theorem isSome_setPrev {a b : α} (v : Option α) (h : (L b).isSome) : (setPrev L a v b).isSome := by
  by_cases hb : b = a
  · subst hb
    rw [setPrev_self, Option.isSome_map]
    exact h
  · rw [setPrev_of_ne hb]
    exact h

theorem isSome_setNextAt {p : Option α} {b : α} (v : Option α) (h : (L b).isSome) :
    (setNextAt L p v b).isSome := by
  cases p with
  | none => exact h
  | some a => exact isSome_setNext v h

theorem isSome_setPrevAt {p : Option α} {b : α} (v : Option α) (h : (L b).isSome) :
    (setPrevAt L p v b).isSome := by
  cases p with
  | none => exact h
  | some a => exact isSome_setPrev v h

/-- Writing both pointers of a cell, one after the other. -/
theorem setPrev_setNext {a : α} (h : (L a).isSome) (p n : Option α) :
    setPrev (setNext L a n) a p = setLink L a p n := by
  obtain ⟨l, hl⟩ := Option.isSome_iff_exists.mp h
  rw [setPrev, setNext_self, hl, setNext, setLink, Function.update_idem]
  rfl

theorem setNext_setPrev {a : α} (h : (L a).isSome) (p n : Option α) :
    setNext (setPrev L a p) a n = setLink L a p n := by
  obtain ⟨l, hl⟩ := Option.isSome_iff_exists.mp h
  rw [setNext, setPrev_self, hl, setPrev, setLink, Function.update_idem]
  rfl

end Writes

/-! ## A cell of a list -/

/-- A list around one of its cells. -/
structure Around (L : α → Option (Link α)) (c : Option α) (xs : List α) (a : α) (ys : List α)
    (p n : Option α) : Prop where
  front : Seg L none c xs p (some a)
  cell : L a = some ⟨p, n⟩
  back : ∃ q, Seg L (some a) n ys q none

theorem IsList.around {c : Option α} {xs ys : List α} {a : α} (h : IsList L c (xs ++ a :: ys)) :
    ∃ p n, Around L c xs a ys p n := by
  obtain ⟨q, h⟩ := h
  obtain ⟨p, d, hXs, rfl, n, hn, hYs⟩ := seg_append.mp h
  exact ⟨p, n, hXs, hn, q, hYs⟩

theorem Around.isList {c : Option α} {xs ys : List α} {a : α} {p n : Option α}
    (h : Around L c xs a ys p n) : IsList L c (xs ++ a :: ys) := by
  obtain ⟨q, hYs⟩ := h.back
  exact ⟨q, seg_append.mpr ⟨p, some a, h.front, rfl, n, h.cell, hYs⟩⟩

/-- The pointer back of a cell leads into the cells in front of it. -/
theorem Around.prev_mem {c : Option α} {xs ys : List α} {a : α} {p n : Option α}
    (h : Around L c xs a ys p n) : (xs = [] ∧ p = none) ∨ ∃ b ∈ xs, p = some b := by
  rcases h.front.last with ⟨rfl, rfl, -⟩ | ⟨zs, b, rfl, rfl⟩
  · exact Or.inl ⟨rfl, rfl⟩
  · exact Or.inr ⟨b, by simp, rfl⟩

/-- The pointer on of a cell leads into the cells behind it. -/
theorem Around.next_mem {c : Option α} {xs ys : List α} {a : α} {p n : Option α}
    (h : Around L c xs a ys p n) : (ys = [] ∧ n = none) ∨ ∃ b ∈ ys, n = some b := by
  obtain ⟨q, hYs⟩ := h.back
  cases ys with
  | nil => exact Or.inl ⟨rfl, hYs.2.symm⟩
  | cons b ys => exact Or.inr ⟨b, List.mem_cons_self, hYs.1⟩

/-- What leads to a cell: the entry of the list, or the pointer on of the cell before. -/
theorem Around.before {c : Option α} {xs ys : List α} {a : α} {p n : Option α}
    (h : Around L c xs a ys p n) :
    (p = none ∧ c = some a) ∨ ∃ b q, p = some b ∧ L b = some ⟨q, some a⟩ := by
  have hFront := h.front
  rcases hFront.last with ⟨-, hp, hc⟩ | ⟨zs, b, hEq, hp⟩
  · exact Or.inl ⟨hp, hc.symm⟩
  · rw [hEq, hp] at hFront
    obtain ⟨q, d, -, -, n', hb, -, hn⟩ := seg_append.mp hFront
    rw [← hn] at hb
    exact Or.inr ⟨b, q, hp, hb⟩

/-- What leads back to a cell: the pointer back of the cell behind it, if there is one. -/
theorem Around.behind {c : Option α} {xs ys : List α} {a : α} {p n : Option α}
    (h : Around L c xs a ys p n) : n = none ∨ ∃ b q, n = some b ∧ L b = some ⟨some a, q⟩ := by
  obtain ⟨q, hBack⟩ := h.back
  cases ys with
  | nil => exact Or.inl hBack.2.symm
  | cons b ys =>
    obtain ⟨hn, m, hb, -⟩ := hBack
    exact Or.inr ⟨b, m, hn, hb⟩

theorem Around.prev_ne {c : Option α} {xs ys : List α} {a b : α} {p n : Option α}
    (h : Around L c xs a ys p n) (hb : b ∉ xs) : p ≠ some b := by
  rintro rfl
  rcases h.prev_mem with ⟨-, hp⟩ | ⟨b', hb', hp⟩
  · cases hp
  · cases hp
    exact hb hb'

theorem Around.next_ne {c : Option α} {xs ys : List α} {a b : α} {p n : Option α}
    (h : Around L c xs a ys p n) (hb : b ∉ ys) : n ≠ some b := by
  rintro rfl
  rcases h.next_mem with ⟨-, hn⟩ | ⟨b', hb', hn⟩
  · cases hn
  · cases hn
    exact hb hb'

/-- The cells of a list without repetition around one of them. -/
theorem nodup_around {xs ys : List α} {a : α} (h : (xs ++ a :: ys).Nodup) :
    xs.Nodup ∧ ys.Nodup ∧ a ∉ xs ∧ a ∉ ys ∧ ∀ b ∈ xs, b ∉ ys := by
  obtain ⟨hXs, hYs, hDisjoint⟩ := List.nodup_append.mp h
  obtain ⟨ha, hYs⟩ := List.nodup_cons.mp hYs
  refine ⟨hXs, hYs, fun hMem => hDisjoint a hMem a List.mem_cons_self rfl, ha, ?_⟩
  exact fun b hb hb' => hDisjoint b hb b (List.mem_cons_of_mem a hb') rfl

/-- The members when another cell stands for one of them. -/
theorem mem_around_iff {xs ys : List α} {a i k : α} (haXs : a ∉ xs) (haYs : a ∉ ys) :
    k ∈ xs ++ i :: ys ↔ k = i ∨ (k ∈ xs ++ a :: ys ∧ k ≠ a) := by
  simp only [List.mem_append, List.mem_cons]
  constructor
  · rintro (hk | hk | hk)
    · exact Or.inr ⟨Or.inl hk, ne_of_mem_of_not_mem hk haXs⟩
    · exact Or.inl hk
    · exact Or.inr ⟨Or.inr (Or.inr hk), ne_of_mem_of_not_mem hk haYs⟩
  · rintro (hk | ⟨hk | hk | hk, hka⟩)
    · exact Or.inr (Or.inl hk)
    · exact Or.inl hk
    · exact absurd hk hka
    · exact Or.inr (Or.inr hk)

/-! ## Splices -/

section Splices

variable [DecidableEq α]

/-- Take the cell `a` with pointers `p` and `n` out of its list. -/
def unlink (L : α → Option (Link α)) (a : α) (p n : Option α) : α → Option (Link α) :=
  setLink (setPrevAt (setNextAt L p n) n p) a none none

/-- Put the cell `i` behind the last cell `t`. -/
def pushBack (L : α → Option (Link α)) (t i : α) : α → Option (Link α) :=
  setLink (setNext L t (some i)) i (some t) none

/-- Put the cell `i` in front of the cell `a`, whose pointer back is `p`. -/
def insertBefore (L : α → Option (Link α)) (a i : α) (p : Option α) : α → Option (Link α) :=
  setPrev (setNextAt (setLink L i p (some a)) p (some i)) a (some i)

/-- Put the cell `i` in the place of the cell `a` with pointers `p` and `n`. -/
def replace (L : α → Option (Link α)) (a i : α) (p n : Option α) : α → Option (Link α) :=
  setLink (setPrevAt (setNextAt (setLink L i p n) p (some i)) n (some i)) a none none

variable {c p n : Option α} {xs ys : List α} {a i b : α}

theorem unlink_of_ne (h : Around L c xs a ys p n) (hb : b ∉ xs ++ a :: ys) :
    unlink L a p n b = L b := by
  simp only [List.mem_append, List.mem_cons, not_or] at hb
  rw [unlink, setLink_of_ne hb.2.1, setPrevAt_of_ne (h.next_ne hb.2.2),
    setNextAt_of_ne (h.prev_ne hb.1)]

/-- Unlinking a cell leaves the list without it. -/
theorem unlink_isList (h : Around L c xs a ys p n) (hNodup : (xs ++ a :: ys).Nodup) :
    IsList (unlink L a p n) (entry c p n) (xs ++ ys) := by
  obtain ⟨hXs, hYs, haXs, haYs, hDisjoint⟩ := nodup_around hNodup
  obtain ⟨q, hBack⟩ := h.back
  have hFront := h.front.setNextAt hXs n
  have hBack' : Seg (Link.setNextAt L p n) (some a) n ys q none := by
    refine hBack.congr fun b hb => setNextAt_of_ne (h.prev_ne fun hb' => ?_)
    exact hDisjoint b hb' hb
  obtain ⟨q', hBack'⟩ := hBack'.setPrevAt hYs p
  refine ⟨q', seg_append.mpr ⟨p, n, hFront.congr fun b hb => ?_, hBack'.congr fun b hb => ?_⟩⟩
  · rw [unlink, setLink_of_ne (ne_of_mem_of_not_mem hb haXs),
      setPrevAt_of_ne (h.next_ne (hDisjoint b hb))]
  · rw [unlink, setLink_of_ne (ne_of_mem_of_not_mem hb haYs)]

theorem pushBack_of_ne {t : α} (ht : b ≠ t) (hi : b ≠ i) : pushBack L t i b = L b := by
  rw [pushBack, setLink_of_ne hi, setNext_of_ne ht]

/-- Pushing a cell behind the last one leaves the list with it at the end. -/
theorem pushBack_isList {t : α} (h : IsList L c (xs ++ [t])) (hNodup : (xs ++ [t]).Nodup)
    (hi : i ∉ xs ++ [t]) : IsList (pushBack L t i) c (xs ++ [t] ++ [i]) := by
  obtain ⟨q, h⟩ := h
  rcases h.last with ⟨hNil, -⟩ | ⟨zs, t', hEq, rfl⟩
  · simp at hNil
  · obtain ⟨rfl, hSingle⟩ := List.append_inj' hEq rfl
    cases hSingle
    have hFront := h.setNextAt hNodup (some i)
    refine ⟨some i, seg_append.mpr ⟨some t, some i, ?_, rfl, none, by rw [pushBack, setLink_self],
      rfl, rfl⟩⟩
    refine Seg.congr hFront fun b hb => ?_
    rw [pushBack, setLink_of_ne (ne_of_mem_of_not_mem hb hi)]
    rfl

/-- A single cell without pointers is a list. -/
theorem setLink_isList : IsList (setLink L i none none) (some i) [i] :=
  ⟨some i, rfl, none, by rw [setLink_self], rfl, rfl⟩

theorem insertBefore_of_ne (h : Around L c xs a ys p n) (hb : b ∉ xs ++ a :: ys) (hi : b ≠ i) :
    insertBefore L a i p b = L b := by
  simp only [List.mem_append, List.mem_cons, not_or] at hb
  rw [insertBefore, setPrev_of_ne hb.2.1, setNextAt_of_ne (h.prev_ne hb.1), setLink_of_ne hi]

/-- Inserting a cell in front of another one. -/
theorem insertBefore_isList (h : Around L c xs a ys p n) (hNodup : (xs ++ a :: ys).Nodup)
    (hi : i ∉ xs ++ a :: ys) :
    IsList (insertBefore L a i p) (entry c p (some i)) (xs ++ i :: a :: ys) := by
  obtain ⟨hXs, hYs, haXs, haYs, hDisjoint⟩ := nodup_around hNodup
  simp only [List.mem_append, List.mem_cons, not_or] at hi
  obtain ⟨hiXs, hia, hiYs⟩ := hi
  obtain ⟨q, hBack⟩ := h.back
  have hFront : Seg (setLink L i p (some a)) none c xs p (some a) :=
    h.front.congr fun b hb => setLink_of_ne (ne_of_mem_of_not_mem hb hiXs) _ _
  have hFront := hFront.setNextAt hXs (some i)
  refine ⟨q, seg_append.mpr ⟨p, some i, hFront.congr fun b hb => ?_, rfl, some a, ?_, rfl, n, ?_,
    hBack.congr fun b hb => ?_⟩⟩
  · rw [insertBefore, setPrev_of_ne (ne_of_mem_of_not_mem hb haXs)]
  · rw [insertBefore, setPrev_of_ne hia, setNextAt_of_ne (h.prev_ne hiXs), setLink_self]
  · rw [insertBefore, setPrev_self, setNextAt_of_ne (h.prev_ne haXs), setLink_of_ne (Ne.symm hia),
      h.cell]
    rfl
  · rw [insertBefore, setPrev_of_ne (ne_of_mem_of_not_mem hb haYs),
      setNextAt_of_ne (h.prev_ne fun hb' => hDisjoint b hb' hb),
      setLink_of_ne (ne_of_mem_of_not_mem hb hiYs)]

theorem replace_of_ne (h : Around L c xs a ys p n) (hb : b ∉ xs ++ a :: ys) (hi : b ≠ i) :
    replace L a i p n b = L b := by
  simp only [List.mem_append, List.mem_cons, not_or] at hb
  rw [replace, setLink_of_ne hb.2.1, setPrevAt_of_ne (h.next_ne hb.2.2),
    setNextAt_of_ne (h.prev_ne hb.1), setLink_of_ne hi]

/-- Replacing a cell by another one. -/
theorem replace_isList (h : Around L c xs a ys p n) (hNodup : (xs ++ a :: ys).Nodup)
    (hi : i ∉ xs ++ a :: ys) :
    IsList (replace L a i p n) (entry c p (some i)) (xs ++ i :: ys) := by
  obtain ⟨hXs, hYs, haXs, haYs, hDisjoint⟩ := nodup_around hNodup
  simp only [List.mem_append, List.mem_cons, not_or] at hi
  obtain ⟨hiXs, hia, hiYs⟩ := hi
  obtain ⟨q, hBack⟩ := h.back
  have hFront : Seg (setLink L i p n) none c xs p (some a) :=
    h.front.congr fun b hb => setLink_of_ne (ne_of_mem_of_not_mem hb hiXs) _ _
  have hFront := hFront.setNextAt hXs (some i)
  have hBack' : Seg (Link.setNextAt (setLink L i p n) p (some i)) (some a) n ys q none := by
    refine hBack.congr fun b hb => ?_
    rw [setNextAt_of_ne (h.prev_ne fun hb' => hDisjoint b hb' hb),
      setLink_of_ne (ne_of_mem_of_not_mem hb hiYs)]
  obtain ⟨q', hBack'⟩ := hBack'.setPrevAt hYs (some i)
  refine ⟨q', seg_append.mpr ⟨p, some i, hFront.congr fun b hb => ?_, rfl, n, ?_,
    hBack'.congr fun b hb => ?_⟩⟩
  · rw [replace, setLink_of_ne (ne_of_mem_of_not_mem hb haXs),
      setPrevAt_of_ne (h.next_ne (hDisjoint b hb))]
  · rw [replace, setLink_of_ne hia, setPrevAt_of_ne (h.next_ne hiYs),
      setNextAt_of_ne (h.prev_ne hiXs), setLink_self]
  · rw [replace, setLink_of_ne (ne_of_mem_of_not_mem hb haYs)]

end Splices

end Link

end CjsonRs.Library
