import CjsonRs.Ffi.Symmetry
import Mathlib.Logic.Relation

/-!
# Equality up to the order of members

When the keys of every object are apart, `cJSON_Compare` decides `Same`. That is what can be
reached by changing one thing at a time: the order of the members of an object, the spelling of
a key (in ASCII case, when case does not count), a number for one that is `==` to it. Only a
`NaN` cannot stay where it is.
-/

namespace CjsonRs.Ffi

open CjsonRs.Core Library Relation

variable {h : Heap} {a b : Addr} {cs : Bool} {v w : Value} {x y : List (Str × Value)}

/-! ## One change -/

/-- One change that equality does not see, at any depth. -/
inductive Rearrange (cs : Bool) : Value → Value → Prop
  | number {n m : F64} (h : n.eq m = true) : Rearrange cs (.number n) (.number m)
  | permute {x y : List (Str × Value)} (h : x.Perm y) : Rearrange cs (.object x) (.object y)
  | recase {l r : List (Str × Value)} {k k' : Str} {v : Value} (h : keysMatch cs k k' = true) :
      Rearrange cs (.object (l ++ (k, v) :: r)) (.object (l ++ (k', v) :: r))
  | item {l r : List Value} {v w : Value} (h : Rearrange cs v w) :
      Rearrange cs (.array (l ++ v :: r)) (.array (l ++ w :: r))
  | member {l r : List (Str × Value)} {k : Str} {v w : Value} (h : Rearrange cs v w) :
      Rearrange cs (.object (l ++ (k, v) :: r)) (.object (l ++ (k, w) :: r))

/-- A value without `NaN` equals itself. -/
theorem same_self (h : NanFree v) : Same cs v v := by
  induction v using Value.induct with
  | null => trivial
  | bool b => exact same_bool.mpr rfl
  | number n => exact same_number.mpr ⟨n, rfl, F64.eq_self (h n .refl)⟩
  | string s => exact same_string.mpr rfl
  | array x ih =>
    refine same_array.mpr ⟨x, rfl, List.forall₂_same.mpr fun p hp => ?_⟩
    exact ih p hp fun n hn => h n (.item hp hn)
  | object x ih =>
    refine same_object.mpr ⟨x, rfl, x, List.forall₂_same.mpr fun m hm => ?_, List.Perm.refl x⟩
    exact ⟨keysMatch_refl m.1, ih m hm fun n hn => h n (.member hm hn)⟩

theorem Same.nanFree (h : Same cs v w) : NanFree v :=
  nanFree_of_compareValues (compareValues_of_same h)

/-- Two objects that differ in one member are equal when the two members are. -/
theorem same_change {l r : List (Str × Value)} {m m' : Str × Value}
    (hNan : NanFree (.object (l ++ m :: r))) (h : SameMember cs m m') :
    Same cs (.object (l ++ m :: r)) (.object (l ++ m' :: r)) := by
  have hSelf : ∀ n ∈ l ++ m :: r, SameMember cs n n := fun n hn =>
    ⟨keysMatch_refl n.1, same_self fun z hz => hNan z (.member hn hz)⟩
  refine same_object.mpr ⟨_, rfl, _, List.rel_append ?_ (List.Forall₂.cons h ?_), List.Perm.refl _⟩
  · exact List.forall₂_same.mpr fun n hn => hSelf n (by simp [hn])
  · exact List.forall₂_same.mpr fun n hn => hSelf n (by simp [hn])

theorem same_of_rearrange (h : Rearrange cs v w) (hNan : NanFree v) : Same cs v w := by
  induction h with
  | number h => exact same_number.mpr ⟨_, rfl, h⟩
  | @permute x y h =>
    have hSelf : Same cs (.object x) (.object x) := same_self hNan
    obtain ⟨x', hx', hSame⟩ := same_object.mp hSelf
    cases hx'
    obtain ⟨x', hPaired, hPerm⟩ := hSame
    exact same_object.mpr ⟨y, rfl, x', hPaired, hPerm.trans h⟩
  | @recase l r k k' v h =>
    refine same_change hNan ⟨h, same_self fun n hn => ?_⟩
    exact hNan n (.member (m := (k, v)) (by simp) hn)
  | @item l r v w _ ih =>
    have hSelf : ∀ q ∈ l ++ v :: r, Same cs q q := fun q hq =>
      same_self fun n hn => hNan n (.item hq hn)
    refine same_array.mpr ⟨_, rfl, List.rel_append ?_ (List.Forall₂.cons (ih fun n hn => ?_) ?_)⟩
    · exact List.forall₂_same.mpr fun q hq => hSelf q (by simp [hq])
    · exact hNan n (.item (by simp) hn)
    · exact List.forall₂_same.mpr fun q hq => hSelf q (by simp [hq])
  | @member l r k v w _ ih =>
    refine same_change hNan ⟨keysMatch_refl k, ih fun n hn => ?_⟩
    exact hNan n (.member (m := (k, v)) (by simp) hn)

/-! ## Several changes -/

/-- `R` may change a single item or member of a container, and the case of a key. -/
structure ChangesInside (cs : Bool) (R : Value → Value → Prop) : Prop where
  item : ∀ {l r v w}, R v w → R (.array (l ++ v :: r)) (.array (l ++ w :: r))
  member : ∀ {l r k v w}, R v w → R (.object (l ++ (k, v) :: r)) (.object (l ++ (k, w) :: r))
  recase : ∀ {l r k k' v}, keysMatch cs k k' = true →
    R (.object (l ++ (k, v) :: r)) (.object (l ++ (k', v) :: r))

namespace ChangesInside

variable {R : Value → Value → Prop}

/-- Items are changed from the first to the last. -/
theorem items (hR : ChangesInside cs R) {x y : List Value}
    (h : List.Forall₂ (ReflTransGen R) x y) (l : List Value) :
    ReflTransGen R (.array (l ++ x)) (.array (l ++ y)) := by
  induction h generalizing l with
  | nil => exact .refl
  | @cons v w x y hvw _ ih =>
    have hItem : ReflTransGen R (.array (l ++ v :: x)) (.array (l ++ w :: x)) :=
      ReflTransGen.lift (fun v => Value.array (l ++ v :: x)) (fun _ _ => hR.item) v w hvw
    have hRest := ih (l ++ [w])
    simp only [List.append_assoc, List.cons_append, List.nil_append] at hRest
    exact hItem.trans hRest

/-- Members are changed from the first to the last, each in its value and its key. -/
theorem members (hR : ChangesInside cs R)
    (h : List.Forall₂ (fun m m' : Str × Value => keysMatch cs m.1 m'.1 = true ∧
      ReflTransGen R m.2 m'.2) x y) (l : List (Str × Value)) :
    ReflTransGen R (.object (l ++ x)) (.object (l ++ y)) := by
  induction h generalizing l with
  | nil => exact .refl
  | @cons m m' x y hm _ ih =>
    obtain ⟨k, v⟩ := m
    have hMember : ReflTransGen R (.object (l ++ (k, v) :: x)) (.object (l ++ (k, m'.2) :: x)) :=
      ReflTransGen.lift (fun v => Value.object (l ++ (k, v) :: x)) (fun _ _ => hR.member)
        v m'.2 hm.2
    have hRest := ih (l ++ [m'])
    simp only [List.append_assoc, List.cons_append, List.nil_append] at hRest
    exact (hMember.tail (hR.recase hm.1)).trans hRest

end ChangesInside

theorem rearrange_inside : ChangesInside cs (Rearrange cs) := ⟨.item, .member, .recase⟩

theorem rearranged_of_same (h : Same cs v w) : ReflTransGen (Rearrange cs) v w := by
  induction v using Value.induct generalizing w with
  | null =>
    rw [same_null.mp h]
  | bool b =>
    rw [same_bool.mp h]
  | number n =>
    obtain ⟨m, rfl, hEq⟩ := same_number.mp h
    exact .single (.number hEq)
  | string s =>
    rw [same_string.mp h]
  | array x ih =>
    obtain ⟨y, rfl, hItems⟩ := same_array.mp h
    refine rearrange_inside.items ?_ []
    rw [List.forall₂_iff_get] at hItems ⊢
    exact ⟨hItems.1, fun i hi hi' => ih _ (List.get_mem x ⟨i, hi⟩) (hItems.2 i hi hi')⟩
  | object x ih =>
    obtain ⟨y, rfl, y', hMembers, hPerm⟩ := same_object.mp h
    refine ReflTransGen.tail (rearrange_inside.members ?_ []) (.permute hPerm)
    rw [List.forall₂_iff_get] at hMembers ⊢
    refine ⟨hMembers.1, fun i hi hi' => ⟨(hMembers.2 i hi hi').1, ?_⟩⟩
    exact ih _ (List.get_mem x ⟨i, hi⟩) (hMembers.2 i hi hi').2

/-- Equal values are those that can be rearranged into each other, when there is no `NaN`. -/
theorem same_iff_rearranged : Same cs v w ↔ NanFree v ∧ ReflTransGen (Rearrange cs) v w := by
  constructor
  · exact fun h => ⟨h.nanFree, rearranged_of_same h⟩
  · rintro ⟨hNan, h⟩
    induction h with
    | refl => exact same_self hNan
    | tail _ hStep ih => exact ih.trans (same_of_rearrange hStep ih.symm.nanFree)

/-! ## The call -/

/-- The keys of every object inside `v` are apart. -/
def KeysApart (cs : Bool) (v : Value) : Prop :=
  ∀ x, Value.Within (.object x) v → x.Pairwise fun m m' => ¬ keysMatch cs m.1 m'.1 = true

theorem KeysApart.distinct (h : KeysApart cs v) : Distinct cs v :=
  fun x hx => (h x hx).imp fun hKeys hSame => hKeys hSame.1

/-- `cJSON_Compare` on two nodes with values decides whether the values are equal up to the
order of members, when the keys of every object of the first are apart. -/
theorem cjsonCompare_iff_same {caseSensitive : Int}
    (ha : cjsonToValue (some a) h = .ok (some v, h))
    (hb : cjsonToValue (some b) h = .ok (some w, h)) (hKeys : KeysApart (caseSensitive ≠ 0) v) :
    ∃ r, cjsonCompare (some a) (some b) caseSensitive h = .ok (r, h) ∧
      (r = true ↔ Same (caseSensitive ≠ 0) v w) := by
  refine ⟨compareValues (caseSensitive ≠ 0) v w, ?_, compareValues_iff_same hKeys.distinct⟩
  rw [cjsonCompare]
  show (cjsonToValue (some a) >>= fun va => cjsonToValue (some b) >>= fun vb => _) h = _
  rw [Run.bind_run_ok ha, Run.bind_run_ok hb]
  rfl

/-- `{"k":null,"j":true}` and `{"J":true,"K":null}`, with case that does not count. -/
theorem cjsonCompare_iff_same_twoMembers :
    ∃ h a b r, cjsonCompare (some a) (some b) 0 h = .ok (r, h) ∧
      (r = true ↔ Same ((0 : Int) ≠ 0) (.object [(['k'], .null), (['j'], .bool true)])
        (.object [(['J'], .bool true), (['K'], .null)])) := by
  obtain ⟨h, a, hBounded, ha, -⟩ := exists_tree (bounded_oneString [])
    (.object [(['k'], .null), (['j'], .bool true)])
  obtain ⟨h', b, hBounded', hb, hKept, -⟩ := exists_tree hBounded
    (.object [(['J'], .bool true), (['K'], .null)])
  have hToA := cjsonToValue_run hBounded' (hKept a _ ha)
  have hToB := cjsonToValue_run hBounded' hb
  rw [toValue_ofValue] at hToA hToB
  have hApart : KeysApart ((0 : Int) ≠ 0) (.object [(['k'], .null), (['j'], .bool true)]) := by
    intro x hx
    cases hx with
    | refl => decide
    | member hm hx =>
      simp only [List.mem_cons, List.not_mem_nil, or_false] at hm
      rcases hm with rfl | rfl <;> cases hx
  exact ⟨h', a, b, cjsonCompare_iff_same hToA hToB hApart⟩

end CjsonRs.Ffi
