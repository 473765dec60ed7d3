import CjsonRs.Ffi.Query
import CjsonRs.Library.Matching

/-!
# Comparison

`cJSON_Compare` of `cjson-rs-ffi/src/lib.rs`, and what it decides. Two objects are meant to
be equal as sets of members: `Same` pairs the members off, in any order. The code only looks
for a partner of every member of its first object, which is the same as long as no object
holds two members that are equal to each other (`Distinct`).
-/

namespace CjsonRs.Ffi

open CjsonRs.Core Library

/-! ## The code -/

mutual

def compareValues (caseSensitive : Bool) : Value → Value → Bool
  | .null, .null => true
  | .bool x, .bool y => x == y
  | .number x, .number y => x.eq y
  | .string x, .string y => x == y
  | .array x, .array y => x.length == y.length && compareItems caseSensitive x y
  | .object x, .object y => x.length == y.length && compareMembers caseSensitive x y
  | _, _ => false

/-- `x.iter().zip(y.iter()).all(..)` -/
def compareItems (caseSensitive : Bool) : List Value → List Value → Bool
  | p :: x, q :: y => compareValues caseSensitive p q && compareItems caseSensitive x y
  | _, _ => true

/-- `x.iter().all(|(k1, v1)| y.iter().any(|(k2, v2)| ..))` -/
def compareMembers (caseSensitive : Bool) : List (Str × Value) → List (Str × Value) → Bool
  | [], _ => true
  | (k₁, v₁) :: x, y =>
    y.any (fun m => keysMatch caseSensitive k₁ m.1 && compareValues caseSensitive v₁ m.2) &&
      compareMembers caseSensitive x y

end

def cjsonCompare (a b : Ptr) (caseSensitive : Int) : M Bool := do
  if a.isNone ∨ b.isNone then
    return false
  let va ← cjsonToValue a
  let vb ← cjsonToValue b
  match va, vb with
  | some va, some vb => return compareValues (caseSensitive ≠ 0) va vb
  | _, _ => return false

variable {cs : Bool} {k k' k'' : Str} {v w u : Value}

/-! ## Keys -/

theorem keysMatch_refl (k : Str) : keysMatch cs k k = true := by
  unfold keysMatch eqIgnoreAsciiCase
  split <;> exact beq_self_eq_true _

theorem keysMatch_symm (h : keysMatch cs k k' = true) : keysMatch cs k' k = true := by
  unfold keysMatch eqIgnoreAsciiCase at *
  split_ifs at * <;> exact BEq.symm h

theorem keysMatch_trans (h : keysMatch cs k k' = true) (h' : keysMatch cs k' k'' = true) :
    keysMatch cs k k'' = true := by
  unfold keysMatch eqIgnoreAsciiCase at *
  split_ifs at * <;> exact BEq.trans h h'

theorem keysMatch_length (h : keysMatch cs k k' = true) : k.length = k'.length := by
  unfold keysMatch eqIgnoreAsciiCase at h
  split_ifs at h
  · rw [eq_of_beq h]
  · simpa using congrArg List.length (eq_of_beq h)

/-! ## Equality of values -/

mutual

/-- The two values are equal, with objects as sets of members. -/
def Same (cs : Bool) : Value → Value → Prop
  | .null, .null => True
  | .bool x, .bool y => x = y
  | .number x, .number y => x.eq y = true
  | .string x, .string y => x = y
  | .array x, .array y => SameItems cs x y
  | .object x, .object y => SameMembers cs x y
  | _, _ => False

/-- The items are equal one by one. -/
def SameItems (cs : Bool) : List Value → List Value → Prop
  | [], [] => True
  | p :: x, q :: y => Same cs p q ∧ SameItems cs x y
  | _, _ => False

/-- The members pair off into equal ones, in any order. -/
def SameMembers (cs : Bool) : List (Str × Value) → List (Str × Value) → Prop
  | [], y => y = []
  | (k, v) :: x, y => ∃ l k' v' r, y = l ++ (k', v') :: r ∧ keysMatch cs k k' = true ∧
      Same cs v v' ∧ SameMembers cs x (l ++ r)

end

/-- Two members with matching keys and equal values. -/
def SameMember (cs : Bool) (m m' : Str × Value) : Prop :=
  keysMatch cs m.1 m'.1 = true ∧ Same cs m.2 m'.2

theorem sameMembers_iff {x y : List (Str × Value)} :
    SameMembers cs x y ↔ Matches (SameMember cs) x y := by
  induction x generalizing y with
  | nil => exact matches_nil.symm
  | cons m x ih =>
    obtain ⟨k, v⟩ := m
    rw [matches_cons]
    constructor
    · rintro ⟨l, k', v', r, hy, hKey, hValue, h⟩
      exact ⟨l, (k', v'), r, hy, ⟨hKey, hValue⟩, ih.mp h⟩
    · rintro ⟨l, ⟨k', v'⟩, r, hy, ⟨hKey, hValue⟩, h⟩
      exact ⟨l, k', v', r, hy, hKey, hValue, ih.mpr h⟩

theorem sameItems_iff {x y : List Value} : SameItems cs x y ↔ List.Forall₂ (Same cs) x y := by
  induction x generalizing y with
  | nil =>
    cases y with
    | nil => exact iff_of_true trivial List.Forall₂.nil
    | cons q y => exact iff_of_false id (by rintro ⟨⟩)
  | cons p x ih =>
    cases y with
    | nil => exact iff_of_false id (by rintro ⟨⟩)
    | cons q y =>
      rw [List.forall₂_cons, ← ih]
      exact Iff.rfl

theorem same_null : Same cs .null w ↔ w = .null := by
  constructor
  · intro h
    cases w with
    | null => rfl
    | _ => cases h
  · rintro rfl
    trivial

theorem same_bool {x : Bool} : Same cs (.bool x) w ↔ w = .bool x := by
  constructor
  · intro h
    cases w with
    | bool y => exact congrArg Value.bool (Eq.symm h)
    | _ => cases h
  · rintro rfl
    exact Eq.refl x

theorem same_number {x : F64} : Same cs (.number x) w ↔ ∃ y, w = .number y ∧ x.eq y = true := by
  constructor
  · intro h
    cases w with
    | number y => exact ⟨y, rfl, h⟩
    | _ => cases h
  · rintro ⟨y, rfl, h⟩
    exact h

theorem same_string {x : Str} : Same cs (.string x) w ↔ w = .string x := by
  constructor
  · intro h
    cases w with
    | string y => exact congrArg Value.string (Eq.symm h)
    | _ => cases h
  · rintro rfl
    exact Eq.refl x

theorem same_array {x : List Value} :
    Same cs (.array x) w ↔ ∃ y, w = .array y ∧ List.Forall₂ (Same cs) x y := by
  constructor
  · intro h
    cases w with
    | array y => exact ⟨y, rfl, sameItems_iff.mp h⟩
    | _ => cases h
  · rintro ⟨y, rfl, h⟩
    exact sameItems_iff.mpr h

theorem same_object {x : List (Str × Value)} :
    Same cs (.object x) w ↔ ∃ y, w = .object y ∧ Matches (SameMember cs) x y := by
  constructor
  · intro h
    cases w with
    | object y => exact ⟨y, rfl, sameMembers_iff.mp h⟩
    | _ => cases h
  · rintro ⟨y, rfl, h⟩
    exact sameMembers_iff.mpr h

theorem Same.symm (h : Same cs v w) : Same cs w v := by
  induction v using Value.induct generalizing w with
  | null =>
    rw [same_null.mp h]
    trivial
  | bool x =>
    rw [same_bool.mp h]
    exact same_bool.mpr rfl
  | number x =>
    obtain ⟨y, rfl, hEq⟩ := same_number.mp h
    exact same_number.mpr ⟨x, rfl, (F64.eq_comm y x).trans hEq⟩
  | string x =>
    rw [same_string.mp h]
    exact same_string.mpr rfl
  | array x ih =>
    obtain ⟨y, rfl, hItems⟩ := same_array.mp h
    refine same_array.mpr ⟨x, rfl, ?_⟩
    clear h
    induction hItems with
    | nil => exact List.Forall₂.nil
    | @cons p q x y hp _ ihTail =>
      refine List.Forall₂.cons (ih p List.mem_cons_self hp) (ihTail fun v hv => ?_)
      exact ih v (List.mem_cons_of_mem p hv)
  | object x ih =>
    obtain ⟨y, rfl, hMembers⟩ := same_object.mp h
    refine same_object.mpr ⟨x, rfl, hMembers.flip fun m hm m' hSame => ?_⟩
    exact ⟨keysMatch_symm hSame.1, ih m hm hSame.2⟩

theorem Same.trans (h : Same cs v w) (h' : Same cs w u) : Same cs v u := by
  induction v using Value.induct generalizing w u with
  | null =>
    rw [same_null.mp h] at h'
    exact h'
  | bool x =>
    rw [same_bool.mp h] at h'
    exact h'
  | number x =>
    obtain ⟨y, rfl, hEq⟩ := same_number.mp h
    obtain ⟨z, rfl, hEq'⟩ := same_number.mp h'
    exact same_number.mpr ⟨z, rfl, F64.eq_trans hEq hEq'⟩
  | string x =>
    rw [same_string.mp h] at h'
    exact h'
  | array x ih =>
    obtain ⟨y, rfl, hItems⟩ := same_array.mp h
    obtain ⟨z, rfl, hItems'⟩ := same_array.mp h'
    refine same_array.mpr ⟨z, rfl, ?_⟩
    clear h h'
    induction hItems generalizing z with
    | nil => exact hItems'
    | @cons p q x y hp _ ihTail =>
      cases hItems' with
      | @cons _ r _ z hq hItems' =>
        refine List.Forall₂.cons (ih p List.mem_cons_self hp hq) (ihTail (fun v hv => ?_) z hItems')
        exact ih v (List.mem_cons_of_mem p hv)
  | object x ih =>
    obtain ⟨y, rfl, hMembers⟩ := same_object.mp h
    obtain ⟨z, rfl, hMembers'⟩ := same_object.mp h'
    refine same_object.mpr ⟨z, rfl, hMembers.trans hMembers' fun m hm m' m'' hSame hSame' => ?_⟩
    exact ⟨keysMatch_trans hSame.1 hSame'.1, ih m hm hSame.2 hSame'.2⟩

/-! ## What the search finds -/

theorem compareItems_eq_true {x y : List Value} (hLength : x.length = y.length) :
    compareItems cs x y = true ↔ List.Forall₂ (fun p q => compareValues cs p q = true) x y := by
  induction x generalizing y with
  | nil =>
    rw [List.length_eq_zero_iff.mp hLength.symm]
    exact iff_of_true rfl List.Forall₂.nil
  | cons p x ih =>
    cases y with
    | nil => cases hLength
    | cons q y =>
      rw [List.forall₂_cons, ← ih (Nat.succ.inj hLength), ← Bool.and_eq_true]
      exact Iff.rfl

theorem compareMembers_eq_true {x y : List (Str × Value)} :
    compareMembers cs x y = true ↔ ∀ m ∈ x, ∃ m' ∈ y,
      keysMatch cs m.1 m'.1 = true ∧ compareValues cs m.2 m'.2 = true := by
  induction x with
  | nil => exact iff_of_true rfl (by simp)
  | cons m x ih =>
    obtain ⟨k, v⟩ := m
    show (y.any (fun m' => keysMatch cs k m'.1 && compareValues cs v m'.2) &&
      compareMembers cs x y) = true ↔ _
    simp only [Bool.and_eq_true, List.any_eq_true, List.forall_mem_cons, ih]

theorem compareValues_array {x : List Value} :
    compareValues cs (.array x) w = true ↔
      ∃ y, w = .array y ∧ List.Forall₂ (fun p q => compareValues cs p q = true) x y := by
  cases w with
  | array y =>
    show (x.length == y.length && compareItems cs x y) = true ↔ _
    simp only [Bool.and_eq_true, beq_iff_eq, Value.array.injEq, exists_eq_left']
    constructor
    · exact fun h => (compareItems_eq_true h.1).mp h.2
    · exact fun h => ⟨h.length_eq, (compareItems_eq_true h.length_eq).mpr h⟩
  | _ => exact iff_of_false Bool.false_ne_true (by simp)

theorem compareValues_object {x : List (Str × Value)} :
    compareValues cs (.object x) w = true ↔
      ∃ y, w = .object y ∧ x.length = y.length ∧ ∀ m ∈ x, ∃ m' ∈ y,
        keysMatch cs m.1 m'.1 = true ∧ compareValues cs m.2 m'.2 = true := by
  cases w with
  | object y =>
    show (x.length == y.length && compareMembers cs x y) = true ↔ _
    simp only [Bool.and_eq_true, beq_iff_eq, Value.object.injEq, exists_eq_left',
      compareMembers_eq_true]
  | _ => exact iff_of_false Bool.false_ne_true (by simp)

/-- Equal values are found equal. -/
theorem compareValues_of_same (h : Same cs v w) : compareValues cs v w = true := by
  induction v using Value.induct generalizing w with
  | null =>
    rw [same_null.mp h]
    rfl
  | bool x =>
    rw [same_bool.mp h]
    exact beq_self_eq_true x
  | number x =>
    obtain ⟨y, rfl, hEq⟩ := same_number.mp h
    exact hEq
  | string x =>
    rw [same_string.mp h]
    exact beq_self_eq_true x
  | array x ih =>
    obtain ⟨y, rfl, hItems⟩ := same_array.mp h
    refine compareValues_array.mpr ⟨y, rfl, ?_⟩
    clear h
    induction hItems with
    | nil => exact List.Forall₂.nil
    | @cons p q x y hp _ ihTail =>
      refine List.Forall₂.cons (ih p List.mem_cons_self hp) (ihTail fun v hv => ?_)
      exact ih v (List.mem_cons_of_mem p hv)
  | object x ih =>
    obtain ⟨y, rfl, hMembers⟩ := same_object.mp h
    refine compareValues_object.mpr ⟨y, rfl, hMembers.length_eq, fun m hm => ?_⟩
    obtain ⟨m', hm', hKey, hSame⟩ := hMembers.exists_right hm
    exact ⟨m', hm', hKey, ih m hm hSame⟩

/-! ## Repeated members -/

/-- No object inside `v` has two members that are equal to each other. -/
def Distinct (cs : Bool) (v : Value) : Prop :=
  ∀ x, Value.Within (.object x) v → x.Pairwise fun m m' => ¬ SameMember cs m m'

/-- No number inside `v` is `NaN`. -/
def NanFree (v : Value) : Prop := ∀ n, Value.Within (.number n) v → n.isNan = false

/-- Some object inside `v` has a member with the key `k`. -/
def HasKey (k : Str) (v : Value) : Prop :=
  ∃ x, Value.Within (.object x) v ∧ ∃ m ∈ x, m.1 = k

theorem SameMember.symm {m m' : Str × Value} (h : SameMember cs m m') : SameMember cs m' m :=
  ⟨keysMatch_symm h.1, h.2.symm⟩

theorem SameMember.trans {m m' m'' : Str × Value} (h : SameMember cs m m')
    (h' : SameMember cs m' m'') : SameMember cs m m'' :=
  ⟨keysMatch_trans h.1 h'.1, h.2.trans h'.2⟩

/-- A value without repeated members is only found equal to equal ones. -/
theorem same_of_compareValues (hDistinct : Distinct cs v) (h : compareValues cs v w = true) :
    Same cs v w := by
  induction v using Value.induct generalizing w with
  | null => cases w <;> trivial
  | bool x =>
    cases w with
    | bool y => exact eq_of_beq h
    | _ => cases h
  | number x =>
    cases w with
    | number y => exact h
    | _ => cases h
  | string x =>
    cases w with
    | string y => exact eq_of_beq h
    | _ => cases h
  | array x ih =>
    obtain ⟨y, rfl, hItems⟩ := compareValues_array.mp h
    have hSame : ∀ p ∈ x, ∀ w, compareValues cs p w = true → Same cs p w :=
      fun p hp w => ih p hp fun x hx => hDistinct x (.item hp hx)
    refine same_array.mpr ⟨y, rfl, ?_⟩
    clear h ih hDistinct
    induction hItems with
    | nil => exact List.Forall₂.nil
    | @cons p q x y hp _ ihTail =>
      refine List.Forall₂.cons (hSame p List.mem_cons_self q hp) (ihTail fun v hv => ?_)
      exact hSame v (List.mem_cons_of_mem p hv)
  | object x ih =>
    obtain ⟨y, rfl, hLength, hMembers⟩ := compareValues_object.mp h
    refine same_object.mpr ⟨y, rfl, matches_of_apart hLength.ge (fun m hm => ?_) ?_⟩
    · obtain ⟨m', hm', hKey, hValue⟩ := hMembers m hm
      exact ⟨m', hm', hKey, ih m hm (fun x hx => hDistinct x (.member hm hx)) hValue⟩
    · -- Members that shared a partner would be equal to each other.
      refine (hDistinct x .refl).imp fun hNot m' hShared => ?_
      exact hNot (hShared.1.trans hShared.2.symm)

/-- On a value without repeated members the search decides equality. -/
theorem compareValues_iff_same (hDistinct : Distinct cs v) :
    compareValues cs v w = true ↔ Same cs v w :=
  ⟨same_of_compareValues hDistinct, compareValues_of_same⟩

/-! ## A partner that is not found back -/

/-- What is found equal to anything has no `NaN`. -/
theorem nanFree_of_compareValues (h : compareValues cs v w = true) : NanFree v := by
  intro n hn
  induction hn generalizing w with
  | refl =>
    cases w with
    | number y =>
      have hEq : n.eq y = true := h
      simp only [F64.eq, Bool.and_eq_true, Bool.not_eq_true'] at hEq
      exact hEq.1.1
    | _ => cases h
  | item hp _ ih =>
    obtain ⟨y, rfl, hItems⟩ := compareValues_array.mp h
    obtain ⟨i, hi, rfl⟩ := List.getElem_of_mem hp
    exact ih (hItems.get hi (hItems.length_eq ▸ hi))
  | member hm _ ih =>
    obtain ⟨y, rfl, -, hMembers⟩ := compareValues_object.mp h
    obtain ⟨m', -, -, hValue⟩ := hMembers _ hm
    exact ih hValue

/-- Every key inside a value has a matching one inside what it is found equal to. -/
theorem hasKey_of_compareValues (h : compareValues cs w v = true) (hKey : HasKey k w) :
    ∃ k', HasKey k' v ∧ keysMatch cs k k' = true := by
  obtain ⟨x, hWithin, m, hm, rfl⟩ := hKey
  induction hWithin generalizing v with
  | refl =>
    obtain ⟨y, rfl, -, hMembers⟩ := compareValues_object.mp h
    obtain ⟨m', hm', hKey, -⟩ := hMembers m hm
    exact ⟨m'.1, ⟨y, .refl, m', hm', rfl⟩, hKey⟩
  | item hp _ ih =>
    obtain ⟨y, rfl, hItems⟩ := compareValues_array.mp h
    obtain ⟨i, hi, rfl⟩ := List.getElem_of_mem hp
    obtain ⟨k', ⟨z, hz, hk'⟩, hKey⟩ := ih (hItems.get hi (hItems.length_eq ▸ hi))
    exact ⟨k', ⟨z, .item (List.getElem_mem _) hz, hk'⟩, hKey⟩
  | member hn _ ih =>
    obtain ⟨y, rfl, -, hMembers⟩ := compareValues_object.mp h
    obtain ⟨n', hn', -, hValue⟩ := hMembers _ hn
    obtain ⟨k', ⟨z, hz, hk'⟩, hKey⟩ := ih hValue
    exact ⟨k', ⟨z, .member hn' hz, hk'⟩, hKey⟩

/-- A value without `NaN` is found equal to itself. -/
theorem compareValues_self (h : NanFree v) : compareValues cs v v = true := by
  induction v using Value.induct with
  | null => rfl
  | bool x => exact beq_self_eq_true x
  | number x => exact F64.eq_self (h x .refl)
  | string x => exact beq_self_eq_true x
  | array x ih =>
    refine compareValues_array.mpr ⟨x, rfl, List.forall₂_same.mpr fun p hp => ?_⟩
    exact ih p hp fun n hn => h n (.item hp hn)
  | object x ih =>
    refine compareValues_object.mpr ⟨x, rfl, rfl, fun m hm => ⟨m, hm, keysMatch_refl m.1, ?_⟩⟩
    exact ih m hm fun n hn => h n (.member hm hn)

/-- Of the members of a list with a repetition, one is equal to one behind it. -/
theorem exists_repeated {x : List (Str × Value)}
    (h : ¬ x.Pairwise fun m m' => ¬ SameMember cs m m') :
    ∃ l m r, x = l ++ m :: r ∧ ∃ m' ∈ r, SameMember cs m m' := by
  induction x with
  | nil => exact absurd List.Pairwise.nil h
  | cons m x ih =>
    by_cases hHead : ∃ m' ∈ x, SameMember cs m m'
    · exact ⟨[], m, x, rfl, hHead⟩
    · have hTail : ¬ x.Pairwise fun m m' => ¬ SameMember cs m m' := by
        intro hTail
        exact h (hTail.cons fun m' hm' hSame => hHead ⟨m', hm', hSame⟩)
      obtain ⟨l, n, r, rfl, hSame⟩ := ih hTail
      exact ⟨m :: l, n, r, rfl, hSame⟩

/-- An object is found equal to one with a single member changed into one that is found. -/
theorem compareValues_change {l r : List (Str × Value)} {m n : Str × Value}
    (hNan : NanFree (.object (l ++ m :: r)))
    (h : ∃ m' ∈ l ++ n :: r, keysMatch cs m.1 m'.1 = true ∧ compareValues cs m.2 m'.2 = true) :
    compareValues cs (.object (l ++ m :: r)) (.object (l ++ n :: r)) = true := by
  refine compareValues_object.mpr ⟨_, rfl, by simp, fun m' hm' => ?_⟩
  by_cases hEq : m' = m
  · rw [hEq]
    exact h
  · have hSelf : compareValues cs m'.2 m'.2 = true :=
      compareValues_self fun z hz => hNan z (.member hm' hz)
    refine ⟨m', ?_, keysMatch_refl m'.1, hSelf⟩
    simp only [List.mem_append, List.mem_cons, hEq, false_or] at hm' ⊢
    exact hm'.imp_right Or.inr

/-- A value with a repeated member is found equal to one where a member with another key
stands for the first of the two. -/
theorem exists_partner {f : Str} {P : Str → Prop} (hNan : NanFree v) (hTexts : v.Texts P)
    (hf : P f) (h : ¬ Distinct cs v) :
    ∃ w, compareValues cs v w = true ∧ HasKey f w ∧ w.Texts P := by
  simp only [Distinct, not_forall] at h
  obtain ⟨x, hWithin, hRepeated⟩ := h
  induction hWithin with
  | refl =>
    obtain ⟨l, m, r, rfl, m', hm', hSame⟩ := exists_repeated hRepeated
    have hFound : m' ∈ l ++ (f, .null) :: r := by simp [hm']
    refine ⟨.object (l ++ (f, .null) :: r), compareValues_change hNan ?_,
      ⟨_, .refl, (f, .null), by simp, rfl⟩, Value.texts_object.mpr fun n hn => ?_⟩
    · exact ⟨m', hFound, hSame.1, compareValues_of_same hSame.2⟩
    · by_cases hEq : n = (f, .null)
      · rw [hEq]
        exact ⟨hf, Value.texts_null⟩
      · refine Value.texts_object.mp hTexts n ?_
        simp only [List.mem_append, List.mem_cons, hEq, false_or] at hn ⊢
        exact hn.imp_right Or.inr
  | @item items p hp _ ih =>
    obtain ⟨w, hCompare, ⟨x, hx, hKey⟩, hw⟩ :=
      ih (fun n hn => hNan n (.item hp hn)) (Value.texts_array.mp hTexts p hp)
    obtain ⟨l, r, rfl⟩ := List.append_of_mem hp
    have hSelf : ∀ q ∈ l ++ p :: r, compareValues cs q q = true :=
      fun q hq => compareValues_self fun n hn => hNan n (.item hq hn)
    refine ⟨.array (l ++ w :: r), compareValues_array.mpr ⟨_, rfl, ?_⟩,
      ⟨x, .item (by simp) hx, hKey⟩, Value.texts_array.mpr fun q hq => ?_⟩
    · refine List.rel_append ?_ (List.Forall₂.cons hCompare ?_)
      · exact List.forall₂_same.mpr fun q hq => hSelf q (by simp [hq])
      · exact List.forall₂_same.mpr fun q hq => hSelf q (by simp [hq])
    · by_cases hEq : q = w
      · rw [hEq]
        exact hw
      · refine Value.texts_array.mp hTexts q ?_
        simp only [List.mem_append, List.mem_cons, hEq, false_or] at hq ⊢
        exact hq.imp_right Or.inr
  | @member members m hm _ ih =>
    obtain ⟨hKeyM, hValueM⟩ := Value.texts_object.mp hTexts m hm
    obtain ⟨w, hCompare, ⟨x, hx, hKey⟩, hw⟩ := ih (fun n hn => hNan n (.member hm hn)) hValueM
    obtain ⟨l, r, rfl⟩ := List.append_of_mem hm
    have hFound : (m.1, w) ∈ l ++ (m.1, w) :: r := by simp
    refine ⟨.object (l ++ (m.1, w) :: r), compareValues_change hNan ?_,
      ⟨x, .member hFound hx, hKey⟩, Value.texts_object.mpr fun n hn => ?_⟩
    · exact ⟨(m.1, w), hFound, keysMatch_refl m.1, hCompare⟩
    · by_cases hEq : n = (m.1, w)
      · rw [hEq]
        exact ⟨hKeyM, hw⟩
      · refine Value.texts_object.mp hTexts n ?_
        simp only [List.mem_append, List.mem_cons, hEq, false_or] at hn ⊢
        exact hn.imp_right Or.inr

theorem length_le_sizeOf (k : Str) : k.length ≤ sizeOf k := by
  induction k with
  | nil => simp
  | cons c k ih =>
    simp only [List.length_cons, List.cons.sizeOf_spec]
    omega

/-- A key that is longer than all the keys inside a value matches none of them. -/
theorem exists_fresh_key (cs : Bool) (v : Value) : ∃ n, ∀ k, HasKey k v →
    keysMatch cs (List.replicate n 'k') k = false := by
  refine ⟨sizeOf v, fun k hKey => Bool.eq_false_iff.mpr fun hMatch => ?_⟩
  obtain ⟨x, hWithin, m, hm, rfl⟩ := hKey
  have hLength := keysMatch_length hMatch
  have hObject := hWithin.sizeOf_le
  have hMember := List.sizeOf_lt_of_mem hm
  have hKey : m.1.length ≤ sizeOf m.1 := length_le_sizeOf m.1
  obtain ⟨k, u⟩ := m
  simp only [List.length_replicate, Value.object.sizeOf_spec, Prod.mk.sizeOf_spec] at *
  omega

/-- Everything that `v` is found equal to is found equal to `v`, when `v` is not found equal to
anything or has no repeated members. -/
theorem found_back (h : NanFree v → Distinct cs v) (hCompare : compareValues cs v w = true) :
    compareValues cs w v = true := by
  have hSame := same_of_compareValues (h (nanFree_of_compareValues hCompare)) hCompare
  exact compareValues_of_same hSame.symm

/-- A value with repeated members is found equal to one that is not found equal to it. -/
theorem exists_not_found_back {P : Str → Prop} (hNan : NanFree v) (hTexts : v.Texts P)
    (hP : ∀ n, P (List.replicate n 'k')) (h : ¬ Distinct cs v) :
    ∃ w, compareValues cs v w = true ∧ ¬ compareValues cs w v = true ∧ w.Texts P := by
  obtain ⟨n, hFresh⟩ := exists_fresh_key cs v
  obtain ⟨w, hCompare, hKey, hw⟩ := exists_partner hNan hTexts (hP n) h
  refine ⟨w, hCompare, fun hBack => ?_, hw⟩
  obtain ⟨k, hk, hMatch⟩ := hasKey_of_compareValues hBack hKey
  rw [hFresh k hk] at hMatch
  cases hMatch

end CjsonRs.Ffi
