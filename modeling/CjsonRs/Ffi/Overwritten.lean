import CjsonRs.Ffi.Rearranged

/-!
# Symmetry of the comparison

The search behind `cJSON_Compare` lets two members of an object share a partner. So it finds a
tree equal to what comes out of it by overwriting members that also occur elsewhere in their
object, and only to that, up to what equality does not see. Two trees are compared alike in both
orders when this way leads back wherever it leads.
-/

namespace CjsonRs.Ffi

open CjsonRs.Core Library Relation

variable {h : Heap} {a b : Addr} {t u : CTree} {cs : Bool} {v w z : Value}
  {x y : List (Str × Value)}

/-! ## Overwriting a repeated member -/

/-- A change that equality does not see, or a member that occurs a second time in its object is
overwritten by another one, at any depth. -/
inductive Overwrite (cs : Bool) : Value → Value → Prop
  | rearrange {v w : Value} (h : Rearrange cs v w) : Overwrite cs v w
  | repeated {l r : List (Str × Value)} {m n : Str × Value} (h : m ∈ l ++ r) :
      Overwrite cs (.object (l ++ m :: r)) (.object (l ++ n :: r))
  | item {l r : List Value} {v w : Value} (h : Overwrite cs v w) :
      Overwrite cs (.array (l ++ v :: r)) (.array (l ++ w :: r))
  | member {l r : List (Str × Value)} {k : Str} {v w : Value} (h : Overwrite cs v w) :
      Overwrite cs (.object (l ++ (k, v) :: r)) (.object (l ++ (k, w) :: r))

theorem overwrite_inside : ChangesInside cs (Overwrite cs) :=
  ⟨.item, .member, fun h => .rearrange (.recase h)⟩

/-! ## What is overwritten is still found -/

/-- Everything that is found in the first list is found in the second. -/
def FoundIn (cs : Bool) (x y : List (Str × Value)) : Prop :=
  ∀ m ∈ x, ∃ m' ∈ y, ∀ k v, keysMatch cs k m.1 = true → compareValues cs v m.2 = true →
    keysMatch cs k m'.1 = true ∧ compareValues cs v m'.2 = true

theorem foundIn_of_subset (h : x ⊆ y) : FoundIn cs x y :=
  fun m hm => ⟨m, h hm, fun _ _ hKey hValue => ⟨hKey, hValue⟩⟩

/-- One member is exchanged for one by which the same is found. -/
theorem foundIn_change {l r : List (Str × Value)} {m n : Str × Value}
    (h : ∀ k v, keysMatch cs k m.1 = true → compareValues cs v m.2 = true →
      keysMatch cs k n.1 = true ∧ compareValues cs v n.2 = true) :
    FoundIn cs (l ++ m :: r) (l ++ n :: r) := by
  intro m' hm'
  rcases List.mem_append.mp hm' with hl | hr
  · exact ⟨m', List.mem_append_left _ hl, fun _ _ hKey hValue => ⟨hKey, hValue⟩⟩
  · rcases List.mem_cons.mp hr with rfl | hr
    · exact ⟨n, List.mem_append_right _ List.mem_cons_self, h⟩
    · refine ⟨m', List.mem_append_right _ (List.mem_cons_of_mem n hr), ?_⟩
      exact fun _ _ hKey hValue => ⟨hKey, hValue⟩

theorem found_object (h : compareValues cs v (.object x) = true) (hLength : x.length = y.length)
    (hFound : FoundIn cs x y) : compareValues cs v (.object y) = true := by
  cases v with
  | object z =>
    obtain ⟨x', hx', hSize, hMembers⟩ := compareValues_object.mp h
    cases hx'
    refine compareValues_object.mpr ⟨y, rfl, hSize.trans hLength, fun m hm => ?_⟩
    obtain ⟨m', hm', hKey, hValue⟩ := hMembers m hm
    obtain ⟨m'', hm'', hBoth⟩ := hFound m' hm'
    exact ⟨m'', hm'', hBoth m.1 m.2 hKey hValue⟩
  | _ => cases h

theorem found_item {l r : List Value} (h : compareValues cs v (.array (l ++ w :: r)) = true)
    (hItem : ∀ v, compareValues cs v w = true → compareValues cs v z = true) :
    compareValues cs v (.array (l ++ z :: r)) = true := by
  cases v with
  | array x =>
    obtain ⟨y, hy, hItems⟩ := compareValues_array.mp h
    cases hy
    refine compareValues_array.mpr ⟨_, rfl, ?_⟩
    clear h
    induction l generalizing x with
    | nil =>
      cases hItems with
      | cons hHead hTail => exact .cons (hItem _ hHead) hTail
    | cons p l ih =>
      cases hItems with
      | cons hHead hTail => exact .cons hHead (ih _ hTail)
  | _ => cases h

theorem found_rearranged (hStep : Rearrange cs w z) (h : compareValues cs v w = true) :
    compareValues cs v z = true := by
  induction hStep generalizing v with
  | number hEq =>
    cases v with
    | number n => exact F64.eq_trans h hEq
    | _ => cases h
  | permute hPerm => exact found_object h hPerm.length_eq (foundIn_of_subset hPerm.subset)
  | recase hKey =>
    refine found_object h (by simp) (foundIn_change fun _ _ hKey' hValue => ?_)
    exact ⟨keysMatch_trans hKey' hKey, hValue⟩
  | item _ ih => exact found_item h fun _ hFound => ih hFound
  | member _ ih =>
    exact found_object h (by simp) (foundIn_change fun _ _ hKey hValue => ⟨hKey, ih hValue⟩)

/-- What is found equal to a value is found equal to what it is overwritten to. -/
theorem found_overwritten (hStep : Overwrite cs w z) (h : compareValues cs v w = true) :
    compareValues cs v z = true := by
  induction hStep generalizing v with
  | rearrange hRearrange => exact found_rearranged hRearrange h
  | @repeated l r m n hMem =>
    apply found_object h (by simp)
    intro m' hm'
    have hRest : m' ∈ l ++ r := by
      rcases List.mem_append.mp hm' with hl | hr
      · exact List.mem_append_left r hl
      · rcases List.mem_cons.mp hr with rfl | hr
        · exact hMem
        · exact List.mem_append_right l hr
    refine ⟨m', List.perm_middle.symm.subset (List.mem_cons_of_mem n hRest), ?_⟩
    exact fun _ _ hKey hValue => ⟨hKey, hValue⟩
  | item _ ih => exact found_item h fun _ hFound => ih hFound
  | member _ ih =>
    exact found_object h (by simp) (foundIn_change fun _ _ hKey hValue => ⟨hKey, ih hValue⟩)

/-! ## What is found is reached by overwriting -/

theorem overwritten_fill (hSub : x ⊆ y) (hLength : x.length = y.length) :
    ReflTransGen (Overwrite cs) (.object x) (.object y) := by
  have hReach : ReflTransGen (fun x y => Overwrite cs (.object x) (.object y)) x y := by
    apply reaches_of_subset _ _ hSub hLength
    · exact fun hPerm => .rearrange (.permute hPerm)
    · exact fun hMem => .repeated hMem
  exact ReflTransGen.lift Value.object (fun _ _ hStep => hStep) x y hReach

theorem overwritten_of_found (h : compareValues cs v w = true) :
    ReflTransGen (Overwrite cs) v w := by
  induction v using Value.induct generalizing w with
  | null =>
    cases w with
    | null => exact .refl
    | _ => cases h
  | bool x =>
    cases w with
    | bool y => rw [eq_of_beq (show (x == y) = true from h)]
    | _ => cases h
  | number x =>
    cases w with
    | number y => exact .single (.rearrange (.number h))
    | _ => cases h
  | string x =>
    cases w with
    | string y => rw [eq_of_beq (show (x == y) = true from h)]
    | _ => cases h
  | array x ih =>
    obtain ⟨y, rfl, hItems⟩ := compareValues_array.mp h
    refine overwrite_inside.items ?_ []
    rw [List.forall₂_iff_get] at hItems ⊢
    exact ⟨hItems.1, fun i hi hi' => ih _ (List.get_mem x ⟨i, hi⟩) (hItems.2 i hi hi')⟩
  | object x ih =>
    obtain ⟨y, rfl, hLength, hMembers⟩ := compareValues_object.mp h
    have hPartners : ∀ m ∈ x, ∃ m' ∈ y, keysMatch cs m.1 m'.1 = true ∧
        ReflTransGen (Overwrite cs) m.2 m'.2 := fun m hm => by
      obtain ⟨m', hm', hKey, hValue⟩ := hMembers m hm
      exact ⟨m', hm', hKey, ih m hm hValue⟩
    obtain ⟨z, hPaired, hSub⟩ := exists_partners hPartners
    exact (overwrite_inside.members hPaired []).trans
      (overwritten_fill hSub (hPaired.length_eq.symm.trans hLength))

/-- A value is found equal to those that come out of it by overwriting members that occur twice,
when it has no `NaN`. -/
theorem compareValues_iff_overwritten :
    compareValues cs v w = true ↔ NanFree v ∧ ReflTransGen (Overwrite cs) v w := by
  constructor
  · exact fun h => ⟨nanFree_of_compareValues h, overwritten_of_found h⟩
  · rintro ⟨hNan, h⟩
    induction h with
    | refl => exact compareValues_self hNan
    | tail _ hStep ih => exact found_overwritten hStep ih

/-! ## Symmetry -/

/-- Both trees have values, the first one without a `NaN`, and overwriting members that occur
twice leads from the first value to the second. -/
def TurnsInto (cs : Bool) (t u : CTree) : Prop :=
  ∃ v w, t.toValue = some v ∧ u.toValue = some w ∧ NanFree v ∧ ReflTransGen (Overwrite cs) v w

theorem compareTrees_iff_turnsInto : compareTrees cs t u = true ↔ TurnsInto cs t u := by
  rw [compareTrees_eq_true]
  refine exists_congr fun v => exists_congr fun w => and_congr_right fun _ =>
    and_congr_right fun _ => compareValues_iff_overwritten

/-- Two trees are compared alike in both orders exactly when each of them that can be turned into
the other can be turned back; so are all trees without repeated members. -/
theorem cjsonCompare_symmetric_iff (hBounded : h.Bounded) (ht : Denotes h a t)
    (hu : Denotes h b u) (caseSensitive : Int) :
    (cjsonCompare (some a) (some b) caseSensitive h =
        cjsonCompare (some b) (some a) caseSensitive h ↔
      (TurnsInto (caseSensitive ≠ 0) t u ↔ TurnsInto (caseSensitive ≠ 0) u t)) ∧
    (Unrepeated (caseSensitive ≠ 0) t → Unrepeated (caseSensitive ≠ 0) u →
      cjsonCompare (some a) (some b) caseSensitive h =
        cjsonCompare (some b) (some a) caseSensitive h) := by
  rw [cjsonCompare_run hBounded ht hu, cjsonCompare_run hBounded hu ht]
  constructor
  · rw [← compareTrees_iff_turnsInto, ← compareTrees_iff_turnsInto, ← Bool.eq_iff_iff]
    simp only [Except.ok.injEq, Prod.mk.injEq, and_true]
  · intro hT hU
    rw [compareTrees_comm hT hU]

/-- `{"k":V,"k":V}` -/
def doubledValue : Value := .object [(['k'], nestedValue), (['k'], nestedValue)]

/-- `{"j":null,"K":V}` -/
def pairedValue : Value := .object [(['j'], .null), (['K'], nestedValue)]

theorem cjsonCompare_symmetric_iff_doubled : ∃ h a b,
    Denotes h a (.ofValue doubledValue) ∧ Denotes h b (.ofValue pairedValue) ∧
    (cjsonCompare (some a) (some b) 0 h = cjsonCompare (some b) (some a) 0 h ↔
      (TurnsInto ((0 : Int) ≠ 0) (.ofValue doubledValue) (.ofValue pairedValue) ↔
        TurnsInto ((0 : Int) ≠ 0) (.ofValue pairedValue) (.ofValue doubledValue))) := by
  obtain ⟨h, a, hBounded, ha, -⟩ := exists_tree (bounded_oneString []) doubledValue
  obtain ⟨h', b, hBounded', hb, hKept, -⟩ := exists_tree hBounded pairedValue
  have ha' := hKept a _ ha
  exact ⟨h', a, b, ha', hb, (cjsonCompare_symmetric_iff hBounded' ha' hb 0).1⟩

/-- `{"k":null,"k":null}` is found equal to `{"k":null,"k":true}`, but not the other way
round. -/
theorem cjsonCompare_asymmetric :
    ¬ ∀ (h : Heap) (a b : Addr) (t u : CTree) (cs : Int), h.Bounded → Denotes h a t →
      Denotes h b u →
      cjsonCompare (some a) (some b) cs h = cjsonCompare (some b) (some a) cs h := by
  intro hAll
  obtain ⟨h, a, hBounded, ha, -⟩ := exists_tree (bounded_oneString [])
    (.object [(['k'], .null), (['k'], .null)])
  obtain ⟨h', b, hBounded', hb, hKept, -⟩ := exists_tree hBounded
    (.object [(['k'], .null), (['k'], .bool true)])
  have ha' := hKept a _ ha
  have hEq := hAll h' a b _ _ 1 hBounded' ha' hb
  rw [cjsonCompare_run hBounded' ha' hb, cjsonCompare_run hBounded' hb ha'] at hEq
  have hFound := (Prod.mk.inj (Except.ok.inj hEq)).1
  simp only [compareTrees, toValue_ofValue] at hFound
  revert hFound
  decide

end CjsonRs.Ffi
