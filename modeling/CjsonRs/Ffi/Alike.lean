import CjsonRs.Ffi.Budget
import CjsonRs.Ffi.Copies
import CjsonRs.Ffi.Harness
import CjsonRs.Ffi.Overwritten
import CjsonRs.Ffi.Printers

/-!
# What compares equal

`cJSON_Compare` orders the trees: it is transitive, and only a `NaN` or a text that cannot be read
keeps a tree from comparing equal to itself. A tree that is made from another one compares equal to
it under the same condition, be it by `cJSON_Duplicate` or by printing and parsing.
-/

namespace CjsonRs.Ffi

open CjsonRs.Core CjsonRs.Rfc Library

variable {std : StdF64} {h h' h₁ h₂ : Heap} {a b c s : Addr} {q : Ptr} {t u r : CTree}
  {v w x : Value} {text : List UInt8} {cs : Bool}

/-! ## The order -/

theorem compareValues_trans (h : compareValues cs v w = true) (h' : compareValues cs w x = true) :
    compareValues cs v x = true := by
  induction v using Value.induct generalizing w x with
  | null =>
    cases w with
    | null => exact h'
    | _ => cases h
  | bool y =>
    cases w with
    | bool z =>
      have hEq : y = z := eq_of_beq h
      rw [hEq]
      exact h'
    | _ => cases h
  | number y =>
    cases w with
    | number z =>
      cases x with
      | number n => exact F64.eq_trans h h'
      | _ => cases h'
    | _ => cases h
  | string y =>
    cases w with
    | string z =>
      have hEq : y = z := eq_of_beq h
      rw [hEq]
      exact h'
    | _ => cases h
  | array y ih =>
    obtain ⟨z, rfl, hItems⟩ := compareValues_array.mp h
    obtain ⟨n, rfl, hItems'⟩ := compareValues_array.mp h'
    refine compareValues_array.mpr ⟨n, rfl, ?_⟩
    clear h h'
    induction hItems generalizing n with
    | nil => exact hItems'
    | @cons p q y z hp _ ihTail =>
      cases hItems' with
      | @cons _ r _ n hq hItems' =>
        refine List.Forall₂.cons (ih p List.mem_cons_self hp hq) (ihTail (fun v hv => ?_) n hItems')
        exact ih v (List.mem_cons_of_mem p hv)
  | object y ih =>
    obtain ⟨z, rfl, hLength, hMembers⟩ := compareValues_object.mp h
    obtain ⟨n, rfl, hLength', hMembers'⟩ := compareValues_object.mp h'
    refine compareValues_object.mpr ⟨n, rfl, hLength.trans hLength', fun m hm => ?_⟩
    obtain ⟨m', hm', hKey, hValue⟩ := hMembers m hm
    obtain ⟨m'', hm'', hKey', hValue'⟩ := hMembers' m' hm'
    exact ⟨m'', hm'', keysMatch_trans hKey hKey', ih m hm hValue hValue'⟩

theorem keysMatch_mono {k k' : Str} (h : keysMatch true k k' = true) :
    keysMatch cs k k' = true := by
  have hEq : k = k' := eq_of_beq h
  rw [hEq]
  exact keysMatch_refl k'

/-- What is equal with the case of the keys is equal without it. -/
theorem compareValues_mono (h : compareValues true v w = true) : compareValues cs v w = true := by
  induction v using Value.induct generalizing w with
  | null | bool | number | string => cases w <;> exact h
  | array y ih =>
    obtain ⟨z, rfl, hItems⟩ := compareValues_array.mp h
    refine compareValues_array.mpr ⟨z, rfl, ?_⟩
    clear h
    induction hItems with
    | nil => exact List.Forall₂.nil
    | @cons p q y z hp _ ihTail =>
      refine List.Forall₂.cons (ih p List.mem_cons_self hp) (ihTail fun v hv => ?_)
      exact ih v (List.mem_cons_of_mem p hv)
  | object y ih =>
    obtain ⟨z, rfl, hLength, hMembers⟩ := compareValues_object.mp h
    refine compareValues_object.mpr ⟨z, rfl, hLength, fun m hm => ?_⟩
    obtain ⟨m', hm', hKey, hValue⟩ := hMembers m hm
    exact ⟨m', hm', keysMatch_mono hKey, ih m hm hValue⟩

theorem compareTrees_self (hv : t.toValue = some v) (hu : u.toValue = some v) :
    compareTrees cs t u = true ↔ NanFree v := by
  rw [compareTrees_eq_true, hv, hu]
  constructor
  · intro hEqual
    obtain ⟨v', w, hSome, -, hCompare⟩ := hEqual
    cases hSome
    exact nanFree_of_compareValues hCompare
  · exact fun hNan => ⟨v, v, rfl, rfl, compareValues_self hNan⟩

/-- The answer of `cJSON_Compare`. -/
def Equal (h : Heap) (cs : Int) (a b : Addr) : Prop :=
  cjsonCompare (some a) (some b) cs h = .ok (true, h)

theorem equal_iff {cs : Int} (hBounded : h.Bounded) (ht : Denotes h a t) (hu : Denotes h b u) :
    Equal h cs a b ↔ compareTrees (cs ≠ 0) t u = true := by
  rw [Equal, cjsonCompare_run hBounded ht hu]
  simp

/-- `cJSON_Compare` is transitive on all trees. A tree compares equal to itself exactly when it has
a value without a `NaN`. What compares equal case-sensitively compares equal in both modes. -/
theorem cjsonCompare_preorder (hBounded : h.Bounded) (ht : Denotes h a t) (hu : Denotes h b u)
    (hr : Denotes h c r) (cs : Int) :
    (Equal h cs a b → Equal h cs b c → Equal h cs a c) ∧
      (Equal h cs a a ↔ ∃ v, t.toValue = some v ∧ NanFree v) ∧
      (Equal h 1 a b → Equal h cs a b) := by
  rw [equal_iff hBounded ht hu, equal_iff hBounded hu hr, equal_iff hBounded ht hr,
    equal_iff hBounded ht ht, equal_iff hBounded ht hu]
  refine ⟨fun hEqual hEqual' => ?_, ⟨fun hEqual => ?_, fun hSome => ?_⟩, fun hEqual => ?_⟩
  · obtain ⟨v, w, hv, hw, hCompare⟩ := compareTrees_eq_true.mp hEqual
    obtain ⟨w', x, hw', hx, hCompare'⟩ := compareTrees_eq_true.mp hEqual'
    cases hw.symm.trans hw'
    exact compareTrees_eq_true.mpr ⟨v, x, hv, hx, compareValues_trans hCompare hCompare'⟩
  · obtain ⟨v, w, hv, hw, hCompare⟩ := compareTrees_eq_true.mp hEqual
    exact ⟨v, hv, nanFree_of_compareValues hCompare⟩
  · obtain ⟨v, hv, hNan⟩ := hSome
    exact (compareTrees_self hv hv).mpr hNan
  · obtain ⟨v, w, hv, hw, hCompare⟩ := compareTrees_eq_true.mp hEqual
    exact compareTrees_eq_true.mpr ⟨v, w, hv, hw, compareValues_mono hCompare⟩

/-- `{"k":V,"k":V}`, `{"j":null,"K":V}` and `V` itself on one heap. -/
theorem cjsonCompare_preorder_nested : ∃ h a b c,
    Denotes h a (.ofValue doubledValue) ∧ Denotes h b (.ofValue pairedValue) ∧
    Denotes h c (.ofValue nestedValue) ∧
    (Equal h 0 a b → Equal h 0 b c → Equal h 0 a c) ∧
      (Equal h 0 a a ↔ ∃ v, (CTree.ofValue doubledValue).toValue = some v ∧ NanFree v) ∧
      (Equal h 1 a b → Equal h 0 a b) := by
  obtain ⟨h₁, a, hBounded₁, ha, -⟩ := exists_tree (bounded_oneString []) doubledValue
  obtain ⟨h₂, b, hBounded₂, hb, hKept₂, -⟩ := exists_tree hBounded₁ pairedValue
  obtain ⟨h₃, c, hBounded₃, hc, hKept₃, -⟩ := exists_tree hBounded₂ nestedValue
  have ha' := hKept₃ a _ (hKept₂ a _ ha)
  have hb' := hKept₃ b _ hb
  exact ⟨h₃, a, b, c, ha', hb', hc, cjsonCompare_preorder hBounded₃ ha' hb' hc 0⟩

/-! ## Copies -/

theorem labelText_utf8Only {key : Option (List UInt8)} {k : Str} (hKey : labelText key = some k) :
    labelText (utf8Only key) = some k := by
  cases key with
  | none => exact hKey
  | some bytes =>
    have hUtf8 : fromUtf8 bytes = some k := hKey
    have hSame : utf8Only (some bytes) = some bytes := by simp [utf8Only, hUtf8]
    rw [hSame]
    exact hKey

/-- The copy of a tree that has a value has the same value. -/
theorem toValue_copied :
    (∀ (t : Rose Content) v, (seen t).toValue = some v →
      (seen (t.map Content.copied)).toValue = some v) ∧
    ∀ ts : List (Rose Content),
      (∀ vs, CTree.toItems (seenAll ts) = some vs →
        CTree.toItems (seenAll (Rose.mapAll Content.copied ts)) = some vs) ∧
      ∀ ms, CTree.toMembers (seenAll ts) = some ms →
        CTree.toMembers (seenAll (Rose.mapAll Content.copied ts)) = some ms := by
  apply Rose.induct
  · intro c ts ih v hv
    have hTag : c.copied.seen.tag = c.seen.tag := tag_clearFlags c.type_
    have hNumber : c.copied.seen.valuedouble = c.seen.valuedouble := rfl
    rw [seen, CTree.toValue] at hv
    rw [Rose.map, seen, CTree.toValue, hTag, hNumber]
    split_ifs at hv ⊢
    · exact hv
    · exact hv
    · exact hv
    · exact hv
    · obtain ⟨k, hk, rfl⟩ := Option.map_eq_some_iff.mp hv
      exact Option.map_eq_some_iff.mpr ⟨k, labelText_utf8Only hk, rfl⟩
    · obtain ⟨vs, hvs, rfl⟩ := Option.map_eq_some_iff.mp hv
      exact Option.map_eq_some_iff.mpr ⟨vs, ih.1 vs hvs, rfl⟩
    · obtain ⟨ms, hms, rfl⟩ := Option.map_eq_some_iff.mp hv
      exact Option.map_eq_some_iff.mpr ⟨ms, ih.2 ms hms, rfl⟩
  · exact ⟨fun _ hvs => hvs, fun _ hms => hms⟩
  · intro t ts ihT ihTs
    refine ⟨fun vs hvs => ?_, fun ms hms => ?_⟩
    · obtain ⟨v, us, hv, hus, rfl⟩ := CTree.toItems_cons.mp hvs
      exact CTree.toItems_cons.mpr ⟨v, us, ihT v hv, ihTs.1 us hus, rfl⟩
    · obtain ⟨k, v, us, hk, hv, hus, rfl⟩ := CTree.toMembers_cons.mp hms
      refine CTree.toMembers_cons.mpr ⟨k, v, us, ?_, ihT v hv, ihTs.2 us hus, rfl⟩
      obtain ⟨d, ts'⟩ := t
      exact labelText_utf8Only hk

theorem Extends.denotes {h g : Heap} (hExt : Extends h g) (hBounded : h.Bounded)
    (ht : Denotes h a t) : Denotes g a t := by
  apply (denotes_mono (fun x n hn => ?_) (hExt.bufsKept hBounded)).1 t a ht
  exact (hExt.nodes (hBounded.lt hn)).trans hn

/-- A tree and its recursive copy compare equal, in both orders and both modes, exactly when the
tree has a value without a `NaN`. -/
theorem cjsonDuplicate_equal {t : Rose Content} (hBounded : h.Bounded) (hHolds : Holds h a t)
    (hRun : cjsonDuplicate (some a) 1 h = .ok (some b, h')) (cs : Int) :
    (Equal h' cs a b ↔ ∃ v, (seen t).toValue = some v ∧ NanFree v) ∧
      (Equal h' cs b a ↔ ∃ v, (seen t).toValue = some v ∧ NanFree v) := by
  have hSource : Source h a true t := hHolds
  have hRun' : duplicate (some a) true h = .ok (some b, h') := hRun
  obtain ⟨kids, hFormed⟩ : ∃ kids, Formed h h' kids b (t.map Content.copied) := by
    rcases duplicate_exact hBounded hSource with
      ⟨-, q, g, hCopy, -, b', kids, rfl, hFormed⟩ | ⟨-, q, g, hCopy, rfl, -⟩
    · cases hRun'.symm.trans hCopy
      exact ⟨kids, hFormed⟩
    · cases hRun'.symm.trans hCopy
  have ht := hFormed.grown.ext.denotes hBounded (denotes_of_holds.1 t a hHolds)
  have hu := denotes_of_holds.1 _ b (hFormed.holds hSource)
  have hBounded' := hFormed.grown.bounded
  rw [equal_iff hBounded' ht hu, equal_iff hBounded' hu ht]
  have hSame : ∀ v, (seen t).toValue = some v →
      (seen (t.map Content.copied)).toValue = some v := toValue_copied.1 t
  refine ⟨⟨fun hEqual => ?_, fun hSome => ?_⟩, fun hEqual => ?_, fun hSome => ?_⟩
  · obtain ⟨v, w, hv, -, hCompare⟩ := compareTrees_eq_true.mp hEqual
    exact ⟨v, hv, nanFree_of_compareValues hCompare⟩
  · obtain ⟨v, hv, hNan⟩ := hSome
    exact (compareTrees_self hv (hSame v hv)).mpr hNan
  · obtain ⟨w, v, hw, hv, hCompare⟩ := compareTrees_eq_true.mp hEqual
    cases hw.symm.trans (hSame v hv)
    exact ⟨w, hv, nanFree_of_compareValues hCompare⟩
  · obtain ⟨v, hv, hNan⟩ := hSome
    exact (compareTrees_self (hSame v hv) hv).mpr hNan

/-- The copy of an object that shares its texts and a part with others. -/
theorem cjsonDuplicate_equal_borrowing :
    ∃ b h', cjsonDuplicate (some 0) 1 borrowing = .ok (some b, h') ∧
      (Equal h' 0 0 b ↔ ∃ v, (seen borrowedTree).toValue = some v ∧ NanFree v) ∧
      (Equal h' 0 b 0 ↔ ∃ v, (seen borrowedTree).toValue = some v ∧ NanFree v) := by
  have hSource : Source borrowing 0 true borrowedTree := holds_borrowing
  rcases duplicate_exact bounded_borrowing hSource with
    ⟨-, q, h', hRun, -, b, kids, rfl, -⟩ | ⟨hNo, -⟩
  · exact ⟨b, h', hRun, cjsonDuplicate_equal bounded_borrowing holds_borrowing hRun 0⟩
  · exact absurd (fun _ _ => rfl) hNo

/-! ## Printed and parsed -/

/-- No value starts with a byte order mark. -/
theorem bom_of_jvalue (h : JValue std text v) : text.take 3 ≠ [0xEF, 0xBB, 0xBF] := by
  have hAscii : ∀ {x : UInt8} {w : List UInt8}, x < 0x80 →
      (x :: w).take 3 ≠ [0xEF, 0xBB, 0xBF] := by
    intro x w hx hEq
    have hHead : x = 0xEF := by
      rw [List.take_succ_cons, List.cons.injEq] at hEq
      exact hEq.1
    rw [hHead] at hx
    exact absurd hx (by decide)
  have hStructural : ∀ {d : UInt8} {o w : List UInt8}, Structural d o → d < 0x80 →
      (o ++ w).take 3 ≠ [0xEF, 0xBB, 0xBF] := by
    intro d o w ho hd
    obtain ⟨l, r, hl, -, rfl⟩ := ho
    cases l with
    | nil => exact hAscii hd
    | cons x l =>
      apply hAscii
      rcases hl x List.mem_cons_self with rfl | rfl | rfl | rfl <;> decide
  cases h with
  | null | true | false => exact hAscii (by decide)
  | string hString =>
    obtain ⟨-⟩ := hString
    exact hAscii (by decide)
  | emptyArray ho | array ho | emptyObject ho | object ho => exact hStructural ho (by decide)
  | number hNumber =>
    obtain ⟨x, w, hEq, hx⟩ := hNumber.head
    rw [hEq]
    apply hAscii
    rcases hx with rfl | ⟨-, hx⟩
    · decide
    · exact UInt8.lt_of_le_of_lt hx (by decide)

theorem nulFree_of_parse (h : parse std text = .ok v) : 0 ∉ text := by
  obtain ⟨hDocument, hSpells⟩ := slices_of_parse h
  apply hDocument.nulFree
  intro l hl
  obtain ⟨tok, hSpell⟩ := hSpells l hl
  exact spells_nulFree hSpell

/-- Finite numbers are read back as they were. -/
theorem readBack_finite (hExact : ExactF64 std) (hFinite : FiniteNumbers v) :
    Rfc.readBack std v = v := by
  refine @Value.rec (fun v => FiniteNumbers v → v.mapNumbers (reread std) = v)
    (fun items => (∀ v ∈ items, FiniteNumbers v) → Value.mapItems (reread std) items = items)
    (fun members => (∀ m ∈ members, FiniteNumbers m.2) →
      Value.mapMembers (reread std) members = members)
    (fun m => FiniteNumbers m.2 → m.2.mapNumbers (reread std) = m.2)
    ?_ ?_ ?_ ?_ ?_ ?_ ?_ ?_ ?_ ?_ (fun _ _ h => h) v hFinite
  · exact fun _ => rfl
  · exact fun _ _ => rfl
  · intro n hFinite
    have hn : n.isFinite = true := hFinite n .refl
    rw [Value.mapNumbers, reread, if_pos hn, hExact.parse n hn]
    rfl
  · exact fun _ _ => rfl
  · intro items ih hFinite
    rw [Value.mapNumbers, ih fun v hv n hn => hFinite n (.item hv hn)]
  · intro members ih hFinite
    rw [Value.mapNumbers, ih fun m hm n hn => hFinite n (.member hm hn)]
  · exact fun _ => rfl
  · intro v items ihV ih hFinite
    rw [Value.mapItems, ihV (hFinite v List.mem_cons_self),
      ih fun w hw => hFinite w (List.mem_cons_of_mem v hw)]
  · exact fun _ => rfl
  · intro m members ihM ih hFinite
    obtain ⟨k, v⟩ := m
    rw [Value.mapMembers, ihM (hFinite (k, v) List.mem_cons_self),
      ih fun w hw => hFinite w (List.mem_cons_of_mem (k, v) hw)]

/-- Both formats denote the value of the tree. -/
theorem jvalue_printed (hLawful : LawfulF64 std) (hExact : ExactF64 std) {pretty : Bool}
    (hv : t.toValue = some v) (hFinite : FiniteNumbers v) (hRaw : pretty = true → t.NoRaw) :
    ∃ out, t.printed std pretty = some out ∧ JValue std (encode out) v := by
  cases pretty with
  | true => exact ⟨_, rfl, (Ffi.readBack hExact).1 t v 0 hv (hRaw rfl) hFinite⟩
  | false =>
    have hValue := jvalue_valueText hLawful none v 0
    rw [readBack_finite hExact hFinite] at hValue
    refine ⟨serialise std v, ?_, hValue⟩
    show t.toValue.map (serialise std) = _
    rw [hv, Option.map_some]

theorem textAt_pushBuf (hNul : 0 ∉ text) :
    TextAt (h.tick.pushBuf (text ++ [0])) (some h.brk) (some text) := by
  refine ⟨⟨text ++ [0], true⟩, Function.update_self .., by simp, ?_⟩
  rw [cstr_terminated hNul]

theorem denotes_pushBuf (hBounded : h.Bounded) (ht : Denotes h a t) :
    Denotes (h.tick.pushBuf text) a t := by
  have hBufs : BufsKept h (h.tick.pushBuf text) := fun s b hs =>
    (Function.update_of_ne (Nat.ne_of_lt (hBounded.lt_buf hs)) ..).trans hs
  have hNodes : ∀ x n, h.nodes x = some n → (h.tick.pushBuf text).nodes x = some n :=
    fun x n hn => hn
  exact (denotes_mono hNodes hBufs).1 t a ht

theorem denotes_lastError {p : CharPtr} (ht : Denotes h a t) :
    Denotes { h with lastError := p } a t := by
  have hBufs : BufsKept h { h with lastError := p } := fun s b hs => hs
  have hNodes : ∀ x n, h.nodes x = some n → ({ h with lastError := p } : Heap).nodes x = some n :=
    fun x n hn => hn
  exact (denotes_mono hNodes hBufs).1 t a ht

/-- A tree is printed, in either format, and its text is parsed: the parser gets its tree exactly
when the allocator grants the blocks of the value, and that tree and the printed one compare
equal, in both orders and both modes. -/
theorem print_parse_equal (hLawful : LawfulF64 std) (hExact : ExactF64 std)
    (hBounded : h.Bounded) (ht : Denotes h a t) (hv : t.toValue = some v)
    (hFinite : FiniteNumbers v) (hDepth : v.depth ≤ 1000) (pretty : Bool)
    (hRaw : pretty = true → t.NoRaw)
    (hPrint : printImpl std (some a) pretty h = .ok (some s, h₁)) :
    ∃ q h₂, cjsonParse std (some s) h₁ = .ok (q, h₂) ∧
      (q.isSome ↔ h₁.Plenty (blocksIn (contentsOf v))) ∧
      ∀ b cs, q = some b → Equal h₂ cs a b ∧ Equal h₂ cs b a := by
  obtain ⟨out, hOut, hValue⟩ := jvalue_printed hLawful hExact hv hFinite hRaw
  have hText := JsonText.mk ws_nil hValue ws_nil
  rw [List.append_nil, List.nil_append] at hText
  have hParse : parse std (encode out) = .ok v := parseWithOptions_complete hText hDepth
  have hNode : printImpl std (some a) pretty h = _ := printImpl_node hBounded ht pretty
  rw [hOut, hPrint] at hNode
  have hYes : h.outcomes 0 = true := by
    by_contra hNo
    simp only [hNo] at hNode
    cases hNode
  simp only [hYes, if_true] at hNode
  cases hNode
  have hBounded₁ : (h.tick.pushBuf (encode out ++ [0])).Bounded := hBounded.tick.pushBuf _
  have hRead : TextAt (h.tick.pushBuf (encode out ++ [0])) (some h.brk) (some (encode out)) :=
    textAt_pushBuf (nulFree_of_parse hParse)
  have hCall := cjsonParse_eq hRead (bom_of_jvalue hValue) hParse
  rcases forms_valueToCjson v _ (bounded_lastError hBounded₁ none) with
    ⟨hPlenty, q, h₂, hRun, -, b, kids, rfl, hFormed⟩ | ⟨hNo, q, h₂, hRun, rfl, -⟩
  · refine ⟨some b, h₂, hCall.trans hRun, iff_of_true rfl hPlenty, fun b' cs hb => ?_⟩
    cases hb
    have hBounded₂ := hFormed.grown.bounded
    have hOld := hFormed.grown.ext.denotes (bounded_lastError hBounded₁ none)
      (denotes_lastError (denotes_pushBuf hBounded ht))
    have hNew := (denotes_of_shows hFormed.grown.sound.wf.trees).1 _ b hFormed.root.1
      hFormed.planted.shows
    have hSame : (view (contentsOf v)).toValue = some v := by
      rw [view_contentsOf, toValue_ofValue, cut_of_nulFree (nulFree_of_denotes.1 t a v ht hv)]
    have hNan : NanFree v := fun n hn => F64.isNan_of_isFinite (hFinite n hn)
    rw [equal_iff hBounded₂ hOld hNew, equal_iff hBounded₂ hNew hOld]
    exact ⟨(compareTrees_self hv hSame).mpr hNan, (compareTrees_self hSame hv).mpr hNan⟩
  · refine ⟨none, h₂, hCall.trans hRun, iff_of_false Bool.false_ne_true hNo, fun b cs hb => ?_⟩
    cases hb

theorem finiteNumbers_nestedValue : FiniteNumbers nestedValue := by
  intro n hn
  unfold nestedValue at hn
  cases hn with
  | member hm hx =>
    simp only [List.mem_cons, List.not_mem_nil, or_false] at hm
    rcases hm with rfl | rfl
    · cases hx with
      | item hi hx =>
        simp only [List.mem_cons, List.not_mem_nil, or_false] at hi
        rcases hi with rfl | rfl | rfl
        · cases hx
          decide
        · cases hx
        · cases hx
    · cases hx with
      | member hm hx =>
        rw [List.mem_singleton.mp hm] at hx
        cases hx

/-- A nested tree is printed with line breaks and parsed. -/
theorem print_parse_equal_nested : ∃ h a s h₁ q h₂,
    Denotes h a (.ofValue nestedValue) ∧
    printImpl sampleF64 (some a) true h = .ok (some s, h₁) ∧
    cjsonParse sampleF64 (some s) h₁ = .ok (q, h₂) ∧
      (q.isSome ↔ h₁.Plenty (blocksIn (contentsOf nestedValue))) ∧
      ∀ b cs, q = some b → Equal h₂ cs a b ∧ Equal h₂ cs b a := by
  obtain ⟨h, a, hBounded, ha, -, -, hYes⟩ := exists_tree (bounded_oneString []) nestedValue
  have hPrint : printImpl sampleF64 (some a) true h = _ := printImpl_node hBounded ha true
  simp only [CTree.printed, if_true, hYes] at hPrint
  have hValue : (CTree.ofValue nestedValue).toValue = some nestedValue := toValue_ofValue _
  obtain ⟨q, h₂, hParse⟩ := print_parse_equal lawful_sampleF64 exact_sampleF64 hBounded ha hValue
    finiteNumbers_nestedValue (by decide) true (fun _ => (legible_ofValue nestedValue).2) hPrint
  exact ⟨h, a, h.brk, _, q, h₂, ha, hPrint, hParse⟩

end CjsonRs.Ffi
