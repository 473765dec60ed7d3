import CjsonRs.Ffi.PrettyText
import CjsonRs.Ffi.Symmetry
import CjsonRs.Rfc.Serialised

/-!
# Formatted text is read back

The formatted text of a tree without raw nodes is a text of the grammar that denotes the value
of the tree. The walk may pass through references; the text is that of the tree it unfolds to.
-/

namespace CjsonRs.Ffi

open CjsonRs.Core CjsonRs.Rfc Library

variable {std : StdF64} {h : Heap} {a : Addr} {t : CTree} {l : Label} {ts : List CTree}
  {v : Value} {s : Str} {x : Option (List UInt8)}

/-- `Display` of a finite number is a number of RFC 8259 that is read back as it was. -/
structure ExactF64 (std : StdF64) : Prop where
  number : ∀ n : F64, n.isFinite → Number (encode (std.display n))
  parse : ∀ n : F64, n.isFinite → std.parse (std.display n) = some n

/-- Every number inside `v` is finite. -/
def FiniteNumbers (v : Value) : Prop := ∀ n, Value.Within (.number n) v → n.isFinite

mutual

/-- No node of the tree is raw; children of other nodes than arrays and objects do not count. -/
def CTree.NoRaw : CTree → Prop
  | .node l ts => l.tag ≠ cjsonRaw ∧ (l.tag = cjsonArray ∨ l.tag = cjsonObject → noRawList ts)

def CTree.noRawList : List CTree → Prop
  | [] => True
  | t :: ts => t.NoRaw ∧ noRawList ts

end

/-- The types of a node that can be printed. -/
def textTypes : List TypeWord :=
  [cjsonNull, cjsonTrue, cjsonFalse, cjsonNumber, cjsonString, cjsonRaw, cjsonArray, cjsonObject]

mutual

/-- Every node has a type that can be printed, and every text and key is UTF-8. -/
def CTree.Legible : CTree → Prop
  | .node l ts => l.tag ∈ textTypes ∧ labelText l.valuestring ≠ none ∧ legibleList ts

def CTree.legibleList : List CTree → Prop
  | [] => True
  | t :: ts => labelText t.label.string ≠ none ∧ t.Legible ∧ legibleList ts

end

/-! ## Parts -/

theorem labelStr_of_some (hs : labelText x = some s) : labelStr x = s := by
  rw [labelStr, hs, Option.getD_some]

theorem ws_tabs (n : Nat) : Ws (encode (pushTabs [] n)) := by
  intro b hb
  obtain ⟨c, hc, hMem⟩ := List.mem_flatMap.mp hb
  rw [List.eq_of_mem_replicate (a := '\t') hc] at hMem
  exact Or.inr (Or.inl (List.mem_singleton.mp hMem))

/-- An entry that is not the first has the separator of its list in front. -/
theorem prettyItems_false (depth : Nat) (t : CTree) (ts : List CTree) :
    CTree.prettyItems std depth false (t :: ts) =
      ',' :: ' ' :: CTree.prettyItems std depth true (t :: ts) := by
  simp [CTree.prettyItems]

theorem prettyMembers_false (depth : Nat) (t : CTree) (ts : List CTree) :
    CTree.prettyMembers std depth false (t :: ts) =
      ',' :: '\n' :: CTree.prettyMembers std depth true (t :: ts) := by
  simp [CTree.prettyMembers]

theorem structural_comma_space : Structural 0x2C (encode [',', ' ']) :=
  structural_open (l := [0x20]) (by simp [Ws])

theorem ws_line (n : Nat) : Ws (encode ('\n' :: pushTabs [] n)) := by
  intro b hb
  rcases List.mem_cons.mp hb with rfl | hb
  · decide
  · exact ws_tabs n b hb

theorem structural_comma_newline (n : Nat) :
    Structural 0x2C (encode (',' :: '\n' :: pushTabs [] n)) := structural_open (ws_line n)

theorem structural_open_line (n : Nat) :
    Structural 0x7B (encode ('{' :: '\n' :: pushTabs [] n)) := structural_open (ws_line n)

theorem structural_close_line (n : Nat) :
    Structural 0x7D (encode ('\n' :: pushTabs [] n) ++ encode ['}']) := structural_close (ws_line n)

theorem structural_bracket : Structural 0x5B (encode ['[']) := structural_self 0x5B

theorem structural_closeBracket : Structural 0x5D (encode [']']) := structural_self 0x5D

theorem structural_colon_tab : Structural 0x3A (encode [':', '\t']) :=
  structural_open (l := [0x09]) (by simp [Ws])

/-! ## Nodes with a value -/

/-- A node with a value, by what is written for it. -/
inductive Printed (std : StdF64) (l : Label) (ts : List CTree) : Value → Prop
  | leaf {v : Value} (hTag : l.tag ∉ [cjsonRaw, cjsonArray, cjsonObject]) (hDepth : v.depth = 0)
      (hText : ∀ depth, (CTree.node l ts).prettyText std depth = valueText std none 0 v) :
      Printed std l ts v
  | raw {s : Str} (hTag : l.tag = cjsonRaw) (hs : labelText l.valuestring = some s)
      (hText : ∀ depth, (CTree.node l ts).prettyText std depth = s) : Printed std l ts (.string s)
  | array {vs : List Value} (hTag : l.tag = cjsonArray) (hItems : CTree.toItems ts = some vs)
      (hText : ∀ depth, (CTree.node l ts).prettyText std depth =
        if ts.isEmpty then ['[', ']'] else '[' :: (CTree.prettyItems std depth true ts ++ [']'])) :
      Printed std l ts (.array vs)
  | object {ms : List (Str × Value)} (hTag : l.tag = cjsonObject)
      (hMembers : CTree.toMembers ts = some ms)
      (hText : ∀ depth, (CTree.node l ts).prettyText std depth =
        if ts.isEmpty then ['{', '}'] else '{' :: '\n' ::
          (CTree.prettyMembers std depth true ts ++ '\n' :: (pushTabs [] depth ++ ['}']))) :
      Printed std l ts (.object ms)

theorem printed_of_toValue (hv : (CTree.node l ts).toValue = some v) : Printed std l ts v := by
  rw [CTree.toValue] at hv
  -- The text of a leaf is the one of its value.
  have hLeaf : ∀ {k : TypeWord}, l.tag = k → k ∉ [cjsonRaw, cjsonArray, cjsonObject] →
      v.depth = 0 → (∀ depth, (CTree.node l ts).prettyText std depth = valueText std none 0 v) →
      Printed std l ts v := fun hTag hk => .leaf (hTag ▸ hk)
  by_cases hNull : l.tag = cjsonNull
  · rw [if_pos hNull] at hv
    cases hv
    exact hLeaf hNull (by decide) rfl fun _ => by rw [CTree.prettyText, if_pos hNull]; rfl
  rw [if_neg hNull] at hv
  by_cases hTrue : l.tag = cjsonTrue
  · rw [if_pos hTrue] at hv
    cases hv
    refine hLeaf hTrue (by decide) rfl fun _ => ?_
    rw [CTree.prettyText, if_neg hNull, if_pos hTrue]
    rfl
  rw [if_neg hTrue] at hv
  by_cases hFalse : l.tag = cjsonFalse
  · rw [if_pos hFalse] at hv
    cases hv
    refine hLeaf hFalse (by decide) rfl fun _ => ?_
    rw [CTree.prettyText, if_neg hNull, if_neg hTrue, if_pos hFalse]
    rfl
  rw [if_neg hFalse] at hv
  by_cases hNumber : l.tag = cjsonNumber
  · rw [if_pos hNumber] at hv
    cases hv
    refine hLeaf hNumber (by decide) rfl fun _ => ?_
    rw [CTree.prettyText, if_neg hNull, if_neg hTrue, if_neg hFalse, if_pos hNumber]
    rfl
  rw [if_neg hNumber] at hv
  have hText : ∀ depth, (CTree.node l ts).prettyText std depth = _ := fun depth => by
    rw [CTree.prettyText, if_neg hNull, if_neg hTrue, if_neg hFalse, if_neg hNumber]
  by_cases hString : l.tag = cjsonString
  · rw [if_pos (Or.inl hString)] at hv
    obtain ⟨s, hs, rfl⟩ := Option.map_eq_some_iff.mp hv
    refine hLeaf hString (by decide) rfl fun depth => ?_
    rw [hText, if_pos hString, labelStr_of_some hs]
    rfl
  by_cases hRaw : l.tag = cjsonRaw
  · rw [if_pos (Or.inr hRaw)] at hv
    obtain ⟨s, hs, rfl⟩ := Option.map_eq_some_iff.mp hv
    refine .raw hRaw hs fun depth => ?_
    rw [hText, if_neg hString, if_pos hRaw, labelStr_of_some hs]
  rw [if_neg (not_or.mpr ⟨hString, hRaw⟩)] at hv
  by_cases hArray : l.tag = cjsonArray
  · rw [if_pos hArray] at hv
    obtain ⟨vs, hvs, rfl⟩ := Option.map_eq_some_iff.mp hv
    refine .array hArray hvs fun depth => ?_
    rw [hText, if_neg hString, if_neg hRaw, if_pos hArray]
  rw [if_neg hArray] at hv
  by_cases hObject : l.tag = cjsonObject
  · rw [if_pos hObject] at hv
    obtain ⟨ms, hms, rfl⟩ := Option.map_eq_some_iff.mp hv
    refine .object hObject hms fun depth => ?_
    rw [hText, if_neg hString, if_neg hRaw, if_neg hArray, if_pos hObject]
  rw [if_neg hObject] at hv
  cases hv

/-! ## Trees -/

/-- The formatted text of a tree without raw nodes denotes its value. -/
def ReadBack (std : StdF64) (t : CTree) : Prop :=
  ∀ v depth, t.toValue = some v → t.NoRaw → FiniteNumbers v →
    JValue std (encode (t.prettyText std depth)) v

def ItemsReadBack (std : StdF64) (ts : List CTree) : Prop :=
  ∀ vs depth, CTree.toItems ts = some vs → CTree.noRawList ts → ts ≠ [] →
    (∀ v ∈ vs, FiniteNumbers v) → JItems std (encode (CTree.prettyItems std depth true ts)) vs

def MembersReadBack (std : StdF64) (ts : List CTree) : Prop :=
  ∀ ms depth, CTree.toMembers ts = some ms → CTree.noRawList ts → ts ≠ [] →
    (∀ m ∈ ms, FiniteNumbers m.2) → ∃ w, encode (CTree.prettyMembers std depth true ts) =
      encode (pushTabs [] (depth + 1)) ++ w ∧ JMembers std w ms

theorem jvalue_leaf (hstd : ExactF64 std) (hDepth : v.depth = 0) (hFinite : FiniteNumbers v) :
    JValue std (encode (valueText std none 0 v)) v := by
  cases v with
  | null => exact JValue.null
  | bool b =>
    cases b with
    | false => exact JValue.false
    | true => exact JValue.true
  | number n =>
    have hn : n.isFinite := hFinite n .refl
    have hText : valueText std none 0 (.number n) = std.display n := if_pos hn
    rw [hText]
    exact JValue.number (hstd.number n hn) (hstd.parse n hn) hn
  | string s => exact JValue.string (jstring_writeString s)
  | array items => cases hDepth
  | object members => cases hDepth

theorem readBack_node (hstd : ExactF64 std) (hItems : ItemsReadBack std ts)
    (hMembers : MembersReadBack std ts) : ReadBack std (.node l ts) := by
  rintro v depth hv ⟨hNotRaw, hRawTs⟩ hFinite
  have hPrinted : Printed std l ts v := printed_of_toValue hv
  cases hPrinted with
  | leaf _ hDepth hText =>
    rw [hText]
    exact jvalue_leaf hstd hDepth hFinite
  | raw hTag => exact absurd hTag hNotRaw
  | array hTag hvs hText =>
    rw [hText]
    cases ts with
    | nil =>
      cases hvs
      exact JValue.emptyArray (structural_self 0x5B) (structural_self 0x5D)
    | cons t ts =>
      have hJItems := hItems _ depth hvs (hRawTs (Or.inl hTag)) (List.cons_ne_nil t ts)
        fun v hMem n hn => hFinite n (.item hMem hn)
      have := JValue.array structural_bracket hJItems structural_closeBracket
      rw [List.isEmpty_cons, if_neg Bool.false_ne_true]
      simpa using this
  | object hTag hms hText =>
    rw [hText]
    cases ts with
    | nil =>
      cases hms
      exact JValue.emptyObject (structural_self 0x7B) (structural_self 0x7D)
    | cons t ts =>
      obtain ⟨w, hw, hJMembers⟩ := hMembers _ depth hms (hRawTs (Or.inr hTag))
        (List.cons_ne_nil t ts) fun m hMem n hn => hFinite n (.member hMem hn)
      have := JValue.object (structural_open_line (depth + 1)) hJMembers
        (structural_close_line depth)
      rw [List.isEmpty_cons, if_neg Bool.false_ne_true]
      simpa [hw] using this

theorem readBack_items (ht : ReadBack std t) (hTs : ItemsReadBack std ts) :
    ItemsReadBack std (t :: ts) := by
  rintro vs depth hvs ⟨hRaw, hRawTs⟩ - hFinite
  obtain ⟨v, us, hv, hus, rfl⟩ := CTree.toItems_cons.mp hvs
  obtain ⟨hFiniteV, hFiniteUs⟩ := List.forall_mem_cons.mp hFinite
  have hValue := ht v (depth + 1) hv hRaw hFiniteV
  cases ts with
  | nil =>
    cases hus
    simpa [CTree.prettyItems] using JItems.one hValue
  | cons t' ts =>
    have hItems := hTs us depth hus hRawTs (List.cons_ne_nil t' ts) hFiniteUs
    have := JItems.cons hValue structural_comma_space hItems
    rw [CTree.prettyItems, prettyItems_false]
    simpa using this

theorem readBack_members (ht : ReadBack std t) (hTs : MembersReadBack std ts) :
    MembersReadBack std (t :: ts) := by
  rintro ms depth hms ⟨hRaw, hRawTs⟩ - hFinite
  obtain ⟨key, v, us, hKey, hv, hus, rfl⟩ := CTree.toMembers_cons.mp hms
  obtain ⟨hFiniteV, hFiniteUs⟩ := List.forall_mem_cons.mp hFinite
  have hValue := ht v (depth + 1) hv hRaw hFiniteV
  have hString := jstring_writeString key
  cases ts with
  | nil =>
    cases hus
    refine ⟨_, ?_, JMembers.one hString structural_colon_tab hValue⟩
    rw [CTree.prettyMembers, labelStr_of_some hKey]
    simp [CTree.prettyMembers]
  | cons t' ts =>
    obtain ⟨w, hw, hMembers⟩ := hTs us depth hus hRawTs (List.cons_ne_nil t' ts) hFiniteUs
    refine ⟨_, ?_, JMembers.cons hString structural_colon_tab hValue
      (structural_comma_newline (depth + 1)) hMembers⟩
    rw [CTree.prettyMembers, labelStr_of_some hKey, prettyMembers_false]
    simp [hw]

theorem readBack (hstd : ExactF64 std) : (∀ t, ReadBack std t) ∧
    ∀ ts, ItemsReadBack std ts ∧ MembersReadBack std ts := by
  refine CTree.induct ?_ ?_ ?_
  · exact fun l ts ⟨hItems, hMembers⟩ => readBack_node hstd hItems hMembers
  · exact ⟨fun _ _ _ _ hne => absurd rfl hne, fun _ _ _ _ hne => absurd rfl hne⟩
  · exact fun t ts ht ⟨hItems, hMembers⟩ => ⟨readBack_items ht hItems, readBack_members ht hMembers⟩

/-- A legible tree has a value. -/
theorem exists_toValue : (∀ t : CTree, t.Legible → ∃ v, t.toValue = some v) ∧
    ∀ ts, CTree.legibleList ts →
      (∃ vs, CTree.toItems ts = some vs) ∧ ∃ ms, CTree.toMembers ts = some ms := by
  refine CTree.induct ?_ ?_ ?_
  · rintro l ts ih ⟨hTag, hText, hTs⟩
    obtain ⟨⟨vs, hvs⟩, ms, hms⟩ := ih hTs
    obtain ⟨s, hs⟩ := Option.ne_none_iff_exists'.mp hText
    rw [CTree.toValue, hs, hvs, hms]
    simp only [textTypes, List.mem_cons, List.not_mem_nil, or_false] at hTag
    split_ifs with hNull hTrue hFalse hNumber hString hArray hObject
    all_goals first | exact ⟨_, rfl⟩ | skip
    simp only [hNull, hTrue, hFalse, hNumber, hArray, hObject, not_or.mp hString, or_false] at hTag
  · exact fun _ => ⟨⟨[], rfl⟩, [], rfl⟩
  · rintro t ts ihT ihTs ⟨hKey, ht, hTs⟩
    obtain ⟨key, hk⟩ := Option.ne_none_iff_exists'.mp hKey
    obtain ⟨v, hv⟩ := ihT ht
    obtain ⟨⟨vs, hvs⟩, ms, hms⟩ := ihTs hTs
    exact ⟨⟨v :: vs, CTree.toItems_cons.mpr ⟨v, vs, hv, hvs, rfl⟩⟩,
      (key, v) :: ms, CTree.toMembers_cons.mpr ⟨key, v, ms, hk, hv, hms, rfl⟩⟩

/-- What `write_cjson_pretty` produces for a legible tree without raw nodes is parsed as the
value that `cjson_to_value` reads from the tree. -/
theorem parse_writeCjsonPretty (hstd : ExactF64 std) (hBounded : h.Bounded) (ht : Denotes h a t)
    (hLegible : t.Legible) (hRaw : t.NoRaw) :
    ∃ v out, cjsonToValue (some a) h = .ok (some v, h) ∧
      writeCjsonPretty std h.fuel [] (some a) 0 h = .ok (out, h) ∧
      (FiniteNumbers v → v.depth ≤ 1000 → parse std (encode out) = .ok v) := by
  obtain ⟨v, hv⟩ := exists_toValue.1 t hLegible
  refine ⟨v, t.prettyText std 0, ?_, writeCjsonPretty_run hBounded ht, fun hFinite hDepth => ?_⟩
  · rw [cjsonToValue_run hBounded ht, hv]
  · have hValue := (readBack hstd).1 t v 0 hv hRaw hFinite
    have hText := JsonText.mk ws_nil hValue ws_nil
    rw [List.append_nil, List.nil_append] at hText
    exact parseWithOptions_complete hText hDepth

/-! ## The trees of values -/

theorem legible_named {k : Str} : (t.named k).Legible ↔ t.Legible := by
  obtain ⟨l, ts⟩ := t
  rfl

theorem noRaw_named {k : Str} : (t.named k).NoRaw ↔ t.NoRaw := by
  obtain ⟨l, ts⟩ := t
  rfl

/-- The tree of a value is legible and has no raw nodes. -/
theorem legible_ofValue (v : Value) : (CTree.ofValue v).Legible ∧ (CTree.ofValue v).NoRaw := by
  refine @Value.rec (fun v => (CTree.ofValue v).Legible ∧ (CTree.ofValue v).NoRaw)
    (fun items => CTree.legibleList (CTree.ofItems items) ∧ CTree.noRawList (CTree.ofItems items))
    (fun members => CTree.legibleList (CTree.ofMembers members) ∧
      CTree.noRawList (CTree.ofMembers members))
    (fun m => (CTree.ofValue m.2).Legible ∧ (CTree.ofValue m.2).NoRaw)
    ?_ ?_ ?_ ?_ ?_ ?_ ⟨trivial, trivial⟩ ?_ ⟨trivial, trivial⟩ ?_ (fun _ _ h => h) v
  · exact ⟨⟨by decide, nofun, trivial⟩, by decide, fun _ => trivial⟩
  · rintro (- | -)
    · exact ⟨⟨by decide, nofun, trivial⟩, by decide, fun _ => trivial⟩
    · exact ⟨⟨by decide, nofun, trivial⟩, by decide, fun _ => trivial⟩
  · have hTag : cjsonNumber ∈ textTypes := by decide
    have hRaw : cjsonNumber ≠ cjsonRaw := by decide
    exact fun _ => ⟨⟨hTag, nofun, trivial⟩, hRaw, fun _ => trivial⟩
  · intro s
    have hTag : cjsonString ∈ textTypes := by decide
    have hRaw : cjsonString ≠ cjsonRaw := by decide
    have hText : labelText (copied s) ≠ none := by
      rw [labelText_copied]
      exact nofun
    exact ⟨⟨hTag, hText, trivial⟩, hRaw, fun _ => trivial⟩
  · have hTag : cjsonArray ∈ textTypes := by decide
    have hRaw : cjsonArray ≠ cjsonRaw := by decide
    exact fun items ih => ⟨⟨hTag, nofun, ih.1⟩, hRaw, fun _ => ih.2⟩
  · have hTag : cjsonObject ∈ textTypes := by decide
    have hRaw : cjsonObject ≠ cjsonRaw := by decide
    exact fun members ih => ⟨⟨hTag, nofun, ih.1⟩, hRaw, fun _ => ih.2⟩
  · intro v items ihV ih
    have hKey : labelText (CTree.ofValue v).label.string ≠ none := by
      rw [label_ofValue]
      exact nofun
    exact ⟨⟨hKey, ihV.1, ih.1⟩, ihV.2, ih.2⟩
  · rintro ⟨k, v⟩ members ihM ih
    have hKey : labelText ((CTree.ofValue v).named k).label.string ≠ none := by
      rw [label_named, labelText_copied]
      exact nofun
    exact ⟨⟨hKey, legible_named.mpr ihM.1, ih.1⟩, noRaw_named.mpr ihM.2, ih.2⟩

theorem exact_sampleF64 : ExactF64 sampleF64 where
  number n hn := by
    obtain ⟨m, i, f, hm, hi, hf, hEq⟩ := lawful_sampleF64.number n hn
    have := Number.mk hm hi hf .absent
    rwa [List.append_nil, ← hEq] at this
  parse n _ := by
    obtain ⟨bits⟩ := n
    unfold sampleF64
    dsimp only
    split_ifs with h₁ h₂ h₃ <;> simp_all

/-- The tree of `{"k":[42,""]}`. -/
theorem parse_writeCjsonPretty_object :
    ∃ h a out, cjsonToValue (some a) h =
        .ok (some (.object [(['k'], .array [.number ⟨0x4045000000000000#64⟩, .string []])]), h) ∧
      writeCjsonPretty sampleF64 h.fuel [] (some a) 0 h = .ok (out, h) ∧
      parse sampleF64 (encode out) =
        .ok (.object [(['k'], .array [.number ⟨0x4045000000000000#64⟩, .string []])]) := by
  obtain ⟨h, a, hBounded, ha, -⟩ := exists_tree (bounded_oneString [])
    (.object [(['k'], .array [.number ⟨0x4045000000000000#64⟩, .string []])])
  obtain ⟨hLegible, hRaw⟩ := legible_ofValue
    (.object [(['k'], .array [.number ⟨0x4045000000000000#64⟩, .string []])])
  obtain ⟨v, out, hv, hOut, hParse⟩ :=
    parse_writeCjsonPretty exact_sampleF64 hBounded ha hLegible hRaw
  have hRead := cjsonToValue_run hBounded ha
  rw [toValue_ofValue, hv] at hRead
  have hEq : v = cut _ := Option.some.inj (Prod.mk.inj (Except.ok.inj hRead)).1
  subst hEq
  refine ⟨h, a, out, hv, hOut, hParse (fun n hn => ?_) (by decide)⟩
  cases hn with
  | member hm hx =>
    rw [List.mem_singleton.mp hm] at hx
    cases hx with
    | item hi hx =>
      rcases List.mem_cons.mp hi with rfl | hi
      · cases hx
        decide
      · rw [List.mem_singleton.mp hi] at hx
        cases hx

end CjsonRs.Ffi
