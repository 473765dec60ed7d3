import CjsonRs.Ffi.PrintBack
import CjsonRs.Ffi.Whitespace

/-!
# The two printers

`cJSON_Print` and `cJSON_PrintUnformatted` write the same tokens for every node but a raw one,
whose text the first writes as it is and the second as a string. So minification makes the same
text of both exactly when the tree has no raw node; otherwise less is left of the first.
-/

namespace CjsonRs.Ffi

open CjsonRs.Core CjsonRs.Rfc Library Minify

variable {std : StdF64} {h : Heap} {a : Addr} {t : CTree} {ts : List CTree} {l : Label} {v : Value}
  {s : Str} {w w' u u' r : List UInt8} {P Q : Prop} {depth : Nat}

mutual

/-- Every raw node holds a text that the parser accepts. -/
def CTree.RawParses (std : StdF64) : CTree → Prop
  | .node l ts => (l.tag = cjsonRaw → ∃ text v, l.valuestring = some text ∧
      parse std text = .ok v) ∧ rawParsesList std ts

def CTree.rawParsesList (std : StdF64) : List CTree → Prop
  | [] => True
  | t :: ts => t.RawParses std ∧ rawParsesList std ts

end

/-! ## What is kept of a part -/

/-- Of the part `w` of a text is kept `u` if `same`, and something shorter than `u` if not. -/
def Keeps (w u : List UInt8) (same : Prop) : Prop :=
  ∃ w', Cleans w w' ∧ (same ∧ w' = u ∨ ¬ same ∧ w'.length < u.length)

theorem keeps_of_cleans (h : Cleans w u) (hP : P) : Keeps w u P := ⟨u, h, Or.inl ⟨hP, rfl⟩⟩

theorem Keeps.append (h : Keeps w u P) (h' : Keeps w' u' Q) :
    Keeps (w ++ w') (u ++ u') (P ∧ Q) := by
  obtain ⟨x, hx, hP⟩ := h
  obtain ⟨y, hy, hQ⟩ := h'
  refine ⟨x ++ y, hx.append hy, ?_⟩
  rw [List.length_append, List.length_append]
  rcases hP with ⟨hP, rfl⟩ | ⟨hP, hx⟩
  · rcases hQ with ⟨hQ, rfl⟩ | ⟨hQ, hy⟩
    · exact Or.inl ⟨⟨hP, hQ⟩, rfl⟩
    · exact Or.inr ⟨fun hPQ => hQ hPQ.2, by omega⟩
  · have hy : y.length ≤ u'.length := by
      rcases hQ with ⟨-, rfl⟩ | ⟨-, hy⟩
      · exact Nat.le_refl _
      · omega
    exact Or.inr ⟨fun hPQ => hP hPQ.1, by omega⟩

theorem Keeps.of_iff (h : P ↔ Q) (hKeeps : Keeps w u P) : Keeps w u Q := by
  rwa [propext h] at hKeeps

/-- A part that is kept in both texts in front of another. -/
theorem Keeps.after (hw : Cleans w w') (h : Keeps u u' P) : Keeps (w ++ u) (w' ++ u') P := by
  have := (keeps_of_cleans hw trivial).append h
  rwa [true_and] at this

theorem Keeps.before (h : Keeps w w' P) (hu : Cleans u u') : Keeps (w ++ u) (w' ++ u') P := by
  have := h.append (keeps_of_cleans hu trivial)
  rwa [and_true] at this

/-! ## Raw nodes -/

theorem length_hex4 {n : Nat} (h : Hex4 w n) : w.length = 4 := by
  obtain ⟨_, _, _, _⟩ := h
  rfl

theorem length_spelling {c : Char} (h : Spelling w c) :
    (String.utf8EncodeChar c).length ≤ w.length := by
  have hFour : (String.utf8EncodeChar c).length ≤ 4 := by
    rw [String.length_utf8EncodeChar]
    exact c.utf8Size_le_four
  cases h with
  | unescaped _ _ _ => exact Nat.le_refl _
  | short hEscape => cases hEscape <;> decide
  | unicode hHex =>
    rw [List.length_cons, List.length_cons, length_hex4 hHex]
    omega
  | pair hHigh hLow =>
    rw [List.length_cons, List.length_cons, List.length_append, length_hex4 hHigh]
    omega

/-- A string is longer than its characters. -/
theorem length_jstring (h : JString w s) : (encode s).length < w.length := by
  obtain @⟨w, s, hChars⟩ := h
  have hBody : (encode s).length ≤ w.length := by
    induction hChars with
    | nil => exact Nat.le_refl _
    | cons hSpelling _ ih =>
      rw [encode_cons, List.length_append, List.length_append]
      exact Nat.add_le_add (length_spelling hSpelling) ih
  rw [List.length_cons, List.length_append]
  omega

/-- What is kept of an accepted text is not longer than the text. -/
theorem cleans_parsed (h : parse std w = .ok v) : ∃ w', Cleans w w' ∧ w'.length ≤ w.length := by
  obtain ⟨hDocument, hSpells⟩ := slices_of_parse h
  have hNul : 0 ∉ w := hDocument.nulFree fun l hl => (hSpells l hl).elim fun _ h => spells_nulFree h
  obtain ⟨⟨hl, hw, hr⟩, -⟩ := parseWithOptions_sound h
  obtain ⟨w', hStrips, -⟩ := jvalue_strips hw
  have hAll := (strips_ws hl).append (hStrips.append (strips_ws hr))
  refine ⟨_, ⟨hAll, hNul⟩, ?_⟩
  rw [← hAll.eq]
  exact (strip_sublist .text _).length_le

theorem keeps_raw (h : parse std (encode s) = .ok v) (hP : ¬ P) :
    Keeps (encode s) (encode (writeString [] s)) P := by
  obtain ⟨w, hw, hLe⟩ := cleans_parsed h
  exact ⟨w, hw, Or.inr ⟨hP, Nat.lt_of_le_of_lt hLe (length_jstring (jstring_writeString s))⟩⟩

/-! ## Trees -/

theorem cleans_tabs (n : Nat) : Cleans (encode (pushTabs [] n)) [] := cleans_ws (ws_tabs n)

theorem cleans_line (n : Nat) : Cleans (encode ('\n' :: pushTabs [] n)) [] := cleans_ws (ws_line n)

theorem cleans_space : Cleans (encode [' ']) [] := cleans_ws (w := [0x20]) (by simp [Ws])

theorem cleans_byte {b : UInt8} (h : Plain b ∧ b ≠ 0) : Cleans [b] [b] :=
  cleans_plain fun _ hb => List.mem_singleton.mp hb ▸ h

/-- Of the text that `cJSON_Print` writes for a tree is kept what `cJSON_PrintUnformatted`
writes, and less if a node is raw. -/
def TextKept (std : StdF64) (t : CTree) : Prop :=
  ∀ v depth depth', t.toValue = some v → t.RawParses std →
    Keeps (encode (t.prettyText std depth)) (encode (valueText std none depth' v)) t.NoRaw

def ItemsKept (std : StdF64) (ts : List CTree) : Prop :=
  ∀ vs depth depth', CTree.toItems ts = some vs → CTree.rawParsesList std ts → ts ≠ [] →
    Keeps (encode (CTree.prettyItems std depth true ts))
      (encode (joined [] [] (vs.map (valueText std none depth')))) (CTree.noRawList ts)

def MembersKept (std : StdF64) (ts : List CTree) : Prop :=
  ∀ ms depth depth', CTree.toMembers ts = some ms → CTree.rawParsesList std ts → ts ≠ [] →
    Keeps (encode (CTree.prettyMembers std depth true ts))
      (encode (joined [] [] (ms.map (memberText std none depth')))) (CTree.noRawList ts)

theorem valueText_leaf (hDepth : v.depth = 0) (depth : Nat) :
    valueText std none depth v = valueText std none 0 v := by
  cases v with
  | null => rfl
  | bool b => cases b <;> rfl
  | number n => rfl
  | string s => rfl
  | array items => cases hDepth
  | object members => cases hDepth

theorem keeps_node (hstd : DisplaysDecimals std) (hItems : ItemsKept std ts)
    (hMembers : MembersKept std ts) : TextKept std (.node l ts) := by
  rintro v depth depth' hv ⟨hParses, hParsesTs⟩
  have hPrinted : Printed std l ts v := printed_of_toValue hv
  cases hPrinted with
  | leaf hTag hDepth hText =>
    simp only [List.mem_cons, List.not_mem_nil, or_false, not_or] at hTag
    rw [hText, valueText_leaf hDepth depth']
    exact keeps_of_cleans (cleans_valueText hstd none v 0 0)
      ⟨hTag.1, fun hList => absurd hList (not_or.mpr hTag.2)⟩
  | raw hTag hs hText =>
    obtain ⟨text, w, hLabel, hParse⟩ := hParses hTag
    rw [hLabel] at hs
    obtain rfl := fromUtf8_eq_some.mp hs
    rw [hText]
    exact keeps_raw hParse fun hNoRaw => hNoRaw.1 hTag
  | @array vs hTag hvs hText =>
    have hIff : CTree.noRawList ts ↔ (CTree.node l ts).NoRaw :=
      ⟨fun h => ⟨by rw [hTag]; decide, fun _ => h⟩, fun h => h.2 (Or.inl hTag)⟩
    refine Keeps.of_iff hIff ?_
    rw [hText]
    cases ts with
    | nil =>
      cases hvs
      exact keeps_of_cleans (cleans_valueText hstd none (.array []) 0 depth') trivial
    | cons t ts =>
      have hKept := hItems vs depth (depth' + 1) hvs hParsesTs (List.cons_ne_nil t ts)
      obtain ⟨v, us, -, -, rfl⟩ := CTree.toItems_cons.mp hvs
      have := (hKept.before (cleans_byte (b := 0x5D) (by decide))).after
        (cleans_byte (b := 0x5B) (by decide))
      rw [List.isEmpty_cons, if_neg Bool.false_ne_true, arrayText_compact (List.cons_ne_nil v us),
        encode_cons, encode_cons, encode_append, encode_append]
      exact this
  | @object ms hTag hms hText =>
    have hIff : CTree.noRawList ts ↔ (CTree.node l ts).NoRaw :=
      ⟨fun h => ⟨by rw [hTag]; decide, fun _ => h⟩, fun h => h.2 (Or.inr hTag)⟩
    refine Keeps.of_iff hIff ?_
    rw [hText]
    cases ts with
    | nil =>
      cases hms
      exact keeps_of_cleans (cleans_valueText hstd none (.object []) 0 depth') trivial
    | cons t ts =>
      have hKept := hMembers ms depth (depth' + 1) hms hParsesTs (List.cons_ne_nil t ts)
      obtain ⟨key, v, us, -, -, -, rfl⟩ := CTree.toMembers_cons.mp hms
      have hOpen : Cleans (encode ['{', '\n']) (encode ['{']) :=
        (cleans_byte (b := 0x7B) (by decide)).append (cleans_line 0)
      have hClose : Cleans (encode ('\n' :: pushTabs [] depth) ++ encode ['}']) (encode ['}']) :=
        (cleans_line depth).append (cleans_byte (b := 0x7D) (by decide))
      have := (hKept.before hClose).after hOpen
      rw [List.isEmpty_cons, if_neg Bool.false_ne_true,
        objectText_compact (List.cons_ne_nil (key, v) us)]
      simpa using this

theorem cleans_comma : Cleans (encode [',']) (encode [',']) := cleans_plain (by decide +kernel)

theorem keeps_items (ht : TextKept std t) (hTs : ItemsKept std ts) : ItemsKept std (t :: ts) := by
  rintro vs depth depth' hvs ⟨hParses, hParsesTs⟩ -
  obtain ⟨v, us, hv, hus, rfl⟩ := CTree.toItems_cons.mp hvs
  have hValue := ht v (depth + 1) depth' hv hParses
  cases ts with
  | nil =>
    cases hus
    have : Keeps _ _ (CTree.noRawList [t]) := hValue.append (keeps_of_cleans cleans_nil trivial)
    simpa [CTree.prettyItems, joined] using this
  | cons t' ts =>
    have hItems := hTs us depth depth' hus hParsesTs (List.cons_ne_nil t' ts)
    obtain ⟨v', us', -, -, rfl⟩ := CTree.toItems_cons.mp hus
    have : Keeps _ _ (CTree.noRawList (t :: t' :: ts)) :=
      hValue.append (hItems.after (cleans_comma.append cleans_space))
    rw [CTree.prettyItems, prettyItems_false]
    simpa [joined] using this

theorem keeps_members (ht : TextKept std t) (hTs : MembersKept std ts) :
    MembersKept std (t :: ts) := by
  rintro ms depth depth' hms ⟨hParses, hParsesTs⟩ -
  obtain ⟨key, v, us, hKey, hv, hus, rfl⟩ := CTree.toMembers_cons.mp hms
  have hColon : Cleans (encode [':', '\t']) (encode [':']) :=
    (cleans_byte (b := 0x3A) (by decide)).append (cleans_tabs 1)
  have hFront := (cleans_tabs (depth + 1)).append ((cleans_writeString key).append hColon)
  have hMember := (ht v (depth + 1) depth' hv hParses).after hFront
  cases ts with
  | nil =>
    cases hus
    have : Keeps _ _ (CTree.noRawList [t]) := hMember.append (keeps_of_cleans cleans_nil trivial)
    rw [CTree.prettyMembers, labelStr_of_some hKey]
    simpa [CTree.prettyMembers, joined, memberText, gap] using this
  | cons t' ts =>
    have hMembers := hTs us depth depth' hus hParsesTs (List.cons_ne_nil t' ts)
    have hLine : Cleans (encode [',', '\n']) (encode [',']) := cleans_comma.append (cleans_line 0)
    obtain ⟨key', v', us', -, -, -, rfl⟩ := CTree.toMembers_cons.mp hus
    have : Keeps _ _ (CTree.noRawList (t :: t' :: ts)) := hMember.append (hMembers.after hLine)
    rw [CTree.prettyMembers, labelStr_of_some hKey, prettyMembers_false]
    simpa [joined, memberText, gap] using this

theorem textKept (hstd : DisplaysDecimals std) : (∀ t, TextKept std t) ∧
    ∀ ts, ItemsKept std ts ∧ MembersKept std ts := by
  refine CTree.induct ?_ ?_ ?_
  · exact fun l ts ⟨hItems, hMembers⟩ => keeps_node hstd hItems hMembers
  · exact ⟨fun _ _ _ _ _ hne => absurd rfl hne, fun _ _ _ _ _ hne => absurd rfl hne⟩
  · exact fun t ts ht ⟨hItems, hMembers⟩ => ⟨keeps_items ht hItems, keeps_members ht hMembers⟩

/-! ## The calls -/

theorem cstr_terminated (h : 0 ∉ w) : cstr (w ++ 0 :: r) = w := by
  unfold cstr
  rw [List.takeWhile_append_of_pos fun b hb => by simpa using ne_of_mem_of_not_mem hb h]
  simp

/-- `cJSON_Minify` of the buffer of a printed text. -/
theorem cjsonMinify_printed (h : Cleans w w') :
    ∃ m, cjsonMinify (some (w ++ [0])) = .ok (some m) ∧ cstr m = w' := by
  obtain ⟨tail, hRun, -⟩ := minifyInPlace_run h.nulFree []
  have hNul : 0 ∉ strip .text w := fun hZero => h.nulFree ((strip_sublist .text w).subset hZero)
  exact ⟨_, hRun, (cstr_terminated hNul).trans h.strips.eq⟩

/-- Both printers, one after the other, when no allocation fails. -/
theorem print_print_run (hBounded : h.Bounded) (ht : Denotes h a t) (hv : t.toValue = some v)
    (hAlloc : ∀ k, h.outcomes k = true) :
    ∃ p h₁ q h₂, cjsonPrint std (some a) h = .ok (some p, h₁) ∧
      cjsonPrintUnformatted std (some a) h₁ = .ok (some q, h₂) ∧
      h₂.bufs p = some ⟨encode (t.prettyText std 0) ++ [0], true⟩ ∧
      h₂.bufs q = some ⟨encode (serialise std v) ++ [0], true⟩ := by
  have hPretty : printText std (some a) true h = .ok (some (t.prettyText std 0), h) := by
    show (writeCjsonPretty std h.fuel [] (some a) 0 >>= fun out => pure (some out)) h = _
    rw [Run.bind_run_ok (writeCjsonPretty_run hBounded ht)]
    rfl
  obtain ⟨h₁, hEq⟩ : ∃ h₁, h₁ = h.tick.pushBuf (encode (t.prettyText std 0) ++ [0]) := ⟨_, rfl⟩
  have hBounded₁ : h₁.Bounded := hEq ▸ hBounded.tick.pushBuf _
  have hBrk : h₁.brk = h.brk + 1 := hEq ▸ rfl
  have hBuf : h₁.bufs h.brk = some ⟨encode (t.prettyText std 0) ++ [0], true⟩ :=
    hEq ▸ Function.update_self ..
  have ht₁ : Denotes h₁ a t := by
    refine (denotes_mono (fun x n hn => ?_) fun s b hs => ?_).1 t a ht
    · rw [hEq]
      exact hn
    · rw [hEq]
      exact (Function.update_of_ne (Nat.ne_of_lt (hBounded.lt_buf hs)) ..).trans hs
  have hCompact : printText std (some a) false h₁ = .ok (some (serialise std v), h₁) := by
    show (cjsonToValue (some a) >>= fun value => pure (value.map (serialise std))) h₁ = _
    rw [Run.bind_run_ok (cjsonToValue_run hBounded₁ ht₁), hv]
    rfl
  have hYes : h₁.outcomes 0 = true := hEq ▸ hAlloc 1
  refine ⟨h.brk, h₁, h₁.brk, _, ?_, printImpl_run hCompact hYes, ?_, Function.update_self ..⟩
  · rw [hEq]
    exact printImpl_run hPretty (hAlloc 0)
  · exact (Function.update_of_ne (hBrk ▸ Nat.ne_of_lt (Nat.lt_succ_self _)) ..).trans hBuf

/-- Minification makes the same text of what the two printers write exactly when no printed
node is raw. -/
theorem minify_print_iff (hstd : DisplaysDecimals std) (hBounded : h.Bounded) (ht : Denotes h a t)
    (hLegible : t.Legible) (hParses : t.RawParses std) (hAlloc : ∀ k, h.outcomes k = true) :
    ∃ p h₁ q h₂ b b' m m', cjsonPrint std (some a) h = .ok (some p, h₁) ∧
      cjsonPrintUnformatted std (some a) h₁ = .ok (some q, h₂) ∧
      h₂.bufs p = some b ∧ h₂.bufs q = some b' ∧
      cjsonMinify (some b.bytes) = .ok (some m) ∧ cjsonMinify (some b'.bytes) = .ok (some m') ∧
      (cstr m = cstr m' ↔ t.NoRaw) := by
  obtain ⟨v, hv⟩ := exists_toValue.1 t hLegible
  obtain ⟨p, h₁, q, h₂, hPrint, hPrint', hp, hq⟩ := print_print_run hBounded ht hv hAlloc
  obtain ⟨w, hw, hKept⟩ := (textKept hstd).1 t v 0 0 hv hParses
  obtain ⟨m, hm, hText⟩ := cjsonMinify_printed hw
  obtain ⟨m', hm', hText'⟩ := cjsonMinify_printed (cleans_valueText hstd none v 0 0)
  refine ⟨p, h₁, q, h₂, _, _, m, m', hPrint, hPrint', hp, hq, hm, hm', ?_⟩
  rw [hText, hText']
  rcases hKept with ⟨hNoRaw, hEq⟩ | ⟨hRaw, hLt⟩
  · exact iff_of_true hEq hNoRaw
  · exact iff_of_false (fun hEq => absurd hLt (by rw [hEq]; exact Nat.lt_irrefl _)) hRaw

/-- The heap after `cJSON_CreateRaw("[]")`, with the node at 1. -/
def rawHeap : Heap :=
  ((((oneString [0x5B, 0x5D, 0]).tick.pushNode .zeroed).setNode 1
    { CNode.zeroed with type_ := cjsonRaw }).tick.pushBuf (encode ['[', ']'] ++ [0])).setNode 1
    { CNode.zeroed with type_ := cjsonRaw, valuestring := some 2 }

example : cjsonCreateRaw (some 0) (oneString [0x5B, 0x5D, 0]) = .ok (some 1, rawHeap) := by
  have hLoad : loadStr (some 0) (oneString [0x5B, 0x5D, 0]) =
      .ok (some ['[', ']'], oneString [0x5B, 0x5D, 0]) := by
    rw [loadStr_run rfl (by decide)]
    show Except.ok (fromUtf8 (encode ['[', ']']), _) = _
    rw [fromUtf8_encode]
  show (loadStr (some 0) >>= fun r => _) _ = _
  rw [Run.bind_run_ok hLoad]
  rfl

/-- The tree of a raw node with the text `[]`. -/
def rawTree : CTree := .node ⟨cjsonRaw, some [0x5B, 0x5D], ⟨0⟩, none⟩ []

theorem bounded_rawHeap : rawHeap.Bounded :=
  ((((bounded_oneString _).tick.pushNode _).setNode rfl).tick.pushBuf _).setNode rfl

theorem denotes_rawHeap : Denotes rawHeap 1 rawTree := by
  refine ⟨{ CNode.zeroed with type_ := cjsonRaw, valuestring := some 2 }, rfl,
    ⟨rfl, ?_, rfl, rfl⟩, rfl⟩
  exact ⟨⟨encode ['[', ']'] ++ [0], true⟩, rfl, by decide, rfl⟩

theorem legible_rawTree : rawTree.Legible := by
  have hText : labelText (some (encode ['[', ']'])) ≠ none := by
    rw [labelText, fromUtf8_encode]
    exact nofun
  exact ⟨by decide, hText, trivial⟩

theorem rawParses_rawTree : rawTree.RawParses std := by
  have hValue : JValue std [0x5B, 0x5D] (.array []) :=
    .emptyArray (structural_self 0x5B) (structural_self 0x5D)
  exact ⟨fun _ => ⟨_, _, rfl, parseWithOptions_complete (.mk ws_nil hValue ws_nil) (by decide)⟩,
    trivial⟩

/-- The printers write `[]` and `"[]"`. -/
theorem minify_print_differs :
    ¬ ∀ (std : StdF64) (h : Heap) (a : Addr) (t : CTree), DisplaysDecimals std → h.Bounded →
      Denotes h a t → t.Legible → t.RawParses std → (∀ k, h.outcomes k = true) →
      ∃ p h₁ q h₂ b b' m m', cjsonPrint std (some a) h = .ok (some p, h₁) ∧
        cjsonPrintUnformatted std (some a) h₁ = .ok (some q, h₂) ∧
        h₂.bufs p = some b ∧ h₂.bufs q = some b' ∧
        cjsonMinify (some b.bytes) = .ok (some m) ∧ cjsonMinify (some b'.bytes) = .ok (some m') ∧
        cstr m = cstr m' := by
  intro hAll
  obtain ⟨p, h₁, q, h₂, b, b', m, m', hPrint, hPrint', hp, hq, hm, hm', hEq⟩ :=
    hAll sampleF64 rawHeap 1 rawTree displaysDecimals_sampleF64 bounded_rawHeap denotes_rawHeap
      legible_rawTree rawParses_rawTree fun _ => rfl
  have hLabel : labelText (some (encode ['[', ']'])) = some ['[', ']'] := fromUtf8_encode _
  have hPretty : rawTree.prettyText sampleF64 0 = ['[', ']'] := labelStr_of_some hLabel
  have hValue : rawTree.toValue = some (.string ['[', ']']) := by
    show (labelText (some (encode ['[', ']']))).map Value.string = _
    rw [hLabel]
    rfl
  obtain ⟨_, _, _, _, hRun, hRun', hBuf, hBuf'⟩ :=
    @print_print_run sampleF64 _ _ _ _ bounded_rawHeap denotes_rawHeap hValue fun _ => rfl
  rw [hPrint] at hRun
  cases hRun
  rw [hPrint'] at hRun'
  cases hRun'
  rw [hp] at hBuf
  cases hBuf
  rw [hq] at hBuf'
  cases hBuf'
  have hRaw : Cleans (encode (rawTree.prettyText sampleF64 0)) (encode ['[', ']']) := by
    rw [hPretty]
    exact cleans_plain (by decide +kernel)
  obtain ⟨x, hx, hText⟩ := cjsonMinify_printed hRaw
  obtain ⟨y, hy, hText'⟩ := cjsonMinify_printed (cleans_writeString ['[', ']'])
  obtain rfl : m = x := Option.some.inj (Except.ok.inj (hm.symm.trans hx))
  obtain rfl : m' = y := Option.some.inj (Except.ok.inj (hm'.symm.trans hy))
  rw [hText, hText'] at hEq
  exact absurd hEq (by decide)

theorem minify_print_iff_rawTree :
    ∃ p h₁ q h₂ b b' m m', cjsonPrint sampleF64 (some 1) rawHeap = .ok (some p, h₁) ∧
      cjsonPrintUnformatted sampleF64 (some 1) h₁ = .ok (some q, h₂) ∧
      h₂.bufs p = some b ∧ h₂.bufs q = some b' ∧
      cjsonMinify (some b.bytes) = .ok (some m) ∧ cjsonMinify (some b'.bytes) = .ok (some m') ∧
      (cstr m = cstr m' ↔ rawTree.NoRaw) :=
  minify_print_iff displaysDecimals_sampleF64 bounded_rawHeap denotes_rawHeap legible_rawTree
    rawParses_rawTree fun _ => rfl

end CjsonRs.Ffi
