import CjsonRs.Ffi.ErrorPointer
import CjsonRs.Ffi.Printers

/-!
# What a text costs

The parse entry points ask the allocator for one block for every node and every text of the value.
No text of JSON is short enough to ask for more blocks, or for more bytes of texts, than it has
bytes itself: a literal pays for its node, two quotation marks for a string and its NUL.
-/

namespace CjsonRs.Ffi

open CjsonRs.Core CjsonRs.Rfc Library

variable {std : StdF64} {h h' g : Heap} {a s : Addr} {v : Value} {w bytes : List UInt8} {k : Nat}

/-! ## Spellings -/

/-- The quotation marks are two bytes more. -/
theorem length_encode_of_jstring {t : Str} (h : JString w t) :
    (encode t).length + 2 ≤ w.length := by
  obtain @⟨w, t, hChars⟩ := h
  have hBody : (encode t).length ≤ w.length := by
    induction hChars with
    | nil => exact le_refl _
    | cons hSpelling _ ih =>
      rw [encode_cons, List.length_append, List.length_append]
      exact Nat.add_le_add (length_spelling hSpelling) ih
  simp only [List.length_cons, List.length_append, List.length_nil]
  omega

theorem length_structural {c : UInt8} (h : Structural c w) : 1 ≤ w.length := by
  obtain ⟨l, r, -, -, rfl⟩ := h
  rw [List.length_append, List.length_cons]
  omega

theorem length_number (h : Number w) : 1 ≤ w.length := by
  obtain ⟨-, hInt, -, -⟩ := h
  have hPos : ∀ {i : List UInt8}, IntPart i → 1 ≤ i.length := by
    intro i hi
    cases hi <;> simp only [List.length_cons] <;> omega
  have hLe := hPos hInt
  simp only [List.length_append]
  omega

/-! ## Values -/

/-- The bytes of a text with its NUL. -/
def textWeight (text : Option (List UInt8)) : Nat := text.elim 0 (·.length + 1)

/-- One for the node, and the bytes of its texts. -/
def Content.weight (c : Content) : Nat := 1 + textWeight c.valuestring + textWeight c.string

theorem blocks_le_weight (c : Content) : c.blocks ≤ c.weight := by
  have hText : ∀ text : Option (List UInt8), text.toList.length ≤ textWeight text := by
    intro text
    cases text with
    | none => exact le_refl _
    | some bytes =>
      simp only [textWeight, Option.toList_some, List.length_singleton, Option.elim]
      omega
  have hValue := hText c.valuestring
  have hKey := hText c.string
  unfold Content.blocks Content.weight
  omega

theorem weight_keyed (key : Str) (v : Value) :
    (keyed key (contentsOf v)).total Content.weight
      = (contentsOf v).total Content.weight + ((encode key).length + 1) := by
  have hLabel := label_contentsOf v
  cases hc : contentsOf v with
  | node c ts =>
    rw [hc] at hLabel
    have hNone : c.string = none := hLabel
    simp only [keyed, Rose.total, Content.weight, hNone, textWeight, Option.elim]
    omega

/-- The nodes and texts of a value weigh no more than any text that denotes it. -/
theorem weight_le_length (h : JValue std w v) :
    (contentsOf v).total Content.weight ≤ w.length := by
  refine @JValue.rec std (fun w v _ => (contentsOf v).total Content.weight ≤ w.length)
    (fun w items _ => Rose.totalList Content.weight (itemContents items) ≤ w.length)
    (fun w members _ => Rose.totalList Content.weight (memberContents members) ≤ w.length)
    ?_ ?_ ?_ ?_ ?_ ?_ ?_ ?_ ?_ ?_ ?_ ?_ ?_ w v h
  · decide
  · decide
  · decide
  · intro t n hNumber _ _
    exact length_number hNumber
  · intro w t hString
    have hLe := length_encode_of_jstring hString
    simp only [contentsOf, plain, Rose.total, Rose.totalList, Content.weight, textWeight,
      Option.elim]
    omega
  · intro o c ho _
    have hLe := length_structural ho
    simp only [contentsOf, itemContents, plain, Rose.total, Rose.totalList, Content.weight,
      textWeight, Option.elim, List.length_append]
    omega
  · intro o w c items ho _ _ ih
    have hLe := length_structural ho
    simp only [contentsOf, plain, Rose.total, Content.weight, textWeight, Option.elim,
      List.length_append]
    omega
  · intro o c ho _
    have hLe := length_structural ho
    simp only [contentsOf, memberContents, plain, Rose.total, Rose.totalList, Content.weight,
      textWeight, Option.elim, List.length_append]
    omega
  · intro o w c members ho _ _ ih
    have hLe := length_structural ho
    simp only [contentsOf, plain, Rose.total, Content.weight, textWeight, Option.elim,
      List.length_append]
    omega
  · intro w v _ ih
    simp only [itemContents, Rose.totalList]
    exact ih
  · intro w c w' v items _ _ _ ihV ih
    simp only [itemContents, Rose.totalList, List.length_append]
    omega
  · intro k c w key v hKey _ _ ih
    have hLe := length_encode_of_jstring hKey
    simp only [memberContents, Rose.totalList, weight_keyed, List.length_append]
    omega
  · intro k c w c' w' key v members hKey _ _ _ _ ihV ih
    have hLe := length_encode_of_jstring hKey
    simp only [memberContents, Rose.totalList, weight_keyed, List.length_append]
    omega

/-- What is parsed is denoted by a part of the buffer. -/
theorem parseOutcome_sound {strict : Bool} (h : parseOutcome std strict bytes = .ok v) :
    ∃ w, JsonText std w v ∧ w.length ≤ bytes.length := by
  have hBom := stripUtf8Bom_length bytes
  unfold parseOutcome at h
  cases strict with
  | true =>
    have hParse : parse std (stripUtf8Bom bytes).1 = .ok v := h
    exact ⟨_, (parseWithOptions_sound hParse).1, by omega⟩
  | false =>
    cases hPrefix : parsePrefix std (stripUtf8Bom bytes).1 with
    | error e => simp [hPrefix, Except.map] at h
    | ok r =>
      rw [hPrefix] at h
      cases h
      obtain ⟨-, hLe, -, hParse⟩ := parse_of_parsePrefix hPrefix
      refine ⟨_, (parseWithOptions_sound hParse).1, ?_⟩
      rw [List.length_take]
      omega

theorem weight_le_of_parseOutcome {strict : Bool} (h : parseOutcome std strict bytes = .ok v) :
    (contentsOf v).total Content.weight ≤ bytes.length := by
  obtain ⟨w, ⟨hl, hw, hr⟩, hLe⟩ := parseOutcome_sound h
  have hWeight := weight_le_length hw
  simp only [List.length_append] at hLe
  omega

theorem blocksIn_le_of_parseOutcome {strict : Bool}
    (h : parseOutcome std strict bytes = .ok v) : blocksIn (contentsOf v) ≤ bytes.length :=
  ((Rose.total_mono blocks_le_weight).1 (contentsOf v)).trans (weight_le_of_parseOutcome h)

/-! ## The calls -/

section Takes

variable {α β : Type} {x : M α} {ok fail : α → Heap → Prop} {okNext failNext : β → Heap → Prop}

theorem Takes.map {f : α → β} (hTakes : Takes x h k ok fail)
    (hOk : ∀ r h', ok r h' → okNext (f r) h') (hFail : ∀ r h', fail r h' → failNext (f r) h') :
    Takes (f <$> x) h k okNext failNext := by
  rcases hTakes with ⟨hYes, r, h', hRun, hSpent, hr⟩ | ⟨hNo, r, h', hRun, hr⟩
  · exact Or.inl ⟨hYes, f r, h', Run.map_run_ok hRun, hSpent, hOk r h' hr⟩
  · exact Or.inr ⟨hNo, f r, h', Run.map_run_ok hRun, hFail r h' hr⟩

end Takes

/-- The tree of a value was built, and the error pointer is NULL. -/
def Raises (h : Heap) (v : Value) (q : Ptr) (h' : Heap) : Prop :=
  ∃ a kids, q = some a ∧ Formed { h with lastError := none } h' kids a (contentsOf v)

/-- Nothing was built, and the error pointer is NULL. -/
def Abandons (h : Heap) (q : Ptr) (h' : Heap) : Prop :=
  q = none ∧ Built { h with lastError := none } none h'

/-- One allocation for every block of the tree. -/
def TakesTree (h : Heap) (v : Value) (x : M Parsed) : Prop :=
  Takes x h (blocksIn (contentsOf v)) (fun r => Raises h v r.item) fun r => Abandons h r.item

theorem parseBytes_takes {wantEnd : Bool} {strict : Int} (hBounded : h.Bounded)
    (hOutcome : parseOutcome std (strict ≠ 0) bytes = .ok v) :
    TakesTree h v (parseBytes std s bytes wantEnd bytes.length strict) := by
  obtain ⟨stop, hStop⟩ :
      ∃ stop, parseStop std (strict ≠ 0) bytes bytes.length = .ok (v, stop) := by
    rw [parseOutcome_eq bytes.length] at hOutcome
    cases hStop : parseStop std (strict ≠ 0) bytes bytes.length with
    | error e =>
      rw [hStop] at hOutcome
      cases hOutcome
    | ok r =>
      rw [hStop] at hOutcome
      cases hOutcome
      exact ⟨r.2, rfl⟩
  have hForms := forms_valueToCjson v _ (bounded_lastError hBounded none)
  have hMap : Takes (parsedAt wantEnd (some (s, stop)) <$> valueToCjson v)
      { h with lastError := none } (blocksIn (contentsOf v)) (fun r => Raises h v r.item)
      fun r => Abandons h r.item :=
    hForms.map (fun q h' hq => hq) fun q h' hq => hq
  unfold TakesTree Takes
  rw [parseBytes_ok hStop]
  exact hMap

/-- The short entry points drop the parse end. -/
theorem TakesTree.item {x : M Parsed} (hTakes : TakesTree h v x) :
    TakesTree h v ((fun item => ⟨item, none⟩) <$> (Parsed.item <$> x)) := by
  have hItem : Takes (Parsed.item <$> x) h (blocksIn (contentsOf v)) (Raises h v) (Abandons h) :=
    hTakes.map (fun _ _ hr => hr) fun _ _ hr => hr
  exact hItem.map (fun _ _ hq => hq) fun _ _ hq => hq

/-- Every entry point parses the bytes that it reads; the short ones drop the parse end. -/
theorem ParseCall.run_rule {P : M Parsed → Prop} (call : ParseCall) (hReads : call.Reads h s bytes)
    (hBytes : ∀ wantEnd strict, call.strict = decide (strict ≠ 0) →
      P (parseBytes std s bytes wantEnd bytes.length strict))
    (hSame : ∀ {x y : M Parsed}, x h = y h → P y → P x)
    (hItem : ∀ {x : M Parsed}, P x → P ((fun item => ⟨item, none⟩) <$> (Parsed.item <$> x))) :
    P (call.run std (some s)) := by
  have hOpts : ∀ (b : Buf) (wantEnd : Bool) (strict : Int), h.bufs s = some b → 0 ∈ b.bytes →
      P (parseBytes std s (cstr b.bytes) wantEnd (cstr b.bytes).length strict) →
      P (cjsonParseWithOpts std (some s) wantEnd strict) := by
    intro b wantEnd strict hb hNul
    exact hSame (Run.bind_run_ok (loadBytes_run hb hNul))
  have hLengthOpts : ∀ (b : Buf) (len : Nat) (wantEnd : Bool) (strict : Int), h.bufs s = some b →
      len ≤ b.bytes.length →
      P (parseBytes std s (b.bytes.take len) wantEnd (b.bytes.take len).length strict) →
      P (cjsonParseWithLengthOpts std (some s) len wantEnd strict) := by
    intro b len wantEnd strict hb hLen hP
    have hLoad : loadSlice (some s) len h = .ok (b.bytes.take len, h) := by
      simp only [loadSlice, hb, if_pos hLen]
    rw [List.length_take_of_le hLen] at hP
    exact hSame (Run.bind_run_ok hLoad) hP
  cases call with
  | parse =>
    obtain ⟨b, hb, hNul, rfl⟩ := hReads
    rw [ParseCall.run, cjsonParse_eq_opts]
    exact hItem (hOpts b false 1 hb hNul (hBytes false 1 rfl))
  | withLength len =>
    obtain ⟨b, hb, hLen, rfl⟩ := hReads
    rw [ParseCall.run, cjsonParseWithLength_eq_opts]
    exact hItem (hLengthOpts b len false 1 hb hLen (hBytes false 1 rfl))
  | withOpts wantEnd strict =>
    obtain ⟨b, hb, hNul, rfl⟩ := hReads
    exact hOpts b wantEnd strict hb hNul (hBytes wantEnd strict rfl)
  | withLengthOpts len wantEnd strict =>
    obtain ⟨b, hb, hLen, rfl⟩ := hReads
    exact hLengthOpts b len wantEnd strict hb hLen (hBytes wantEnd strict rfl)

theorem ParseCall.takes (call : ParseCall) (hBounded : h.Bounded)
    (hReads : call.Reads h s bytes) (hOutcome : parseOutcome std call.strict bytes = .ok v) :
    TakesTree h v (call.run std (some s)) := by
  apply call.run_rule hReads
  · intro wantEnd strict hStrict
    rw [hStrict] at hOutcome
    exact parseBytes_takes hBounded hOutcome
  · intro x y hSame hTakes
    exact Takes.congr hTakes hSame
  · intro x hTakes
    exact hTakes.item

/-- Every parse entry point, on a text that it accepts, succeeds exactly when the allocator grants
one block for every node and every text of the value. The texts weigh less than the buffer by a
byte for every node, so that the blocks are no more than its bytes. -/
theorem ParseCall.takes_tree (call : ParseCall) (hBounded : h.Bounded)
    (hReads : call.Reads h s bytes) (hOutcome : parseOutcome std call.strict bytes = .ok v) :
    TakesTree h v (call.run std (some s)) ∧ blocksIn (contentsOf v) ≤ bytes.length ∧
      (contentsOf v).total Content.weight ≤ bytes.length :=
  ⟨call.takes hBounded hReads hOutcome, blocksIn_le_of_parseOutcome hOutcome,
    weight_le_of_parseOutcome hOutcome⟩

/-- Three blocks for the twelve bytes of `["a\u0000b"]`. -/
theorem ParseCall.takes_tree_nulDocument :
    TakesTree (oneString (nulDocument ++ [0])) (.array [.string ['a', '\x00', 'b']])
        (ParseCall.parse.run sampleF64 (some 0)) ∧
      blocksIn (contentsOf (.array [.string ['a', '\x00', 'b']])) ≤ nulDocument.length ∧
      (contentsOf (.array [.string ['a', '\x00', 'b']])).total Content.weight
        ≤ nulDocument.length := by
  apply ParseCall.takes_tree .parse
  · exact bounded_oneString _
  · exact ⟨⟨nulDocument ++ [0], false⟩, rfl, by decide, by decide⟩
  · exact parse_nulDocument

end CjsonRs.Ffi
