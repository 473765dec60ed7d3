import CjsonRs.Ffi.FromValue
import CjsonRs.Ffi.Print
import CjsonRs.Rfc.Serialised

/-!
# Through the C tree and back

A text is stored in a C buffer up to its end and read back up to the first NUL. So a parsed
document comes back out of the C tree unchanged exactly when none of its strings and keys
contains U+0000.
-/

namespace CjsonRs.Ffi

open CjsonRs.Core Library

/-- A text up to its first U+0000. -/
def cutStr (s : Str) : Str := s.takeWhile (· ≠ '\x00')

mutual

/-- A value with all its strings and keys cut at their first U+0000. -/
def cut : Value → Value
  | .null => .null
  | .bool b => .bool b
  | .number n => .number n
  | .string s => .string (cutStr s)
  | .array items => .array (cutItems items)
  | .object members => .object (cutMembers members)

def cutItems : List Value → List Value
  | [] => []
  | v :: items => cut v :: cutItems items

def cutMembers : List (Str × Value) → List (Str × Value)
  | [] => []
  | (k, v) :: members => (cutStr k, cut v) :: cutMembers members

end

/-- No string and no key inside a value contains U+0000. -/
def NulFree (v : Value) : Prop := v.Texts fun s => '\x00' ∉ s

variable {std : StdF64} {h h' : Heap} {a s : Addr} {v : Value} {c : Char} {t : Str}

/-! ## Texts -/

theorem cutStr_eq_iff : cutStr t = t ↔ '\x00' ∉ t := by
  unfold cutStr
  rw [List.takeWhile_eq_self_iff]
  constructor
  · intro h hMem
    simpa using h _ hMem
  · intro h c hc
    have hne : c ≠ '\x00' := fun hEq => h (hEq ▸ hc)
    simpa using hne

theorem nul_mem_encodeChar : (0 : UInt8) ∈ String.utf8EncodeChar c ↔ c = '\x00' := by
  rw [mem_utf8EncodeChar (by decide), ← Char.toNat_inj]
  exact eq_comm

/-- What is read back from a copied text. -/
theorem cstr_encode (t : Str) : cstr (encode t ++ [0]) = encode (cutStr t) := by
  induction t with
  | nil => rfl
  | cons c t ih =>
    by_cases hc : c = '\x00'
    · subst hc
      rfl
    · have hChar : ∀ b ∈ String.utf8EncodeChar c, b ≠ 0 := by
        intro b hb hZero
        exact hc (nul_mem_encodeChar.mp (hZero ▸ hb))
      have hCut : cutStr (c :: t) = c :: cutStr t := by
        unfold cutStr
        rw [List.takeWhile_cons_of_pos (by simpa using hc)]
      rw [encode_cons, List.append_assoc, hCut, encode_cons, ← ih]
      unfold cstr
      rw [List.takeWhile_append_of_pos fun b hb => by simpa using hChar b hb]

theorem labelText_copied (t : Str) : labelText (copied t) = some (cutStr t) := by
  show fromUtf8 (cstr (encode t ++ [0])) = _
  rw [cstr_encode, fromUtf8_encode]

/-! ## Values -/

theorem toValue_named (t : CTree) (k : Str) : (t.named k).toValue = t.toValue := by
  obtain ⟨l, ts⟩ := t
  rfl

theorem label_named (t : CTree) (k : Str) : (t.named k).label.string = copied k := by
  obtain ⟨l, ts⟩ := t
  rfl

/-- The tree of a value reads as the value with its texts cut. -/
theorem toValue_ofValue (v : Value) : (CTree.ofValue v).toValue = some (cut v) := by
  refine @Value.rec (fun v => (CTree.ofValue v).toValue = some (cut v))
    (fun items => CTree.toItems (CTree.ofItems items) = some (cutItems items))
    (fun members => CTree.toMembers (CTree.ofMembers members) = some (cutMembers members))
    (fun m => (CTree.ofValue m.2).toValue = some (cut m.2))
    rfl (fun b => by cases b <;> rfl) (fun _ => rfl) ?_ ?_ ?_ rfl ?_ rfl ?_ (fun _ _ h => h) v
  · intro s
    show (labelText (copied s)).map Value.string = _
    rw [labelText_copied]
    rfl
  · intro items ih
    show (CTree.toItems (CTree.ofItems items)).map Value.array = _
    rw [ih]
    rfl
  · intro members ih
    show (CTree.toMembers (CTree.ofMembers members)).map Value.object = _
    rw [ih]
    rfl
  · intro v items ihV ih
    rw [CTree.ofItems, CTree.toItems, ihV, ih]
    rfl
  · intro m members ihM ih
    obtain ⟨k, v⟩ := m
    rw [CTree.ofMembers, CTree.toMembers, label_named, labelText_copied, toValue_named, ihM, ih]
    rfl

/-! ## What is lost -/

/-- The length of what is not printed of a text that was cut. -/
def lostStr (s : Str) : Nat := ((s.dropWhile (· ≠ '\x00')).flatMap escapeChar).length

mutual

/-- The length of what is not printed of a value whose texts were cut. -/
def lost : Value → Nat
  | .null => 0
  | .bool _ => 0
  | .number _ => 0
  | .string s => lostStr s
  | .array items => lostItems items
  | .object members => lostMembers members

def lostItems : List Value → Nat
  | [] => 0
  | v :: items => lost v + lostItems items

def lostMembers : List (Str × Value) → Nat
  | [] => 0
  | (k, v) :: members => lostStr k + (lost v + lostMembers members)

end

theorem length_writeString_cut (out : Str) :
    (writeString out t).length = (writeString out (cutStr t)).length + lostStr t := by
  have hSplit : t.flatMap escapeChar
      = (cutStr t).flatMap escapeChar ++ (t.dropWhile (· ≠ '\x00')).flatMap escapeChar := by
    rw [← List.flatMap_append, cutStr, List.takeWhile_append_dropWhile]
  simp only [writeString_eq, hSplit, lostStr, List.length_append, List.length_cons]
  omega

theorem length_cutItems (items : List Value) : (cutItems items).length = items.length := by
  induction items with
  | nil => rfl
  | cons v items ih => rw [cutItems, List.length_cons, List.length_cons, ih]

theorem length_cutMembers (members : List (Str × Value)) :
    (cutMembers members).length = members.length := by
  induction members with
  | nil => rfl
  | cons m members ih => rw [cutMembers, List.length_cons, List.length_cons, ih]

/-- The loops only append, so that the lengths of what they append are compared. -/
theorem length_writeItems (len i depth : Nat) (items : List Value) (out : Str) :
    (writeItems std none len items i depth out).length
      = out.length + (writeItems std none len items i depth []).length := by
  have hAppend := writeItems_append std none len out [] items i depth
  rw [List.append_nil] at hAppend
  rw [hAppend, List.length_append]

theorem length_writeMembers (len i depth : Nat) (members : List (Str × Value)) (out : Str) :
    (writeMembers std none len members i depth out).length
      = out.length + (writeMembers std none len members i depth []).length := by
  have hAppend := writeMembers_append std none len out [] members i depth
  rw [List.append_nil] at hAppend
  rw [hAppend, List.length_append]

/-- The compact text of a value is longer than that of its cut by what is lost. -/
theorem length_writeValue_cut (v : Value) : ∀ (depth : Nat) (out : Str),
    (writeValue std none v depth out).length
      = (writeValue std none (cut v) depth out).length + lost v := by
  refine @Value.rec
    (fun v => ∀ (depth : Nat) (out : Str), (writeValue std none v depth out).length
      = (writeValue std none (cut v) depth out).length + lost v)
    (fun items => ∀ (len i depth : Nat), (writeItems std none len items i depth []).length
      = (writeItems std none len (cutItems items) i depth []).length + lostItems items)
    (fun members => ∀ (len i depth : Nat), (writeMembers std none len members i depth []).length
      = (writeMembers std none len (cutMembers members) i depth []).length + lostMembers members)
    (fun m => ∀ (depth : Nat) (out : Str), (writeValue std none m.2 depth out).length
      = (writeValue std none (cut m.2) depth out).length + lost m.2)
    (fun _ _ => rfl) (fun _ _ _ => rfl) (fun _ _ _ => rfl) ?_ ?_ ?_ (fun _ _ _ => rfl) ?_
    (fun _ _ _ => rfl) ?_ (fun _ _ h => h) v
  · intro s depth out
    exact length_writeString_cut out
  · intro items ih depth out
    cases items with
    | nil => rfl
    | cons v items =>
      have hLoop := ih (v :: items).length 0 depth
      have hLen := length_cutItems (v :: items)
      simp only [cut, lost, writeValue]
      rw [if_neg (by simp), if_neg (by simp [cutItems]), hLen, List.length_append,
        List.length_append, length_writeItems _ _ _ (v :: items),
        length_writeItems _ _ _ (cutItems (v :: items)), hLoop]
      omega
  · intro members ih depth out
    cases members with
    | nil => rfl
    | cons m members =>
      have hLoop := ih (m :: members).length 0 depth
      have hLen := length_cutMembers (m :: members)
      simp only [cut, lost, writeValue]
      rw [if_neg (by simp), if_neg (by simp [cutMembers]), hLen, List.length_append,
        List.length_append, length_writeMembers _ _ _ (m :: members),
        length_writeMembers _ _ _ (cutMembers (m :: members)), hLoop]
      omega
  · intro v items ihV ih len i depth
    simp only [cutItems, lostItems, writeItems]
    rw [length_writeItems _ _ _ items, length_writeItems _ _ _ (cutItems items), ih, ihV]
    omega
  · intro m members ihM ih len i depth
    obtain ⟨k, v⟩ := m
    have hKey : ∀ out : Str,
        (writeValue std none (cut v) (depth + 1) (writeString out k ++ [':'])).length
        = (writeValue std none (cut v) (depth + 1) (writeString out (cutStr k) ++ [':'])).length
          + lostStr k := by
      intro out
      rw [Rfc.writeValue_out, Rfc.writeValue_out none _ _ (writeString out (cutStr k) ++ [':'])]
      simp only [List.length_append, length_writeString_cut out (t := k)]
      omega
    simp only [cutMembers, lostMembers, writeMembers]
    rw [length_writeMembers _ _ _ members, length_writeMembers _ _ _ (cutMembers members), ih]
    have hV : ∀ out, (writeValue std none v (depth + 1) out).length
        = (writeValue std none (cut v) (depth + 1) out).length + lost v := ihM (depth + 1)
    rw [hV, hKey]
    omega

/-- A text is printed in full when nothing of it was lost. -/
theorem not_mem_of_lostStr (hLost : lostStr t = 0) : '\x00' ∉ t := by
  intro hMem
  have hDrop : '\x00' ∈ t.dropWhile (· ≠ '\x00') := by
    have hSplit : '\x00' ∈ cutStr t ++ t.dropWhile (· ≠ '\x00') := by
      rw [cutStr, List.takeWhile_append_dropWhile]
      exact hMem
    refine (List.mem_append.mp hSplit).resolve_left fun hCut => ?_
    simpa using List.mem_takeWhile_imp hCut
  have hLength := List.length_eq_zero_iff.mp hLost
  rw [List.flatMap_eq_nil_iff] at hLength
  have hEscape := hLength _ hDrop
  revert hEscape
  decide

theorem lostItems_eq_zero {items : List Value} (hLost : lostItems items = 0) :
    ∀ v ∈ items, lost v = 0 := by
  induction items with
  | nil => simp
  | cons v items ih =>
    rw [lostItems, Nat.add_eq_zero_iff] at hLost
    intro w hw
    rcases List.mem_cons.mp hw with rfl | hw
    · exact hLost.1
    · exact ih hLost.2 w hw

theorem lostMembers_eq_zero {members : List (Str × Value)} (hLost : lostMembers members = 0) :
    ∀ m ∈ members, lostStr m.1 = 0 ∧ lost m.2 = 0 := by
  induction members with
  | nil => simp
  | cons m members ih =>
    rw [lostMembers, Nat.add_eq_zero_iff, Nat.add_eq_zero_iff] at hLost
    intro m' hm'
    rcases List.mem_cons.mp hm' with rfl | hm'
    · exact ⟨hLost.1, hLost.2.1⟩
    · exact ih hLost.2.2 m' hm'

theorem nulFree_of_lost (hLost : lost v = 0) : NulFree v := by
  unfold NulFree
  induction v using Value.induct with
  | null => exact Value.texts_null
  | bool b => exact Value.texts_bool b
  | number n => exact Value.texts_number n
  | string s => exact Value.texts_string.mpr (not_mem_of_lostStr hLost)
  | array items ih =>
    exact Value.texts_array.mpr fun v hv => ih v hv (lostItems_eq_zero hLost v hv)
  | object members ih =>
    refine Value.texts_object.mpr fun m hm => ?_
    obtain ⟨hKey, hValue⟩ := lostMembers_eq_zero hLost m hm
    exact ⟨not_mem_of_lostStr hKey, ih m hm hValue⟩

theorem cutItems_eq {items : List Value} (h : ∀ v ∈ items, cut v = v) : cutItems items = items := by
  induction items with
  | nil => rfl
  | cons v items ih =>
    rw [cutItems, h v List.mem_cons_self, ih fun w hw => h w (List.mem_cons_of_mem v hw)]

theorem cutMembers_eq {members : List (Str × Value)}
    (h : ∀ m ∈ members, cutStr m.1 = m.1 ∧ cut m.2 = m.2) : cutMembers members = members := by
  induction members with
  | nil => rfl
  | cons m members ih =>
    obtain ⟨hKey, hValue⟩ := h m List.mem_cons_self
    rw [cutMembers, hKey, hValue, ih fun m' hm' => h m' (List.mem_cons_of_mem m hm')]

theorem cut_of_nulFree (h : NulFree v) : cut v = v := by
  unfold NulFree at h
  induction v using Value.induct with
  | null => rfl
  | bool _ => rfl
  | number _ => rfl
  | string s => rw [cut, cutStr_eq_iff.mpr (Value.texts_string.mp h)]
  | array items ih => rw [cut, cutItems_eq fun v hv => ih v hv (Value.texts_array.mp h v hv)]
  | object members ih =>
    rw [cut, cutMembers_eq fun m hm => ?_]
    obtain ⟨hKey, hValue⟩ := Value.texts_object.mp h m hm
    exact ⟨cutStr_eq_iff.mpr hKey, ih m hm hValue⟩

/-- The cut of a value is printed like the value exactly when nothing was cut. -/
theorem serialise_cut_iff : serialise std (cut v) = serialise std v ↔ NulFree v := by
  constructor
  · intro hEq
    have hLength : (writeValue std none v 0 []).length = _ := length_writeValue_cut v 0 []
    have hSame := congrArg List.length hEq
    refine nulFree_of_lost ?_
    unfold serialise at hSame
    omega
  · intro h
    rw [cut_of_nulFree h]

theorem cut_eq_iff : cut v = v ↔ NulFree v := by
  constructor
  · intro hEq
    have hCut : serialise ⟨fun _ => none, fun _ => []⟩ (cut v) = _ ↔ NulFree v :=
      serialise_cut_iff
    refine hCut.mp ?_
    rw [hEq]
  · exact cut_of_nulFree

/-! ## The calls -/

/-- Parsing a C string of a document without a byte order mark. -/
theorem cjsonParse_eq {input : List UInt8} (hInput : TextAt h (some s) (some input))
    (hBom : input.take 3 ≠ [0xEF, 0xBB, 0xBF]) (hParse : parse std input = .ok v) :
    cjsonParse std (some s) h = valueToCjson v { h with lastError := none } := by
  obtain ⟨b, hb, hNul, hText⟩ := hInput
  cases hText
  have hStrip : stripUtf8Bom (cstr b.bytes) = (cstr b.bytes, 0) := by
    rw [stripUtf8Bom, if_neg hBom]
  have hNext : ∀ x : M Ptr, (do
      let r ← (do
        setLastError none
        let item ← x
        return (⟨item, none⟩ : Parsed))
      return r.item) h = x { h with lastError := none } := by
    intro x
    show ((x >>= fun item => pure (⟨item, none⟩ : Parsed)) >>= fun r => pure r.item)
      { h with lastError := none } = _
    rw [bind_assoc]
    simp only [pure_bind]
    exact congrFun (bind_pure x) _
  rw [cjsonParse, Run.bind_run_ok (loadBytes_run hb hNul), parseBytes]
  simp only [hStrip, hParse, ne_eq, one_ne_zero, not_false_eq_true, if_true]
  exact hNext _

/-- Parsing a document, reading it back and printing it, when no allocation fails. -/
theorem parse_print_run {input : List UInt8} (hBounded : h.Bounded)
    (hInput : TextAt h (some s) (some input)) (hBom : input.take 3 ≠ [0xEF, 0xBB, 0xBF])
    (hParse : parse std input = .ok v) (hAlloc : ∀ k, h.outcomes k = true) :
    ∃ a h' q h'', cjsonParse std (some s) h = .ok (some a, h') ∧
      cjsonToValue (some a) h' = .ok (some (cut v), h') ∧
      cjsonPrintUnformatted std (some a) h' = .ok (some q, h'') ∧
      h''.bufs q = some ⟨encode (serialise std (cut v)) ++ [0], true⟩ := by
  have hBounded' : ({ h with lastError := none } : Heap).Bounded := ⟨hBounded.nodes, hBounded.bufs⟩
  rcases plants_valueToCjson v _ hBounded' with ⟨h', kids, a, hRun, hPlanted⟩ | ⟨_, _, _, k, hk⟩
  · have hDenotes := (denotes_of_shows hPlanted.grown.sound.wf.trees).1 _ a hPlanted.root.1
      hPlanted.shows
    have hValue := cjsonToValue_run hPlanted.grown.bounded hDenotes
    rw [toValue_ofValue] at hValue
    have hYes : h'.outcomes 0 = true := by
      obtain ⟨k, hk⟩ := hPlanted.grown.ext.outcomes
      rw [hk]
      exact hAlloc _
    refine ⟨a, h', h'.brk, h'.tick.pushBuf (encode (serialise std (cut v)) ++ [0]), ?_, hValue, ?_,
      Function.update_self ..⟩
    · rw [cjsonParse_eq hInput hBom hParse, hRun]
    · have hText : printText std (some a) false h' = .ok (some (serialise std (cut v)), h') := by
        show (cjsonToValue (some a) >>= fun value => pure (value.map (serialise std))) h' = _
        rw [Run.bind_run_ok hValue]
        rfl
      exact printImpl_run hText hYes
  · have hYes : h.outcomes k = true := hAlloc k
    rw [show h.outcomes k = false from hk] at hYes
    cases hYes

/-- A parsed document is printed as the core serialiser prints it, and read back as it was,
exactly when none of its strings and keys contains U+0000. -/
theorem printUnformatted_parse_iff {input : List UInt8} (hBounded : h.Bounded)
    (hInput : TextAt h (some s) (some input)) (hBom : input.take 3 ≠ [0xEF, 0xBB, 0xBF])
    (hParse : parse std input = .ok v) (hAlloc : ∀ k, h.outcomes k = true) :
    ∃ a h' w q h'' text, cjsonParse std (some s) h = .ok (some a, h') ∧
      cjsonToValue (some a) h' = .ok (some w, h') ∧ (w = v ↔ NulFree v) ∧
      cjsonPrintUnformatted std (some a) h' = .ok (some q, h'') ∧
      h''.bufs q = some ⟨text ++ [0], true⟩ ∧
      (text = encode (serialise std v) ↔ NulFree v) := by
  obtain ⟨a, h', q, h'', hRun, hValue, hPrint, hText⟩ :=
    parse_print_run hBounded hInput hBom hParse hAlloc
  refine ⟨a, h', cut v, q, h'', _, hRun, hValue, cut_eq_iff, hPrint, hText, ?_⟩
  have hCut : serialise std (cut v) = serialise std v ↔ NulFree v := serialise_cut_iff
  rw [← hCut]
  exact ⟨encode_inj, fun hEq => by rw [hEq]⟩

/-- A heap with one C string. -/
def oneString (bytes : List UInt8) : Heap where
  nodes _ := none
  bufs := fun s => if s = 0 then some ⟨bytes, false⟩ else none
  brk := 1
  outcomes _ := true
  misuses := []
  lastError := none

theorem bounded_oneString (bytes : List UInt8) : (oneString bytes).Bounded where
  nodes _ := rfl
  bufs hs := if_neg (Nat.ne_of_gt hs)

theorem textAt_oneString {input : List UInt8} (hNul : 0 ∉ input) :
    TextAt (oneString (input ++ [0])) (some 0) (some input) := by
  refine ⟨⟨input ++ [0], false⟩, rfl, by simp, ?_⟩
  unfold cstr
  rw [List.takeWhile_append_of_pos fun b hb => by simpa using ne_of_mem_of_not_mem hb hNul]
  simp

/-- The document `["a\u0000b"]`. -/
def nulDocument : List UInt8 :=
  [0x5B, 0x22, 0x61, 0x5C, 0x75, 0x30, 0x30, 0x30, 0x30, 0x62, 0x22, 0x5D]

theorem parse_nulDocument :
    parse Rfc.sampleF64 nulDocument = .ok (.array [.string ['a', '\x00', 'b']]) := by
  have hZero : Rfc.HexDigit 0x30 0 := Rfc.HexDigit.digit (by decide) (by decide)
  have hNul : Rfc.Spelling [0x5C, 0x75, 0x30, 0x30, 0x30, 0x30] '\x00' :=
    Rfc.Spelling.unicode (Rfc.Hex4.mk hZero hZero hZero hZero)
  have hA : Rfc.Spelling [0x61] 'a' :=
    Rfc.Spelling.unescaped (c := 'a') (by decide) (by decide) (by decide)
  have hB : Rfc.Spelling [0x62] 'b' :=
    Rfc.Spelling.unescaped (c := 'b') (by decide) (by decide) (by decide)
  have hString := Rfc.JString.mk (Rfc.Chars.cons hA (Rfc.Chars.cons hNul (Rfc.Chars.cons hB .nil)))
  have hArray : Rfc.JValue Rfc.sampleF64 nulDocument (.array [.string ['a', '\x00', 'b']]) :=
    Rfc.JValue.array (Rfc.structural_self 0x5B) (Rfc.JItems.one (.string hString))
      (Rfc.structural_self 0x5D)
  exact Rfc.parseWithOptions_complete (Rfc.JsonText.mk Rfc.ws_nil hArray Rfc.ws_nil) (by decide)

/-- The string of `nulDocument` is printed as `"a"`. -/
theorem printUnformatted_shortens :
    ¬ ∀ (std : StdF64) (h : Heap) (s : Addr) (input : List UInt8) (v : Value), h.Bounded →
      TextAt h (some s) (some input) → input.take 3 ≠ [0xEF, 0xBB, 0xBF] →
      parse std input = .ok v → (∀ k, h.outcomes k = true) →
      ∃ a h' q h'', cjsonParse std (some s) h = .ok (some a, h') ∧
        cjsonPrintUnformatted std (some a) h' = .ok (some q, h'') ∧
        h''.bufs q = some ⟨encode (serialise std v) ++ [0], true⟩ := by
  intro hAll
  have hBounded := bounded_oneString (nulDocument ++ [0])
  have hInput : TextAt (oneString (nulDocument ++ [0])) (some 0) (some nulDocument) :=
    textAt_oneString (by decide)
  have hBom : nulDocument.take 3 ≠ [0xEF, 0xBB, 0xBF] := by decide
  have hAlloc : ∀ k, (oneString (nulDocument ++ [0])).outcomes k = true := fun _ => rfl
  obtain ⟨a, h', q, h'', hRun, hPrint, hText⟩ :=
    hAll Rfc.sampleF64 _ 0 nulDocument _ hBounded hInput hBom parse_nulDocument hAlloc
  obtain ⟨a', g, q', g', hRun', -, hPrint', hText'⟩ :=
    parse_print_run hBounded hInput hBom parse_nulDocument hAlloc
  rw [hRun] at hRun'
  cases hRun'
  rw [hPrint] at hPrint'
  cases hPrint'
  rw [hText] at hText'
  have hBytes : encode (serialise Rfc.sampleF64 (.array [.string ['a', '\x00', 'b']])) ++ [0]
      = encode (serialise Rfc.sampleF64 (cut (.array [.string ['a', '\x00', 'b']]))) ++ [0] :=
    congrArg Buf.bytes (Option.some.inj hText')
  revert hBytes
  decide

/-- The document `["a\u0000b"]` loses a part of its string. -/
theorem printUnformatted_parse_iff_nulDocument :
    ∃ a h' w q h'' text,
      cjsonParse Rfc.sampleF64 (some 0) (oneString (nulDocument ++ [0])) = .ok (some a, h') ∧
      cjsonToValue (some a) h' = .ok (some w, h') ∧
      (w = .array [.string ['a', '\x00', 'b']] ↔
        NulFree (.array [.string ['a', '\x00', 'b']])) ∧
      cjsonPrintUnformatted Rfc.sampleF64 (some a) h' = .ok (some q, h'') ∧
      h''.bufs q = some ⟨text ++ [0], true⟩ ∧
      (text = encode (serialise Rfc.sampleF64 (.array [.string ['a', '\x00', 'b']])) ↔
        NulFree (.array [.string ['a', '\x00', 'b']])) :=
  printUnformatted_parse_iff (bounded_oneString _) (textAt_oneString (by decide)) (by decide)
    parse_nulDocument fun _ => rfl

end CjsonRs.Ffi
