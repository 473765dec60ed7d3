import CjsonRs.Core.Serialiser
import CjsonRs.Rfc.Documents

/-!
# What the serialiser writes

The text of a value is a JSON text of that value with its non-finite numbers replaced by
`null`, in both output modes. A container's text is its entries joined by commas, each entry
between a lead and a trail of whitespace (`joined`), which is what the loops of
`write_array` and `write_object` write (`writeItems_eq`, `writeMembers_eq`).
-/

namespace CjsonRs.Rfc

open CjsonRs.Core Library

variable {std : StdF64}

/-! ## Numbers -/

/-- The assumptions on the standard library: `Display` writes a finite number as an RFC 8259
number without exponent, and `parse` reads a number equal to it back. -/
structure LawfulF64 (std : StdF64) : Prop where
  number : ∀ n : F64, n.isFinite → ∃ m i f, Minus m ∧ IntPart i ∧ Frac f ∧
    encode (std.display n) = m ++ (i ++ f)
  parse : ∀ n : F64, n.isFinite → ∃ m, std.parse (std.display n) = some m ∧ m.eq n = true

/-- The number that is read back. -/
def reread (std : StdF64) (n : F64) : Value :=
  if n.isFinite then .number ((std.parse (std.display n)).getD n) else .null

theorem reread_depth (n : F64) : (reread std n).depth = 0 := by
  unfold reread
  split_ifs <;> rfl

theorem reread_eq (hstd : LawfulF64 std) (n : F64) :
    (reread std n).eq (if n.isFinite then .number n else .null) = true := by
  unfold reread
  split_ifs with h
  · obtain ⟨m, hm, hEq⟩ := hstd.parse n h
    simpa only [hm, Option.getD_some, Value.eq] using hEq
  · rfl

theorem jvalue_number (hstd : LawfulF64 std) (n : F64) :
    JValue std (encode (writeNumber std [] n)) (reread std n) := by
  unfold writeNumber reread
  split_ifs with h
  · obtain ⟨m, i, f, hm, hi, hf, hText⟩ := hstd.number n h
    obtain ⟨x, hx, hEq⟩ := hstd.parse n h
    have hNumber : Number (encode (std.display n)) := by
      rw [hText, ← List.append_nil f]
      exact Number.mk hm hi hf Exp.absent
    rw [hx]
    exact JValue.number hNumber hx (F64.isFinite_of_eq hEq h)
  · exact JValue.null

/-! ## Strings -/

theorem hexDigit_hexChar {d : Nat} (h : d < 16) :
    ∃ b, encode [hexChar d] = [b] ∧ HexDigit b d := by
  have hAll : ∀ d < 16, encode [hexChar d] = [UInt8.ofNat (hexChar d).toNat] ∧
      Tokeniser.hexDigit (UInt8.ofNat (hexChar d).toNat) = some d := by decide
  exact ⟨_, (hAll d h).1, Tokeniser.hexDigit_iff.mp (hAll d h).2⟩

theorem spelling_unicodeEscape {c : Char} (h : c.toNat < 0x10000) :
    Spelling (encode (unicodeEscape c.toNat)) c := by
  obtain ⟨b₁, he₁, h₁⟩ := hexDigit_hexChar (Nat.mod_lt (c.toNat / 4096) (by decide : 0 < 16))
  obtain ⟨b₂, he₂, h₂⟩ := hexDigit_hexChar (Nat.mod_lt (c.toNat / 256) (by decide : 0 < 16))
  obtain ⟨b₃, he₃, h₃⟩ := hexDigit_hexChar (Nat.mod_lt (c.toNat / 16) (by decide : 0 < 16))
  obtain ⟨b₄, he₄, h₄⟩ := hexDigit_hexChar (Nat.mod_lt c.toNat (by decide : 0 < 16))
  have hBytes : encode (unicodeEscape c.toNat) = 0x5C :: 0x75 :: [b₁, b₂, b₃, b₄] := by
    change encode (['\\'] ++ (['u'] ++ ([hexChar _] ++ ([hexChar _] ++ ([hexChar _] ++
      [hexChar _]))))) = _
    simp only [encode_append, he₁, he₂, he₃, he₄]
    rfl
  have hHex := Hex4.mk h₁ h₂ h₃ h₄
  have hValue : ((c.toNat / 4096 % 16 * 16 + c.toNat / 256 % 16) * 16 + c.toNat / 16 % 16) * 16 +
      c.toNat % 16 = c.toNat := by omega
  rw [hValue] at hHex
  rw [hBytes]
  exact Spelling.unicode hHex

theorem spelling_escapeChar (c : Char) : Spelling (encode (escapeChar c)) c := by
  unfold escapeChar
  split_ifs with h₁ h₂ h₃ h₄ h₅ h₆ h₇ h₈
  · subst h₁
    exact Spelling.short ShortEscape.quote
  · subst h₂
    exact Spelling.short ShortEscape.backslash
  · subst h₃
    exact Spelling.short ShortEscape.n
  · subst h₄
    exact Spelling.short ShortEscape.r
  · subst h₅
    exact Spelling.short ShortEscape.t
  · subst h₆
    exact Spelling.short ShortEscape.b
  · subst h₇
    exact Spelling.short ShortEscape.f
  · exact spelling_unicodeEscape (by omega)
  · rw [encode_cons, encode_nil, List.append_nil]
    exact Spelling.unescaped (by omega) h₁ h₂

theorem jstring_writeString (s : Str) : JString (encode (writeString [] s)) s := by
  have hChars : Chars (encode (s.flatMap escapeChar)) s := by
    induction s with
    | nil => exact Chars.nil
    | cons c s ih =>
      rw [List.flatMap_cons, encode_append]
      exact Chars.cons (spelling_escapeChar c) ih
  rw [writeString_eq, List.nil_append, encode_cons, encode_append]
  exact JString.mk hChars

/-! ## Joined entries -/

/-- Texts joined by commas, each between a lead and a trail. -/
def joined (lead trail : Str) : List Str → Str
  | [] => []
  | [text] => lead ++ (text ++ trail)
  | text :: texts => lead ++ (text ++ (',' :: (trail ++ joined lead trail texts)))

/-- The lead of an entry at a depth. -/
def lead (indent : Option Nat) (depth : Nat) : Str :=
  match indent with
  | some step => writeIndent [] step (depth + 1)
  | none => []

/-- The trail of an entry. -/
def trail (indent : Option Nat) : Str := if indent.isSome then ['\n'] else []

/-- The text after the colon of a member. -/
def gap (indent : Option Nat) : Str := if indent.isSome then [' '] else []

/-- The text of a value. -/
def valueText (std : StdF64) (indent : Option Nat) (depth : Nat) (v : Value) : Str :=
  writeValue std indent v depth []

/-- The text of a member. -/
def memberText (std : StdF64) (indent : Option Nat) (depth : Nat) (m : Str × Value) : Str :=
  writeString [] m.1 ++ (':' :: (gap indent ++ valueText std indent depth m.2))

theorem writeValue_out (indent : Option Nat) (v : Value) (depth : Nat) (out : Str) :
    writeValue std indent v depth out = out ++ valueText std indent depth v := by
  rw [valueText, ← writeValue_append, List.append_nil]

theorem writeIndent_out (out : Str) (step depth : Nat) :
    writeIndent out step depth = out ++ writeIndent [] step depth := by
  simp [writeIndent]

theorem writeString_out (out s : Str) : writeString out s = out ++ writeString [] s := by
  simp [writeString_eq]

/-- The comma in front of an entry, of compact output. -/
def commaBefore (indent : Option Nat) (i : Nat) : Str :=
  if indent = none ∧ 0 < i then [','] else []

/-- The comma after an entry, of pretty output. -/
def commaAfter (indent : Option Nat) (i len : Nat) : Str :=
  if indent.isSome ∧ i + 1 < len then [','] else []

/-- A loop that writes entries with their commas writes the joined entries. -/
theorem joined_of_loop {α : Type} (indent : Option Nat) {len : Nat} (before : Str)
    (text : α → Str) (loop : List α → Nat → Str → Str) (hNil : ∀ i out, loop [] i out = out)
    (hCons : ∀ a entries i out, loop (a :: entries) i out = loop entries (i + 1)
      (out ++ (commaBefore indent i ++ (before ++ (text a ++ (commaAfter indent i len ++
        trail indent))))))
    (entries : List α) (i : Nat) (out : Str) (hLen : i + entries.length = len)
    (hne : entries ≠ []) :
    loop entries i out =
      out ++ (commaBefore indent i ++ joined before (trail indent) (entries.map text)) := by
  induction entries generalizing i out with
  | nil => exact absurd rfl hne
  | cons a entries ih =>
    rw [List.length_cons] at hLen
    rw [hCons]
    cases entries with
    | nil =>
      have hLast : commaAfter indent i len = [] := by
        rw [List.length_nil] at hLen
        exact if_neg (fun h => absurd h.2 (by omega))
      rw [hNil, hLast]
      rfl
    | cons b entries =>
      have hMore : i + 1 < len := by
        rw [List.length_cons] at hLen
        omega
      rw [ih (i + 1) _ (by omega) (by simp)]
      cases indent <;> simp [commaBefore, commaAfter, trail, hMore, joined]

theorem writeItems_eq (indent : Option Nat) (items : List Value) (depth : Nat)
    (hne : items ≠ []) (out : Str) :
    writeItems std indent items.length items 0 depth out = out ++
      joined (lead indent depth) (trail indent)
        (items.map (valueText std indent (depth + 1))) := by
  have hLoop := joined_of_loop indent (lead indent depth)
    (valueText std indent (depth + 1))
    (fun entries i out => writeItems std indent items.length entries i depth out)
    (fun _ _ => rfl) ?_
    items 0 out (Nat.zero_add _) hne
  · simpa [commaBefore] using hLoop
  · intro item entries i out
    cases indent with
    | none =>
      rw [writeItems, writeValue_out]
      simp only [commaBefore, commaAfter, lead, trail]
      split_ifs <;> simp_all
    | some step =>
      rw [writeItems, writeValue_out, writeIndent_out]
      simp only [commaBefore, commaAfter, lead, trail]
      split_ifs <;> simp_all

theorem writeMembers_eq (indent : Option Nat) (members : List (Str × Value)) (depth : Nat)
    (hne : members ≠ []) (out : Str) :
    writeMembers std indent members.length members 0 depth out = out ++
      joined (lead indent depth) (trail indent)
        (members.map (memberText std indent (depth + 1))) := by
  have hLoop := joined_of_loop indent (lead indent depth)
    (memberText std indent (depth + 1))
    (fun entries i out => writeMembers std indent members.length entries i depth out)
    (fun _ _ => rfl) ?_
    members 0 out (Nat.zero_add _) hne
  · simpa [commaBefore] using hLoop
  · intro m entries i out
    cases indent with
    | none =>
      rw [writeMembers, writeValue_out, writeString_out]
      simp only [commaBefore, commaAfter, lead, trail, memberText, gap]
      split_ifs <;> simp_all
    | some step =>
      rw [writeMembers, writeValue_out, writeString_out, writeIndent_out]
      simp only [commaBefore, commaAfter, lead, trail, memberText, gap]
      split_ifs <;> simp_all

/-- Characters that are written as whitespace. -/
def Blank (s : Str) : Prop := ∀ c ∈ s, c = ' ' ∨ c = '\n'

theorem ws_of_blank {s : Str} (h : Blank s) : Ws (encode s) := by
  induction s with
  | nil => exact ws_nil
  | cons c s ih =>
    rw [encode_cons]
    refine Ws.append ?_ (ih (fun d hd => h d (List.mem_cons_of_mem c hd)))
    rcases h c List.mem_cons_self with rfl | rfl
    · intro b hb
      exact Or.inl (List.mem_singleton.mp hb)
    · intro b hb
      exact Or.inr (Or.inr (Or.inl (List.mem_singleton.mp hb)))

theorem blank_lead (indent : Option Nat) (depth : Nat) : Blank (lead indent depth) := by
  cases indent with
  | none => simp [lead, Blank]
  | some step =>
    intro c hc
    exact Or.inl (List.eq_of_mem_replicate hc)

theorem blank_trail (indent : Option Nat) : Blank (trail indent) := by
  cases indent <;> simp [trail, Blank]

theorem blank_gap (indent : Option Nat) : Blank (gap indent) := by
  cases indent <;> simp [gap, Blank]

/-- Joined entries read as `Q` does, between whitespace, when `Q` is closed under putting an
entry and a comma in front. -/
theorem joined_spec {α : Type} {before after : Str} (text : α → Str)
    {Q : List UInt8 → List α → Prop} (hBefore : Blank before) (hAfter : Blank after)
    (entries : List α) (hne : entries ≠ []) (hOne : ∀ a ∈ entries, Q (encode (text a)) [a])
    (hCons : ∀ a ∈ entries, ∀ as c w, Structural 0x2C c → Q w as →
      Q (encode (text a) ++ (c ++ w)) (a :: as)) :
    ∃ l w r, Ws l ∧ Q w entries ∧ Ws r ∧
      encode (joined before after (entries.map text)) = l ++ (w ++ r) := by
  induction entries with
  | nil => exact absurd rfl hne
  | cons a entries ih =>
    cases entries with
    | nil =>
      refine ⟨_, _, _, ws_of_blank hBefore, hOne a List.mem_cons_self, ws_of_blank hAfter, ?_⟩
      simp [joined]
    | cons b entries =>
      obtain ⟨l, w, r, hl, hw, hr, hEq⟩ := ih (by simp)
        (fun c hc => hOne c (List.mem_cons_of_mem a hc))
        (fun c hc => hCons c (List.mem_cons_of_mem a hc))
      refine ⟨_, _, r, ws_of_blank hBefore, hCons a List.mem_cons_self _ _ w
        (structural_open ((ws_of_blank hAfter).append hl)) hw, hr, ?_⟩
      rw [List.map_cons] at hEq
      simp only [List.map_cons, joined, encode_append, encode_cons, hEq, List.append_assoc]
      rfl

/-! ## Values -/

theorem lead_close (indent : Option Nat) (depth : Nat) :
    ∃ l, Blank l ∧ ∀ out, (match indent with
      | some step => writeIndent out step depth
      | none => out) = out ++ l := by
  cases indent with
  | none => exact ⟨[], by simp [Blank], by simp⟩
  | some step =>
    refine ⟨List.replicate (step * depth) ' ', ?_, fun out => rfl⟩
    exact fun c hc => Or.inl (List.eq_of_mem_replicate hc)

/-- The text of a nonempty array around its entries. -/
theorem arrayText (std : StdF64) (indent : Option Nat) (items : List Value) (depth : Nat)
    (hne : items ≠ []) :
    ∃ l, Blank l ∧ valueText std indent depth (.array items) =
      '[' :: (trail indent ++ (joined (lead indent depth) (trail indent)
        (items.map (valueText std indent (depth + 1))) ++ (l ++ [']']))) := by
  obtain ⟨l, hl, hClose⟩ := lead_close indent depth
  refine ⟨l, hl, ?_⟩
  cases indent with
  | none =>
    have hNil : l = [] := by simpa using hClose []
    rw [valueText, writeValue, if_neg (by simpa using hne)]
    simp [writeItems_eq none items depth hne, trail, hNil]
  | some step =>
    rw [valueText, writeValue, if_neg (by simpa using hne)]
    simp [writeItems_eq (some step) items depth hne, trail, hClose]

/-- The text of a nonempty object around its entries. -/
theorem objectText (std : StdF64) (indent : Option Nat) (members : List (Str × Value)) (depth : Nat)
    (hne : members ≠ []) :
    ∃ l, Blank l ∧ valueText std indent depth (.object members) =
      '{' :: (trail indent ++ (joined (lead indent depth) (trail indent)
        (members.map (memberText std indent (depth + 1))) ++ (l ++ ['}']))) := by
  obtain ⟨l, hl, hClose⟩ := lead_close indent depth
  refine ⟨l, hl, ?_⟩
  cases indent with
  | none =>
    have hNil : l = [] := by simpa using hClose []
    rw [valueText, writeValue, if_neg (by simpa using hne)]
    simp [writeMembers_eq none members depth hne, trail, hNil]
  | some step =>
    rw [valueText, writeValue, if_neg (by simpa using hne)]
    simp [writeMembers_eq (some step) members depth hne, trail, hClose]

/-- What is read back from the text of a value. -/
def readBack (std : StdF64) (v : Value) : Value := v.mapNumbers (reread std)

/-- In both modes and at every depth, the text of a value is a text of the grammar. -/
theorem jvalue_valueText (hstd : LawfulF64 std) (indent : Option Nat) (v : Value) (depth : Nat) :
    JValue std (encode (valueText std indent depth v)) (readBack std v) := by
  induction v using Value.induct generalizing depth with
  | null => exact JValue.null
  | bool b =>
    cases b
    · exact JValue.false
    · exact JValue.true
  | number n =>
    rw [valueText, writeValue]
    exact jvalue_number hstd n
  | string s =>
    rw [valueText, writeValue]
    exact JValue.string (jstring_writeString s)
  | array items ih =>
    by_cases hne : items = []
    · subst hne
      exact JValue.emptyArray (structural_self 0x5B) (structural_self 0x5D)
    · obtain ⟨l, hl, hText⟩ := arrayText std indent items depth hne
      obtain ⟨l', w, r, hl', hw, hr, hEq⟩ := joined_spec
        (valueText std indent (depth + 1))
        (Q := fun w as => JItems std w (Value.mapItems (reread std) as))
        (blank_lead indent depth) (blank_trail indent) items hne
        (fun v hv => JItems.one (ih v hv (depth + 1)))
        (fun v hv as c w hc hw => JItems.cons (ih v hv (depth + 1)) hc hw)
      rw [hText]
      simp only [encode_cons, encode_append, encode_nil, List.append_nil, hEq]
      have := JValue.array (structural_open ((ws_of_blank (blank_trail indent)).append hl')) hw
        (structural_close (hr.append (ws_of_blank hl)))
      simp only [List.append_assoc] at this ⊢
      exact this
  | object members ih =>
    by_cases hne : members = []
    · subst hne
      exact JValue.emptyObject (structural_self 0x7B) (structural_self 0x7D)
    · obtain ⟨l, hl, hText⟩ := objectText std indent members depth hne
      have hColon : Structural 0x3A (encode (':' :: gap indent)) := by
        rw [encode_cons]
        exact structural_open (ws_of_blank (blank_gap indent))
      have hMember : ∀ m : Str × Value, encode (memberText std indent (depth + 1) m) =
          encode (writeString [] m.1) ++ (encode (':' :: gap indent) ++
            encode (valueText std indent (depth + 1) m.2)) := by
        intro m
        simp [memberText]
      obtain ⟨l', w, r, hl', hw, hr, hEq⟩ := joined_spec
        (memberText std indent (depth + 1))
        (Q := fun w as => JMembers std w (Value.mapMembers (reread std) as))
        (blank_lead indent depth) (blank_trail indent) members hne
        (fun m hm => by
          rw [hMember]
          exact JMembers.one (jstring_writeString m.1) hColon (ih m hm (depth + 1)))
        (fun m hm as c w hc hw => by
          rw [hMember]
          have := JMembers.cons (jstring_writeString m.1) hColon (ih m hm (depth + 1)) hc hw
          simp only [List.append_assoc] at this ⊢
          exact this)
      rw [hText]
      simp only [encode_cons, encode_append, encode_nil, List.append_nil, hEq]
      have := JValue.object (structural_open ((ws_of_blank (blank_trail indent)).append hl')) hw
        (structural_close (hr.append (ws_of_blank hl)))
      simp only [List.append_assoc] at this ⊢
      exact this

theorem jsonText_valueText (hstd : LawfulF64 std) (indent : Option Nat) (v : Value) :
    JsonText std (encode (valueText std indent 0 v)) (readBack std v) := by
  have := JsonText.mk ws_nil (jvalue_valueText hstd indent v 0) ws_nil
  rwa [List.append_nil] at this

/-- The text of a value is parsed back, with non-finite numbers read as `null`. -/
theorem parse_valueText (hstd : LawfulF64 std) (indent : Option Nat) {v : Value} {limit : Nat}
    (hDepth : v.depth ≤ limit) :
    ∃ w, parseWithOptions std (encode (valueText std indent 0 v)) ⟨limit⟩ = .ok w ∧
      w.eq v.nullify = true := by
  refine ⟨readBack std v, parseWithOptions_complete (jsonText_valueText hstd indent v) ?_, ?_⟩
  · rwa [readBack, Value.depth_mapNumbers reread_depth]
  · exact Value.eq_mapNumbers (reread_eq hstd) v

/-! ## The assumptions can be met -/

/-- A standard library that treats `42`, `-0` and `1.5` as the real one does, and writes any
other number as a fraction with the digits of its bit pattern. -/
def sampleF64 : StdF64 where
  parse s :=
    if s = ['4', '2'] then some ⟨0x4045000000000000#64⟩
    else if s = ['-', '0'] then some ⟨0x8000000000000000#64⟩
    else if s = ['1', '.', '5'] then some ⟨0x3FF8000000000000#64⟩
    else if s.take 2 = ['0', '.'] then some ⟨BitVec.ofNat 64 (Nat.ofDigitChars 10 (s.drop 2) 0)⟩
    else none
  display n :=
    if n.bits = 0x4045000000000000#64 then ['4', '2']
    else if n.bits = 0x8000000000000000#64 then ['-', '0']
    else if n.bits = 0x3FF8000000000000#64 then ['1', '.', '5']
    else '0' :: '.' :: Nat.toDigits 10 n.bits.toNat

theorem digits_encode {s : Str} (hne : s ≠ []) (h : ∀ c ∈ s, c.isDigit) : Digits (encode s) := by
  have hDigit : ∀ c : Char, c.isDigit → ∃ b, String.utf8EncodeChar c = [b] ∧ Digit b := by
    intro c hc
    have hc' : 0x30 ≤ c.toNat ∧ c.toNat ≤ 0x39 := by
      simpa [Char.isDigit, UInt32.le_iff_toNat_le] using hc
    refine ⟨_, utf8EncodeChar_of_le (by omega), ?_⟩
    simp only [Digit, UInt8.le_iff_toNat_le, UInt8.toNat_ofNat', UInt8.reduceToNat]
    omega
  constructor
  · obtain ⟨c, s, rfl⟩ := List.exists_cons_of_ne_nil hne
    simp [String.utf8EncodeChar_ne_nil]
  · intro b hb
    obtain ⟨c, hc, hb⟩ := List.mem_flatMap.mp hb
    obtain ⟨b', hEq, hb'⟩ := hDigit c (h c hc)
    rw [hEq, List.mem_singleton] at hb
    exact hb ▸ hb'

theorem lawful_sampleF64 : LawfulF64 sampleF64 where
  number n _ := by
    have hTwo : Digits [0x35] := ⟨by simp, by simp [Digit]⟩
    unfold sampleF64
    dsimp only
    split_ifs
    · exact ⟨[], [0x34, 0x32], [], .absent, .digits (by decide) (by decide) (by simp [Digit]),
        .absent, rfl⟩
    · exact ⟨[0x2D], [0x30], [], .present, .zero, .absent, rfl⟩
    · exact ⟨[], [0x31], [0x2E, 0x35], .absent, .digits (by decide) (by decide) (by simp),
        .present hTwo, rfl⟩
    · refine ⟨[], [0x30], _, .absent, .zero, .present (digits_encode (s :=
        Nat.toDigits 10 n.bits.toNat) Nat.toDigits_ne_nil ?_), rfl⟩
      exact fun c hc => Nat.isDigit_of_mem_toDigits (by decide) (by decide) hc
  parse n hn := by
    refine ⟨n, ?_, F64.eq_self (F64.isNan_of_isFinite hn)⟩
    obtain ⟨bits⟩ := n
    unfold sampleF64
    dsimp only
    split_ifs with h₁ h₂ h₃ <;> simp_all

/-- Both output modes are parsed back, with non-finite numbers read as `null`. -/
theorem parse_serialise {std : StdF64} (hstd : LawfulF64 std) {v : Value} {limit : Nat}
    (hDepth : v.depth ≤ limit) :
    (∃ w, parseWithOptions std (encode (serialise std v)) ⟨limit⟩ = .ok w ∧
      w.eq v.nullify = true) ∧
    (∃ w, parseWithOptions std (encode (serialisePretty std v)) ⟨limit⟩ = .ok w ∧
      w.eq v.nullify = true) :=
  ⟨parse_valueText hstd none hDepth, parse_valueText hstd (some 2) hDepth⟩

/-- Control characters, duplicate keys, an empty container, a negative zero and a `NaN`. -/
def sampleValue : Value :=
  .object [(['k', '\x00'], .array [.number ⟨0x4045000000000000#64⟩, .array []]),
    (['k', '\x00'], .number ⟨0x7FF8000000000000#64⟩), ([], .number ⟨0x8000000000000000#64⟩)]

theorem parse_serialise_sample :
    (∃ w, parseWithOptions sampleF64 (encode (serialise sampleF64 sampleValue)) ⟨3⟩ = .ok w ∧
      w.eq sampleValue.nullify = true) ∧
    (∃ w, parseWithOptions sampleF64 (encode (serialisePretty sampleF64 sampleValue)) ⟨3⟩ = .ok w ∧
      w.eq sampleValue.nullify = true) :=
  parse_serialise lawful_sampleF64 (by decide)

end CjsonRs.Rfc
