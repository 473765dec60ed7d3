import CjsonRs.Ffi.Minified
import CjsonRs.Rfc.Serialised

/-!
# Printed texts that differ in whitespace

The two modes of the serialiser write the same tokens, so minification makes the same text of
what they write. `Cleans` is followed through the texts of all parts of a value.
-/

namespace CjsonRs.Ffi

open CjsonRs.Core CjsonRs.Rfc Library Minify

variable {std : StdF64} {w w' u u' : List UInt8} {s : Str} {v : Value} {indent : Option Nat}

/-! ## Parts -/

/-- A part of a text without NUL of which `w'` is kept. -/
structure Cleans (w w' : List UInt8) : Prop where
  strips : Strips w w'
  nulFree : 0 ∉ w

theorem cleans_nil : Cleans [] [] := ⟨strips_nil, List.not_mem_nil⟩

theorem Cleans.append (h : Cleans w w') (h' : Cleans u u') : Cleans (w ++ u) (w' ++ u') := by
  refine ⟨h.strips.append h'.strips, ?_⟩
  rw [List.mem_append, not_or]
  exact ⟨h.nulFree, h'.nulFree⟩

theorem cleans_plain (h : ∀ b ∈ w, Plain b ∧ b ≠ 0) : Cleans w w :=
  ⟨strips_plain fun b hb => (h b hb).1, fun hZero => (h 0 hZero).2 rfl⟩

theorem cleans_ws (h : Ws w) : Cleans w [] := ⟨strips_ws h, (filler_of_ws h).nulFree⟩

theorem cleans_blank (h : Blank s) : Cleans (encode s) [] := cleans_ws (ws_of_blank h)

theorem cleans_writeString (s : Str) :
    Cleans (encode (writeString [] s)) (encode (writeString [] s)) := by
  have hString := jstring_writeString s
  have hSpells : Spells sampleF64 (.string s) (encode (writeString [] s)) := .string hString
  exact ⟨strips_jstring hString, spells_nulFree hSpells⟩

/-- `Display` of a finite number writes digits, minus signs and points. -/
def DisplaysDecimals (std : StdF64) : Prop :=
  ∀ n : F64, n.isFinite → ∀ c ∈ std.display n, c.isDigit ∨ c = '-' ∨ c = '.'

theorem cleans_decimals (h : ∀ c ∈ s, c.isDigit ∨ c = '-' ∨ c = '.') :
    Cleans (encode s) (encode s) := by
  refine cleans_plain fun b hb => ?_
  obtain ⟨c, hc, hMem⟩ := List.mem_flatMap.mp hb
  rcases h c hc with hDigit | rfl | rfl
  · have hDigits : Digits (encode [c]) := by
      refine digits_encode (List.cons_ne_nil c []) fun d hd => ?_
      rwa [List.mem_singleton.mp hd]
    have hByte : Digit b := hDigits.2 b (by simpa using hMem)
    refine ⟨plain_of_numberByte (Or.inl hByte), ?_⟩
    rintro rfl
    exact absurd hByte.1 (by decide)
  · rw [List.mem_singleton.mp hMem]
    decide
  · rw [List.mem_singleton.mp hMem]
    decide

/-! ## Values -/

/-- Joined entries lose the whitespace around them. -/
theorem cleans_joined {α : Type} {before after : Str} (text text' : α → Str)
    (hBefore : Blank before) (hAfter : Blank after) (entries : List α)
    (h : ∀ a ∈ entries, Cleans (encode (text a)) (encode (text' a))) :
    Cleans (encode (joined before after (entries.map text)))
      (encode (joined [] [] (entries.map text'))) := by
  induction entries with
  | nil => exact cleans_nil
  | cons a entries ih =>
    have hEntry := (cleans_blank hBefore).append (h a List.mem_cons_self)
    cases entries with
    | nil =>
      simp only [List.map_cons, List.map_nil, joined, encode_append]
      have := hEntry.append (cleans_blank hAfter)
      simpa using this
    | cons b entries =>
      have hRest := ih fun c hc => h c (List.mem_cons_of_mem a hc)
      have hComma : Cleans (encode [',']) (encode [',']) := cleans_plain (by decide +kernel)
      have := hEntry.append (hComma.append ((cleans_blank hAfter).append hRest))
      simpa [joined] using this

theorem arrayText_compact {items : List Value} (hne : items ≠ []) (depth : Nat) :
    valueText std none depth (.array items) =
      '[' :: (joined [] [] (items.map (valueText std none (depth + 1))) ++ [']']) := by
  rw [valueText, writeValue, if_neg (by simpa using hne)]
  change writeItems std none items.length items 0 depth ['['] ++ [']'] = _
  rw [writeItems_eq none items depth hne]
  simp [lead, trail]

theorem objectText_compact {members : List (Str × Value)} (hne : members ≠ []) (depth : Nat) :
    valueText std none depth (.object members) =
      '{' :: (joined [] [] (members.map (memberText std none (depth + 1))) ++ ['}']) := by
  rw [valueText, writeValue, if_neg (by simpa using hne)]
  change writeMembers std none members.length members 0 depth ['{'] ++ ['}'] = _
  rw [writeMembers_eq none members depth hne]
  simp [lead, trail]

/-- Both modes write a value as its compact text, up to whitespace. -/
theorem cleans_valueText (hstd : DisplaysDecimals std) (indent : Option Nat) (v : Value)
    (depth depth' : Nat) :
    Cleans (encode (valueText std indent depth v)) (encode (valueText std none depth' v)) := by
  induction v using Value.induct generalizing depth depth' with
  | null => exact cleans_plain (w := encode ['n', 'u', 'l', 'l']) (by decide +kernel)
  | bool b =>
    cases b
    · exact cleans_plain (w := encode ['f', 'a', 'l', 's', 'e']) (by decide +kernel)
    · exact cleans_plain (w := encode ['t', 'r', 'u', 'e']) (by decide +kernel)
  | number n =>
    simp only [valueText, writeValue, writeNumber, List.nil_append]
    split
    · exact cleans_decimals (hstd n ‹_›)
    · exact cleans_plain (by decide +kernel)
  | string s => exact cleans_writeString s
  | array items ih =>
    by_cases hne : items = []
    · subst hne
      exact cleans_plain (w := encode ['[', ']']) (by decide +kernel)
    · obtain ⟨l, hl, hText⟩ := arrayText std indent items depth hne
      have hItems := cleans_joined (valueText std indent (depth + 1))
        (valueText std none (depth' + 1)) (blank_lead indent depth) (blank_trail indent) items
        fun item hItem => ih item hItem (depth + 1) (depth' + 1)
      have hOpen : Cleans (encode ['[']) (encode ['[']) := cleans_plain (by decide +kernel)
      have hClose : Cleans (encode [']']) (encode [']']) := cleans_plain (by decide +kernel)
      have := (hOpen.append (cleans_blank (blank_trail indent))).append
        (hItems.append ((cleans_blank hl).append hClose))
      rw [hText, arrayText_compact hne]
      simpa using this
  | object members ih =>
    by_cases hne : members = []
    · subst hne
      exact cleans_plain (w := encode ['{', '}']) (by decide +kernel)
    · obtain ⟨l, hl, hText⟩ := objectText std indent members depth hne
      have hColon : Cleans (encode [':']) (encode [':']) := cleans_plain (by decide +kernel)
      have hMember : ∀ m ∈ members, Cleans (encode (memberText std indent (depth + 1) m))
          (encode (memberText std none (depth' + 1) m)) := by
        intro m hm
        have := (cleans_writeString m.1).append (hColon.append
          ((cleans_blank (blank_gap indent)).append (ih m hm (depth + 1) (depth' + 1))))
        simpa [memberText, gap] using this
      have hMembers := cleans_joined _ _ (blank_lead indent depth) (blank_trail indent) members
        hMember
      have hOpen : Cleans (encode ['{']) (encode ['{']) := cleans_plain (by decide +kernel)
      have hClose : Cleans (encode ['}']) (encode ['}']) := cleans_plain (by decide +kernel)
      have := (hOpen.append (cleans_blank (blank_trail indent))).append
        (hMembers.append ((cleans_blank hl).append hClose))
      rw [hText, objectText_compact hne]
      simpa using this

/-- Minification of the pretty text of a value gives its compact text. -/
theorem minify_serialisePretty (hstd : DisplaysDecimals std) (v : Value) (rest : List UInt8) :
    ∃ tail, minifyInPlace (some (encode (serialisePretty std v) ++ 0 :: rest)) =
      .ok (some (encode (serialise std v) ++ 0 :: tail)) := by
  have hCleans := cleans_valueText hstd (some 2) v 0 0
  obtain ⟨tail, hRun, -⟩ := minifyInPlace_run hCleans.nulFree rest
  rw [hCleans.strips.eq] at hRun
  exact ⟨tail, hRun⟩

theorem displaysDecimals_sampleF64 : DisplaysDecimals sampleF64 := by
  intro n _ c hc
  unfold sampleF64 at hc
  dsimp only at hc
  split_ifs at hc
  · simp only [List.mem_cons, List.not_mem_nil, or_false] at hc
    rcases hc with rfl | rfl <;> exact Or.inl (by decide)
  · simp only [List.mem_cons, List.not_mem_nil, or_false] at hc
    rcases hc with rfl | rfl
    · exact Or.inr (Or.inl rfl)
    · exact Or.inl (by decide)
  · simp only [List.mem_cons, List.not_mem_nil, or_false] at hc
    rcases hc with rfl | rfl | rfl
    · exact Or.inl (by decide)
    · exact Or.inr (Or.inr rfl)
    · exact Or.inl (by decide)
  · rcases List.mem_cons.mp hc with rfl | hc
    · exact Or.inl (by decide)
    · rcases List.mem_cons.mp hc with rfl | hc
      · exact Or.inr (Or.inr rfl)
      · exact Or.inl (Nat.isDigit_of_mem_toDigits (by decide) (by decide) hc)

theorem minify_serialisePretty_sample :
    ∃ tail, minifyInPlace (some (encode (serialisePretty sampleF64 sampleValue) ++ 0 :: [])) =
      .ok (some (encode (serialise sampleF64 sampleValue) ++ 0 :: tail)) :=
  minify_serialisePretty displaysDecimals_sampleF64 sampleValue []

end CjsonRs.Ffi
