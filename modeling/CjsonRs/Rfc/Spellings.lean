import CjsonRs.Rfc.CutStrings
import CjsonRs.Rfc.NoPanic

/-!
# Spellings of one text

`Chars w s` lets every character of `s` be spelled on its own: raw, by a two-character escape,
by `\u` with digits of either case, or by a surrogate pair. `read_string` returns the text and
not its spelling, whatever follows the quote. An escape that denotes a surrogate without its
other half makes it fail, at the backslash of that escape.
-/

namespace CjsonRs.Rfc

/-- A surrogate that belongs to no pair: a second half, or a first half in front of bytes that
are not the escape of a second half. -/
def Unpaired (n : Nat) (r : List UInt8) : Prop :=
  LowSurrogate n ∨
    HighSurrogate n ∧ ∀ w low r', Hex4 w low → LowSurrogate low → r ≠ 0x5C :: 0x75 :: (w ++ r')

end CjsonRs.Rfc

namespace CjsonRs.Core.Tokeniser

open Rfc Library

variable {t t' : Tokeniser} {start : Position} {u w r : List UInt8} {s out : Str} {n : Nat}

/-! ## Complete characters -/

/-- The loop moves over complete characters, whatever follows them. -/
theorem readStringLoop_chars (hu : Chars u s) (hReads : Reads t u t') :
    readStringLoop start t out = readStringLoop start t' (out ++ s) := by
  induction hu generalizing t out with
  | nil =>
    obtain rfl := reads_nil_iff.mp hReads
    rw [List.append_nil]
  | cons hw _ ih =>
    obtain ⟨t₁, h₁, h₂⟩ := reads_append_iff.mp hReads
    rw [readStringLoop_spelling hw h₁, ih h₂, List.append_assoc, List.singleton_append]

/-- A quoted spelling is read to its closing quote. -/
theorem readString_spelling (hw : JString w s) (hRest : t.rest = w ++ r) :
    t.readString = .ok (.string s, t.past w) := by
  have hReads := reads_past hRest
  have hPeek : t.peek = some 0x22 := by
    obtain ⟨-⟩ := hw
    exact hReads.peek
  exact (readString_iff hPeek).mpr ⟨w, s, hw, rfl, hReads⟩

/-! ## Surrogates -/

/-- Two halves make a code point above U+FFFF, and never a surrogate. -/
theorem surrogatePair_valid {high low : Nat} (hHigh : HighSurrogate high)
    (hLow : LowSurrogate low) :
    ∃ c, charFromU32 (surrogateCode high low) = some c ∧ 0xFFFF < c.toNat := by
  obtain ⟨h₁, h₂⟩ := hHigh
  obtain ⟨h₃, h₄⟩ := hLow
  have hCode := surrogateCode_eq high low
  unfold surrogatePair at hCode
  have hValid : (surrogateCode high low).isValidChar := by
    right
    omega
  have hChar : charFromU32 (surrogateCode high low)
      = some (Char.ofNatAux (surrogateCode high low) hValid) := dif_pos hValid
  refine ⟨_, hChar, ?_⟩
  rw [charFromU32_iff.mp hChar]
  omega

/-- The escape of an unpaired surrogate is an error. -/
theorem readUnicodeEscape_unpaired (hw : Hex4 w n) (hn : Unpaired n r)
    (hRest : t.rest = w ++ r) : ∃ e, t.readUnicodeEscape start = .error e := by
  have hHex : t.readHex4 start = .ok (n, t.past w) := readHex4_iff.mpr ⟨w, hw, reads_past hRest⟩
  unfold readUnicodeEscape
  rw [hHex]
  simp only
  rcases hn with hLow | ⟨hHigh, hNext⟩
  · have hNotHigh : ¬ isHighSurrogate n = true := by
      rw [isHighSurrogate_iff]
      intro hHigh
      have h₁ := hLow.1
      have h₂ := hHigh.2
      omega
    rw [if_neg hNotHigh, if_pos (isLowSurrogate_iff.mpr hLow)]
    exact ⟨_, rfl⟩
  · rw [if_pos (isHighSurrogate_iff.mpr hHigh)]
    cases hPair : (t.past w).readLowSurrogate start n with
    | error e => exact ⟨e, rfl⟩
    | ok r' =>
      obtain ⟨w', low, hw', hLow, -, hReads⟩ := readLowSurrogate_iff.mp hPair
      have hAfter := hReads.rest
      rw [rest_past hRest, List.cons_append, List.cons_append] at hAfter
      exact absurd hAfter (hNext w' low _ hw' hLow)

theorem readEscape_unpaired (hw : Hex4 w n) (hn : Unpaired n r)
    (hRest : t.rest = 0x5C :: 0x75 :: (w ++ r)) :
    ∃ e, t.readEscape = .error e ∧ e.position = t.pos := by
  have hPeek := peek_of_rest hRest
  have hAfter : t.advance.rest = 0x75 :: (w ++ r) :=
    (List.cons.inj ((rest_cons_of_peek hPeek rfl).symm.trans hRest)).2
  have hHex : t.advance.advance.rest = w ++ r :=
    (List.cons.inj ((rest_cons_of_peek (peek_of_rest hAfter) rfl).symm.trans hAfter)).2
  obtain ⟨e, he⟩ : ∃ e, t.readEscape = .error e := by
    unfold readEscape
    simp only [peek_of_rest hAfter, shortEscape_u, if_true]
    exact readUnicodeEscape_unpaired hw hn hHex
  exact ⟨e, he, readEscape_position he⟩

/-- Complete characters and the escape of an unpaired surrogate end the string. -/
theorem readString_unpaired (hu : Chars u s) (hw : Hex4 w n) (hn : Unpaired n r)
    (hRest : t.rest = 0x22 :: (u ++ 0x5C :: 0x75 :: (w ++ r))) :
    ∃ e, t.readString = .error e ∧ e.position = (t.past (0x22 :: u)).pos := by
  have hSplit : t.rest = (0x22 :: u) ++ 0x5C :: 0x75 :: (w ++ r) := hRest
  obtain ⟨t₁, hQuote, hChars⟩ := reads_cons_iff.mp (reads_past hSplit)
  obtain ⟨-, rfl⟩ := (reads_byte_iff rfl).mp hQuote
  have hAfter := rest_past hSplit
  obtain ⟨e, he, hPos⟩ := readEscape_unpaired hw hn hAfter
  refine ⟨e, ?_, hPos⟩
  rw [readString, readStringLoop_chars hu hChars, readStringLoop]
  split
  · rename_i hPeek
    cases hPeek.symm.trans (peek_of_rest hAfter)
  · rename_i b hPeek
    cases hPeek.symm.trans (peek_of_rest hAfter)
    rw [if_neg (by decide), if_pos rfl, he]

/-- `read_string` depends on the text and not on its spelling: every quoted spelling is read as
its text, up to the quote, in front of any bytes. An unpaired surrogate anywhere in a string is
an error. The arithmetic on surrogates stays above zero and gives a character, and nothing
else in `read_string` panics. -/
theorem readString_spellings :
    (∀ (w r : List UInt8) (s : Str) (t : Tokeniser), JString w s → t.rest = w ++ r →
      t.readString = .ok (.string s, t.past w) ∧ (t.past w).rest = r ∧
        (t.past w).pos.offset = t.pos.offset + w.length) ∧
    (∀ (u w r : List UInt8) (s : Str) (n : Nat) (t : Tokeniser), Chars u s → Hex4 w n →
      Unpaired n r → t.rest = 0x22 :: (u ++ 0x5C :: 0x75 :: (w ++ r)) →
      ∃ e, t.readString = .error e ∧ e.position = (t.past (0x22 :: u)).pos) ∧
    (∀ high low, HighSurrogate high → LowSurrogate low →
      surrogateCodeChecked high low = .ok (surrogateCode high low) ∧
        ∃ c, charFromU32 (surrogateCode high low) = some c ∧ 0xFFFF < c.toNat) ∧
    ∀ t : Tokeniser, t.readStringChecked = lift t.readString := by
  refine ⟨?_, ?_, ?_, fun t => readStringChecked_eq⟩
  · intro w r s t hw hRest
    exact ⟨readString_spelling hw hRest, rest_past hRest, Position.past_offset _ _⟩
  · intro u w r s n t hu hw hn hRest
    exact readString_unpaired hu hw hn hRest
  · intro high low hHigh hLow
    exact ⟨surrogateCodeChecked_eq (isHighSurrogate_iff.mpr hHigh) (isLowSurrogate_iff.mpr hLow),
      surrogatePair_valid hHigh hLow⟩

/-- `é` raw, `A` as `\u0041` and `😀` as `\ud83D\uDe00`, between quotes. -/
def mixedSpelling : List UInt8 :=
  [0x22, 0xC3, 0xA9, 0x5C, 0x75, 0x30, 0x30, 0x34, 0x31, 0x5C, 0x75, 0x64, 0x38, 0x33, 0x44,
    0x5C, 0x75, 0x44, 0x65, 0x30, 0x30, 0x22]

theorem mixedSpelling_spells : JString mixedSpelling ['é', 'A', '😀'] := by
  have hRaw : Spelling [0xC3, 0xA9] 'é' :=
    Spelling.unescaped (c := 'é') (by decide) (by decide) (by decide)
  have hHex : Hex4 [0x30, 0x30, 0x34, 0x31] ('A').toNat :=
    Hex4.mk (HexDigit.digit (by decide) (by decide)) (HexDigit.digit (by decide) (by decide))
      (HexDigit.digit (by decide) (by decide)) (HexDigit.digit (by decide) (by decide))
  have hHigh : Hex4 [0x64, 0x38, 0x33, 0x44] 0xD83D :=
    Hex4.mk (HexDigit.lower (by decide) (by decide)) (HexDigit.digit (by decide) (by decide))
      (HexDigit.digit (by decide) (by decide)) (HexDigit.upper (by decide) (by decide))
  have hLow : Hex4 [0x44, 0x65, 0x30, 0x30] 0xDE00 :=
    Hex4.mk (HexDigit.upper (by decide) (by decide)) (HexDigit.lower (by decide) (by decide))
      (HexDigit.digit (by decide) (by decide)) (HexDigit.digit (by decide) (by decide))
  have hPair : Spelling (0x5C :: 0x75 :: ([0x64, 0x38, 0x33, 0x44] ++
      [0x5C, 0x75, 0x44, 0x65, 0x30, 0x30])) '😀' :=
    Spelling.pair hHigh hLow ⟨by omega, by omega⟩ ⟨by omega, by omega⟩ rfl
  have hChars := Chars.cons hRaw (Chars.cons (Spelling.unicode hHex) (Chars.cons hPair Chars.nil))
  exact JString.mk hChars

theorem readString_spellings_mixed :
    (new mixedSpelling).readString
      = .ok (.string ['é', 'A', '😀'], (new mixedSpelling).past mixedSpelling) :=
  (readString_spellings.1 mixedSpelling [] _ (new mixedSpelling) mixedSpelling_spells
    (List.append_nil _).symm).1

end CjsonRs.Core.Tokeniser
