import CjsonRs.Rfc.Lexical

/-!
# The string readers against the grammar

Each reader of `read_string`, read as an equivalence: it succeeds on exactly the spellings of
the grammar, moves over them and returns the character they denote.
-/

namespace CjsonRs.Core

open Rfc Library

/-! ## Characters -/

/-- `charFromU32` inverts `Char.toNat`. -/
theorem charFromU32_iff {n : Nat} {c : Char} : charFromU32 n = some c ↔ c.toNat = n := by
  unfold charFromU32
  constructor
  · intro h
    by_cases hn : n.isValidChar
    · rw [dif_pos hn] at h
      cases h
      change (BitVec.ofNatLT n _).toNat = n
      rfl
    · rw [dif_neg hn] at h
      cases h
  · rintro rfl
    have hn : c.toNat.isValidChar := c.valid
    rw [dif_pos hn]
    rfl

theorem not_surrogate (c : Char) : ¬ HighSurrogate c.toNat ∧ ¬ LowSurrogate c.toNat := by
  have h : c.toNat.isValidChar := c.valid
  simp only [Nat.isValidChar] at h
  simp only [HighSurrogate, LowSurrogate]
  omega

theorem toNat_ofNat_byte (b : UInt8) : (Char.ofNat b.toNat).toNat = b.toNat := by
  have hb := b.toNat_lt
  have hn : b.toNat.isValidChar := Or.inl (by omega)
  rw [Char.ofNat, dif_pos hn]
  rfl

/-- An ASCII byte is the encoding of its character. -/
theorem encode_ofNat_byte {b : UInt8} (h : b ≤ 0x7F) :
    String.utf8EncodeChar (Char.ofNat b.toNat) = [b] := by
  have hb : b.toNat ≤ 0x7F := UInt8.le_iff_toNat_le.mp h
  rw [utf8EncodeChar_of_le (by rw [toNat_ofNat_byte]; exact hb), toNat_ofNat_byte,
    UInt8.ofNat_toNat]

/-- An encoding starts with an ASCII byte only if it is that byte. -/
theorem char_of_head {c : Char} {b : UInt8} {w : List UInt8} (h : b ≤ 0x7F)
    (hw : String.utf8EncodeChar c = b :: w) : c = Char.ofNat b.toNat ∧ w = [] := by
  have happ : String.utf8EncodeChar c ++ [] = String.utf8EncodeChar (Char.ofNat b.toNat) ++ w := by
    rw [encode_ofNat_byte h, hw]
    simp
  obtain ⟨hc, hnil⟩ := utf8EncodeChar_append_inj happ
  exact ⟨hc, hnil.symm⟩

theorem isHighSurrogate_iff {n : Nat} : Tokeniser.isHighSurrogate n = true ↔ HighSurrogate n := by
  simp [Tokeniser.isHighSurrogate, HighSurrogate]

theorem isLowSurrogate_iff {n : Nat} : Tokeniser.isLowSurrogate n = true ↔ LowSurrogate n := by
  simp [Tokeniser.isLowSurrogate, LowSurrogate]

theorem surrogateCode_eq (high low : Nat) :
    Tokeniser.surrogateCode high low = surrogatePair high low := by
  unfold Tokeniser.surrogateCode surrogatePair
  rw [Nat.shiftLeft_eq]

namespace Position

/-- One character is one column and the bytes of its encoding. -/
theorem past_utf8EncodeChar {c : Char} (h : c ≠ '\n') (p : Position) :
    p.past (String.utf8EncodeChar c) =
      { p with column := p.column + 1, offset := p.offset + c.utf8Size } := by
  have hcont : ∀ (w : List UInt8) (p : Position), (∀ b ∈ w, 0x80 ≤ b ∧ b ≤ 0xBF) →
      p.past w = { p with offset := p.offset + w.length } := by
    intro w
    induction w with
    | nil => exact fun p _ => rfl
    | cons b w ih =>
      intro p hw
      obtain ⟨hb, hb'⟩ := hw b List.mem_cons_self
      have hne : b ≠ 0x0A := by
        rintro rfl
        exact absurd hb (by decide)
      have hstep : p.step b = { p with offset := p.offset + 1 } := by
        simp [step, isContinuation, hb, hb', hne]
      change (p.step b).past w = _
      rw [ih _ (fun d hd => hw d (List.mem_cons_of_mem b hd)), hstep]
      simp only [List.length_cons, Position.mk.injEq, true_and]
      omega
  obtain ⟨b, tail, hEq, hTail, hb⟩ := firstByte_spec c
  have hlen := String.length_utf8EncodeChar c
  have hne : b ≠ 0x0A := by
    rintro rfl
    exact h (char_of_head (by decide) hEq).1
  have hnc : isContinuation b = false := by
    simp only [isContinuation, Bool.and_eq_false_iff, decide_eq_false_iff_not,
      UInt8.le_iff_toNat_le] at hb ⊢
    simp only [UInt8.reduceToNat] at hb ⊢
    omega
  have hstep : p.step b = { p with column := p.column + 1, offset := p.offset + 1 } := by
    simp [step, hne, hnc]
  rw [hEq] at hlen ⊢
  change (p.step b).past tail = _
  rw [hcont tail _ hTail, hstep]
  simp only [List.length_cons] at hlen
  simp only [Position.mk.injEq, true_and]
  omega

end Position

namespace Tokeniser

/-! ## Splitting what is read -/

theorem reads_append_iff {t t' : Tokeniser} {w w' : List UInt8} :
    Reads t (w ++ w') t' ↔ ∃ t₁, Reads t w t₁ ∧ Reads t₁ w' t' := by
  constructor
  · rintro ⟨r, hr, rfl⟩
    rw [List.append_assoc] at hr
    refine ⟨t.past w, reads_past hr, r, rest_past hr, ?_⟩
    rw [past_past]
  · rintro ⟨t₁, h, h'⟩
    exact h.trans h'

theorem reads_cons_iff {t t' : Tokeniser} {b : UInt8} {w : List UInt8} :
    Reads t (b :: w) t' ↔ ∃ t₁, Reads t [b] t₁ ∧ Reads t₁ w t' :=
  reads_append_iff (w := [b])

@[simp] theorem reads_nil_iff {t t' : Tokeniser} : Reads t [] t' ↔ t' = t := by
  constructor
  · exact fun h => h.eq
  · rintro rfl
    exact Reads.refl t'

theorem Reads.peek {t t' : Tokeniser} {b : UInt8} {w : List UInt8} (h : Reads t (b :: w) t') :
    t.peek = some b := peek_of_rest h.rest

/-- Reading one byte is `advance`. -/
theorem reads_byte_iff {t t' : Tokeniser} {b : UInt8} (hb : isContinuation b = false) :
    Reads t [b] t' ↔ t.peek = some b ∧ t' = t.advance := by
  constructor
  · intro h
    exact ⟨h.peek, by rw [advance_eq h.peek hb]; exact h.eq⟩
  · rintro ⟨h, rfl⟩
    exact reads_advance h hb

/-! ## Unicode escapes -/

theorem hexDigit_iff {b : UInt8} {d : Nat} : hexDigit b = some d ↔ HexDigit b d := by
  unfold hexDigit
  constructor
  · intro h
    split_ifs at h with hDigit hLower hUpper
    · cases h
      exact HexDigit.digit hDigit.1 hDigit.2
    · cases h
      exact HexDigit.lower hLower.1 hLower.2
    · cases h
      exact HexDigit.upper hUpper.1 hUpper.2
  · intro h
    cases h with
    | digit h h' => rw [if_pos ⟨h, h'⟩]
    | lower h h' =>
      rw [if_neg, if_pos ⟨h, h'⟩]
      rintro ⟨-, h9⟩
      exact absurd (UInt8.le_trans h h9) (by decide)
    | upper h h' =>
      rw [if_neg, if_neg, if_pos ⟨h, h'⟩]
      · rintro ⟨ha, -⟩
        exact absurd (UInt8.le_trans ha h') (by decide)
      · rintro ⟨-, h9⟩
        exact absurd (UInt8.le_trans h h9) (by decide)

theorem hexDigit_bounds {b : UInt8} {d : Nat} (h : HexDigit b d) : b ≤ 0x7F ∧ d < 16 := by
  cases h with
  | digit h h' | lower h h' | upper h h' =>
    simp only [UInt8.le_iff_toNat_le, UInt8.reduceToNat] at h h' ⊢
    omega

theorem readHexDigits_succ_iff {start : Position} {n val v : Nat} {t t' : Tokeniser} :
    readHexDigits start (n + 1) val t = .ok (v, t') ↔
      ∃ b d t₁, HexDigit b d ∧ Reads t [b] t₁ ∧
        readHexDigits start n (val * 16 + d) t₁ = .ok (v, t') := by
  have hShift : ∀ {b d}, HexDigit b d → val <<< 4 ||| d = val * 16 + d := by
    intro b d h
    rw [← Nat.shiftLeft_add_eq_or_of_lt (hexDigit_bounds h).2, Nat.shiftLeft_eq]
  constructor
  · intro h
    rw [readHexDigits] at h
    split at h
    · cases h
    · rename_i b hb
      split at h
      · cases h
      · rename_i d hd
        have hd := hexDigit_iff.mp hd
        have hnc := not_continuation_of_le (hexDigit_bounds hd).1
        exact ⟨b, d, t.advance, hd, reads_advance hb hnc, by rwa [hShift hd] at h⟩
  · rintro ⟨b, d, t₁, hd, hb, h⟩
    obtain ⟨hPeek, rfl⟩ := (reads_byte_iff (not_continuation_of_le (hexDigit_bounds hd).1)).mp hb
    rw [readHexDigits, hPeek]
    simp only [hexDigit_iff.mpr hd, hShift hd, h]

theorem readHex4_iff {start : Position} {v : Nat} {t t' : Tokeniser} :
    t.readHex4 start = .ok (v, t') ↔ ∃ w, Hex4 w v ∧ Reads t w t' := by
  simp only [readHex4, readHexDigits_succ_iff]
  constructor
  · rintro ⟨a, i, t₁, ha, hta, b, j, t₂, hb, htb, c, k, t₃, hc, htc, d, l, t₄, hd, htd, h⟩
    cases h
    refine ⟨[a, b, c, d], ?_, hta.trans (htb.trans (htc.trans htd))⟩
    have := Hex4.mk ha hb hc hd
    rwa [Nat.zero_mul, Nat.zero_add]
  · rintro ⟨_, ⟨ha, hb, hc, hd⟩, h⟩
    obtain ⟨t₁, hta, h⟩ := reads_cons_iff.mp h
    obtain ⟨t₂, htb, h⟩ := reads_cons_iff.mp h
    obtain ⟨t₃, htc, htd⟩ := reads_cons_iff.mp h
    refine ⟨_, _, t₁, ha, hta, _, _, t₂, hb, htb, _, _, t₃, hc, htc, _, _, t', hd, htd, ?_⟩
    simp only [readHexDigits, Nat.zero_mul, Nat.zero_add]

/-- The two bytes that `read_unicode_escape` looks ahead for. -/
theorem reads_escape_iff {t t' : Tokeniser} {w : List UInt8} :
    Reads t (0x5C :: 0x75 :: w) t' ↔
      (t.peek = some 0x5C ∧ t.peekAt 1 = some 0x75) ∧ Reads t.advance.advance w t' := by
  constructor
  · intro h
    obtain ⟨t₁, h₁, h⟩ := reads_cons_iff.mp h
    obtain ⟨t₂, h₂, h⟩ := reads_cons_iff.mp h
    obtain ⟨hPeek, rfl⟩ := (reads_byte_iff rfl).mp h₁
    obtain ⟨hPeek', rfl⟩ := (reads_byte_iff rfl).mp h₂
    refine ⟨⟨hPeek, ?_⟩, h⟩
    rw [peekAt_eq, h₁.rest, h₂.rest]
    rfl
  · rintro ⟨⟨h₁, h₂⟩, h⟩
    have hFirst := reads_advance h₁ rfl
    have hSecond : t.advance.peek = some 0x75 := by
      rw [peek_eq, List.head?_eq_getElem?]
      rw [peekAt_eq, hFirst.rest] at h₂
      exact h₂
    exact hFirst.trans ((reads_advance hSecond rfl).trans h)

theorem readLowSurrogate_iff {start : Position} {high : Nat} {c : Char} {t t' : Tokeniser} :
    t.readLowSurrogate start high = .ok (c, t') ↔
      ∃ w low, Hex4 w low ∧ LowSurrogate low ∧ c.toNat = surrogatePair high low ∧
        Reads t (0x5C :: 0x75 :: w) t' := by
  simp only [reads_escape_iff]
  constructor
  · intro h
    unfold readLowSurrogate at h
    split_ifs at h with hPeek
    split at h
    · cases h
    · rename_i low t₁ hLow
      split_ifs at h with hIsLow
      split at h
      · rename_i c' hc
        cases h
        obtain ⟨w, hw, hReads⟩ := readHex4_iff.mp hLow
        rw [surrogateCode_eq] at hc
        exact ⟨w, low, hw, isLowSurrogate_iff.mp hIsLow, charFromU32_iff.mp hc, hPeek, hReads⟩
      · cases h
  · rintro ⟨w, low, hw, hLow, hc, hPeek, hReads⟩
    unfold readLowSurrogate
    rw [if_pos hPeek, readHex4_iff.mpr ⟨w, hw, hReads⟩]
    simp only
    rw [if_pos (isLowSurrogate_iff.mpr hLow), surrogateCode_eq, charFromU32_iff.mpr hc]

/-- What may follow `\u`. -/
def UnicodeTail (c : Char) (w : List UInt8) : Prop :=
  Hex4 w c.toNat ∨ ∃ w₁ w₂ high low, w = w₁ ++ 0x5C :: 0x75 :: w₂ ∧ Hex4 w₁ high ∧ Hex4 w₂ low ∧
    HighSurrogate high ∧ LowSurrogate low ∧ c.toNat = surrogatePair high low

theorem readUnicodeEscape_iff {start : Position} {c : Char} {t t' : Tokeniser} :
    t.readUnicodeEscape start = .ok (c, t') ↔ ∃ w, UnicodeTail c w ∧ Reads t w t' := by
  constructor
  · intro h
    unfold readUnicodeEscape at h
    split at h
    · cases h
    · rename_i high t₁ hHigh
      obtain ⟨w₁, hw₁, hReads₁⟩ := readHex4_iff.mp hHigh
      split_ifs at h with hIsHigh hIsLow
      · obtain ⟨w₂, low, hw₂, hLow, hc, hReads₂⟩ := readLowSurrogate_iff.mp h
        exact ⟨_, Or.inr ⟨w₁, w₂, high, low, rfl, hw₁, hw₂, isHighSurrogate_iff.mp hIsHigh, hLow,
          hc⟩, hReads₁.trans hReads₂⟩
      · split at h
        · rename_i c' hc
          cases h
          obtain rfl := charFromU32_iff.mp hc
          exact ⟨w₁, Or.inl hw₁, hReads₁⟩
        · cases h
  · rintro ⟨w, hw | ⟨w₁, w₂, high, low, rfl, hw₁, hw₂, hHigh, hLow, hc⟩, hReads⟩
    · obtain ⟨hNotHigh, hNotLow⟩ := not_surrogate c
      unfold readUnicodeEscape
      rw [readHex4_iff.mpr ⟨w, hw, hReads⟩]
      simp only
      rw [if_neg (by rwa [isHighSurrogate_iff]), if_neg (by rwa [isLowSurrogate_iff]),
        charFromU32_iff.mpr rfl]
    · obtain ⟨t₁, hReads₁, hReads₂⟩ := reads_append_iff.mp hReads
      unfold readUnicodeEscape
      rw [readHex4_iff.mpr ⟨w₁, hw₁, hReads₁⟩]
      simp only
      rw [if_pos (isHighSurrogate_iff.mpr hHigh)]
      exact readLowSurrogate_iff.mpr ⟨w₂, low, hw₂, hLow, hc, hReads₂⟩

/-! ## Characters of a string -/

theorem shortEscape_iff {e : UInt8} {c : Char} : shortEscape e = some c ↔ ShortEscape e c := by
  unfold shortEscape
  constructor
  · intro h
    split_ifs at h
    all_goals
      subst_vars
      cases h
      constructor
  · intro h
    cases h <;> rfl

theorem shortEscape_ascii {e : UInt8} {c : Char} (h : ShortEscape e c) :
    e ≤ 0x7F ∧ e ≠ 0x75 := by
  cases h <;> decide

/-- The spellings that start with a backslash. -/
theorem spelling_backslash {c : Char} {w : List UInt8} (h : Spelling (0x5C :: w) c) :
    (∃ e, w = [e] ∧ ShortEscape e c) ∨ ∃ w', w = 0x75 :: w' ∧ UnicodeTail c w' := by
  generalize hw : (0x5C :: w : List UInt8) = full at h
  cases h with
  | unescaped _ _ hne =>
    exact absurd (char_of_head (by decide) hw.symm).1 hne
  | short he =>
    cases hw
    exact Or.inl ⟨_, rfl, he⟩
  | unicode hHex =>
    cases hw
    exact Or.inr ⟨_, rfl, Or.inl hHex⟩
  | pair hHex hHex' hHigh hLow hc =>
    cases hw
    exact Or.inr ⟨_, rfl, Or.inr ⟨_, _, _, _, rfl, hHex, hHex', hHigh, hLow, hc⟩⟩

theorem spelling_of_unicodeTail {c : Char} {w : List UInt8} (h : UnicodeTail c w) :
    Spelling (0x5C :: 0x75 :: w) c := by
  rcases h with hw | ⟨w₁, w₂, high, low, rfl, hw₁, hw₂, hHigh, hLow, hc⟩
  · exact Spelling.unicode hw
  · exact Spelling.pair hw₁ hw₂ hHigh hLow hc

theorem readEscape_iff {c : Char} {t t' : Tokeniser} (hPeek : t.peek = some 0x5C) :
    t.readEscape = .ok (c, t') ↔ ∃ w, Spelling (0x5C :: w) c ∧ Reads t (0x5C :: w) t' := by
  have hSlash := reads_advance hPeek rfl
  constructor
  · intro h
    unfold readEscape at h
    simp only at h
    split at h
    · cases h
    · rename_i e he
      split at h
      · rename_i c' hc
        cases h
        have hShort := shortEscape_iff.mp hc
        have hnc := not_continuation_of_le (shortEscape_ascii hShort).1
        exact ⟨[e], Spelling.short hShort, hSlash.trans (reads_advance he hnc)⟩
      · split_ifs at h with hu
        subst hu
        obtain ⟨w, hw, hReads⟩ := readUnicodeEscape_iff.mp h
        exact ⟨0x75 :: w, spelling_of_unicodeTail hw,
          hSlash.trans ((reads_advance he rfl).trans hReads)⟩
  · rintro ⟨w, hw, hReads⟩
    obtain ⟨t₁, h₁, hReads⟩ := reads_cons_iff.mp hReads
    obtain ⟨-, rfl⟩ := (reads_byte_iff rfl).mp h₁
    unfold readEscape
    rcases spelling_backslash hw with ⟨e, rfl, he⟩ | ⟨w', rfl, hw'⟩
    · obtain ⟨h₂, rfl⟩ :=
        (reads_byte_iff (not_continuation_of_le (shortEscape_ascii he).1)).mp hReads
      simp only [h₂, shortEscape_iff.mpr he]
    · obtain ⟨t₂, h₂, hTail⟩ := reads_cons_iff.mp hReads
      obtain ⟨hPeek', rfl⟩ := (reads_byte_iff rfl).mp h₂
      have hNone : shortEscape 0x75 = none := rfl
      simp only [hPeek', hNone, if_true]
      exact readUnicodeEscape_iff.mpr ⟨w', hw', hTail⟩

theorem utf8Len_head (c : Char) : ∃ b tail, String.utf8EncodeChar c = b :: tail ∧
    utf8Len b = c.utf8Size := by
  obtain ⟨b, tail, hEq, -, hb⟩ := firstByte_spec c
  refine ⟨b, tail, hEq, ?_⟩
  simp only [UInt8.le_iff_toNat_le, UInt8.reduceToNat] at hb
  unfold utf8Len
  simp only [UInt8.le_iff_toNat_le, UInt8.reduceToNat]
  split_ifs <;> omega

theorem readUtf8Char_eq {t : Tokeniser} {b : UInt8} {r : List UInt8} (h : t.rest = b :: r) :
    t.readUtf8Char =
      if utf8Len b = 0 ∨ t.rest.length < utf8Len b then .error (.invalidUtf8 t.pos)
      else match fromUtf8 (t.rest.take (utf8Len b)) with
        | some (c :: _) => .ok (c, { t with pos := { t.pos with
            offset := t.pos.offset + utf8Len b, column := t.pos.column + 1 } })
        | _ => .error (.invalidUtf8 t.pos) := by
  have hPos := remaining_pos (peek_of_rest h)
  have hlen : t.rest.length = t.input.length - t.pos.offset := List.length_drop
  simp only [remaining] at hPos
  unfold readUtf8Char
  simp only [peek_of_rest h]
  have hSlice : t.slice t.pos.offset (t.pos.offset + utf8Len b) = t.rest.take (utf8Len b) := by
    simp only [slice, rest, Nat.add_sub_cancel_left]
  by_cases hZero : utf8Len b = 0
  · rw [if_pos hZero, if_pos (Or.inl hZero)]
  · rw [if_neg hZero]
    by_cases hLong : t.rest.length < utf8Len b
    · rw [if_pos (by omega), if_pos (Or.inr hLong)]
    · rw [if_neg (by omega), if_neg (by simp [hZero, hLong]), hSlice]
      rcases fromUtf8 (t.rest.take (utf8Len b)) with _ | _ | _ <;> rfl

theorem readUtf8Char_iff {c : Char} {t t' : Tokeniser} {b : UInt8} (hPeek : t.peek = some b)
    (hb : ¬ b ≤ 0x7F) :
    t.readUtf8Char = .ok (c, t') ↔ Reads t (String.utf8EncodeChar c) t' := by
  obtain ⟨r, hRest⟩ := rest_of_peek hPeek
  rw [readUtf8Char_eq hRest]
  have hNewline : ∀ {c : Char} {w : List UInt8}, b :: r = String.utf8EncodeChar c ++ w →
      c ≠ '\n' := by
    rintro c w hEq rfl
    cases hEq
    exact hb (by decide)
  have hOver : ∀ {c : Char} {w : List UInt8}, b :: r = String.utf8EncodeChar c ++ w →
      utf8Len b = c.utf8Size ∧ t.past (String.utf8EncodeChar c) = { t with pos := { t.pos with
        offset := t.pos.offset + utf8Len b, column := t.pos.column + 1 } } := by
    intro c w hEq
    obtain ⟨b', tail, hHead, hLen⟩ := utf8Len_head c
    have hbb : b = b' := by
      rw [hHead] at hEq
      exact (List.cons.inj hEq).1
    subst hbb
    refine ⟨hLen, ?_⟩
    rw [past, Position.past_utf8EncodeChar (hNewline hEq), hLen]
  constructor
  · intro h
    split_ifs at h with hBad
    split at h
    · rename_i c' cs hDecode
      cases h
      have hTake := fromUtf8_eq_some.mp hDecode
      rw [encode_cons] at hTake
      have hSplit : t.rest = String.utf8EncodeChar c ++
          (encode cs ++ t.rest.drop (utf8Len b)) := by
        rw [← List.append_assoc, ← hTake, List.take_append_drop]
      exact ⟨_, hSplit, (hOver (hRest.symm.trans hSplit)).2.symm⟩
    · cases h
  · rintro ⟨w, hw, rfl⟩
    obtain ⟨hLen, hEq⟩ := hOver (hRest.symm.trans hw)
    have hSize := String.length_utf8EncodeChar c
    have hPos := c.utf8Size_pos
    rw [if_neg, hLen, hw, ← hSize, List.take_left, ← List.append_nil (String.utf8EncodeChar c),
      fromUtf8_char_append, fromUtf8_nil, List.append_nil, hEq, hLen, hSize]
    · rfl
    · rw [hw, List.length_append]
      omega

/-! ## Strings -/

theorem readStringLoop_quote {start : Position} {t : Tokeniser} {out : Str}
    (h : t.peek = some 0x22) : readStringLoop start t out = .ok (.string out, t.advance) := by
  unfold readStringLoop
  grind

theorem readStringLoop_escape {start : Position} {t t' : Tokeniser} {out : Str} {c : Char}
    (h : t.peek = some 0x5C) (hc : t.readEscape = .ok (c, t')) :
    readStringLoop start t out = readStringLoop start t' (out ++ [c]) := by
  rw [readStringLoop]
  grind

theorem readStringLoop_ascii {start : Position} {t : Tokeniser} {out : Str} {b : UInt8}
    (h : t.peek = some b) (hq : b ≠ 0x22) (hs : b ≠ 0x5C) (hlo : ¬ b ≤ 0x1F) (hhi : b ≤ 0x7F) :
    readStringLoop start t out =
      readStringLoop start t.advance (out ++ [Char.ofNat b.toNat]) := by
  rw [readStringLoop]
  grind

theorem readStringLoop_utf8 {start : Position} {t t' : Tokeniser} {out : Str} {b : UInt8}
    {c : Char} (h : t.peek = some b) (hb : ¬ b ≤ 0x7F) (hc : t.readUtf8Char = .ok (c, t')) :
    readStringLoop start t out = readStringLoop start t' (out ++ [c]) := by
  rw [readStringLoop]
  grind

/-- One spelling is one step of the loop. -/
theorem readStringLoop_spelling {start : Position} {t t' : Tokeniser} {out : Str}
    {w : List UInt8} {c : Char} (hw : Spelling w c) (hReads : Reads t w t') :
    readStringLoop start t out = readStringLoop start t' (out ++ [c]) := by
  have hEscape : ∀ {w}, Spelling (0x5C :: w) c → Reads t (0x5C :: w) t' →
      readStringLoop start t out = readStringLoop start t' (out ++ [c]) := by
    intro w hw hReads
    exact readStringLoop_escape hReads.peek ((readEscape_iff hReads.peek).mpr ⟨w, hw, hReads⟩)
  cases hw with
  | short he => exact hEscape (Spelling.short he) hReads
  | unicode hHex => exact hEscape (Spelling.unicode hHex) hReads
  | pair hHex hHex' hHigh hLow hc =>
    exact hEscape (Spelling.pair hHex hHex' hHigh hLow hc) hReads
  | unescaped hControl hQuote hSlash =>
    obtain ⟨b, tail, hEq, -, -⟩ := firstByte_spec c
    have hPeek : t.peek = some b := by
      rw [hEq] at hReads
      exact hReads.peek
    by_cases hb : b ≤ 0x7F
    · obtain ⟨rfl, rfl⟩ := char_of_head hb hEq
      rw [hEq] at hReads
      obtain ⟨-, rfl⟩ := (reads_byte_iff (not_continuation_of_le hb)).mp hReads
      rw [toNat_ofNat_byte] at hControl
      refine readStringLoop_ascii hPeek ?_ ?_ ?_ hb
      · rintro rfl
        exact hQuote rfl
      · rintro rfl
        exact hSlash rfl
      · simp only [UInt8.le_iff_toNat_le, UInt8.reduceToNat]
        omega
    · exact readStringLoop_utf8 hPeek hb ((readUtf8Char_iff hPeek hb).mpr hReads)

/-- An ASCII byte that is no quote, backslash or control character spells itself. -/
theorem spelling_ascii {b : UInt8} (hq : b ≠ 0x22) (hs : b ≠ 0x5C) (hlo : ¬ b ≤ 0x1F)
    (hhi : b ≤ 0x7F) : Spelling [b] (Char.ofNat b.toNat) := by
  have hc := toNat_ofNat_byte b
  rw [← encode_ofNat_byte hhi]
  refine Spelling.unescaped ?_ ?_ ?_
  · rw [hc]
    simp only [UInt8.le_iff_toNat_le, UInt8.reduceToNat] at hlo
    omega
  · intro hEq
    rw [hEq] at hc
    exact hq (UInt8.toNat_inj.mp hc.symm)
  · intro hEq
    rw [hEq] at hc
    exact hs (UInt8.toNat_inj.mp hc.symm)

/-- A character of more than one byte spells itself. -/
theorem spelling_utf8 {t t' : Tokeniser} {b : UInt8} {c : Char} (hPeek : t.peek = some b)
    (hb : ¬ b ≤ 0x7F) (hReads : Reads t (String.utf8EncodeChar c) t') :
    Spelling (String.utf8EncodeChar c) c := by
  have hHead : ∀ {d : Char}, d.toNat ≤ 0x7F → c ≠ d := by
    rintro d hd rfl
    rw [utf8EncodeChar_of_le hd] at hReads
    have hSame := hReads.peek
    rw [hPeek] at hSame
    cases hSame
    exact hb (by
      simp only [UInt8.le_iff_toNat_le, UInt8.toNat_ofNat', UInt8.reduceToNat]
      omega)
  refine Spelling.unescaped ?_ (hHead (by decide)) (hHead (by decide))
  by_contra hlt
  exact hHead (by omega : c.toNat ≤ 0x7F) rfl

theorem readStringLoop_sound {start : Position} {t t' : Tokeniser} {out : Str} {tok : Token}
    (h : readStringLoop start t out = .ok (tok, t')) :
    ∃ w s, Chars w s ∧ tok = .string (out ++ s) ∧ Reads t (w ++ [0x22]) t' := by
  fun_induction readStringLoop start t out with
  | case1 t out hb => cases h
  | case2 t out hb =>
    cases h
    exact ⟨[], [], Chars.nil, by rw [List.append_nil], reads_advance hb rfl⟩
  | case3 t out hb e he => cases h
  | case4 t out c t₁ he hb hne ih =>
    obtain ⟨w, s, hw, rfl, hReads⟩ := ih h
    obtain ⟨w₁, hw₁, hReads₁⟩ := (readEscape_iff hb).mp he
    exact ⟨_, c :: s, Chars.cons hw₁ hw, by simp, by
      rw [List.append_assoc]
      exact hReads₁.trans hReads⟩
  | case5 t out b hb => cases h
  | case6 t out b hb h₁ h₂ h₃ h₄ ih =>
    obtain ⟨w, s, hw, rfl, hReads⟩ := ih h
    exact ⟨_, _, Chars.cons (spelling_ascii h₁ h₂ h₃ h₄) hw, by simp,
      (reads_advance hb (not_continuation_of_le h₄)).trans hReads⟩
  | case7 t out b hb h₁ h₂ h₃ h₄ e he => cases h
  | case8 t out b hb h₁ h₂ h₃ h₄ c t₁ he ih =>
    obtain ⟨w, s, hw, rfl, hReads⟩ := ih h
    have hRead := (readUtf8Char_iff hb h₄).mp he
    exact ⟨_, _, Chars.cons (spelling_utf8 hb h₄ hRead) hw, by simp, by
      rw [List.append_assoc]
      exact hRead.trans hReads⟩

theorem readStringLoop_complete {start : Position} {t t' : Tokeniser} {out : Str}
    {w : List UInt8} {s : Str} (hw : Chars w s) (hReads : Reads t (w ++ [0x22]) t') :
    readStringLoop start t out = .ok (.string (out ++ s), t') := by
  induction hw generalizing t out with
  | nil =>
    obtain ⟨hPeek, rfl⟩ := (reads_byte_iff rfl).mp hReads
    rw [List.append_nil]
    exact readStringLoop_quote hPeek
  | cons hc hs ih =>
    rw [List.append_assoc] at hReads
    obtain ⟨t₁, h₁, hReads⟩ := reads_append_iff.mp hReads
    rw [readStringLoop_spelling hc h₁, ih hReads]
    simp

/-- `read_string` reads exactly the strings of the grammar. -/
theorem readString_iff {t t' : Tokeniser} {tok : Token} (hPeek : t.peek = some 0x22) :
    t.readString = .ok (tok, t') ↔ ∃ w s, JString w s ∧ tok = .string s ∧ Reads t w t' := by
  have hQuote := reads_advance hPeek rfl
  constructor
  · intro h
    obtain ⟨w, s, hw, rfl, hReads⟩ := readStringLoop_sound h
    exact ⟨_, s, JString.mk hw, rfl, hQuote.trans hReads⟩
  · rintro ⟨_, s, ⟨hw⟩, rfl, hReads⟩
    obtain ⟨t₁, h₁, hReads⟩ := reads_cons_iff.mp hReads
    obtain ⟨-, rfl⟩ := (reads_byte_iff rfl).mp h₁
    exact readStringLoop_complete hw hReads

end Tokeniser

end CjsonRs.Core
