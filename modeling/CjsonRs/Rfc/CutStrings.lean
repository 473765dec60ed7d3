import CjsonRs.Rfc.Errors

/-!
# Strings that the end of the input cuts off

The tokeniser reports the end of the input in one place only: inside a string. `CutString`
are the texts at which it does so, by the grammar of RFC 8259 §7: an opening quote, any
characters, and at most the beginning of an escape.
-/

namespace CjsonRs.Rfc

/-- At most three hexadecimal digits. -/
def CutHex (w : List UInt8) : Prop := w.length < 4 ∧ ∀ b ∈ w, ∃ d, HexDigit b d

/-- The beginning of an escape that is not complete, or nothing. The backslash of a second
surrogate belongs to it only with the `u` after it. -/
inductive CutEscape : List UInt8 → Prop where
  | absent : CutEscape []
  | backslash : CutEscape [0x5C]
  | unicode {w : List UInt8} : CutHex w → CutEscape (0x5C :: 0x75 :: w)
  | pair {w w' : List UInt8} {high : Nat} : Hex4 w high → HighSurrogate high → CutHex w' →
      CutEscape (0x5C :: 0x75 :: (w ++ 0x5C :: 0x75 :: w'))

/-- A string without its end. -/
inductive CutString : List UInt8 → Prop where
  | mk {u v : List UInt8} {s : CjsonRs.Core.Str} : Chars u s → CutEscape v →
      CutString (0x22 :: (u ++ v))

end CjsonRs.Rfc

namespace CjsonRs.Core.Tokeniser

open Rfc Library

variable {std : StdF64} {t t' : Tokeniser} {start : Position} {e : Error} {b : UInt8}

/-- The error that the input ended. -/
def IsEof (e : Error) : Prop := ∃ pos, e = .unexpectedEof pos

/-! ## Escapes -/

theorem rest_cons_of_peek (hPeek : t.peek = some b) (hb : isContinuation b = false) :
    t.rest = b :: t.advance.rest := (reads_advance hPeek hb).rest

theorem readHexDigits_eof_iff {n val : Nat} :
    (∃ e, readHexDigits start n val t = .error e ∧ IsEof e) ↔
    t.rest.length < n ∧ ∀ b ∈ t.rest, ∃ d, HexDigit b d := by
  induction n generalizing val t with
  | zero => simp [readHexDigits]
  | succ n ih =>
    unfold readHexDigits
    cases hPeek : t.peek with
    | none =>
      have hRest : t.rest = [] := by
        rw [peek_eq] at hPeek
        exact List.head?_eq_none_iff.mp hPeek
      simp [hRest, IsEof]
    | some b =>
      cases hDigit : hexDigit b with
      | none =>
        obtain ⟨r, hRest⟩ := rest_of_peek hPeek
        have hNot : ¬ ∃ d, HexDigit b d := by
          rintro ⟨d, hd⟩
          cases hDigit.symm.trans (hexDigit_iff.mpr hd)
        simp [hRest, IsEof, hNot, hDigit]
      | some d =>
        have hd := hexDigit_iff.mp hDigit
        have hRest := rest_cons_of_peek hPeek (not_continuation_of_le (hexDigit_bounds hd).1)
        simp only [hDigit, ih, hRest, List.length_cons, List.forall_mem_cons,
          Nat.add_lt_add_iff_right]
        exact ⟨fun h => ⟨h.1, ⟨d, hd⟩, h.2⟩, fun h => ⟨h.1, h.2.2⟩⟩

theorem readHex4_eof_iff : (∃ e, t.readHex4 start = .error e ∧ IsEof e) ↔ CutHex t.rest :=
  readHexDigits_eof_iff

theorem readLowSurrogate_eof_iff {high : Nat} :
    (∃ e, t.readLowSurrogate start high = .error e ∧ IsEof e) ↔
      ∃ w, t.rest = 0x5C :: 0x75 :: w ∧ CutHex w := by
  unfold readLowSurrogate
  by_cases hPeek : t.peek = some 0x5C ∧ t.peekAt 1 = some 0x75
  · have hRest : t.rest = 0x5C :: 0x75 :: t.advance.advance.rest :=
      (reads_escape_iff.mpr ⟨hPeek, Reads.refl _⟩).rest
    have hCut : (∃ e, t.advance.advance.readHex4 start = .error e ∧ IsEof e) ↔ _ :=
      readHex4_eof_iff
    rw [if_pos hPeek, hRest]
    constructor
    · rintro ⟨e, he, hEof⟩
      split at he
      · rename_i e' hHex
        cases he
        exact ⟨_, rfl, hCut.mp ⟨e, hHex, hEof⟩⟩
      · exfalso
        obtain ⟨pos, rfl⟩ := hEof
        split at he
        · split at he <;> cases he
        · cases he
    · rintro ⟨w, hw, hHex⟩
      obtain ⟨-, hw⟩ := List.cons.inj hw
      obtain ⟨-, rfl⟩ := List.cons.inj hw
      obtain ⟨e, he, hEof⟩ := hCut.mpr hHex
      exact ⟨e, by rw [he], hEof⟩
  · rw [if_neg hPeek]
    constructor
    · rintro ⟨e, he, pos, rfl⟩
      cases he
    · rintro ⟨w, hw, -⟩
      have hReads := reads_past (r := []) (by rw [hw, List.append_nil])
      exact absurd (reads_escape_iff.mp hReads).1 hPeek

theorem readUnicodeEscape_eof_iff : (∃ e, t.readUnicodeEscape start = .error e ∧ IsEof e) ↔
    CutHex t.rest ∨ ∃ w w' high, t.rest = w ++ 0x5C :: 0x75 :: w' ∧ Hex4 w high ∧
      HighSurrogate high ∧ CutHex w' := by
  unfold readUnicodeEscape
  constructor
  · rintro ⟨e, he, hEof⟩
    split at he
    · rename_i e' hHex
      cases he
      exact Or.inl (readHex4_eof_iff.mp ⟨e, hHex, hEof⟩)
    · rename_i high t₁ hHex
      obtain ⟨w, hw, hReads⟩ := readHex4_iff.mp hHex
      split_ifs at he with hHigh hLow
      · obtain ⟨w', hRest, hCut⟩ := readLowSurrogate_eof_iff.mp ⟨e, he, hEof⟩
        exact Or.inr ⟨w, w', high, by rw [hReads.rest, hRest], hw, isHighSurrogate_iff.mp hHigh,
          hCut⟩
      · cases he
        obtain ⟨pos, ⟨⟩⟩ := hEof
      · exfalso
        obtain ⟨pos, rfl⟩ := hEof
        split at he <;> cases he
  · rintro (hCut | ⟨w, w', high, hRest, hw, hHigh, hCut⟩)
    · obtain ⟨e, he, hEof⟩ := readHex4_eof_iff.mpr hCut
      exact ⟨e, by rw [he], hEof⟩
    · have hReads := reads_past hRest
      have hLow : ∃ e, (t.past w).readLowSurrogate start high = .error e ∧ IsEof e :=
        readLowSurrogate_eof_iff.mpr ⟨w', rest_past hRest, hCut⟩
      obtain ⟨e, he, hEof⟩ := hLow
      refine ⟨e, ?_, hEof⟩
      rw [readHex4_iff.mpr ⟨w, hw, hReads⟩]
      simp only
      rw [if_pos (isHighSurrogate_iff.mpr hHigh), he]

theorem shortEscape_u : shortEscape 0x75 = none := rfl

theorem readEscape_eof_iff (hPeek : t.peek = some 0x5C) :
    (∃ e, t.readEscape = .error e ∧ IsEof e) ↔ CutEscape t.rest := by
  have hSlash := rest_cons_of_peek hPeek rfl
  unfold readEscape
  rw [hSlash]
  dsimp only
  cases hNext : t.advance.peek with
  | none =>
    have hRest : t.advance.rest = [] := by
      rw [peek_eq] at hNext
      exact List.head?_eq_none_iff.mp hNext
    rw [hRest]
    exact iff_of_true ⟨_, rfl, _, rfl⟩ CutEscape.backslash
  | some esc =>
    by_cases hu : esc = 0x75
    · subst hu
      have hRest := rest_cons_of_peek hNext rfl
      simp only [shortEscape_u, if_true, readUnicodeEscape_eof_iff]
      rw [hRest]
      constructor
      · rintro (hCut | ⟨w, w', high, hEq, hw, hHigh, hCut⟩)
        · exact CutEscape.unicode hCut
        · rw [hEq]
          exact CutEscape.pair hw hHigh hCut
      · intro h
        generalize t.advance.advance.rest = r at h
        cases h with
        | unicode hCut => exact Or.inl hCut
        | pair hw hHigh hCut => exact Or.inr ⟨_, _, _, rfl, hw, hHigh, hCut⟩
    · obtain ⟨r, hRest⟩ := rest_of_peek hNext
      rw [hRest]
      refine iff_of_false ?_ ?_
      · rintro ⟨e, he, pos, rfl⟩
        simp only [if_neg hu] at he
        split at he <;> cases he
      · intro h
        cases h <;> exact hu rfl

/-! ## Strings -/

theorem readUtf8Char_not_eof (hPeek : t.peek = some b) (h : t.readUtf8Char = .error e) :
    ¬ IsEof e := by
  rintro ⟨pos, rfl⟩
  unfold readUtf8Char at h
  simp only [hPeek] at h
  split_ifs at h
  · cases h
  · cases h
  · split at h <;> cases h

/-- A cut string has no byte that stops the loop before its end. -/
theorem readStringLoop_eof_iff {out : Str} :
    (∃ e, readStringLoop start t out = .error e ∧ IsEof e) ↔
      ∃ u s v, Chars u s ∧ CutEscape v ∧ t.rest = u ++ v := by
  constructor
  · rintro ⟨e, h, hEof⟩
    fun_induction readStringLoop start t out with
    | case1 t out hb =>
      have hRest : t.rest = [] := by
        rw [peek_eq] at hb
        exact List.head?_eq_none_iff.mp hb
      exact ⟨[], [], [], Chars.nil, CutEscape.absent, hRest⟩
    | case2 t out hb => cases h
    | case3 t out e' he hb hne =>
      cases h
      exact ⟨[], [], _, Chars.nil, (readEscape_eof_iff hb).mp ⟨e, he, hEof⟩, rfl⟩
    | case4 t out c t₁ he hb hne ih =>
      obtain ⟨w, hw, hReads⟩ := (readEscape_iff hb).mp he
      obtain ⟨u, s, v, hu, hv, hRest⟩ := ih h
      refine ⟨_, _, v, Chars.cons hw hu, hv, ?_⟩
      rw [hReads.rest, hRest, List.append_assoc]
    | case5 t out b hb =>
      cases h
      obtain ⟨pos, ⟨⟩⟩ := hEof
    | case6 t out b hb h₁ h₂ h₃ h₄ ih =>
      obtain ⟨u, s, v, hu, hv, hRest⟩ := ih h
      refine ⟨_, _, v, Chars.cons (spelling_ascii h₁ h₂ h₃ h₄) hu, hv, ?_⟩
      rw [rest_cons_of_peek hb (not_continuation_of_le h₄), hRest]
      rfl
    | case7 t out b hb h₁ h₂ h₃ h₄ e' he =>
      cases h
      exact absurd hEof (readUtf8Char_not_eof hb he)
    | case8 t out b hb h₁ h₂ h₃ h₄ c t₁ he ih =>
      have hReads := (readUtf8Char_iff hb h₄).mp he
      obtain ⟨u, s, v, hu, hv, hRest⟩ := ih h
      refine ⟨_, _, v, Chars.cons (spelling_utf8 hb h₄ hReads) hu, hv, ?_⟩
      rw [hReads.rest, hRest, List.append_assoc]
  · rintro ⟨u, s, v, hu, hv, hRest⟩
    induction hu generalizing t out with
    | nil =>
      change t.rest = v at hRest
      by_cases hNil : v = []
      · have hPeek := peek_of_rest_nil (hRest.trans hNil)
        refine ⟨.unexpectedEof start, ?_, _, rfl⟩
        rw [readStringLoop]
        grind
      · have hPeek : t.peek = some 0x5C := by
          rw [peek_eq, hRest]
          cases hv
          · exact absurd rfl hNil
          all_goals rfl
        obtain ⟨e, he, hEof⟩ := (readEscape_eof_iff hPeek).mpr (hRest ▸ hv)
        refine ⟨e, ?_, hEof⟩
        rw [readStringLoop]
        grind
    | cons hw _ ih =>
      rw [List.append_assoc] at hRest
      rw [readStringLoop_spelling hw (reads_past hRest)]
      exact ih (rest_past hRest)

/-! ## The input -/

theorem readToken_eof_iff (std : StdF64) (hPeek : t.peek = some b) :
    (∃ e, t.readToken std b = .error e ∧ IsEof e) ↔ CutString t.rest := by
  obtain ⟨r, hRest⟩ := rest_of_peek hPeek
  by_cases hQuote : b = 0x22
  · subst hQuote
    rw [readToken_quote, readString, readStringLoop_eof_iff, rest_cons_of_peek hPeek rfl]
    constructor
    · rintro ⟨u, s, v, hu, hv, hRest⟩
      rw [hRest]
      exact CutString.mk hu hv
    · intro h
      generalize t.advance.rest = r at h
      cases h with
      | mk hu hv => exact ⟨_, _, _, hu, hv, rfl⟩
  · rw [hRest]
    refine iff_of_false ?_ ?_
    · rintro ⟨e, he, pos, rfl⟩
      exact (readToken_error he hQuote).2 pos rfl
    · intro h
      cases h
      exact hQuote rfl

theorem nextToken_eof_iff (std : StdF64) (hEnd : t.isAtEnd = false) :
    (∃ e, t.nextToken std = .error e ∧ IsEof e) ↔ CutString t.rest := by
  unfold nextToken
  dsimp only
  cases hPeek : t.peek with
  | none =>
    rw [Bool.eq_false_iff, ne_eq, isAtEnd_iff] at hEnd
    rw [peek_eq] at hPeek
    exact absurd (List.head?_eq_none_iff.mp hPeek) hEnd
  | some b =>
    rw [← readToken_eof_iff std hPeek]
    cases hRead : t.readToken std b <;> simp [hRead]

end CjsonRs.Core.Tokeniser

namespace CjsonRs.Rfc

open CjsonRs.Core CjsonRs.Core.Tokeniser Library

variable {std : StdF64} {input : List UInt8}

/-- The tokens of the input reach its end: only whitespace follows them, or a string that the
end of the input cuts off, and then some value within the nesting limit starts with them. -/
def ReachesEnd (std : StdF64) (limit : Nat) (input : List UInt8) : Prop :=
  ∃ tks t', Lexed std (new input) tks t' ∧
    (Ws t'.rest ∨ (∃ l w, Ws l ∧ CutString w ∧ t'.rest = l ++ w) ∧ Continues limit tks)

/-- What the two loops of the tokeniser do on an input that ends in a cut string. -/
theorem tokenise_cut {tks : List PositionedToken} {t' : Tokeniser} {l w : List UInt8}
    (hRun : Lexed std (new input) tks t') (hl : Ws l) (hw : CutString w)
    (hRest : t'.rest = l ++ w) :
    (∃ e, tokenise std input = .error e ∧ IsEof e) ∧ (tokenisePrefix std input).1 = tks := by
  obtain ⟨r, hr⟩ : ∃ r, w = 0x22 :: r := by
    cases hw
    exact ⟨_, rfl⟩
  have hSkip : t'.skipWs = t'.past l := by
    refine skipWs_eq hRest (fun b hb => isWs_iff.mpr (hl b hb)) fun b hb => ?_
    rw [hr] at hb
    cases hb
    rfl
  have hAfter : t'.skipWs.rest = w := by rw [hSkip, rest_past hRest]
  have hEnd : t'.skipWs.isAtEnd = false := by
    rw [Bool.eq_false_iff, ne_eq, isAtEnd_iff, hAfter, hr]
    exact List.cons_ne_nil _ _
  obtain ⟨e, he, hEof⟩ := (nextToken_eof_iff std hEnd).mpr (hAfter ▸ hw)
  refine ⟨⟨e, ?_, hEof⟩, ?_⟩
  · rw [tokenise, tokeniseLoop_lexed hRun, tokeniseLoop, if_neg (by simp [hEnd])]
    split
    · rename_i h
      exact congrArg _ (Except.error.inj (h.symm.trans he))
    · rename_i h
      cases he.symm.trans h
  · obtain ⟨m, hm⟩ := tokenisePrefixLoop_lexed hRun [] 0
    rw [tokenisePrefix, hm, tokenisePrefixLoop, if_neg (by simp [hEnd])]
    split
    · rfl
    · rename_i h
      cases he.symm.trans h

/-- `ReachesEnd`, by what the tokeniser returns. -/
theorem reachesEnd_iff {limit : Nat} : ReachesEnd std limit input ↔
    (∃ tks, tokenise std input = .ok tks) ∨
      (∃ pos, tokenise std input = .error (.unexpectedEof pos)) ∧
        Continues limit (tokenisePrefix std input).1 := by
  constructor
  · rintro ⟨tks, t', hRun, hWs | ⟨⟨l, w, hl, hw, hRest⟩, hContinues⟩⟩
    · exact Or.inl ⟨_, by rw [tokenise, tokeniseLoop_lexed hRun, tokeniseLoop_end hWs]⟩
    · obtain ⟨⟨e, he, pos, rfl⟩, hTokens⟩ := tokenise_cut hRun hl hw hRest
      exact Or.inr ⟨⟨pos, he⟩, by rwa [hTokens]⟩
  · obtain ⟨tks, t', hRun, hTokens, hStop⟩ := tokenise_stops std input
    rw [hTokens]
    rcases hStop with ⟨hWs, -⟩ | ⟨l, t₁, e, hl, hReads, hEnd, hNext, hTokenise⟩
    · exact fun _ => ⟨tks, t', hRun, Or.inl hWs⟩
    · rintro (⟨tks', hOk⟩ | ⟨⟨pos, hError⟩, hContinues⟩)
      · cases hTokenise.symm.trans hOk
      · cases hTokenise.symm.trans hError
        have hCut := (nextToken_eof_iff std hEnd).mp ⟨_, hNext, pos, rfl⟩
        exact ⟨tks, t', hRun, Or.inr ⟨⟨l, _, hl, hCut, hReads.rest⟩, hContinues⟩⟩

end CjsonRs.Rfc
