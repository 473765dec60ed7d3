import CjsonRs.Rfc.Prefix
import CjsonRs.Rfc.Stuck

/-!
# Positions of errors

An error of the tokeniser is named at the start of the token that cannot be read, at the
start of an escape in it or at a byte of a string, always in front of the end of the input; an
error of the parser is named at the start of a token (`tokenise_stops`, `parser_error_kind`).
So every error of `parse` and of `parse_prefix` lies inside the input.
-/

namespace CjsonRs.Core.Tokeniser

open Rfc Library

variable {std : StdF64} {t t' : Tokeniser} {start : Position} {e : Error} {b : UInt8}

/-! ## Errors of the readers -/

theorem readHexDigits_position {n val : Nat} (h : readHexDigits start n val t = .error e) :
    e.position = start := by
  induction n generalizing val t with
  | zero => cases h
  | succ n ih =>
    unfold readHexDigits at h
    split at h
    · cases h
      rfl
    · split at h
      · cases h
        rfl
      · exact ih h

theorem readLowSurrogate_position {high : Nat} (h : t.readLowSurrogate start high = .error e) :
    e.position = start := by
  unfold readLowSurrogate at h
  split at h
  · split at h
    · rename_i e' hHex
      cases h
      exact readHexDigits_position hHex
    · split at h
      · split at h
        · cases h
        · cases h
          rfl
      · cases h
        rfl
  · cases h
    rfl

theorem readUnicodeEscape_position (h : t.readUnicodeEscape start = .error e) :
    e.position = start := by
  unfold readUnicodeEscape at h
  split at h
  · rename_i e' hHex
    cases h
    exact readHexDigits_position hHex
  · split at h
    · exact readLowSurrogate_position h
    · split at h
      · cases h
        rfl
      · split at h
        · cases h
        · cases h
          rfl

theorem readEscape_position (h : t.readEscape = .error e) : e.position = t.pos := by
  unfold readEscape at h
  dsimp only at h
  split at h
  · cases h
    rfl
  · split at h
    · cases h
    · split_ifs at h
      · exact readUnicodeEscape_position h
      · cases h
        rfl

theorem readUtf8Char_position (h : t.readUtf8Char = .error e) : e.position = t.pos := by
  unfold readUtf8Char at h
  dsimp only at h
  split at h
  · cases h
    rfl
  · split_ifs at h
    · cases h
      rfl
    · cases h
      rfl
    · split at h
      · cases h
        rfl
      · cases h
        rfl
      · cases h

/-- An error in a string is named at its opening quote or behind complete characters of it. -/
theorem readStringLoop_position {out : Str} (h : readStringLoop start t out = .error e) :
    e.position = start ∨
      ∃ w s t' b, Chars w s ∧ Reads t w t' ∧ t'.peek = some b ∧ e.position = t'.pos := by
  fun_induction readStringLoop start t out with
  | case1 t out hb =>
    cases h
    exact Or.inl rfl
  | case2 t out hb => cases h
  | case3 t out e' he hb hne =>
    cases h
    exact Or.inr ⟨[], [], t, _, Chars.nil, Reads.refl t, hb, readEscape_position he⟩
  | case4 t out c t₁ he hb hne ih =>
    obtain ⟨w, hw, hReads⟩ := (readEscape_iff hb).mp he
    refine (ih h).imp_right ?_
    rintro ⟨w', s, t', b, hw', hReads', hPeek, hPos⟩
    exact ⟨_, _, t', b, Chars.cons hw hw', hReads.trans hReads', hPeek, hPos⟩
  | case5 t out b hb =>
    cases h
    exact Or.inr ⟨[], [], t, b, Chars.nil, Reads.refl t, hb, rfl⟩
  | case6 t out b hb h₁ h₂ h₃ h₄ ih =>
    have hReads := reads_advance hb (not_continuation_of_le h₄)
    refine (ih h).imp_right ?_
    rintro ⟨w', s, t', b', hw', hReads', hPeek, hPos⟩
    exact ⟨_, _, t', b', Chars.cons (spelling_ascii h₁ h₂ h₃ h₄) hw', hReads.trans hReads', hPeek,
      hPos⟩
  | case7 t out b hb h₁ h₂ h₃ h₄ e' he =>
    cases h
    exact Or.inr ⟨[], [], t, b, Chars.nil, Reads.refl t, hb, readUtf8Char_position he⟩
  | case8 t out b hb h₁ h₂ h₃ h₄ c t₁ he ih =>
    have hReads := (readUtf8Char_iff hb h₄).mp he
    refine (ih h).imp_right ?_
    rintro ⟨w', s, t', b', hw', hReads', hPeek, hPos⟩
    exact ⟨_, _, t', b', Chars.cons (spelling_utf8 hb h₄ hReads) hw', hReads.trans hReads', hPeek,
      hPos⟩

theorem readLiteral_error_eq {expected : List UInt8} {tok : Token}
    (h : t.readLiteral expected tok = .error e) : e = .invalidLiteral t.pos := by
  have hExpected : ∀ {start : Position} {expected : List UInt8} {t : Tokeniser},
      readExpected start expected t = .error e → e = .invalidLiteral start := by
    intro start expected t h
    induction expected generalizing t with
    | nil => cases h
    | cons exp expected ih =>
      unfold readExpected at h
      split at h
      · split_ifs at h
        · exact ih h
        · cases h
          rfl
      · cases h
        rfl
  unfold readLiteral at h
  rcases bind_eq_error.mp h with hRead | ⟨t', -, hPure⟩
  · exact hExpected hRead
  · cases hPure

theorem readInt_error_eq (h : t.readInt start = .error e) : e = .invalidNumber start := by
  unfold readInt at h
  split at h
  · cases h
    rfl
  · split_ifs at h
    cases h
    rfl

theorem readDigits1_error_eq (h : t.readDigits1 start = .error e) : e = .invalidNumber start := by
  unfold readDigits1 at h
  split at h
  · cases h
    rfl
  · split_ifs at h
    cases h
    rfl

theorem readFrac_error_eq (h : t.readFrac start = .error e) : e = .invalidNumber start := by
  unfold readFrac at h
  split_ifs at h
  exact readDigits1_error_eq h

theorem readExp_error_eq (h : t.readExp start = .error e) : e = .invalidNumber start := by
  unfold readExp at h
  split_ifs at h
  exact readDigits1_error_eq h

theorem readNumber_error_eq (h : t.readNumber std = .error e) :
    e = .invalidNumber t.pos ∨ e = .numberOutOfRange t.pos := by
  unfold readNumber at h
  rcases bind_eq_error.mp h with hInt | ⟨t₁, -, h⟩
  · exact Or.inl (readInt_error_eq hInt)
  rcases bind_eq_error.mp h with hFrac | ⟨t₂, -, h⟩
  · exact Or.inl (readFrac_error_eq hFrac)
  rcases bind_eq_error.mp h with hExp | ⟨t₃, -, h⟩
  · exact Or.inl (readExp_error_eq hExp)
  split at h
  · cases h
    exact Or.inl rfl
  · split at h
    · cases h
      exact Or.inl rfl
    · split_ifs at h
      cases h
      exact Or.inr rfl

/-- The tokens other than strings fail at their first byte, and never for want of input. -/
theorem readToken_error (h : t.readToken std b = .error e) (hQuote : b ≠ 0x22) :
    e.position = t.pos ∧ ∀ pos, e ≠ .unexpectedEof pos := by
  have hLiteral : ∀ {expected : List UInt8} {tok : Token}, t.readLiteral expected tok = .error e →
      e.position = t.pos ∧ ∀ pos, e ≠ .unexpectedEof pos := by
    intro expected tok h
    rw [readLiteral_error_eq h]
    exact ⟨rfl, nofun⟩
  unfold readToken at h
  split at h
  · cases h
  · rw [if_neg hQuote] at h
    split_ifs at h
    · exact hLiteral h
    · exact hLiteral h
    · exact hLiteral h
    · rcases readNumber_error_eq h with rfl | rfl
      · exact ⟨rfl, nofun⟩
      · exact ⟨rfl, nofun⟩
    · cases h
      exact ⟨rfl, nofun⟩

/-- A quote starts a string. -/
theorem readToken_quote (t : Tokeniser) : t.readToken std 0x22 = t.readString := by
  unfold readToken
  rw [show structural 0x22 = none from rfl]
  simp

/-- A position between a tokeniser and the end of its input. -/
def Inside (t : Tokeniser) (pos : Position) : Prop :=
  t.pos.offset ≤ pos.offset ∧ pos.offset < t.input.length

theorem inside_self (h : t.peek = some b) : t.Inside t.pos :=
  ⟨le_rfl, (List.getElem?_eq_some_iff.mp h).1⟩

theorem Reads.offset_le {w : List UInt8} (h : Reads t w t') : t.pos.offset ≤ t'.pos.offset := by
  rw [h.eq, past_pos, Position.past_offset]
  exact Nat.le_add_right _ _

theorem Reads.input_eq {w : List UInt8} (h : Reads t w t') : t'.input = t.input := by
  rw [h.eq, past_input]

theorem Reads.inside {w : List UInt8} {pos : Position} (h : Reads t w t') (hPos : t'.Inside pos) :
    t.Inside pos :=
  ⟨h.offset_le.trans hPos.1, h.input_eq ▸ hPos.2⟩

/-- An error of a token is named at its first byte, or behind complete characters of a string. -/
theorem nextToken_error_position (hEnd : t.isAtEnd = false) (h : t.nextToken std = .error e) :
    (∃ b, t.peek = some b) ∧ (e.position = t.pos ∨
      ∃ w s t' b, Chars w s ∧ Reads t (0x22 :: w) t' ∧ t'.peek = some b ∧ e.position = t'.pos) := by
  unfold nextToken at h
  dsimp only at h
  split at h
  · rename_i hPeek
    have := List.getElem?_eq_none_iff.mp hPeek
    simp only [isAtEnd, decide_eq_false_iff_not] at hEnd
    exact absurd this hEnd
  · rename_i b hPeek
    refine ⟨⟨b, hPeek⟩, ?_⟩
    split at h
    · rename_i e' hRead
      cases h
      by_cases hQuote : b = 0x22
      · subst hQuote
        rw [readToken_quote] at hRead
        refine (readStringLoop_position hRead).imp_right ?_
        rintro ⟨w, s, t', b', hw, hReads, hPeek', hPos⟩
        exact ⟨w, s, t', b', hw, (reads_advance hPeek rfl).trans hReads, hPeek', hPos⟩
      · exact Or.inl (readToken_error hRead hQuote).1
    · cases h

/-- An error of a token is named inside what is left of the input. -/
theorem nextToken_error_inside (hEnd : t.isAtEnd = false) (h : t.nextToken std = .error e) :
    t.Inside e.position := by
  obtain ⟨⟨b, hPeek⟩, hPos | ⟨w, s, t', b', -, hReads, hPeek', hPos⟩⟩ :=
    nextToken_error_position hEnd h
  · exact hPos ▸ inside_self hPeek
  · exact hPos ▸ hReads.inside (inside_self hPeek')

/-! ## Where the tokeniser stops -/

/-- A run of the tokeniser moves forward, and its tokens start in front of its end. -/
theorem Lexed.inside {tks : List PositionedToken} (h : Lexed std t tks t') :
    t.pos.offset ≤ t'.pos.offset ∧ t'.input = t.input ∧
      ∀ tk ∈ tks, tk.pos.offset < t'.pos.offset ∧ t.Inside tk.pos := by
  induction h with
  | nil t => exact ⟨le_rfl, rfl, nofun⟩
  | @cons t t₁ t₂ t' l tk tks _ hReads hNext _ ih =>
    obtain ⟨hLe, hInput, hTokens⟩ := ih
    obtain ⟨w, hw, hRead, hPos, -⟩ := nextToken_sound hNext
    obtain ⟨b, w, rfl, -⟩ := hw.head
    have hAll := hReads.trans hRead
    have hOffset : t₁.pos.offset < t₂.pos.offset := by
      rw [hRead.eq, past_pos, Position.past_offset]
      simp
    refine ⟨hAll.offset_le.trans hLe, hInput.trans hAll.input_eq, fun tk' hMem => ?_⟩
    rcases List.mem_cons.mp hMem with rfl | hMem
    · rw [hPos]
      exact ⟨hOffset.trans_le hLe, hReads.inside (inside_self hRead.peek)⟩
    · exact ⟨(hTokens tk' hMem).1, hAll.inside (hTokens tk' hMem).2⟩

/-- Both loops of the tokeniser read the same tokens; the strict one returns them when
only whitespace is left, and the error of the next token otherwise. -/
theorem tokenise_stops (std : StdF64) (input : List UInt8) :
    ∃ tks t', Lexed std (new input) tks t' ∧ (tokenisePrefix std input).1 = tks ∧
      (Ws t'.rest ∧ tokenise std input = .ok tks ∨
        ∃ l t₁ e, Ws l ∧ Reads t' l t₁ ∧ t₁.isAtEnd = false ∧ t₁.nextToken std = .error e ∧
          tokenise std input = .error e) := by
  suffices hLoop : ∀ t out n, ∃ tks t', Lexed std t tks t' ∧
      (tokenisePrefixLoop std t out n).1 = out ++ tks ∧
      (Ws t'.rest ∧ tokeniseLoop std t out = .ok (out ++ tks) ∨
        ∃ l t₁ e, Ws l ∧ Reads t' l t₁ ∧ t₁.isAtEnd = false ∧ t₁.nextToken std = .error e ∧
          tokeniseLoop std t out = .error e) from hLoop (new input) [] 0
  intro t out n
  fun_induction tokenisePrefixLoop std t out n with
  | case1 t out n hEnd =>
    obtain ⟨l, hl, hReads⟩ := skipWs_sound t
    refine ⟨[], t, Lexed.nil t, (List.append_nil _).symm, Or.inl ⟨?_, ?_⟩⟩
    · rwa [hReads.rest, isAtEnd_iff.mp hEnd, List.append_nil]
    · rw [tokeniseLoop, if_pos hEnd, List.append_nil]
  | case2 t out n hEnd e he =>
    obtain ⟨l, hl, hReads⟩ := skipWs_sound t
    refine ⟨[], t, Lexed.nil t, (List.append_nil _).symm,
      Or.inr ⟨l, _, e, hl, hReads, Bool.eq_false_iff.mpr hEnd, he, ?_⟩⟩
    rw [tokeniseLoop, if_neg hEnd]
    split
    · rename_i h
      cases he.symm.trans h
      rfl
    · rename_i h
      cases he.symm.trans h
  | case3 t out n hEnd tk t₁ hNext ih =>
    obtain ⟨tks, t', hLexed, hEq, hStop⟩ := ih
    obtain ⟨l, hl, hReads⟩ := skipWs_sound t
    have hSame : tokeniseLoop std t out = tokeniseLoop std t₁ (out ++ [tk]) := by
      conv_lhs => rw [tokeniseLoop, if_neg hEnd]
      split
      · rename_i h
        cases hNext.symm.trans h
      · rename_i h
        cases hNext.symm.trans h
        rfl
    refine ⟨tk :: tks, t', Lexed.cons hl hReads hNext hLexed, by rw [hEq]; simp, ?_⟩
    rw [hSame]
    simpa using hStop

end CjsonRs.Core.Tokeniser

namespace CjsonRs.Rfc

open CjsonRs.Core CjsonRs.Core.Tokeniser Library

variable {std : StdF64}

/-! ## Errors of the parser -/

/-- Every position the parser names is that of a token, or the start when there is none. -/
theorem peekPos_token (p : Parser) :
    (∃ tk ∈ p.tokens, p.peekPos = tk.pos) ∨ p.tokens = [] ∧ p.peekPos = Position.start := by
  unfold Parser.peekPos
  cases h : p.tokens[p.cursor]? with
  | some tk => exact Or.inl ⟨tk, List.mem_of_getElem? h, rfl⟩
  | none =>
    cases hLast : p.tokens.getLast? with
    | some tk => exact Or.inl ⟨tk, List.mem_of_getLast? hLast, rfl⟩
    | none => exact Or.inr ⟨List.getLast?_eq_none_iff.mp hLast, rfl⟩

theorem Why.error_position (w : Why) (pos : Position) : (w.error pos).position = pos := by
  cases w <;> rfl

/-- An error of the parser is named at a token, or at the start when there is none. -/
theorem parser_error_position {tks : List PositionedToken} {limit : Nat} {e : Error}
    (h : (parserOf tks limit).parseValue = .error e) :
    (∃ tk ∈ tks, e.position = tk.pos) ∨ e.position = Position.start := by
  obtain ⟨i, w, -, rfl⟩ := Parser.stuck_of_parseValue (Nat.zero_le _) e h
  rw [Why.error_position]
  exact (peekPos_token ((parserOf tks limit).skip i)).imp_right fun hNil => hNil.2

/-- Some value within the nesting limit starts with these tokens. -/
def Continues (limit : Nat) (tks : List PositionedToken) : Prop :=
  ∃ us v, TValue (tks.map PositionedToken.token ++ us) v ∧ v.depth ≤ limit

/-- The parser reports the end of the input exactly when more tokens could make a value of
what it has read; every other error is named at a token. -/
theorem parser_error_kind {tks : List PositionedToken} {limit : Nat} {e : Error}
    (h : (parserOf tks limit).parseValue = .error e) :
    (∃ pos, e = .unexpectedEof pos) ∧ Continues limit tks ∨
      (∀ pos, e ≠ .unexpectedEof pos) ∧ ¬ Continues limit tks ∧
        ∃ tk ∈ tks, e.position = tk.pos := by
  obtain ⟨i, w, hStuck, rfl⟩ := Parser.stuck_of_parseValue (Nat.zero_le _) e h
  change ValueStuck (limit - 0) (tks.map PositionedToken.token) i w at hStuck
  by_cases hw : w = .eof
  · subst hw
    obtain ⟨us, v, hT, hDepth⟩ := hStuck.continued rfl
    exact Or.inl ⟨⟨_, rfl⟩, us, v, hT, hDepth⟩
  · refine Or.inr ⟨?_, ?_, ?_⟩
    · cases w
      · exact absurd rfl hw
      · exact nofun
      · exact nofun
    · rintro ⟨us, v, hT, hDepth⟩
      -- the same tokens, followed by the rest of the value
      have hRest : (parserOf (tks ++ us.map fun tok => ⟨tok, .start, .start⟩) limit).rest
          = tks.map PositionedToken.token ++ us := by
        rw [parserOf_rest, List.map_append, List.map_map]
        exact congrArg _ (List.map_id us)
      obtain ⟨e', hError⟩ := Parser.valueStuck_fails hStuck hw _ us hRest
        (by rw [Nat.sub_zero]; exact Nat.zero_add limit)
      obtain ⟨out, hOut, -⟩ := Parser.parseValue_complete hT _ [] (by rw [hRest, List.append_nil])
        (by simpa [parserOf] using hDepth)
      cases hError.symm.trans hOut
    · rw [Why.error_position]
      refine (peekPos_token ((parserOf tks limit).skip i)).resolve_right ?_
      rintro ⟨hNil, -⟩
      change tks = [] at hNil
      subst hNil
      exact hw (Parser.stuck_nil.1 hStuck)

/-- The offset of an error lies inside the input, unless the input ended too early. -/
def ErrorInside (input : List UInt8) (e : Error) : Prop :=
  (∃ pos, e = .unexpectedEof pos) ∨ e.position.offset < input.length

theorem parser_error_inside {input : List UInt8} {tks : List PositionedToken} {t' : Tokeniser}
    {limit : Nat} {e : Error} (hRun : Lexed std (new input) tks t')
    (h : (parserOf tks limit).parseValue = .error e) : ErrorInside input e := by
  rcases parser_error_kind h with ⟨hEof, -⟩ | ⟨-, -, tk, hMem, hPos⟩
  · exact Or.inl hEof
  · exact Or.inr (hPos ▸ (hRun.inside.2.2 tk hMem).2.2)

theorem parsePrefix_error_inside {input : List UInt8} {e : Error}
    (h : parsePrefix std input = .error e) : ErrorInside input e := by
  obtain ⟨tks, t', hRun, hTokens, -⟩ := tokenise_stops std input
  unfold parsePrefix at h
  dsimp only at h
  split at h
  · rename_i e' he
    cases h
    rw [hTokens] at he
    exact parser_error_inside hRun he
  · cases h

theorem parseWithOptions_error_inside {input : List UInt8} {opts : ParserOptions} {e : Error}
    (h : parseWithOptions std input opts = .error e) : ErrorInside input e := by
  obtain ⟨tks, t', hRun, -, hStop⟩ := tokenise_stops std input
  unfold parseWithOptions at h
  rcases hStop with ⟨-, hTokenise⟩ | ⟨l, t₁, e', -, hReads, hEnd, hNext, hTokenise⟩
  · simp only [hTokenise] at h
    split at h
    · rename_i e' he
      cases h
      exact parser_error_inside hRun he
    · rename_i r hValue
      split at h
      · rename_i hCursor
        cases h
        have hMem : r.next.tokens[r.next.cursor] ∈ tks := by
          have hTokens : r.next.tokens ⊆ tks := by rw [r.ahead.tokens]; exact List.Subset.refl tks
          exact hTokens (List.getElem_mem hCursor)
        exact Or.inr (hRun.inside.2.2 _ hMem).2.2
      · cases h
  · simp only [hTokenise] at h
    cases h
    right
    have hInside := (nextToken_error_inside hEnd hNext).2
    rw [hReads.input_eq, hRun.inside.2.1] at hInside
    exact hInside

end CjsonRs.Rfc
