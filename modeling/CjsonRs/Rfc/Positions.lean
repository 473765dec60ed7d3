import CjsonRs.Rfc.Errors
import CjsonRs.Rfc.LongestNumber

/-!
# Positions are true

The tokeniser moves over whole characters only, so every position it stores is that of a
prefix of the input that is valid UTF-8, with the line and the column of its end. The parser
makes no position of its own.
-/

namespace CjsonRs.Rfc

open CjsonRs.Core CjsonRs.Core.Tokeniser Library

variable {std : StdF64} {input w w' : List UInt8}

/-! ## Texts of whole characters -/

/-- The bytes are those of whole characters. -/
def Encoded (w : List UInt8) : Prop := ∃ s, w = encode s

theorem encoded_nil : Encoded [] := ⟨[], rfl⟩

theorem Encoded.append (h : Encoded w) (h' : Encoded w') : Encoded (w ++ w') := by
  obtain ⟨s, rfl⟩ := h
  obtain ⟨s', rfl⟩ := h'
  exact ⟨s ++ s', (encode_append s s').symm⟩

theorem encoded_of_ascii (h : ∀ b ∈ w, b ≤ 0x7F) : Encoded w := by
  refine ⟨w.map fun b => Char.ofNat b.toNat, ?_⟩
  induction w with
  | nil => rfl
  | cons b w ih =>
    rw [List.map_cons, encode_cons, encode_ofNat_byte (h b List.mem_cons_self),
      ← ih fun c hc => h c (List.mem_cons_of_mem b hc), List.singleton_append]

theorem encoded_of_all (h : w.all (· ≤ 0x7F) = Bool.true) : Encoded w :=
  encoded_of_ascii fun b hb => of_decide_eq_true (List.all_eq_true.mp h b hb)

theorem Ws.encoded (h : Ws w) : Encoded w := by
  refine encoded_of_ascii fun b hb => ?_
  rcases h b hb with rfl | rfl | rfl | rfl <;> decide

theorem Hex4.ascii {n : Nat} (h : Hex4 w n) : ∀ b ∈ w, b ≤ 0x7F := by
  obtain ⟨ha, hb, hc, hd⟩ := h
  intro x hx
  simp only [List.mem_cons, List.not_mem_nil, or_false] at hx
  rcases hx with rfl | rfl | rfl | rfl
  · exact (hexDigit_bounds ha).1
  · exact (hexDigit_bounds hb).1
  · exact (hexDigit_bounds hc).1
  · exact (hexDigit_bounds hd).1

theorem Spelling.encoded {c : Char} (h : Spelling w c) : Encoded w := by
  cases h with
  | unescaped => exact ⟨[c], by simp⟩
  | short he =>
    refine encoded_of_ascii fun b hb => ?_
    rcases List.mem_cons.mp hb with rfl | hb
    · decide
    · rw [List.mem_singleton.mp hb]
      exact (shortEscape_ascii he).1
  | unicode hHex =>
    have hTail : Encoded _ := encoded_of_ascii hHex.ascii
    exact Encoded.append (w := [0x5C, 0x75]) ⟨['\\', 'u'], rfl⟩ hTail
  | pair hHex hHex' =>
    have hHigh : Encoded _ := encoded_of_ascii hHex.ascii
    have hLow : Encoded _ := encoded_of_ascii hHex'.ascii
    have hEscape : Encoded [0x5C, 0x75] := ⟨['\\', 'u'], rfl⟩
    exact hEscape.append (hHigh.append (hEscape.append hLow))

theorem Chars.encoded {s : Str} (h : Chars w s) : Encoded w := by
  induction h with
  | nil => exact encoded_nil
  | cons hw _ ih => exact hw.encoded.append ih

theorem Spells.encoded {tok : Token} (h : Spells std tok w) : Encoded w := by
  cases h with
  | number => exact ⟨_, rfl⟩
  | string hs =>
    obtain ⟨hw⟩ := hs
    have hQuote : Encoded [0x22] := ⟨['"'], rfl⟩
    exact hQuote.append (hw.encoded.append hQuote)
  | _ => exact encoded_of_all rfl

/-! ## Lines and columns -/

/-- The offset is that of a prefix of whole characters; the line is one more than the newlines
in it, the column one more than the characters behind the last of them. -/
structure TruePosition (input : List UInt8) (pos : Position) : Prop where
  bound : pos.offset ≤ input.length
  line : pos.line = 1 + (input.take pos.offset).count 0x0A
  column : ∃ s, fromUtf8 (input.take pos.offset) = some s ∧
    pos.column = 1 + (s.rtakeWhile (· ≠ '\n')).length

theorem count_newline_char {c : Char} (h : c ≠ '\n') :
    (String.utf8EncodeChar c).count 0x0A = 0 := by
  rw [List.count_eq_zero, mem_utf8EncodeChar (by decide)]
  intro hEq
  exact h (Char.toNat_inj.mp hEq.symm)

/-- The position behind a text. -/
theorem past_encode (s : Str) :
    (Position.start.past (encode s)).line = 1 + (encode s).count 0x0A ∧
      (Position.start.past (encode s)).column = 1 + (s.rtakeWhile (· ≠ '\n')).length := by
  induction s using List.reverseRecOn with
  | nil => exact ⟨rfl, rfl⟩
  | append_singleton s c ih =>
    obtain ⟨hLine, hColumn⟩ := ih
    rw [encode_append, encode_cons, encode_nil, List.append_nil, Position.past_append,
      List.count_append]
    by_cases hc : c = '\n'
    · subst hc
      rw [List.rtakeWhile_concat_neg _ _ _ (by decide)]
      refine ⟨?_, rfl⟩
      change (Position.start.past (encode s)).line + 1 = _
      rw [hLine]
      rfl
    · rw [Position.past_utf8EncodeChar hc, List.rtakeWhile_concat_pos _ _ _ (by simpa using hc),
        count_newline_char hc, List.length_append, hColumn]
      exact ⟨hLine, rfl⟩

/-- The tokeniser is behind whole characters of its input. -/
theorem truePosition_of_reads {t : Tokeniser} (hw : Encoded w) (h : Reads (new input) w t) :
    TruePosition input t.pos := by
  obtain ⟨s, rfl⟩ := hw
  have hRest := h.rest
  have hEq := h.eq
  change input = encode s ++ t.rest at hRest
  subst hEq
  have hOffset : ((new input).past (encode s)).pos.offset = (encode s).length := by
    rw [past_pos, Position.past_offset]
    exact Nat.zero_add _
  have hTake : input.take ((new input).past (encode s)).pos.offset = encode s := by
    rw [hOffset]
    conv_lhs => rw [hRest]
    exact List.take_left
  refine ⟨?_, ?_, s, ?_, (past_encode s).2⟩
  · rw [hOffset, hRest, List.length_append]
    exact Nat.le_add_right _ _
  · rw [hTake]
    exact (past_encode s).1
  · rw [hTake, fromUtf8_encode]

/-! ## Runs -/

/-- A run from behind whole characters has its tokens between whole characters. -/
theorem lexed_truePosition {t t' : Tokeniser} {tks : List PositionedToken}
    (h : Lexed std t tks t') (hw : Encoded w) (hStart : Reads (new input) w t) :
    (∃ w', Encoded w' ∧ Reads (new input) w' t') ∧
      ∀ tk ∈ tks, TruePosition input tk.pos ∧ TruePosition input tk.end := by
  induction h generalizing w with
  | nil t => exact ⟨⟨w, hw, hStart⟩, nofun⟩
  | @cons t t₁ t₂ t' l tk tks hl hReads hNext _ ih =>
    obtain ⟨w', hSpells, hRead, hPos, hEnd⟩ := nextToken_sound hNext
    have hBefore := hw.append hl.encoded
    have hAfter := hBefore.append hSpells.encoded
    have hToken := hStart.trans hReads
    obtain ⟨hLast, hTokens⟩ := ih hAfter (hToken.trans hRead)
    refine ⟨hLast, fun tk' hMem => ?_⟩
    rcases List.mem_cons.mp hMem with rfl | hMem
    · rw [hPos, hEnd]
      exact ⟨truePosition_of_reads hBefore hToken,
        truePosition_of_reads hAfter (hToken.trans hRead)⟩
    · exact hTokens tk' hMem

/-- An error of the next token is named behind whole characters. -/
theorem nextToken_error_truePosition {t : Tokeniser} {e : Error} (hw : Encoded w)
    (hStart : Reads (new input) w t) (hEnd : t.isAtEnd = false)
    (h : t.nextToken std = .error e) : TruePosition input e.position := by
  obtain ⟨-, hPos | ⟨w', s, t', b, hChars, hReads, -, hPos⟩⟩ := nextToken_error_position hEnd h
  · rw [hPos]
    exact truePosition_of_reads hw hStart
  · have hQuote : Encoded [0x22] := ⟨['"'], rfl⟩
    rw [hPos]
    exact truePosition_of_reads (hw.append (hQuote.append hChars.encoded)) (hStart.trans hReads)

/-- The tokens of both modes, and the error of the strict one. -/
theorem tokenise_truePosition (std : StdF64) (input : List UInt8) :
    (∀ tk ∈ (tokenisePrefix std input).1, TruePosition input tk.pos ∧ TruePosition input tk.end) ∧
      (∀ tks, tokenise std input = .ok tks → tks = (tokenisePrefix std input).1) ∧
      ∀ e, tokenise std input = .error e → TruePosition input e.position := by
  obtain ⟨tks, t', hRun, hTokens, hStop⟩ := tokenise_stops std input
  obtain ⟨⟨w, hw, hLast⟩, hAll⟩ := lexed_truePosition hRun encoded_nil (Reads.refl (new input))
  rw [hTokens]
  refine ⟨hAll, ?_⟩
  rcases hStop with ⟨-, hOk⟩ | ⟨l, t₁, e, hl, hReads, hEnd, hNext, hError⟩
  · refine ⟨fun tks' h => ?_, fun e h => ?_⟩
    · cases hOk.symm.trans h
      rfl
    · cases hOk.symm.trans h
  · refine ⟨fun tks' h => ?_, fun e' h => ?_⟩
    · cases hError.symm.trans h
    · cases hError.symm.trans h
      exact nextToken_error_truePosition (hw.append hl.encoded) (hLast.trans hReads) hEnd hNext

theorem truePosition_start (input : List UInt8) : TruePosition input Position.start :=
  truePosition_of_reads encoded_nil (Reads.refl (new input))

theorem parser_error_truePosition {tks : List PositionedToken} {limit : Nat} {e : Error}
    (hAll : ∀ tk ∈ tks, TruePosition input tk.pos)
    (h : (parserOf tks limit).parseValue = .error e) : TruePosition input e.position := by
  rcases parser_error_position h with ⟨tk, hMem, hPos⟩ | hPos
  · rw [hPos]
    exact hAll tk hMem
  · rw [hPos]
    exact truePosition_start input

/-! ## What is reported -/

/-- The positions that the tokeniser and the parser report on an input; `parse` is
`parse_with_options` with the default options. -/
inductive Reported (std : StdF64) (input : List UInt8) : Position → Prop where
  | tokenStart {tks : List PositionedToken} {tk : PositionedToken} :
      tokenise std input = .ok tks → tk ∈ tks → Reported std input tk.pos
  | tokenEnd {tks : List PositionedToken} {tk : PositionedToken} :
      tokenise std input = .ok tks → tk ∈ tks → Reported std input tk.end
  | prefixStart {tk : PositionedToken} : tk ∈ (tokenisePrefix std input).1 →
      Reported std input tk.pos
  | prefixEnd {tk : PositionedToken} : tk ∈ (tokenisePrefix std input).1 →
      Reported std input tk.end
  | tokeniseError {e : Error} : tokenise std input = .error e → Reported std input e.position
  | parseError {opts : ParserOptions} {e : Error} : parseWithOptions std input opts = .error e →
      Reported std input e.position
  | prefixError {e : Error} : parsePrefix std input = .error e → Reported std input e.position

/-- Every reported position is true. -/
theorem reported_true {pos : Position} (h : Reported std input pos) : TruePosition input pos := by
  obtain ⟨hTokens, hSame, hErrors⟩ := tokenise_truePosition std input
  cases h with
  | tokenStart hOk hMem => exact (hTokens _ (hSame _ hOk ▸ hMem)).1
  | tokenEnd hOk hMem => exact (hTokens _ (hSame _ hOk ▸ hMem)).2
  | prefixStart hMem => exact (hTokens _ hMem).1
  | prefixEnd hMem => exact (hTokens _ hMem).2
  | tokeniseError hError => exact hErrors _ hError
  | @parseError opts e hError =>
    unfold parseWithOptions at hError
    split at hError
    · rename_i e' hTokenise
      cases hError
      exact hErrors _ hTokenise
    · rename_i tks hOk
      have hAll : ∀ tk ∈ tks, TruePosition input tk.pos :=
        fun tk hMem => (hTokens tk (hSame _ hOk ▸ hMem)).1
      dsimp only at hError
      split at hError
      · rename_i e' he
        cases hError
        exact parser_error_truePosition hAll he
      · rename_i r hValue
        split at hError
        · rename_i hCursor
          cases hError
          refine hAll _ ?_
          have hSub : r.next.tokens ⊆ tks := by
            rw [r.ahead.tokens]
            exact List.Subset.refl tks
          exact hSub (List.getElem_mem hCursor)
        · cases hError
  | prefixError hError =>
    unfold parsePrefix at hError
    dsimp only at hError
    split at hError
    · rename_i e' he
      cases hError
      exact parser_error_truePosition (fun tk hMem => (hTokens tk hMem).1) he
    · cases hError

/-- A two-byte character, a newline and a byte that starts no token: `"é"`, `x`. -/
theorem reported_true_newline :
    TruePosition [0x22, 0xC3, 0xA9, 0x22, 0x0A, 0x20, 0x78] ⟨2, 2, 6⟩ := by
  have hError : tokenise knowsOne [0x22, 0xC3, 0xA9, 0x22, 0x0A, 0x20, 0x78]
      = .error (.unexpectedChar 'x' ⟨2, 2, 6⟩) := by decide +kernel
  exact reported_true (Reported.tokeniseError hError)

end CjsonRs.Rfc
