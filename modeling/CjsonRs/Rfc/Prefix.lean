import CjsonRs.Rfc.Documents

/-!
# The first value of an input

`parse_prefix` tokenises as far as it can, past the value and up to the first error, and
parses one value off the front. A successful call is a run of the tokeniser over the tokens
of the value (`parsePrefix_sound`), and every such run is found whatever follows it
(`parsePrefix_complete`); the end offset it returns is where the run ends.
-/

namespace CjsonRs.Rfc

open CjsonRs.Core CjsonRs.Core.Tokeniser Library

variable {std : StdF64}

theorem parsePrefix_sound {input : List UInt8} {v : Value} {n : Nat}
    (h : parsePrefix std input = .ok (v, n)) :
    ∃ tks t₁, TValue (tks.map PositionedToken.token) v ∧ tks ≠ [] ∧
      Lexed std (new input) tks t₁ ∧ n = t₁.pos.offset ∧
      v.depth ≤ ParserOptions.default.nestingLimit := by
  obtain ⟨all, t', hLexed, hEq⟩ := tokenisePrefixLoop_sound std (new input) [] 0
  unfold parsePrefix at h
  dsimp only at h
  split at h
  · cases h
  · rename_i r hValue
    cases h
    obtain ⟨ts, hT, hRest, hNext, hDepth⟩ := Parser.parseValue_sound (p := parserOf
      (tokenisePrefix std input).1 ParserOptions.default.nestingLimit) (Nat.zero_le _) r hValue
    have hTokens : r.next.tokens = (tokenisePrefix std input).1 := r.ahead.tokens
    obtain ⟨tks, after, hAll, hMap, -⟩ := List.map_eq_append_iff.mp hRest
    change (tokenisePrefix std input).1 = tks ++ after at hAll
    have hCursor : r.next.cursor = tks.length := by
      rw [hNext, ← hMap]
      simp [Parser.skip, parserOf]
    have hne : tks ≠ [] := by
      have := r.ahead.cursor
      intro hNil
      rw [hCursor, hNil] at this
      exact absurd this (Nat.not_lt_zero _)
    obtain ⟨init, tk, rfl⟩ := (List.eq_nil_or_concat tks).resolve_left hne
    rw [List.concat_eq_append] at *
    have hRun : Lexed std (new input) ((init ++ [tk]) ++ after) t' := by
      rw [← hAll]
      exact hEq ▸ hLexed
    obtain ⟨t₁, hRun, -⟩ := lexed_append_iff.mp hRun
    refine ⟨init ++ [tk], t₁, hMap ▸ hT, hne, hRun, ?_, by simpa [parserOf] using hDepth⟩
    have hLast : r.next.tokens[r.next.cursor - 1]? = some tk := by
      rw [hCursor, hTokens.trans hAll]
      simp
    rw [← hRun.last.1, (List.getElem?_eq_some_iff.mp hLast).2]

theorem parsePrefix_complete {input : List UInt8} {tks : List PositionedToken} {v : Value}
    {t₁ : Tokeniser} (hT : TValue (tks.map PositionedToken.token) v)
    (hRun : Lexed std (new input) tks t₁) (hDepth : v.depth ≤ ParserOptions.default.nestingLimit) :
    parsePrefix std input = .ok (v, t₁.pos.offset) := by
  obtain ⟨after, -, -, hAll⟩ := tokenisePrefix_of_lexed hRun
  obtain ⟨out, hOut, rfl, hNext⟩ := Parser.parseValue_complete hT
    (parserOf (tokenisePrefix std input).1 ParserOptions.default.nestingLimit)
    (after.map PositionedToken.token) (by rw [parserOf_rest, hAll, List.map_append])
    (by simpa [parserOf] using hDepth)
  have hne : tks ≠ [] := by
    obtain ⟨tok, ts, hts, -⟩ := Parser.tvalue_head hT
    rintro rfl
    cases hts
  obtain ⟨init, tk, rfl⟩ := (List.eq_nil_or_concat tks).resolve_left hne
  rw [List.concat_eq_append] at *
  have hLast : out.next.tokens[out.next.cursor - 1]? = some tk := by
    rw [hNext]
    simp [Parser.skip, parserOf, hAll]
  unfold parsePrefix
  dsimp only
  split
  · rename_i e he
    cases hOut.symm.trans he
  · rename_i r hValue
    cases hOut.symm.trans hValue
    rw [(List.getElem?_eq_some_iff.mp hLast).2, hRun.last.1]

/-! ## Offsets -/

theorem offset_new (input : List UInt8) : (new input).pos.offset = 0 := rfl

/-- Moving over the first bytes of the input ends at their number. -/
theorem offset_of_reads {input w : List UInt8} {t : Tokeniser} (h : Reads (new input) w t) :
    t.pos.offset = w.length ∧ input.take w.length = w ∧ input.drop w.length = t.rest := by
  have hInput := reads_new h
  refine ⟨?_, ?_, ?_⟩
  · rw [h.eq, past_pos, Position.past_offset, offset_new, Nat.zero_add]
  · rw [hInput, List.take_left]
  · conv_lhs => rw [hInput]
    rw [List.drop_left]

theorem lexed_last {input : List UInt8} {tks : List PositionedToken} {t₁ : Tokeniser}
    (h : Lexed std (new input) tks t₁) (hne : tks ≠ []) :
    ∃ w b, isWs b = false ∧ Reads (new input) (w ++ [b]) t₁ := by
  obtain ⟨init, tk, rfl⟩ := (List.eq_nil_or_concat tks).resolve_left hne
  rw [List.concat_eq_append] at h
  exact h.last.2

/-- The input without its trailing whitespace. -/
def trimEnd (d : List UInt8) : List UInt8 := d.rdropWhile isWs

theorem trimEnd_of_split {w r : List UInt8} {b : UInt8} (hb : isWs b = false) (hr : Ws r) :
    trimEnd (w ++ [b] ++ r) = w ++ [b] := by
  induction r using List.reverseRecOn with
  | nil =>
    rw [List.append_nil, trimEnd, List.rdropWhile_concat_neg _ _ _ (by simp [hb])]
  | append_singleton r c ih =>
    have hc : isWs c = true := isWs_iff.mpr (hr c (by simp))
    rw [← List.append_assoc, trimEnd, List.rdropWhile_concat_pos _ _ _ hc]
    exact ih (fun d hd => hr d (by simp [hd]))

/-! ## Against `parse` -/

/-- What `parse_prefix` finds is a document of its own, up to a byte that is not whitespace. -/
theorem parse_of_parsePrefix {input : List UInt8} {v : Value} {n : Nat}
    (h : parsePrefix std input = .ok (v, n)) :
    0 < n ∧ n ≤ input.length ∧ (∃ b, input[n - 1]? = some b ∧ isWs b = false) ∧
      parse std (input.take n) = .ok v := by
  obtain ⟨tks, t₁, hT, hne, hRun, rfl, hDepth⟩ := parsePrefix_sound h
  obtain ⟨l, w, hl, hw, hReads⟩ := readsAs_value hT tks _ t₁ rfl hRun
  obtain ⟨w', b, hb, hReads'⟩ := lexed_last hRun hne
  obtain ⟨hOffset, hTake, -⟩ := offset_of_reads hReads
  obtain ⟨hOffset', hTake', -⟩ := offset_of_reads hReads'
  have hInput := reads_new hReads'
  have hLength := congrArg List.length hInput
  simp only [List.length_append, List.length_singleton] at hLength hOffset'
  refine ⟨by omega, by omega, ⟨b, ?_, hb⟩, ?_⟩
  · rw [hOffset', hInput]
    simp
  · rw [hOffset, hTake]
    have hText : JsonText std (l ++ (w ++ [])) v := JsonText.mk hl hw ws_nil
    rw [List.append_nil] at hText
    exact parseWithOptions_complete hText hDepth

/-- In front of any bytes a document is found whole, without its trailing whitespace, unless
it is a number. -/
theorem parsePrefix_append {d g : List UInt8} {v : Value} (h : parse std d = .ok v)
    (hg : (∃ n, v = .number n) → g = []) :
    parsePrefix std (d ++ g) = .ok (v, (trimEnd d).length) ∧
      ∃ r, Ws r ∧ d = trimEnd d ++ r := by
  obtain ⟨hText, hDepth⟩ := parseWithOptions_sound h
  obtain ⟨tks, t₁, r, hT, hne, hRun, hr, hRest⟩ := lexed_of_jsonText hText hg
  obtain ⟨w, b, hb, hReads⟩ := lexed_last hRun hne
  obtain ⟨hOffset, -, -⟩ := offset_of_reads hReads
  have hInput := reads_new hReads
  rw [hRest, ← List.append_assoc] at hInput
  obtain rfl := List.append_cancel_right hInput
  rw [trimEnd_of_split hb hr, ← hOffset]
  exact ⟨parsePrefix_complete hT hRun hDepth, r, hr, rfl⟩

/-- `parse_prefix` and `parse` agree: a prefix that is found is a document, a document is found
up to its trailing whitespace, and bytes after it change nothing unless it is a number. -/
theorem parsePrefix_agrees (std : StdF64) (input : List UInt8) :
    (∀ v n, parsePrefix std input = .ok (v, n) →
      0 < n ∧ n ≤ input.length ∧ (∃ b, input[n - 1]? = some b ∧ isWs b = false) ∧
        parse std (input.take n) = .ok v) ∧
    (∀ v, parse std input = .ok v →
      ∃ n, parsePrefix std input = .ok (v, n) ∧ ∀ b ∈ input.drop n, isWs b = true) ∧
    (∀ v g, parse std input = .ok v → (∀ x, v ≠ .number x) →
      parsePrefix std (input ++ g) = .ok (v, (trimEnd input).length)) := by
  refine ⟨fun v n h => parse_of_parsePrefix h, fun v h => ?_, fun v g h hv => ?_⟩
  · obtain ⟨hPrefix, r, hr, hEq⟩ := parsePrefix_append h (g := []) (fun _ => rfl)
    rw [List.append_nil] at hPrefix
    refine ⟨_, hPrefix, fun b hb => isWs_iff.mpr (hr b ?_)⟩
    rw [hEq] at hb
    have hTrim : trimEnd (trimEnd input ++ r) = trimEnd input := by rw [← hEq]
    rwa [hTrim, List.drop_left] at hb
  · exact (parsePrefix_append h (fun ⟨x, hx⟩ => absurd hx (hv x))).1

end CjsonRs.Rfc
