import CjsonRs.Rfc.Syntax
import CjsonRs.Rfc.Tokens
import Mathlib.Data.List.DropRight

/-!
# Documents

The grammar of bytes and the grammar of tokens derive the same values. Over the tokens that
a run of the tokeniser reads, `JValue` follows from `TValue` (`readsAs_value`); a text of the
grammar is a run whose tokens are a `TValue` (`lexesTo_value`). With the two directions of
the parser this gives what `parse_with_options` accepts and what `parse_prefix` finds.
-/

namespace CjsonRs.Rfc

open CjsonRs.Core CjsonRs.Core.Tokeniser Library

variable {std : StdF64}

/-! ## From tokens to bytes -/

/-- A run over the tokens `ts` reads optional whitespace and then bytes with `P`. -/
def ReadsAs (std : StdF64) (ts : List Token) (P : List UInt8 → Prop) : Prop :=
  ∀ tks t t', tks.map PositionedToken.token = ts → Lexed std t tks t' →
    ∃ l w, Ws l ∧ P w ∧ Reads t (l ++ w) t'

/-- Two texts with whitespace between them. -/
def Spaced (P Q : List UInt8 → Prop) (w : List UInt8) : Prop :=
  ∃ x l y, P x ∧ Ws l ∧ Q y ∧ w = x ++ (l ++ y)

theorem ReadsAs.mono {ts : List Token} {P Q : List UInt8 → Prop} (h : ReadsAs std ts P)
    (hPQ : ∀ w, P w → Q w) : ReadsAs std ts Q := by
  intro tks t t' hMap hLexed
  obtain ⟨l, w, hl, hw, hReads⟩ := h tks t t' hMap hLexed
  exact ⟨l, w, hl, hPQ w hw, hReads⟩

theorem ReadsAs.append {a b : List Token} {P Q : List UInt8 → Prop} (ha : ReadsAs std a P)
    (hb : ReadsAs std b Q) : ReadsAs std (a ++ b) (Spaced P Q) := by
  intro tks t t' hMap hLexed
  obtain ⟨tksA, tksB, rfl, hA, hB⟩ := List.map_eq_append_iff.mp hMap
  obtain ⟨t₁, hLexedA, hLexedB⟩ := lexed_append_iff.mp hLexed
  obtain ⟨l, x, hl, hx, hReadsA⟩ := ha _ _ _ hA hLexedA
  obtain ⟨m, y, hm, hy, hReadsB⟩ := hb _ _ _ hB hLexedB
  refine ⟨l, x ++ (m ++ y), hl, ⟨x, m, y, hx, hm, hy, rfl⟩, ?_⟩
  rw [← List.append_assoc]
  exact hReadsA.trans hReadsB

theorem ReadsAs.cons {tok : Token} {b : List Token} {P Q : List UInt8 → Prop}
    (ha : ReadsAs std [tok] P) (hb : ReadsAs std b Q) : ReadsAs std (tok :: b) (Spaced P Q) :=
  ha.append hb

theorem readsAs_token (tok : Token) : ReadsAs std [tok] (Spells std tok) := by
  intro tks t t' hMap hLexed
  obtain ⟨tk, rfl, rfl⟩ := List.map_eq_singleton_iff.mp hMap
  rcases hLexed with _ | ⟨hl, hReads, hNext, ⟨⟩⟩
  obtain ⟨w, hw, hReads', -⟩ := nextToken_sound hNext
  exact ⟨_, w, hl, hw, hReads.trans hReads'⟩

theorem jstring_of_spells {s : Str} {w : List UInt8} (h : Spells std (.string s) w) :
    JString w s := by
  cases h with
  | string hs => exact hs

/-- An opening bracket takes the whitespace after it. -/
theorem structural_open {c : UInt8} {l : List UInt8} (hl : Ws l) : Structural c ([c] ++ l) :=
  Structural.pad ws_nil (structural_self c) hl

/-- A closing bracket takes the whitespace in front of it. -/
theorem structural_close {c : UInt8} {l : List UInt8} (hl : Ws l) : Structural c (l ++ [c]) := by
  have := Structural.pad hl (structural_self c) ws_nil
  rwa [List.append_nil] at this

/-- A separator takes the whitespace on both sides. -/
theorem structural_between {c : UInt8} {l r : List UInt8} (hl : Ws l) (hr : Ws r) :
    Structural c (l ++ ([c] ++ r)) := Structural.pad hl (structural_self c) hr

/-- The bytes of the tokens of a value spell that value. -/
theorem readsAs_value {ts : List Token} {v : Value} (h : TValue ts v) :
    ReadsAs std ts (JValue std · v) := by
  refine @TValue.rec (fun ts v _ => ReadsAs std ts (JValue std · v))
    (fun ts items _ => ReadsAs std ts (JItems std · items))
    (fun ts members _ => ReadsAs std ts (JMembers std · members))
    ?null ?true ?false ?number ?string ?emptyArray ?array ?emptyObject ?object ?oneItem ?consItem
    ?oneMember ?consMember _ _ h
  case null =>
    refine (readsAs_token .null).mono ?_
    rintro w ⟨⟩
    exact .null
  case true =>
    refine (readsAs_token .true).mono ?_
    rintro w ⟨⟩
    exact .true
  case false =>
    refine (readsAs_token .false).mono ?_
    rintro w ⟨⟩
    exact .false
  case number =>
    intro n
    refine (readsAs_token (.number n)).mono ?_
    rintro w ⟨⟩
    exact .number ‹_› ‹_› ‹_›
  case string =>
    intro s
    refine (readsAs_token (.string s)).mono ?_
    exact fun w hw => .string (jstring_of_spells hw)
  case emptyArray =>
    refine ((readsAs_token .beginArray).append (readsAs_token .endArray)).mono ?_
    rintro _ ⟨_, l, _, ⟨⟩, hl, ⟨⟩, rfl⟩
    exact JValue.emptyArray (structural_self _) (structural_close hl)
  case array =>
    intro ts items _ ih
    refine ((readsAs_token .beginArray).cons (ih.append (readsAs_token .endArray))).mono ?_
    rintro _ ⟨_, l, _, ⟨⟩, hl, ⟨x, r, _, hx, hr, ⟨⟩, rfl⟩, rfl⟩
    rw [← List.append_assoc]
    exact JValue.array (structural_open hl) hx (structural_close hr)
  case emptyObject =>
    refine ((readsAs_token .beginObject).append (readsAs_token .endObject)).mono ?_
    rintro _ ⟨_, l, _, ⟨⟩, hl, ⟨⟩, rfl⟩
    exact JValue.emptyObject (structural_self _) (structural_close hl)
  case object =>
    intro ts members _ ih
    refine ((readsAs_token .beginObject).cons (ih.append (readsAs_token .endObject))).mono ?_
    rintro _ ⟨_, l, _, ⟨⟩, hl, ⟨x, r, _, hx, hr, ⟨⟩, rfl⟩, rfl⟩
    rw [← List.append_assoc]
    exact JValue.object (structural_open hl) hx (structural_close hr)
  case oneItem =>
    intro ts v _ ih
    exact ih.mono (fun w hw => JItems.one hw)
  case consItem =>
    intro ts ts' v items _ _ ih ih'
    refine (ih.append ((readsAs_token .valueSeparator).cons ih')).mono ?_
    rintro _ ⟨x, l, _, hx, hl, ⟨_, r, y, ⟨⟩, hr, hy, rfl⟩, rfl⟩
    have := JItems.cons hx (structural_between hl hr) hy
    simpa only [List.append_assoc] using this
  case oneMember =>
    intro ts key v _ ih
    refine ((readsAs_token (.string key)).cons ((readsAs_token .nameSeparator).cons ih)).mono ?_
    rintro _ ⟨k, l, _, hk, hl, ⟨_, r, y, ⟨⟩, hr, hy, rfl⟩, rfl⟩
    have := JMembers.one (jstring_of_spells hk) (structural_between hl hr) hy
    simpa only [List.append_assoc] using this
  case consMember =>
    intro ts ts' key v members _ _ ih ih'
    refine ((readsAs_token (.string key)).cons ((readsAs_token .nameSeparator).cons
      (ih.append ((readsAs_token .valueSeparator).cons ih')))).mono ?_
    rintro _ ⟨k, l, _, hk, hl, ⟨_, r, _, ⟨⟩, hr, ⟨x, l', _, hx, hl', ⟨_, r', y, ⟨⟩, hr', hy,
      rfl⟩, rfl⟩, rfl⟩, rfl⟩
    have := JMembers.cons (jstring_of_spells hk) (structural_between hl hr) hx
      (structural_between hl' hr') hy
    simpa only [List.append_assoc] using this

/-! ## From bytes to tokens -/

/-- In front of bytes with `F`, the tokeniser reads `w` as tokens with `T` and optional
whitespace. -/
def LexesTo (std : StdF64) (w : List UInt8) (F : List UInt8 → Prop) (T : List Token → Prop) :
    Prop :=
  ∀ t t', Reads t w t' → F t'.rest → ∃ tks t₁ r, T (tks.map PositionedToken.token) ∧ tks ≠ [] ∧
    Lexed std t tks t₁ ∧ Ws r ∧ Reads t₁ r t'

/-- Any bytes. -/
def Anything (_ : List UInt8) : Prop := True

/-- What may follow a value: anything, except after a number. -/
def ValueFollow (v : Value) (r : List UInt8) : Prop := ∀ n, v = .number n → NumberFollow r

theorem LexesTo.mono {w : List UInt8} {F G : List UInt8 → Prop} {T U : List Token → Prop}
    (h : LexesTo std w F T) (hFG : ∀ r, G r → F r) (hTU : ∀ ts, T ts → U ts) :
    LexesTo std w G U := by
  intro t t' hReads hr
  obtain ⟨tks, t₁, r, hT, hne, hLexed, hWs, hReads'⟩ := h t t' hReads (hFG _ hr)
  exact ⟨tks, t₁, r, hTU _ hT, hne, hLexed, hWs, hReads'⟩

/-- Whitespace after a part of the text goes to the part after it. -/
theorem LexesTo.append {w w' : List UInt8} {F G : List UInt8 → Prop} {T U : List Token → Prop}
    (h : LexesTo std w F T) (h' : LexesTo std w' G U) (hF : ∀ r, F (w' ++ r)) :
    LexesTo std (w ++ w') G (fun ts => ∃ a b, T a ∧ U b ∧ ts = a ++ b) := by
  intro t t' hReads hr
  obtain ⟨t₁, hReads₁, hReads₂⟩ := reads_append_iff.mp hReads
  obtain ⟨a, t₂, l, hT, -, hLexedA, hl, hReadsL⟩ :=
    h t t₁ hReads₁ (by rw [hReads₂.rest]; exact hF _)
  obtain ⟨b, t₃, r, hU, hne, hLexedB, hWs, hReadsR⟩ := h' t₁ t' hReads₂ hr
  refine ⟨a ++ b, t₃, r, ⟨_, _, hT, hU, List.map_append⟩, by simp [hne], ?_, hWs, hReadsR⟩
  exact lexed_append_iff.mpr ⟨t₂, hLexedA, hLexedB.ws hl hReadsL hne⟩

theorem lexesTo_token {tok : Token} {w : List UInt8} (h : Spells std tok w) :
    LexesTo std w (Follow tok) (· = [tok]) := by
  intro t t' hReads hr
  have hNext := nextToken_complete h hReads hr
  exact ⟨[⟨tok, t.pos, t'.pos⟩], t', [], rfl, by simp,
    Lexed.cons ws_nil (Reads.refl t) hNext (Lexed.nil t'), ws_nil, Reads.refl t'⟩

theorem lexesTo_structural {tok : Token} {c : UInt8} {w : List UInt8}
    (hSpells : Spells std tok [c]) (hne : ∀ n, tok ≠ .number n) (h : Structural c w) :
    LexesTo std w Anything (· = [tok]) := by
  rintro t t' hReads -
  obtain ⟨l, r, hl, hr, rfl⟩ := h
  obtain ⟨t₁, hReadsL, hReads⟩ := reads_append_iff.mp hReads
  obtain ⟨t₂, hReadsC, hReadsR⟩ := reads_cons_iff.mp hReads
  have hNext := nextToken_complete hSpells hReadsC (follow_of_ne hne _)
  exact ⟨[⟨tok, t₁.pos, t₂.pos⟩], t₂, r, rfl, by simp,
    Lexed.cons hl hReadsL hNext (Lexed.nil t₂), hr, hReadsR⟩

theorem not_digit_of_ws {b : UInt8} (h : b = 0x20 ∨ b = 0x09 ∨ b = 0x0A ∨ b = 0x0D) :
    ¬ Digit b ∧ b ≠ 0x2E ∧ b ≠ 0x65 ∧ b ≠ 0x45 := by
  rcases h with rfl | rfl | rfl | rfl <;> simp [Digit]

theorem numberFollow_ws {w : List UInt8} (h : Ws w) : NumberFollow w := by
  cases w with
  | nil => exact numberFollow_nil
  | cons b w =>
    intro c hc
    cases hc
    exact not_digit_of_ws (h b List.mem_cons_self)

/-- A separator or closing bracket ends a number in front of it. -/
theorem numberFollow_structural {c : UInt8} {w : List UInt8} (h : Structural c w)
    (hc : ¬ Digit c ∧ c ≠ 0x2E ∧ c ≠ 0x65 ∧ c ≠ 0x45) (r : List UInt8) :
    NumberFollow (w ++ r) := by
  obtain ⟨l, r', hl, -, rfl⟩ := h
  cases l with
  | nil =>
    intro b hb
    cases hb
    exact hc
  | cons b l =>
    intro b' hb
    cases hb
    exact not_digit_of_ws (hl b List.mem_cons_self)

theorem follow_string (s : Str) (r : List UInt8) : Follow (.string s) r :=
  follow_of_ne (by simp) r

theorem valueFollow_of (v : Value) {r : List UInt8} (h : NumberFollow r) : ValueFollow v r :=
  fun _ _ => h

/-- The text of a value is read as the tokens of that value. -/
theorem lexesTo_value {w : List UInt8} {v : Value} (h : JValue std w v) :
    LexesTo std w (ValueFollow v) (TValue · v) := by
  have comma : ¬ Digit 0x2C ∧ (0x2C : UInt8) ≠ 0x2E ∧ (0x2C : UInt8) ≠ 0x65 ∧
      (0x2C : UInt8) ≠ 0x45 := by simp [Digit]
  have bracket : ¬ Digit 0x5D ∧ (0x5D : UInt8) ≠ 0x2E ∧ (0x5D : UInt8) ≠ 0x65 ∧
      (0x5D : UInt8) ≠ 0x45 := by simp [Digit]
  have brace : ¬ Digit 0x7D ∧ (0x7D : UInt8) ≠ 0x2E ∧ (0x7D : UInt8) ≠ 0x65 ∧
      (0x7D : UInt8) ≠ 0x45 := by simp [Digit]
  refine @JValue.rec std (fun w v _ => LexesTo std w (ValueFollow v) (TValue · v))
    (fun w items _ => LexesTo std w NumberFollow (TItems · items))
    (fun w members _ => LexesTo std w NumberFollow (TMembers · members))
    ?null ?true ?false ?number ?string ?emptyArray ?array ?emptyObject ?object ?oneItem ?consItem
    ?oneMember ?consMember _ _ h
  case null =>
    refine (lexesTo_token Spells.null).mono (fun r _ => follow_of_ne (by simp) r) ?_
    rintro _ rfl
    exact .null
  case true =>
    refine (lexesTo_token Spells.true).mono (fun r _ => follow_of_ne (by simp) r) ?_
    rintro _ rfl
    exact .true
  case false =>
    refine (lexesTo_token Spells.false).mono (fun r _ => follow_of_ne (by simp) r) ?_
    rintro _ rfl
    exact .false
  case number =>
    intro s n hNumber hParse hFinite
    refine (lexesTo_token (Spells.number hNumber hParse hFinite)).mono ?_ ?_
    · exact fun r hr m _ => hr n rfl
    · rintro _ rfl
      exact .number n
  case string =>
    intro w s hs
    refine (lexesTo_token (Spells.string hs)).mono (fun r _ => follow_of_ne (by simp) r) ?_
    rintro _ rfl
    exact .string s
  case emptyArray =>
    intro o c ho hc
    refine ((lexesTo_structural .beginArray (by simp) ho).append
      (lexesTo_structural .endArray (by simp) hc) (fun _ => trivial)).mono (fun _ _ => trivial) ?_
    rintro _ ⟨_, _, rfl, rfl, rfl⟩
    exact .emptyArray
  case array =>
    intro o w c items ho _ hc ih
    refine ((lexesTo_structural .beginArray (by simp) ho).append
      (ih.append (lexesTo_structural .endArray (by simp) hc) (numberFollow_structural hc bracket))
      (fun _ => trivial)).mono (fun _ _ => trivial) ?_
    rintro _ ⟨_, _, rfl, ⟨_, _, hItems, rfl, rfl⟩, rfl⟩
    exact .array hItems
  case emptyObject =>
    intro o c ho hc
    refine ((lexesTo_structural .beginObject (by simp) ho).append
      (lexesTo_structural .endObject (by simp) hc) (fun _ => trivial)).mono (fun _ _ => trivial) ?_
    rintro _ ⟨_, _, rfl, rfl, rfl⟩
    exact .emptyObject
  case object =>
    intro o w c members ho _ hc ih
    refine ((lexesTo_structural .beginObject (by simp) ho).append
      (ih.append (lexesTo_structural .endObject (by simp) hc) (numberFollow_structural hc brace))
      (fun _ => trivial)).mono (fun _ _ => trivial) ?_
    rintro _ ⟨_, _, rfl, ⟨_, _, hMembers, rfl, rfl⟩, rfl⟩
    exact .object hMembers
  case oneItem =>
    intro w v _ ih
    exact ih.mono (fun _ => valueFollow_of v) (fun _ => TItems.one)
  case consItem =>
    intro w c w' v items _ hc _ ih ih'
    refine (ih.append ((lexesTo_structural .valueSeparator (by simp) hc).append ih'
      (fun _ => trivial)) (fun r => ?_)).mono (fun _ hr => hr) ?_
    · rw [List.append_assoc]
      exact valueFollow_of v (numberFollow_structural hc comma _)
    · rintro _ ⟨_, _, hv, ⟨_, _, rfl, hItems, rfl⟩, rfl⟩
      exact .cons hv hItems
  case oneMember =>
    intro k c w key v hk hc _ ih
    refine ((lexesTo_token (Spells.string hk)).append
      ((lexesTo_structural .nameSeparator (by simp) hc).append ih (fun _ => trivial))
      (fun _ => follow_string key _)).mono (fun _ => valueFollow_of v) ?_
    rintro _ ⟨_, _, rfl, ⟨_, _, rfl, hv, rfl⟩, rfl⟩
    exact .one hv
  case consMember =>
    intro k c w c' w' key v members hk hc _ hc' _ ih ih'
    refine ((lexesTo_token (Spells.string hk)).append
      ((lexesTo_structural .nameSeparator (by simp) hc).append
        (ih.append ((lexesTo_structural .valueSeparator (by simp) hc').append ih'
          (fun _ => trivial)) (fun r => ?_)) (fun _ => trivial))
      (fun _ => follow_string key _)).mono (fun _ hr => hr) ?_
    · rw [List.append_assoc]
      exact valueFollow_of v (numberFollow_structural hc' comma _)
    · rintro _ ⟨_, _, rfl, ⟨_, _, rfl, ⟨_, _, hv, ⟨_, _, rfl, hMembers, rfl⟩, rfl⟩, rfl⟩, rfl⟩
      exact .cons hv hMembers

/-! ## Complete documents -/

theorem new_rest (input : List UInt8) : (new input).rest = input := rfl

theorem reads_new {input w : List UInt8} {t : Tokeniser} (h : Reads (new input) w t) :
    input = w ++ t.rest := h.rest

/-- The parser at the first of some tokens. -/
def parserOf (tks : List PositionedToken) (limit : Nat) : Parser :=
  { tokens := tks, cursor := 0, depth := 0, limit }

theorem parserOf_rest (tks : List PositionedToken) (limit : Nat) :
    (parserOf tks limit).rest = tks.map PositionedToken.token := rfl

/-- What `parse_with_options` accepts is a JSON text within the nesting limit. -/
theorem parseWithOptions_sound {input : List UInt8} {limit : Nat} {v : Value}
    (h : parseWithOptions std input ⟨limit⟩ = .ok v) : JsonText std input v ∧ v.depth ≤ limit := by
  unfold parseWithOptions at h
  split at h
  · cases h
  · rename_i tks hTokens
    dsimp only at h
    split at h
    · cases h
    · rename_i r hValue
      split_ifs at h with hTrailing
      cases h
      obtain ⟨tks', t', hLexed, hWs, hEq⟩ := tokeniseLoop_sound hTokens
      rw [List.nil_append] at hEq
      subst hEq
      obtain ⟨ts, hT, hRest, hNext, hDepth⟩ :=
        Parser.parseValue_sound (p := parserOf tks limit) (Nat.zero_le _) r hValue
      have hNil : r.next.rest = [] := by
        rw [Parser.rest, List.drop_eq_nil_of_le (by omega), List.map_nil]
      rw [parserOf_rest, hNil, List.append_nil] at hRest
      obtain ⟨l, w, hl, hw, hReads⟩ := readsAs_value hT tks _ t' hRest hLexed
      rw [reads_new hReads, List.append_assoc]
      exact ⟨JsonText.mk hl hw hWs, by simpa [parserOf] using hDepth⟩

/-- A JSON text is a run of the tokeniser over the tokens of its value, whatever bytes that
may follow the value come after it. -/
theorem lexed_of_jsonText {d g : List UInt8} {v : Value} (h : JsonText std d v)
    (hg : (∃ n, v = .number n) → g = []) : ∃ tks t₁ r, TValue (tks.map PositionedToken.token) v ∧
      tks ≠ [] ∧ Lexed std (new (d ++ g)) tks t₁ ∧ Ws r ∧ t₁.rest = r ++ g := by
  obtain @⟨l, w, r, v, hl, hw, hr⟩ := h
  have hInput : (new (l ++ (w ++ r) ++ g)).rest = l ++ (w ++ (r ++ g)) := by
    rw [new_rest]
    simp only [List.append_assoc]
  have hReadsL := reads_past hInput
  have hReadsW := reads_past (rest_past hInput)
  have hRest := rest_past (rest_past hInput)
  have hFollow : ValueFollow v (r ++ g) := by
    intro n hn
    rw [hg ⟨n, hn⟩, List.append_nil]
    exact numberFollow_ws hr
  obtain ⟨tks, t₁, r', hT, hne, hLexed, hr', hReads⟩ :=
    lexesTo_value hw _ _ hReadsW (by rwa [hRest])
  refine ⟨tks, t₁, r' ++ r, hT, hne, hLexed.ws hl hReadsL hne, hr'.append hr, ?_⟩
  rw [hReads.rest, hRest, List.append_assoc]

/-- A JSON text within the nesting limit is accepted with its value. -/
theorem parseWithOptions_complete {input : List UInt8} {limit : Nat} {v : Value}
    (h : JsonText std input v) (hDepth : v.depth ≤ limit) :
    parseWithOptions std input ⟨limit⟩ = .ok v := by
  obtain ⟨tks, t₁, r, hT, hne, hLexed, hr, hRest⟩ := lexed_of_jsonText h (g := []) (fun _ => rfl)
  rw [List.append_nil] at hLexed hRest
  have hTokens : tokenise std input = .ok tks := by
    rw [tokenise, tokeniseLoop_lexed hLexed, tokeniseLoop_end (by rwa [hRest]), List.nil_append]
  obtain ⟨out, hOut, rfl, hNext⟩ := Parser.parseValue_complete hT (parserOf tks limit) []
    (List.append_nil _).symm (by simpa [parserOf] using hDepth)
  have hEnd : ¬ out.next.cursor < out.next.tokens.length := by
    rw [hNext]
    simp [Parser.skip, parserOf]
  unfold parseWithOptions
  rw [hTokens]
  dsimp only
  split
  · rename_i e he
    cases hOut.symm.trans he
  · rename_i r hValue
    cases hOut.symm.trans hValue
    rw [dif_neg hEnd]

/-- `parse_with_options` accepts exactly the JSON texts within the nesting limit and returns
what they denote. -/
theorem parseWithOptions_eq_ok_iff (std : StdF64) (input : List UInt8) (limit : Nat) (v : Value) :
    parseWithOptions std input ⟨limit⟩ = .ok v ↔ JsonText std input v ∧ v.depth ≤ limit :=
  ⟨parseWithOptions_sound, fun h => parseWithOptions_complete h.1 h.2⟩

end CjsonRs.Rfc
