import CjsonRs.Ffi.Minify
import CjsonRs.Rfc.LongestNumber

/-!
# Minified documents

The loops of `minify_in_place` and the tokeniser agree on where a token ends: `strip` goes over
every spelling of a token as it is (`Strips`), and over whitespace and comments without a
trace. So a document laid out in any way is left as its tokens, which denote the same value.
-/

namespace CjsonRs.Ffi

open CjsonRs.Core CjsonRs.Core.Tokeniser CjsonRs.Rfc Library Minify

variable {std : StdF64} {w w' w'' r body text : List UInt8} {b c : UInt8} {s : Str}

/-! ## Stripping a part -/

/-- Whatever follows it, of `w` is kept `w'`, in the outer loop. -/
def Strips (w w' : List UInt8) : Prop := ∀ r, strip .text (w ++ r) = w' ++ strip .text r

/-- A byte that the outer loop copies. -/
def Plain (b : UInt8) : Prop :=
  ¬ (b = 0x20 ∨ b = 0x09 ∨ b = 0x0A ∨ b = 0x0D) ∧ b ≠ 0x22 ∧ b ≠ 0x2F

instance (b : UInt8) : Decidable (Plain b) := by
  unfold Plain
  infer_instance

theorem strips_nil : Strips [] [] := fun _ => rfl

theorem Strips.append {v v' : List UInt8} (h : Strips w w') (h' : Strips v v') :
    Strips (w ++ v) (w' ++ v') := by
  intro r
  rw [List.append_assoc, h, h', List.append_assoc]

theorem Strips.eq (h : Strips w w') : strip .text w = w' := by
  have hEnd := h []
  rwa [List.append_nil, strip_nil, List.append_nil] at hEnd

theorem strips_plain (h : ∀ b ∈ w, Plain b) : Strips w w := by
  intro r
  induction w with
  | nil => rfl
  | cons b w ih =>
    obtain ⟨hSpace, hQuote, hSlash⟩ := h b List.mem_cons_self
    rw [List.cons_append, strip_plain hSpace hQuote hSlash,
      ih fun c hc => h c (List.mem_cons_of_mem b hc), List.cons_append]

theorem strips_ws (h : Ws w) : Strips w [] := by
  intro r
  induction w with
  | nil => rfl
  | cons b w ih => rw [List.cons_append, strip_space (h b List.mem_cons_self), ih h.tail]

theorem strips_structural (hc : Plain c) (h : Structural c w) : Strips w [c] := by
  obtain ⟨l, r, hl, hr, rfl⟩ := h
  have hByte : Strips [c] [c] := strips_plain fun b hb => List.mem_singleton.mp hb ▸ hc
  exact (strips_ws hl).append (hByte.append (strips_ws hr))

/-! ## Strings -/

theorem strip_string_bytes (h : ∀ b ∈ w, b ≠ 0x22 ∧ b ≠ 0x5C) (r : List UInt8) :
    strip .string (w ++ r) = w ++ strip .string r := by
  induction w with
  | nil => rfl
  | cons b w ih =>
    obtain ⟨hQuote, hBackslash⟩ := h b List.mem_cons_self
    rw [List.cons_append, strip_string_plain hQuote hBackslash,
      ih fun c hc => h c (List.mem_cons_of_mem b hc), List.cons_append]

theorem hex4_bytes {n : Nat} (h : Hex4 w n) : ∀ b ∈ w, 0x30 ≤ b ∧ b ≠ 0x5C := by
  have hDigit : ∀ {b : UInt8} {d : Nat}, HexDigit b d → 0x30 ≤ b ∧ b ≠ 0x5C := by
    rintro b d (⟨hlo, hhi⟩ | ⟨hlo, hhi⟩ | ⟨hlo, hhi⟩)
    all_goals
      simp only [UInt8.le_iff_toNat_le, ne_eq, ← UInt8.toNat_inj, UInt8.reduceToNat] at *
      omega
  obtain ⟨ha, hb, hc, hd⟩ := h
  simp only [List.forall_mem_cons, List.not_mem_nil, false_imp_iff, implies_true, and_true]
  exact ⟨hDigit ha, hDigit hb, hDigit hc, hDigit hd⟩

theorem strip_hex4 {n : Nat} (h : Hex4 w n) (r : List UInt8) :
    strip .string (w ++ r) = w ++ strip .string r := by
  refine strip_string_bytes (fun b hb => ?_) r
  obtain ⟨hLe, hNe⟩ := hex4_bytes h b hb
  refine ⟨?_, hNe⟩
  rintro rfl
  exact absurd hLe (by decide)

/-- Both scanners take a backslash together with the byte behind it, so no escape ends the
string. -/
theorem strip_spelling {c : Char} (h : Spelling w c) (r : List UInt8) :
    strip .string (w ++ r) = w ++ strip .string r := by
  cases h with
  | unescaped hLe hQuote hBackslash =>
    refine strip_string_bytes (fun b hb => ⟨?_, ?_⟩) r
    · rintro rfl
      exact hQuote (Char.toNat_inj.mp ((mem_utf8EncodeChar (by decide)).mp hb).symm)
    · rintro rfl
      exact hBackslash (Char.toNat_inj.mp ((mem_utf8EncodeChar (by decide)).mp hb).symm)
  | short _ => exact strip_string_backslash
  | unicode hHex =>
    simp only [List.cons_append]
    rw [strip_string_backslash, strip_hex4 hHex]
  | pair hHigh hLow =>
    simp only [List.cons_append, List.append_assoc]
    rw [strip_string_backslash, strip_hex4 hHigh, strip_string_backslash, strip_hex4 hLow]

theorem strip_chars (h : Chars w s) (r : List UInt8) :
    strip .string (w ++ r) = w ++ strip .string r := by
  induction h with
  | nil => rfl
  | cons hSpelling _ ih => rw [List.append_assoc, strip_spelling hSpelling, ih, List.append_assoc]

theorem strips_jstring (h : JString w s) : Strips w w := by
  obtain ⟨hChars⟩ := h
  intro r
  rw [List.cons_append, strip_quote, List.append_assoc, strip_chars hChars, List.singleton_append,
    strip_string_quote, List.cons_append, List.append_assoc, List.singleton_append]

/-! ## Tokens -/

/-- The bytes of numbers. -/
def NumberByte (b : UInt8) : Prop :=
  Digit b ∨ b = 0x2D ∨ b = 0x2B ∨ b = 0x2E ∨ b = 0x65 ∨ b = 0x45

instance (b : UInt8) : Decidable (NumberByte b) := by
  unfold NumberByte Digit
  infer_instance

theorem number_bytes (h : Number w) : ∀ b ∈ w, NumberByte b := by
  obtain @⟨m, i, f, e, hm, hi, hf, he⟩ := h
  have hMinus : ∀ b ∈ m, NumberByte b := by
    cases hm <;> simp [NumberByte]
  have hInt : ∀ b ∈ i, NumberByte b := by
    cases hi with
    | zero => exact fun b hb => Or.inl (List.mem_singleton.mp hb ▸ ⟨by decide, by decide⟩)
    | digits hlo hhi hw =>
      refine List.forall_mem_cons.mpr ⟨Or.inl ⟨?_, hhi⟩, fun b hb => Or.inl (hw b hb)⟩
      exact UInt8.le_trans (by decide) hlo
  have hFrac : ∀ b ∈ f, NumberByte b := by
    cases hf with
    | absent => simp
    | present hw =>
      exact List.forall_mem_cons.mpr ⟨by simp [NumberByte], fun b hb => Or.inl (hw.2 b hb)⟩
  have hExp : ∀ b ∈ e, NumberByte b := by
    cases he with
    | absent => simp
    | @present e s w hE hs hw =>
      refine List.forall_mem_cons.mpr ⟨by rcases hE with rfl | rfl <;> simp [NumberByte], ?_⟩
      refine List.forall_mem_append.mpr ⟨?_, fun b hb => Or.inl (hw.2 b hb)⟩
      cases hs <;> simp [NumberByte]
  simp only [List.forall_mem_append]
  exact ⟨hMinus, hInt, hFrac, hExp⟩

theorem plain_of_numberByte (h : NumberByte b) : Plain b := by
  rcases h with ⟨hlo, hhi⟩ | rfl | rfl | rfl | rfl | rfl
  · simp only [Plain, UInt8.le_iff_toNat_le, ne_eq, ← UInt8.toNat_inj, UInt8.reduceToNat] at *
    omega
  all_goals decide

theorem strips_number (h : Number w) : Strips w w :=
  strips_plain fun b hb => plain_of_numberByte (number_bytes h b hb)

theorem strips_spells {tok : Token} (h : Spells std tok w) : Strips w w := by
  cases h with
  | number hNumber => exact strips_number hNumber
  | string hString => exact strips_jstring hString
  | _ => exact strips_plain (by decide +kernel)

/-- A text keeps its value without whitespace. -/
theorem jvalue_strips {v : Value} (h : JValue std w v) :
    ∃ w', Strips w w' ∧ JValue std w' v := by
  refine @JValue.rec std (fun w v _ => ∃ w', Strips w w' ∧ JValue std w' v)
    (fun w items _ => ∃ w', Strips w w' ∧ JItems std w' items)
    (fun w members _ => ∃ w', Strips w w' ∧ JMembers std w' members)
    ?null ?true ?false ?number ?string ?emptyArray ?array ?emptyObject ?object ?oneItem ?consItem
    ?oneMember ?consMember _ _ h
  case null => exact ⟨_, strips_plain (by decide +kernel), .null⟩
  case true => exact ⟨_, strips_plain (by decide +kernel), .true⟩
  case false => exact ⟨_, strips_plain (by decide +kernel), .false⟩
  case number =>
    intro s n hNumber hParse hFinite
    exact ⟨_, strips_number hNumber, .number hNumber hParse hFinite⟩
  case string =>
    intro w s hs
    exact ⟨w, strips_jstring hs, .string hs⟩
  case emptyArray =>
    intro o c ho hc
    exact ⟨_, (strips_structural (by decide) ho).append (strips_structural (by decide) hc),
      .emptyArray (structural_self _) (structural_self _)⟩
  case array =>
    rintro o w c items ho _ hc ⟨w', hw, hItems⟩
    exact ⟨_, (strips_structural (by decide) ho).append
      (hw.append (strips_structural (by decide) hc)),
      .array (structural_self _) hItems (structural_self _)⟩
  case emptyObject =>
    intro o c ho hc
    exact ⟨_, (strips_structural (by decide) ho).append (strips_structural (by decide) hc),
      .emptyObject (structural_self _) (structural_self _)⟩
  case object =>
    rintro o w c members ho _ hc ⟨w', hw, hMembers⟩
    exact ⟨_, (strips_structural (by decide) ho).append
      (hw.append (strips_structural (by decide) hc)),
      .object (structural_self _) hMembers (structural_self _)⟩
  case oneItem =>
    rintro w v _ ⟨w', hw, hv⟩
    exact ⟨w', hw, .one hv⟩
  case consItem =>
    rintro w c u v items _ hc _ ⟨w', hw, hv⟩ ⟨u', hu, hItems⟩
    exact ⟨_, hw.append ((strips_structural (by decide) hc).append hu),
      .cons hv (structural_self _) hItems⟩
  case oneMember =>
    rintro k c w key v hk hc _ ⟨w', hw, hv⟩
    exact ⟨_, (strips_jstring hk).append ((strips_structural (by decide) hc).append hw),
      .one hk (structural_self _) hv⟩
  case consMember =>
    rintro k c w d u key v members hk hc _ hd _ ⟨w', hw, hv⟩ ⟨u', hu, hMembers⟩
    exact ⟨_, (strips_jstring hk).append ((strips_structural (by decide) hc).append
      (hw.append ((strips_structural (by decide) hd).append hu))),
      .cons hk (structural_self _) hv (structural_self _) hMembers⟩

theorem jsonText_strip {v : Value} (h : JsonText std w v) : JsonText std (strip .text w) v := by
  obtain ⟨hl, hw, hr⟩ := h
  obtain ⟨w', hStrips, hValue⟩ := jvalue_strips hw
  rw [((strips_ws hl).append (hStrips.append (strips_ws hr))).eq]
  exact .mk ws_nil hValue ws_nil

/-! ## Comments -/

theorem strip_lineComment (h : 0x0A ∉ body) :
    (∀ r, strip .lineComment (body ++ 0x0A :: r) = strip .text r) ∧
      strip .lineComment body = [] := by
  induction body with
  | nil => exact ⟨fun r => strip_line_newline, rfl⟩
  | cons b body ih =>
    obtain ⟨hb, hBody⟩ := List.ne_and_not_mem_of_not_mem_cons h
    obtain ⟨hClosed, hOpen⟩ := ih hBody
    refine ⟨fun r => ?_, ?_⟩
    · rw [List.cons_append, strip_line_skip (Ne.symm hb), hClosed]
    · rw [strip_line_skip (Ne.symm hb), hOpen]

/-- A block comment goes up to the first end mark, whatever stars and slashes are in it. -/
theorem strip_blockComment (h : ¬ [0x2A, 0x2F] <:+: body) (r : List UInt8) :
    strip .blockComment (body ++ 0x2A :: 0x2F :: r) = strip .text r := by
  induction body with
  | nil => exact strip_block_end
  | cons b body ih =>
    have hBody : ¬ [0x2A, 0x2F] <:+: body :=
      fun hIn => h (hIn.trans (List.infix_cons List.infix_rfl))
    rw [List.cons_append, strip_block_skip, ih hBody]
    rintro ⟨rfl, hHead⟩
    cases body with
    | nil => exact absurd hHead (show ¬ (0x2A : UInt8) = 0x2F by decide)
    | cons d body =>
      obtain rfl : d = 0x2F := hHead
      exact h ⟨[], body, rfl⟩

/-! ## Layouts -/

/-- Whitespace and comments without NUL: a line comment ends with a newline, a block comment
with the first end mark. -/
inductive Filler : List UInt8 → Prop
  | nil : Filler []
  | space {b : UInt8} {w : List UInt8} (hb : b = 0x20 ∨ b = 0x09 ∨ b = 0x0A ∨ b = 0x0D)
      (h : Filler w) : Filler (b :: w)
  | line {body w : List UInt8} (hLine : 0x0A ∉ body) (hNul : 0 ∉ body) (h : Filler w) :
      Filler (0x2F :: 0x2F :: (body ++ 0x0A :: w))
  | block {body w : List UInt8} (hBlock : ¬ [0x2A, 0x2F] <:+: body) (hNul : 0 ∉ body)
      (h : Filler w) : Filler (0x2F :: 0x2A :: (body ++ 0x2A :: 0x2F :: w))

/-- A filler, and then a line comment up to the end of the text or nothing. -/
inductive LastFiller : List UInt8 → Prop
  | closed {w : List UInt8} (h : Filler w) : LastFiller w
  | line {body w : List UInt8} (h : Filler w) (hLine : 0x0A ∉ body) (hNul : 0 ∉ body) :
      LastFiller (w ++ 0x2F :: 0x2F :: body)

/-- The text is made of the slices with fillers before, between and after them. -/
inductive Laid : List (List UInt8) → List UInt8 → Prop
  | nil {w : List UInt8} (h : LastFiller w) : Laid [] w
  | cons {w l u : List UInt8} {ls : List (List UInt8)} (hw : Filler w) (h : Laid ls u) :
      Laid (l :: ls) (w ++ (l ++ u))

theorem Filler.strips (h : Filler w) : Strips w [] := by
  induction h with
  | nil => exact strips_nil
  | space hb _ ih =>
    intro r
    rw [List.cons_append, strip_space hb, ih]
  | line hLine _ _ ih =>
    intro r
    simp only [List.cons_append, List.append_assoc]
    rw [strip_slash_slash, (strip_lineComment hLine).1, ih]
  | block hBlock _ _ ih =>
    intro r
    simp only [List.cons_append, List.append_assoc]
    rw [strip_slash_star, strip_blockComment hBlock, ih]

theorem Filler.nulFree (h : Filler w) : 0 ∉ w := by
  induction h with
  | nil => exact List.not_mem_nil
  | space hb _ ih =>
    rw [List.mem_cons, not_or]
    refine ⟨?_, ih⟩
    rintro rfl
    exact absurd hb (by decide)
  | line _ hNul _ ih => simp [hNul, ih]
  | block _ hNul _ ih => simp [hNul, ih]

theorem filler_of_ws (h : Ws w) : Filler w := by
  induction w with
  | nil => exact .nil
  | cons b w ih => exact .space (h b List.mem_cons_self) (ih h.tail)

theorem LastFiller.strip_eq (h : LastFiller w) : strip .text w = [] := by
  cases h with
  | closed h => exact h.strips.eq
  | line h hLine _ => rw [h.strips, strip_slash_slash, (strip_lineComment hLine).2]; rfl

theorem LastFiller.nulFree (h : LastFiller w) : 0 ∉ w := by
  cases h with
  | closed h => exact h.nulFree
  | line h _ hNul => simp [h.nulFree, hNul]

/-- A layout of slices that are not touched is stripped to these slices. -/
theorem Laid.strip_eq {ls : List (List UInt8)} (h : Laid ls text) (hKept : ∀ l ∈ ls, Strips l l) :
    strip .text text = ls.flatten := by
  induction h with
  | nil h => exact h.strip_eq
  | @cons w l u ls hw _ ih =>
    rw [hw.strips, List.nil_append, hKept l List.mem_cons_self,
      ih fun l' hl' => hKept l' (List.mem_cons_of_mem l hl'), List.flatten_cons]

theorem Laid.nulFree {ls : List (List UInt8)} (h : Laid ls text) (hNul : ∀ l ∈ ls, 0 ∉ l) :
    0 ∉ text := by
  induction h with
  | nil h => exact h.nulFree
  | @cons w l u ls hw _ ih =>
    simp only [List.mem_append, not_or]
    exact ⟨hw.nulFree, hNul l List.mem_cons_self,
      ih fun l' hl' => hNul l' (List.mem_cons_of_mem l hl')⟩

theorem strips_flatten {ls : List (List UInt8)} (hKept : ∀ l ∈ ls, Strips l l) :
    Strips ls.flatten ls.flatten := by
  induction ls with
  | nil => exact strips_nil
  | cons l ls ih =>
    exact (hKept l List.mem_cons_self).append
      (ih fun l' hl' => hKept l' (List.mem_cons_of_mem l hl'))

/-! ## The slices of a document -/

/-- The source slices of the tokens of a document. -/
def slices (std : StdF64) (d : List UInt8) : List (List UInt8) :=
  match tokenise std d with
  | .ok tks => tks.map fun tk => (new d).slice tk.pos.offset tk.end.offset
  | .error _ => []

theorem spelling_nulFree {c : Char} (h : Spelling w c) : 0 ∉ w := by
  have hHex4 : ∀ {w : List UInt8} {n : Nat}, Hex4 w n → 0 ∉ w := fun h hZero =>
    absurd (hex4_bytes h 0 hZero).1 (by decide)
  cases h with
  | unescaped hLe _ _ =>
    rw [mem_utf8EncodeChar (by decide)]
    exact fun hZero => absurd (hZero ▸ hLe) (by decide)
  | short hEscape => cases hEscape <;> decide
  | unicode hHex => simp [hHex4 hHex]
  | pair hHigh hLow => simp [hHex4 hHigh, hHex4 hLow]

/-- No spelling of a token has a NUL. -/
theorem spells_nulFree {tok : Token} (h : Spells std tok w) : 0 ∉ w := by
  cases h with
  | number hNumber =>
    intro hZero
    exact absurd (number_bytes hNumber 0 hZero) (by decide)
  | string hString =>
    obtain @⟨w, s, hChars⟩ := hString
    have hBody : (0 : UInt8) ∉ w := by
      induction hChars with
      | nil => exact List.not_mem_nil
      | cons hSpelling _ ih => simp [spelling_nulFree hSpelling, ih]
    simpa using hBody
  | _ => decide

/-- A run of the tokeniser lays the bytes ahead out as the slices of its tokens. -/
theorem laid_of_lexed {t t' : Tokeniser} {tks : List PositionedToken} (h : Lexed std t tks t')
    (hr : Ws t'.rest) :
    Laid (tks.map fun tk => t.slice tk.pos.offset tk.end.offset) t.rest ∧
      ∀ tk ∈ tks, Spells std tk.token (t.slice tk.pos.offset tk.end.offset) := by
  induction h with
  | nil t => exact ⟨.nil (.closed (filler_of_ws hr)), by simp⟩
  | @cons t t₁ t₂ t' l tk tks hl hReads hNext _ ih =>
    obtain ⟨w, hw, hReads', hPos, hEnd⟩ := nextToken_sound hNext
    obtain ⟨hLaid, hSpells⟩ := ih hr
    have hInput : t₂.input = t.input := by
      rw [hReads'.eq, hReads.eq]
      rfl
    have hSlices : ∀ a b, t₂.slice a b = t.slice a b := fun a b => by
      rw [slice, slice, hInput]
    have hSlice : t.slice tk.pos.offset tk.end.offset = w := by
      rw [hPos, hEnd, ← slice_of_reads hReads', slice, slice, hReads.eq]
      rfl
    simp only [hSlices] at hLaid hSpells
    rw [List.map_cons, hSlice, hReads.rest, hReads'.rest]
    refine ⟨.cons (filler_of_ws hl) hLaid, List.forall_mem_cons.mpr ⟨?_, hSpells⟩⟩
    rwa [hSlice]

/-- The slices of an accepted document are spellings, and the document is one of their
layouts. -/
theorem slices_of_parse {d : List UInt8} {v : Value} (h : parse std d = .ok v) :
    Laid (slices std d) d ∧ ∀ l ∈ slices std d, ∃ tok, Spells std tok l := by
  unfold parse parseWithOptions at h
  split at h
  · cases h
  · rename_i tks hTokens
    obtain ⟨tks', t', hLexed, hWs, hEq⟩ := tokeniseLoop_sound hTokens
    rw [List.nil_append] at hEq
    subst hEq
    obtain ⟨hLaid, hSpells⟩ := laid_of_lexed hLexed hWs
    rw [slices, hTokens]
    refine ⟨hLaid, fun l hl => ?_⟩
    obtain ⟨tk, htk, rfl⟩ := List.mem_map.mp hl
    exact ⟨tk.token, hSpells tk htk⟩

/-- `minify_in_place` leaves of an accepted document, laid out with any whitespace and comments,
the source slices of its tokens. They parse as the document does, and minifying them again
changes nothing. -/
theorem minify_document {d : List UInt8} {v : Value} (hParse : parse std d = .ok v)
    (hLaid : Laid (slices std d) text) (rest : List UInt8) :
    ∃ tail, minifyInPlace (some (text ++ 0 :: rest)) =
        .ok (some ((slices std d).flatten ++ 0 :: tail)) ∧
      parse std (slices std d).flatten = .ok v ∧
      minifyInPlace (some ((slices std d).flatten ++ 0 :: tail)) =
        .ok (some ((slices std d).flatten ++ 0 :: tail)) := by
  obtain ⟨hDocument, hSpells⟩ := slices_of_parse hParse
  have hKept : ∀ l ∈ slices std d, Strips l l := fun l hl =>
    (hSpells l hl).elim fun tok h => strips_spells h
  have hNul : ∀ l ∈ slices std d, 0 ∉ l := fun l hl =>
    (hSpells l hl).elim fun tok h => spells_nulFree h
  have hFlat := (strips_flatten hKept).eq
  obtain ⟨tail, hRun, -⟩ := minifyInPlace_run (hLaid.nulFree hNul) rest
  rw [hLaid.strip_eq hKept] at hRun
  have hNulFlat : 0 ∉ (slices std d).flatten := by
    rw [List.mem_flatten]
    rintro ⟨l, hl, hZero⟩
    exact hNul l hl hZero
  obtain ⟨tail', hRun', hSame⟩ := minifyInPlace_run hNulFlat tail
  rw [hFlat] at hRun' hSame
  rw [hSame rfl] at hRun'
  refine ⟨tail, hRun, ?_, hRun'⟩
  obtain ⟨hText, hDepth⟩ := parseWithOptions_sound hParse
  have hStripped := jsonText_strip hText
  rw [hDocument.strip_eq hKept] at hStripped
  exact parseWithOptions_complete hStripped hDepth

/-- An array of a string and the number 1. -/
def quoted : List UInt8 := encode "[\"\\\"//\", 1]".toList

/-- The same array with comments. -/
def quotedLaid : List UInt8 := encode "[/*/ */\"\\\"//\" ,1 // x\n]//".toList

theorem quoted_slices : slices knowsOne quoted =
    [[0x5B], encode "\"\\\"//\"".toList, [0x2C], [0x31], [0x5D]] := by
  decide +kernel

theorem laid_quotedLaid : Laid (slices knowsOne quoted) quotedLaid := by
  rw [quoted_slices]
  have hLine : Filler (encode " // x\n".toList) :=
    .space (by decide) (@Filler.line (encode " x".toList) [] (by decide) (by decide) .nil)
  have hBlock : Filler (encode "/*/ */".toList) :=
    @Filler.block (encode "/ ".toList) [] (by decide) (by decide) .nil
  have hSpace : Filler (encode " ".toList) := .space (by decide) .nil
  have hLast : LastFiller (encode "//".toList) :=
    @LastFiller.line [] [] .nil (by decide) (by decide)
  exact .cons .nil (.cons hBlock (.cons hSpace (.cons .nil (.cons hLine (.nil hLast)))))

theorem minify_document_quoted :
    ∃ v tail, minifyInPlace (some (quotedLaid ++ 0 :: [])) =
        .ok (some ((slices knowsOne quoted).flatten ++ 0 :: tail)) ∧
      parse knowsOne (slices knowsOne quoted).flatten = .ok v ∧
      minifyInPlace (some ((slices knowsOne quoted).flatten ++ 0 :: tail)) =
        .ok (some ((slices knowsOne quoted).flatten ++ 0 :: tail)) := by
  have hOk : (match parse knowsOne quoted with | .ok _ => true | .error _ => false) = true := by
    decide +kernel
  cases hParse : parse knowsOne quoted with
  | error e =>
    rw [hParse] at hOk
    cases hOk
  | ok v => exact ⟨v, minify_document hParse laid_quotedLaid []⟩

end CjsonRs.Ffi
