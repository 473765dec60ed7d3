import CjsonRs.Rfc.Numbers

/-!
# The tokens of an input

`Spells std tok w` gives the spellings of a token, and `nextToken` reads exactly these, a
number only in front of a byte that cannot continue it. `Lexed std t tks t'` is a run of the
tokeniser over whitespace and tokens that ends right after its last token; the loops of
`tokenise` and `tokenise_prefix` are such runs.
-/

namespace CjsonRs.Rfc

open CjsonRs.Core Library

/-! ## Spellings -/

/-- The spellings of a token. -/
inductive Spells (std : StdF64) : Token → List UInt8 → Prop where
  | beginObject : Spells std .beginObject [0x7B]
  | endObject : Spells std .endObject [0x7D]
  | beginArray : Spells std .beginArray [0x5B]
  | endArray : Spells std .endArray [0x5D]
  | nameSeparator : Spells std .nameSeparator [0x3A]
  | valueSeparator : Spells std .valueSeparator [0x2C]
  | null : Spells std .null Tokeniser.nullBytes
  | true : Spells std .true Tokeniser.trueBytes
  | false : Spells std .false Tokeniser.falseBytes
  | number {s : Str} {n : F64} : Number (encode s) → std.parse s = some n → n.isFinite →
      Spells std (.number n) (encode s)
  | string {w : List UInt8} {s : Str} : JString w s → Spells std (.string s) w

/-- What may follow a token: anything, except after a number. -/
def Follow (tok : Token) (r : List UInt8) : Prop := ∀ n, tok = .number n → NumberFollow r

theorem follow_of_ne {tok : Token} (h : ∀ n, tok ≠ .number n) (r : List UInt8) : Follow tok r :=
  fun n hn => absurd hn (h n)

theorem Number.head {w : List UInt8} (h : Number w) :
    ∃ b r, w = b :: r ∧ (b = 0x2D ∨ Digit b) := by
  obtain ⟨hm, hi, -, -⟩ := h
  obtain ⟨b, i', rfl, hb⟩ := hi.head
  cases hm with
  | absent => exact ⟨b, _, rfl, Or.inr hb⟩
  | present => exact ⟨_, _, rfl, Or.inl rfl⟩

/-- A byte that ends no token. -/
theorem isWs_of_digit {b : UInt8} (h : Digit b) : isWs b = Bool.false := by
  rw [Bool.eq_false_iff, ne_eq, Tokeniser.isWs_iff]
  rintro (rfl | rfl | rfl | rfl) <;> exact absurd h.1 (by decide)

theorem digits_last {w : List UInt8} (hne : w ≠ []) (h : ∀ b ∈ w, Digit b) :
    ∃ w' b, w = w' ++ [b] ∧ Digit b :=
  ⟨w.dropLast, w.getLast hne, (List.dropLast_append_getLast hne).symm,
    h _ (List.getLast_mem hne)⟩

/-- A number ends in a digit. -/
theorem Number.last {w : List UInt8} (h : Number w) : ∃ w' b, w = w' ++ [b] ∧ Digit b := by
  obtain @⟨m, i, f, e, -, hi, hf, he⟩ := h
  have hInt : ∃ w' b, i = w' ++ [b] ∧ Digit b := by
    cases hi with
    | zero => exact ⟨[], _, rfl, by decide, by decide⟩
    | digits hlo hhi hw =>
      refine digits_last (by simp) ?_
      intro c hc
      rcases List.mem_cons.mp hc with rfl | hc
      · exact ⟨UInt8.le_trans (by decide) hlo, hhi⟩
      · exact hw c hc
  have hFrac : ∃ w' b, i ++ f = w' ++ [b] ∧ Digit b := by
    cases hf with
    | absent => rwa [List.append_nil]
    | present hw =>
      obtain ⟨w', b, rfl, hb⟩ := digits_last hw.1 hw.2
      exact ⟨i ++ 0x2E :: w', b, by simp, hb⟩
  cases he with
  | absent =>
    obtain ⟨w', b, hEq, hb⟩ := hFrac
    exact ⟨m ++ w', b, by rw [List.append_nil, hEq, List.append_assoc], hb⟩
  | @present e s w hE hs hw =>
    obtain ⟨w', b, rfl, hb⟩ := digits_last hw.1 hw.2
    exact ⟨m ++ (i ++ (f ++ e :: (s ++ w'))), b, by simp, hb⟩

/-- A spelling starts with a byte that is not whitespace. -/
theorem Spells.head {std : StdF64} {tok : Token} {w : List UInt8} (h : Spells std tok w) :
    ∃ b w', w = b :: w' ∧ isWs b = Bool.false := by
  cases h with
  | number hn =>
    obtain ⟨b, w', hw, hb⟩ := hn.head
    refine ⟨b, w', hw, ?_⟩
    rcases hb with rfl | hb
    · rfl
    · exact isWs_of_digit hb
  | string hs =>
    obtain ⟨-⟩ := hs
    exact ⟨_, _, rfl, rfl⟩
  | _ => exact ⟨_, _, rfl, rfl⟩

/-- A spelling ends with a byte that is not whitespace. -/
theorem Spells.last {std : StdF64} {tok : Token} {w : List UInt8} (h : Spells std tok w) :
    ∃ w' b, w = w' ++ [b] ∧ isWs b = Bool.false := by
  cases h with
  | number hn =>
    obtain ⟨w', b, hw, hb⟩ := hn.last
    exact ⟨w', b, hw, isWs_of_digit hb⟩
  | string hs =>
    obtain @⟨w, s, -⟩ := hs
    exact ⟨0x22 :: w, 0x22, rfl, rfl⟩
  | null => exact ⟨[0x6E, 0x75, 0x6C], _, rfl, rfl⟩
  | true => exact ⟨[0x74, 0x72, 0x75], _, rfl, rfl⟩
  | false => exact ⟨[0x66, 0x61, 0x6C, 0x73], _, rfl, rfl⟩
  | _ => exact ⟨[], _, rfl, rfl⟩

end CjsonRs.Rfc

namespace CjsonRs.Core.Tokeniser

open Rfc Library

variable {std : StdF64}

/-! ## One token -/

theorem readExpected_iff {start : Position} {w : List UInt8} {t t' : Tokeniser}
    (hw : ∀ b ∈ w, isContinuation b = false) :
    readExpected start w t = .ok t' ↔ Reads t w t' := by
  induction w generalizing t with
  | nil =>
    rw [reads_nil_iff, readExpected, Except.ok.injEq]
    exact eq_comm
  | cons b w ih =>
    have hb := hw b List.mem_cons_self
    have ih := fun t => ih (t := t) (fun c hc => hw c (List.mem_cons_of_mem b hc))
    rw [reads_cons_iff]
    constructor
    · intro h
      rw [readExpected] at h
      split at h
      · rename_i b' hPeek
        split_ifs at h with hEq
        subst hEq
        exact ⟨_, reads_advance hPeek hb, (ih _).mp h⟩
      · cases h
    · rintro ⟨t₁, h₁, h⟩
      obtain ⟨hPeek, rfl⟩ := (reads_byte_iff hb).mp h₁
      simp only [readExpected, hPeek, if_true, (ih _).mpr h]

theorem readLiteral_iff {w : List UInt8} {tok tok' : Token} {t t' : Tokeniser}
    (hw : ∀ b ∈ w, isContinuation b = false) :
    t.readLiteral w tok = .ok (tok', t') ↔ tok' = tok ∧ Reads t w t' := by
  rw [readLiteral, bind_eq_ok]
  constructor
  · rintro ⟨t₁, h, hEq⟩
    cases hEq
    exact ⟨rfl, (readExpected_iff hw).mp h⟩
  · rintro ⟨rfl, h⟩
    exact ⟨t', (readExpected_iff hw).mpr h, rfl⟩

/-- The literals hold no continuation byte. -/
theorem ascii_of_all {w : List UInt8} (h : (w.all fun b => !isContinuation b) = Bool.true) :
    ∀ b ∈ w, isContinuation b = false := by
  intro b hb
  simpa using List.all_eq_true.mp h b hb

theorem structural_sound (std : StdF64) {b : UInt8} {tok : Token} (h : structural b = some tok) :
    Spells std tok [b] ∧ isContinuation b = false := by
  unfold structural at h
  split_ifs at h
  all_goals
    subst_vars
    cases h
    exact ⟨by constructor, rfl⟩

/-- What `next_token` reads is a spelling of the token it returns. -/
theorem readToken_sound {b : UInt8} {tok : Token} {t t' : Tokeniser} (hPeek : t.peek = some b)
    (h : t.readToken std b = .ok (tok, t')) : ∃ w, Spells std tok w ∧ Reads t w t' := by
  unfold readToken at h
  split at h
  · rename_i hs
    cases h
    obtain ⟨hSpells, hb⟩ := structural_sound std hs
    exact ⟨_, hSpells, reads_advance hPeek hb⟩
  · split_ifs at h with hQuote hTrue hFalse hNull
    · subst hQuote
      obtain ⟨w, s, hw, rfl, hReads⟩ := (readString_iff hPeek).mp h
      exact ⟨w, Spells.string hw, hReads⟩
    · obtain ⟨rfl, hReads⟩ := (readLiteral_iff (ascii_of_all rfl)).mp h
      exact ⟨_, Spells.true, hReads⟩
    · obtain ⟨rfl, hReads⟩ := (readLiteral_iff (ascii_of_all rfl)).mp h
      exact ⟨_, Spells.false, hReads⟩
    · obtain ⟨rfl, hReads⟩ := (readLiteral_iff (ascii_of_all rfl)).mp h
      exact ⟨_, Spells.null, hReads⟩
    · obtain ⟨s, n, hn, hParse, hFinite, rfl, hReads⟩ := readNumber_sound h
      exact ⟨_, Spells.number hn hParse hFinite, hReads⟩

theorem readToken_number {b : UInt8} (hb : b = 0x2D ∨ Digit b) (t : Tokeniser) :
    t.readToken std b = t.readNumber std := by
  have hne : ∀ c : UInt8, c ≠ 0x2D → ¬ Digit c → b ≠ c := by
    rintro c hc hd rfl
    exact hb.elim hc hd
  have hStructural : structural b = none := by
    simp [structural, hne, Digit]
  have hNumber : b = 0x2D ∨ isDigit b = true := by rwa [isDigit_iff]
  rw [readToken, hStructural]
  simp only
  rw [if_neg (hne _ (by decide) (by simp [Digit])), if_neg (hne _ (by decide) (by simp [Digit])),
    if_neg (hne _ (by decide) (by simp [Digit])), if_neg (hne _ (by decide) (by simp [Digit])),
    if_pos hNumber]

/-- A spelling is read as its token in front of what may follow it. -/
theorem readToken_complete {b : UInt8} {w : List UInt8} {tok : Token} {t t' : Tokeniser}
    (hw : Spells std tok (b :: w)) (hReads : Reads t (b :: w) t') (hr : Follow tok t'.rest) :
    t.readToken std b = .ok (tok, t') := by
  generalize hfull : b :: w = full at hw hReads
  cases hw with
  | number hn hParse hFinite =>
    obtain ⟨b', r, hEq, hb⟩ := hn.head
    rw [← hfull] at hEq
    cases hEq
    rw [readToken_number hb]
    exact readNumber_complete hn hParse hFinite hReads (hr _ rfl)
  | string hs =>
    have hPeek : t.peek = some 0x22 := by
      obtain ⟨-⟩ := hs
      exact hReads.peek
    have hb : b = 0x22 := by
      obtain ⟨-⟩ := hs
      cases hfull
      rfl
    subst hb
    exact (readString_iff hPeek).mpr ⟨_, _, hs, rfl, hReads⟩
  | null =>
    cases hfull
    exact (readLiteral_iff (ascii_of_all rfl)).mpr ⟨rfl, hReads⟩
  | true =>
    cases hfull
    exact (readLiteral_iff (ascii_of_all rfl)).mpr ⟨rfl, hReads⟩
  | false =>
    cases hfull
    exact (readLiteral_iff (ascii_of_all rfl)).mpr ⟨rfl, hReads⟩
  | _ =>
    cases hfull
    obtain ⟨-, rfl⟩ := (reads_byte_iff rfl).mp hReads
    rfl

theorem nextToken_sound {tk : PositionedToken} {t t' : Tokeniser}
    (h : t.nextToken std = .ok (tk, t')) :
    ∃ w, Spells std tk.token w ∧ Reads t w t' ∧ tk.pos = t.pos ∧ tk.end = t'.pos := by
  unfold nextToken at h
  dsimp only at h
  split at h
  · cases h
  · rename_i b hPeek
    split at h
    · cases h
    · rename_i tok t₁ hRead
      cases h
      obtain ⟨w, hw, hReads⟩ := readToken_sound hPeek hRead
      exact ⟨w, hw, hReads, rfl, rfl⟩

theorem nextToken_complete {w : List UInt8} {tok : Token} {t t' : Tokeniser}
    (hw : Spells std tok w) (hReads : Reads t w t') (hr : Follow tok t'.rest) :
    t.nextToken std = .ok (⟨tok, t.pos, t'.pos⟩, t') := by
  obtain ⟨b, w, rfl, -⟩ := hw.head
  unfold nextToken
  simp only [hReads.peek, readToken_complete hw hReads hr]

/-! ## Runs of the tokeniser -/

/-- A run over whitespace and tokens, up to the end of the last token. -/
inductive Lexed (std : StdF64) : Tokeniser → List PositionedToken → Tokeniser → Prop where
  | nil (t : Tokeniser) : Lexed std t [] t
  | cons {t t₁ t₂ t' : Tokeniser} {l : List UInt8} {tk : PositionedToken}
      {tks : List PositionedToken} : Ws l → Reads t l t₁ → t₁.nextToken std = .ok (tk, t₂) →
      Lexed std t₂ tks t' → Lexed std t (tk :: tks) t'

theorem lexed_append_iff {t t' : Tokeniser} {a b : List PositionedToken} :
    Lexed std t (a ++ b) t' ↔ ∃ t₁, Lexed std t a t₁ ∧ Lexed std t₁ b t' := by
  induction a generalizing t with
  | nil =>
    constructor
    · exact fun h => ⟨t, Lexed.nil t, h⟩
    · rintro ⟨t₁, ⟨⟩, h⟩
      exact h
  | cons tk a ih =>
    constructor
    · rintro (_ | ⟨hl, hReads, hNext, h⟩)
      obtain ⟨t₁, ha, hb⟩ := ih.mp h
      exact ⟨t₁, Lexed.cons hl hReads hNext ha, hb⟩
    · rintro ⟨t₁, _ | ⟨hl, hReads, hNext, ha⟩, hb⟩
      exact Lexed.cons hl hReads hNext (ih.mpr ⟨t₁, ha, hb⟩)

/-- Whitespace in front of a nonempty run belongs to it. -/
theorem Lexed.ws {t t₁ t' : Tokeniser} {l : List UInt8} {tks : List PositionedToken} (hl : Ws l)
    (hReads : Reads t l t₁) (h : Lexed std t₁ tks t') (hne : tks ≠ []) : Lexed std t tks t' := by
  cases h with
  | nil => exact absurd rfl hne
  | cons hl' hReads' hNext h => exact Lexed.cons (hl.append hl') (hReads.trans hReads') hNext h

theorem Lexed.reads {t t' : Tokeniser} {tks : List PositionedToken} (h : Lexed std t tks t') :
    ∃ w, Reads t w t' := by
  induction h with
  | nil t => exact ⟨[], Reads.refl t⟩
  | cons _ hReads hNext _ ih =>
    obtain ⟨w, hw⟩ := ih
    obtain ⟨w', -, hReads', -⟩ := nextToken_sound hNext
    exact ⟨_, hReads.trans (hReads'.trans hw)⟩

/-- A run ends where its last token does, after a byte that is not whitespace. -/
theorem Lexed.last {t t' : Tokeniser} {tks : List PositionedToken} {tk : PositionedToken}
    (h : Lexed std t (tks ++ [tk]) t') :
    tk.end = t'.pos ∧ ∃ w b, isWs b = false ∧ Reads t (w ++ [b]) t' := by
  obtain ⟨t₁, hInit, hLast⟩ := lexed_append_iff.mp h
  obtain ⟨w, hw⟩ := hInit.reads
  rcases hLast with _ | ⟨-, hl, hNext, ⟨⟩⟩
  obtain ⟨w', hSpells, hRead, -, hEnd⟩ := nextToken_sound hNext
  obtain ⟨w', b, rfl, hb⟩ := hSpells.last
  have hAll := hw.trans (hl.trans hRead)
  rw [← List.append_assoc, ← List.append_assoc] at hAll
  exact ⟨hEnd, _, b, hb, hAll⟩

theorem skipWs_of_reads {t t₁ t₂ : Tokeniser} {l : List UInt8} {tk : PositionedToken} (hl : Ws l)
    (hReads : Reads t l t₁) (hNext : t₁.nextToken std = .ok (tk, t₂)) : t.skipWs = t₁ := by
  obtain ⟨w, hw, hRead, -⟩ := nextToken_sound hNext
  obtain ⟨b, w, rfl, hb⟩ := hw.head
  rw [skipWs_eq hReads.rest (fun b hb => isWs_iff.mpr (hl b hb)), hReads.eq]
  intro c hc
  rw [hRead.rest] at hc
  cases hc
  exact hb

theorem isAtEnd_iff {t : Tokeniser} : t.isAtEnd = true ↔ t.rest = [] := by
  simp [isAtEnd, rest, List.drop_eq_nil_iff]

theorem skipWs_sound (t : Tokeniser) : ∃ l, Ws l ∧ Reads t l t.skipWs := by
  fun_induction skipWs t with
  | case1 t b hPeek hb ih =>
    obtain ⟨l, hl, hReads⟩ := ih
    refine ⟨b :: l, ?_, (reads_advance hPeek (not_continuation_of_isWs hb)).trans hReads⟩
    intro c hc
    rcases List.mem_cons.mp hc with rfl | hc
    · exact isWs_iff.mp hb
    · exact hl c hc
  | case2 t b hPeek hb => exact ⟨[], ws_nil, Reads.refl t⟩
  | case3 t hPeek => exact ⟨[], ws_nil, Reads.refl t⟩

theorem not_atEnd_of_next {t t' : Tokeniser} {tk : PositionedToken}
    (h : t.nextToken std = .ok (tk, t')) : ¬ t.isAtEnd = true := by
  obtain ⟨w, hw, hReads, -⟩ := nextToken_sound h
  obtain ⟨b, w, rfl, -⟩ := hw.head
  rw [isAtEnd_iff, hReads.rest]
  simp

/-! ## The loops -/

theorem tokeniseLoop_end {t : Tokeniser} (h : Ws t.rest) (out : List PositionedToken) :
    tokeniseLoop std t out = .ok out := by
  have hEnd : t.skipWs.isAtEnd = true := by
    have hRest : t.rest = t.rest ++ [] := by rw [List.append_nil]
    rw [skipWs_eq hRest (fun b hb => isWs_iff.mpr (h b hb)) (by simp), isAtEnd_iff,
      rest_past hRest]
  rw [tokeniseLoop, if_pos hEnd]

theorem tokeniseLoop_lexed {t t' : Tokeniser} {tks : List PositionedToken}
    (h : Lexed std t tks t') (out : List PositionedToken) :
    tokeniseLoop std t out = tokeniseLoop std t' (out ++ tks) := by
  induction h generalizing out with
  | nil => rw [List.append_nil]
  | cons hl hReads hNext _ ih =>
    rw [tokeniseLoop, skipWs_of_reads hl hReads hNext, if_neg (not_atEnd_of_next hNext)]
    split
    · rename_i h
      rw [hNext] at h
      cases h
    · rename_i h
      rw [hNext] at h
      cases h
      rw [ih, List.append_assoc]
      rfl

theorem tokeniseLoop_sound {t : Tokeniser} {out res : List PositionedToken}
    (h : tokeniseLoop std t out = .ok res) :
    ∃ tks t', Lexed std t tks t' ∧ Ws t'.rest ∧ res = out ++ tks := by
  fun_induction tokeniseLoop std t out with
  | case1 t out hEnd =>
    cases h
    obtain ⟨l, hl, hReads⟩ := skipWs_sound t
    refine ⟨[], t, Lexed.nil t, ?_, (List.append_nil _).symm⟩
    rwa [hReads.rest, isAtEnd_iff.mp hEnd, List.append_nil]
  | case2 t out hEnd e he => cases h
  | case3 t out hEnd tk t₁ hNext ih =>
    obtain ⟨tks, t', hLexed, hWs, rfl⟩ := ih h
    obtain ⟨l, hl, hReads⟩ := skipWs_sound t
    exact ⟨tk :: tks, t', Lexed.cons hl hReads hNext hLexed, hWs, by simp⟩

theorem tokenisePrefixLoop_lexed {t t' : Tokeniser} {tks : List PositionedToken}
    (h : Lexed std t tks t') (out : List PositionedToken) (n : Nat) :
    ∃ m, tokenisePrefixLoop std t out n = tokenisePrefixLoop std t' (out ++ tks) m := by
  induction h generalizing out n with
  | nil => exact ⟨n, by rw [List.append_nil]⟩
  | @cons t t₁ t₂ t' l tk tks hl hReads hNext _ ih =>
    obtain ⟨m, hm⟩ := ih (out ++ [tk]) t₂.pos.offset
    refine ⟨m, ?_⟩
    rw [tokenisePrefixLoop, skipWs_of_reads hl hReads hNext, if_neg (not_atEnd_of_next hNext)]
    split
    · rename_i h
      rw [hNext] at h
      cases h
    · rename_i h
      rw [hNext] at h
      cases h
      rw [hm, List.append_assoc]
      rfl

theorem tokenisePrefixLoop_sound (std : StdF64) (t : Tokeniser) (out : List PositionedToken)
    (n : Nat) :
    ∃ tks t', Lexed std t tks t' ∧ (tokenisePrefixLoop std t out n).1 = out ++ tks := by
  fun_induction tokenisePrefixLoop std t out n with
  | case1 t out n hEnd => exact ⟨[], t, Lexed.nil t, (List.append_nil _).symm⟩
  | case2 t out n hEnd e he => exact ⟨[], t, Lexed.nil t, (List.append_nil _).symm⟩
  | case3 t out n hEnd tk t₁ hNext ih =>
    obtain ⟨tks, t', hLexed, hEq⟩ := ih
    obtain ⟨l, hl, hReads⟩ := skipWs_sound t
    exact ⟨tk :: tks, t', Lexed.cons hl hReads hNext hLexed, by rw [hEq]; simp⟩

/-- The tokens of the prefix start with those of any run. -/
theorem tokenisePrefix_of_lexed {t' : Tokeniser} {input : List UInt8}
    {tks : List PositionedToken} (h : Lexed std (new input) tks t') :
    ∃ tks' t'', Lexed std t' tks' t'' ∧ (tokenisePrefix std input).1 = tks ++ tks' := by
  obtain ⟨m, hm⟩ := tokenisePrefixLoop_lexed h [] 0
  obtain ⟨tks', t'', hLexed, hEq⟩ := tokenisePrefixLoop_sound std t' ([] ++ tks) m
  exact ⟨tks', t'', hLexed, by rw [tokenisePrefix, hm, hEq, List.nil_append]⟩

end CjsonRs.Core.Tokeniser
