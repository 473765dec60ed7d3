import CjsonRs.Rfc.Errors
import CjsonRs.Rfc.LongestNumber

/-!
# Tokens tile the input

The spans of the tokens lie one after another in the input, with whitespace between them. What
a reader returns depends on the bytes it moves over, and on the byte behind them only through
what that byte is not: on an input cut off anywhere behind its result a reader returns the
same (`upTo`). So a span is a document of its own, and the prefix mode stops where the strict
mode accepts.
-/

namespace CjsonRs.Core.Tokeniser

open Rfc Library

variable {std : StdF64} {t t' : Tokeniser} {start : Position} {w : List UInt8} {b : UInt8} {n : Nat}

/-! ## A shorter input -/

/-- The same tokeniser on the first `n` bytes. -/
def upTo (t : Tokeniser) (n : Nat) : Tokeniser := { t with input := t.input.take n }

@[simp] theorem upTo_pos (t : Tokeniser) (n : Nat) : (t.upTo n).pos = t.pos := rfl

theorem rest_upTo (t : Tokeniser) (n : Nat) :
    (t.upTo n).rest = t.rest.take (n - t.pos.offset) := List.drop_take

theorem Reads.upTo (h : Reads t w t') (hn : t'.pos.offset ≤ n) :
    Reads (t.upTo n) w (t'.upTo n) := by
  have hOffset : t'.pos.offset = t.pos.offset + w.length := by
    rw [h.eq, past_pos, Position.past_offset]
  refine ⟨t'.rest.take (n - t'.pos.offset), ?_, ?_⟩
  · rw [rest_upTo, h.rest, List.take_append, List.take_of_length_le (by omega)]
    congr 2
    omega
  · rw [h.eq]
    rfl

theorem peek_upTo (h : t.pos.offset < n) : (t.upTo n).peek = t.peek :=
  List.getElem?_take_of_lt h

/-- A byte that is not ahead is not ahead on less input. -/
theorem peek_upTo_ne (h : t.peek ≠ some b) : (t.upTo n).peek ≠ some b := by
  by_cases hn : t.pos.offset < n
  · rwa [peek_upTo hn]
  · have hNone : (t.upTo n).peek = none := List.getElem?_take_eq_none (Nat.not_lt.mp hn)
    rw [hNone]
    exact nofun

theorem advance_upTo (h : t.pos.offset < n) : (t.upTo n).advance = t.advance.upTo n := by
  unfold advance
  rw [peek_upTo h]
  cases t.peek with
  | none => rfl
  | some b => rfl

theorem offset_lt_advance (hPeek : t.peek = some b) : t.advance.pos.offset = t.pos.offset + 1 := by
  unfold advance
  rw [hPeek]

/-- A byte that is read lies in front of the cut. -/
theorem lt_of_advance_le {m : Nat} (hPeek : t.peek = some b) (h : t.advance.pos.offset ≤ m)
    (hm : m ≤ n) : t.pos.offset < n := by
  rw [offset_lt_advance hPeek] at h
  omega

/-! ## Numbers -/

theorem skipDigits_offset (t : Tokeniser) : t.pos.offset ≤ t.skipDigits.pos.offset := by
  obtain ⟨w, -, hReads⟩ := skipDigits_sound t
  exact hReads.offset_le

theorem skipDigits_upTo (h : t.skipDigits.pos.offset ≤ n) :
    (t.upTo n).skipDigits = t.skipDigits.upTo n := by
  fun_induction skipDigits t with
  | case1 t b hPeek hb ih =>
    have hLt := lt_of_advance_le hPeek (skipDigits_offset t.advance) h
    rw [skipDigits_of_peek ((peek_upTo hLt).trans hPeek), if_pos hb, advance_upTo hLt]
    exact ih h
  | case2 t b hPeek hb =>
    cases hCut : (t.upTo n).peek with
    | none => exact skipDigits_of_none hCut
    | some c =>
      have hSame : c = b := by
        by_contra hne
        exact peek_upTo_ne (fun hEq => hne (Option.some.inj (hEq.symm.trans hPeek))) hCut
      rw [skipDigits_of_peek hCut, hSame, if_neg hb]
  | case3 t hPeek =>
    have hCut : (t.upTo n).peek = none := by
      rw [Option.eq_none_iff_forall_ne_some]
      intro c
      exact peek_upTo_ne (by simp [hPeek])
    exact skipDigits_of_none hCut

theorem readDigits1_upTo (h : t.readDigits1 start = .ok t') (hn : t'.pos.offset ≤ n) :
    (t.upTo n).readDigits1 start = .ok (t'.upTo n) := by
  unfold readDigits1 at h
  split at h
  · cases h
  · rename_i b hPeek
    split_ifs at h with hb
    cases h
    have hStep : t.advance.pos.offset ≤ t.skipDigits.pos.offset := by
      rw [skipDigits_of_peek hPeek, if_pos hb]
      exact skipDigits_offset t.advance
    have hLt := lt_of_advance_le hPeek hStep hn
    unfold readDigits1
    simp only [peek_upTo hLt, hPeek, hb, if_true, skipDigits_upTo hn]

theorem readInt_upTo (h : t.readInt start = .ok t') (hn : t'.pos.offset ≤ n) :
    (t.upTo n).readInt start = .ok (t'.upTo n) := by
  unfold readInt at h
  split at h
  · cases h
  · rename_i b hPeek
    split_ifs at h with hZero hDigit
    · cases h
      have hLt := lt_of_advance_le hPeek le_rfl hn
      unfold readInt
      simp only [peek_upTo hLt, hPeek, if_pos hZero, advance_upTo hLt]
    · cases h
      have hLt := lt_of_advance_le hPeek (skipDigits_offset t.advance) hn
      unfold readInt
      simp only [peek_upTo hLt, hPeek, if_neg hZero, if_pos hDigit, advance_upTo hLt,
        skipDigits_upTo hn]

theorem readDigits1_offset (h : t.readDigits1 start = .ok t') : t.pos.offset ≤ t'.pos.offset := by
  obtain ⟨w, -, hReads⟩ := readDigits1_sound h
  exact hReads.offset_le

theorem readFrac_upTo (h : t.readFrac start = .ok t') (hn : t'.pos.offset ≤ n) :
    (t.upTo n).readFrac start = .ok (t'.upTo n) := by
  unfold readFrac at h
  split_ifs at h with hPoint
  · have hLt := lt_of_advance_le hPoint (readDigits1_offset h) hn
    rw [readFrac, peek_upTo hLt, if_pos hPoint, advance_upTo hLt]
    exact readDigits1_upTo h hn
  · cases h
    rw [readFrac, if_neg (peek_upTo_ne hPoint)]

theorem skipMinus_upTo (hn : t.skipMinus.pos.offset ≤ n) :
    (t.upTo n).skipMinus = t.skipMinus.upTo n := by
  by_cases hMinus : t.peek = some 0x2D
  · rw [skipMinus, if_pos hMinus] at hn
    have hLt := lt_of_advance_le hMinus le_rfl hn
    rw [skipMinus, peek_upTo hLt, if_pos hMinus, skipMinus, if_pos hMinus, advance_upTo hLt]
  · rw [skipMinus, if_neg (peek_upTo_ne hMinus), skipMinus, if_neg hMinus]

theorem skipSign_upTo (hn : t.skipSign.pos.offset ≤ n) :
    (t.upTo n).skipSign = t.skipSign.upTo n := by
  by_cases hSign : t.peek = some 0x2B ∨ t.peek = some 0x2D
  · rw [skipSign, if_pos hSign] at hn
    obtain ⟨b, hPeek⟩ : ∃ b, t.peek = some b := by
      rcases hSign with h | h <;> exact ⟨_, h⟩
    have hLt := lt_of_advance_le hPeek le_rfl hn
    rw [skipSign, peek_upTo hLt, if_pos hSign, skipSign, if_pos hSign, advance_upTo hLt]
  · obtain ⟨hPlus, hMinus⟩ := not_or.mp hSign
    have hNot := not_or_intro (peek_upTo_ne (n := n) hPlus) (peek_upTo_ne (n := n) hMinus)
    rw [skipSign, if_neg hNot, skipSign, if_neg hSign]

theorem readExp_upTo (h : t.readExp start = .ok t') (hn : t'.pos.offset ≤ n) :
    (t.upTo n).readExp start = .ok (t'.upTo n) := by
  unfold readExp at h
  split_ifs at h with hE
  · obtain ⟨b, hPeek⟩ : ∃ b, t.peek = some b := by
      rcases hE with h | h <;> exact ⟨_, h⟩
    have hDigits := readDigits1_offset h
    obtain ⟨s, -, hSign⟩ := skipSign_sound t.advance
    have hLt := lt_of_advance_le hPeek (hSign.offset_le.trans hDigits) hn
    rw [readExp, peek_upTo hLt, if_pos hE, advance_upTo hLt, skipSign_upTo (hDigits.trans hn)]
    exact readDigits1_upTo h hn
  · cases h
    obtain ⟨hLower, hUpper⟩ := not_or.mp hE
    rw [readExp, if_neg (not_or_intro (peek_upTo_ne hLower) (peek_upTo_ne hUpper))]

theorem readNumber_upTo {tok : Token} (h : t.readNumber std = .ok (tok, t'))
    (hn : t'.pos.offset ≤ n) : (t.upTo n).readNumber std = .ok (tok, t'.upTo n) := by
  unfold readNumber at h
  obtain ⟨t₁, hInt, h⟩ := bind_eq_ok.mp h
  obtain ⟨t₂, hFrac, h⟩ := bind_eq_ok.mp h
  obtain ⟨t₃, hExp, h⟩ := bind_eq_ok.mp h
  obtain rfl : t₃ = t' := by
    split at h
    · cases h
    · split at h
      · cases h
      · split_ifs at h
        cases h
        rfl
  obtain ⟨m, -, hReads⟩ := skipMinus_sound t
  obtain ⟨i, -, hReads₁⟩ := readInt_sound hInt
  obtain ⟨f, -, hReads₂⟩ := readFrac_sound hFrac
  obtain ⟨e, -, hReads₃⟩ := readExp_sound hExp
  have hAll := hReads.trans (hReads₁.trans (hReads₂.trans hReads₃))
  have h₂ := hReads₃.offset_le.trans hn
  have h₁ := hReads₂.offset_le.trans h₂
  have hSlice : (t.upTo n).slice t.pos.offset (t₃.upTo n).pos.offset
      = t.slice t.pos.offset t₃.pos.offset :=
    (slice_of_reads (hAll.upTo hn)).trans (slice_of_reads hAll).symm
  unfold readNumber
  rw [skipMinus_upTo (hReads₁.offset_le.trans h₁), upTo_pos, readInt_upTo hInt h₁, ok_bind,
    readFrac_upTo hFrac h₂, ok_bind, readExp_upTo hExp hn, ok_bind, hSlice]
  split at h
  · cases h
  · rename_i s hs
    split at h
    · cases h
    · rename_i v hv
      split_ifs at h with hFinite
      cases h
      rw [if_pos hFinite]

/-! ## Tokens -/

theorem number_head {v : F64} (h : Spells std (.number v) w) :
    ∃ b w', w = b :: w' ∧ (b = 0x2D ∨ Digit b) := by
  cases h with
  | number hs => exact hs.head

/-- A token is read in the same way when the input ends behind it. -/
theorem nextToken_upTo {tk : PositionedToken} (h : t.nextToken std = .ok (tk, t'))
    (hn : t'.pos.offset ≤ n) : (t.upTo n).nextToken std = .ok (tk, t'.upTo n) := by
  obtain ⟨w, hw, hReads, hPos, hEnd⟩ := nextToken_sound h
  obtain ⟨tok, pos, stop⟩ := tk
  dsimp only at hw hPos hEnd
  subst hPos hEnd
  by_cases hNumber : ∃ v, tok = .number v
  · obtain ⟨v, rfl⟩ := hNumber
    obtain ⟨b, w', rfl, hb⟩ := number_head hw
    have hPeek := hReads.peek
    have hRead : t.readNumber std = .ok (.number v, t') := by
      unfold nextToken at h
      simp only [hPeek, readToken_number hb] at h
      split at h
      · cases h
      · rename_i hRead
        obtain ⟨hToken, rfl⟩ := Prod.mk.inj (Except.ok.inj h)
        cases hToken
        exact hRead
    unfold nextToken
    simp only [(hReads.upTo hn).peek, readToken_number hb, readNumber_upTo hRead hn]
    rfl
  · have hNot : ∀ v, tok ≠ .number v := fun v hEq => hNumber ⟨v, hEq⟩
    exact nextToken_complete hw (hReads.upTo hn) (follow_of_ne hNot _)

theorem lexed_upTo {tks : List PositionedToken} (h : Lexed std t tks t')
    (hn : t'.pos.offset ≤ n) : Lexed std (t.upTo n) tks (t'.upTo n) := by
  induction h with
  | nil t => exact Lexed.nil _
  | cons hl hReads hNext hRun ih =>
    have hMiddle := hRun.inside.1.trans hn
    obtain ⟨w, -, hRead, -⟩ := nextToken_sound hNext
    have hFirst := hRead.offset_le.trans hMiddle
    exact Lexed.cons hl (hReads.upTo hFirst) (nextToken_upTo hNext hMiddle) (ih hn)

/-- The prefix mode returns a run and the offset of its end. -/
theorem tokenisePrefix_lexed (std : StdF64) (input : List UInt8) :
    ∃ t', Lexed std (new input) (tokenisePrefix std input).1 t' ∧
      (tokenisePrefix std input).2 = t'.pos.offset := by
  suffices hLoop : ∀ t out m, m = t.pos.offset → ∃ tks t', Lexed std t tks t' ∧
      tokenisePrefixLoop std t out m = (out ++ tks, t'.pos.offset) by
    obtain ⟨tks, t', hRun, hEq⟩ := hLoop (new input) [] 0 rfl
    rw [tokenisePrefix, hEq]
    exact ⟨t', hRun, rfl⟩
  intro t out m hm
  fun_induction tokenisePrefixLoop std t out m with
  | case1 t out m hEnd =>
    subst hm
    exact ⟨[], t, Lexed.nil t, by rw [List.append_nil]⟩
  | case2 t out m hEnd e he =>
    subst hm
    exact ⟨[], t, Lexed.nil t, by rw [List.append_nil]⟩
  | case3 t out m hEnd tk t₁ hNext ih =>
    obtain ⟨tks, t', hRun, hEq⟩ := ih rfl
    obtain ⟨l, hl, hReads⟩ := skipWs_sound t
    refine ⟨tk :: tks, t', Lexed.cons hl hReads hNext hRun, ?_⟩
    rw [hEq, List.append_assoc, List.singleton_append]

/-- The strict mode accepts what the prefix mode has read, as the same tokens. -/
theorem tokenise_take_prefix (std : StdF64) (input : List UInt8) :
    tokenise std (input.take (tokenisePrefix std input).2) = .ok (tokenisePrefix std input).1 := by
  obtain ⟨t', hRun, hEnd⟩ := tokenisePrefix_lexed std input
  rw [hEnd]
  have hCut := lexed_upTo hRun le_rfl
  have hRest : (t'.upTo t'.pos.offset).rest = [] := by
    rw [rest_upTo, Nat.sub_self, List.take_zero]
  have hWs : Ws (t'.upTo t'.pos.offset).rest := by
    rw [hRest]
    exact ws_nil
  change tokeniseLoop std ((new input).upTo t'.pos.offset) [] = _
  rw [tokeniseLoop_lexed hCut, tokeniseLoop_end hWs, List.nil_append]

end CjsonRs.Core.Tokeniser

namespace CjsonRs.Rfc

open CjsonRs.Core CjsonRs.Core.Tokeniser Library

variable {std : StdF64} {input w : List UInt8} {t t' : Tokeniser} {tks : List PositionedToken}

/-! ## Spans -/

/-- The bytes `input[pos.offset..end.offset]` of a token. -/
def span (input : List UInt8) (tk : PositionedToken) : List UInt8 :=
  (new input).slice tk.pos.offset tk.end.offset

/-- A byte between the ends of what is read is one of the bytes read. -/
theorem byte_of_reads {i : Nat} {b : UInt8} (h : Reads t w t') (hLo : t.pos.offset ≤ i)
    (hHi : i < t'.pos.offset) (hb : t.input[i]? = some b) : b ∈ w := by
  have hOffset : t'.pos.offset = t.pos.offset + w.length := by
    rw [h.eq, past_pos, Position.past_offset]
  have hAt : t.rest[i - t.pos.offset]? = some b := by
    rw [rest, List.getElem?_drop, Nat.add_sub_cancel' hLo]
    exact hb
  rw [h.rest, List.getElem?_append_left (by omega)] at hAt
  exact List.mem_of_getElem? hAt

/-- The tokens of a run, their spans and what lies between them. -/
structure Tiled (std : StdF64) (t : Tokeniser) (tks : List PositionedToken) (t' : Tokeniser) :
    Prop where
  inside : ∀ tk ∈ tks, t.pos.offset ≤ tk.pos.offset ∧ tk.pos.offset < tk.end.offset ∧
    tk.end.offset ≤ t'.pos.offset
  ordered : tks.Pairwise fun a b => a.end.offset ≤ b.pos.offset
  between : ∀ i b, t.pos.offset ≤ i → i < t'.pos.offset → t.input[i]? = some b →
    (∀ tk ∈ tks, ¬ (tk.pos.offset ≤ i ∧ i < tk.end.offset)) → isWs b = true
  spelled : ∀ tk ∈ tks, Spells std tk.token (span t.input tk)

theorem lexed_tiled (h : Lexed std t tks t') : Tiled std t tks t' := by
  induction h with
  | nil t => exact ⟨nofun, List.Pairwise.nil, fun i b hLo hHi => absurd hHi (by omega), nofun⟩
  | @cons t t₁ t₂ t' l tk tks hl hReads hNext hRun ih =>
    obtain ⟨w, hSpells, hRead, hPos, hEnd⟩ := nextToken_sound hNext
    have hInput : t₂.input = t.input := (hReads.trans hRead).input_eq
    have hStart := hReads.offset_le
    have hStop := hRun.inside.1
    have hToken : t₁.pos.offset < t₂.pos.offset := by
      obtain ⟨b, w', rfl, -⟩ := hSpells.head
      rw [hRead.eq, past_pos, Position.past_offset, List.length_cons]
      omega
    refine ⟨?_, ?_, ?_, ?_⟩
    · intro tk' hMem
      rcases List.mem_cons.mp hMem with rfl | hMem
      · rw [hPos, hEnd]
        exact ⟨hStart, hToken, hStop⟩
      · obtain ⟨hLo, hRest⟩ := ih.inside tk' hMem
        exact ⟨by omega, hRest⟩
    · refine List.pairwise_cons.mpr ⟨fun tk' hMem => ?_, ih.ordered⟩
      rw [hEnd]
      exact (ih.inside tk' hMem).1
    · intro i b hLo hHi hb hOut
      have hFirst := hOut tk List.mem_cons_self
      rw [hPos, hEnd] at hFirst
      by_cases hBefore : i < t₁.pos.offset
      · exact isWs_iff.mpr (hl b (byte_of_reads hReads hLo hBefore hb))
      · refine ih.between i b (by omega) hHi (hInput ▸ hb) ?_
        exact fun tk' hMem => hOut tk' (List.mem_cons_of_mem tk hMem)
    · intro tk' hMem
      rcases List.mem_cons.mp hMem with rfl | hMem
      · have hSpan : span t.input tk' = w := by
          rw [← slice_of_reads hRead, ← hReads.input_eq, span, hPos, hEnd]
          rfl
        rw [hSpan]
        exact hSpells
      · rw [← hInput]
        exact ih.spelled tk' hMem

/-- The spelling of a token is a document of this one token. -/
theorem tokenise_spelling {tok : Token} (hw : Spells std tok w) :
    ∃ pos, tokenise std w = .ok [⟨tok, Position.start, pos⟩] ∧ pos.offset = w.length := by
  have hRest : (new w).rest = w ++ [] := (List.append_nil w).symm
  have hReads := reads_past hRest
  have hAfter := rest_past hRest
  have hFollow : Follow tok ((new w).past w).rest := by
    rw [hAfter]
    exact fun n _ => numberFollow_nil
  have hNext := nextToken_complete hw hReads hFollow
  have hRun : Lexed std (new w) [⟨tok, Position.start, ((new w).past w).pos⟩] ((new w).past w) :=
    Lexed.cons ws_nil (Reads.refl _) hNext (Lexed.nil _)
  have hWs : Ws ((new w).past w).rest := by
    rw [hAfter]
    exact ws_nil
  refine ⟨((new w).past w).pos, ?_, ?_⟩
  · rw [tokenise, tokeniseLoop_lexed hRun, tokeniseLoop_end hWs, List.nil_append]
  · rw [past_pos, Position.past_offset]
    exact Nat.zero_add _

/-- The spans of the tokens are nonempty, inside the input and one behind the other; a byte
outside all of them is whitespace; and each is on its own the document of its token. -/
structure Tiles (std : StdF64) (input : List UInt8) (tks : List PositionedToken) : Prop where
  inside : ∀ tk ∈ tks, tk.pos.offset < tk.end.offset ∧ tk.end.offset ≤ input.length
  ordered : tks.Pairwise fun a b => a.end.offset ≤ b.pos.offset
  outside : ∀ i b, input[i]? = some b →
    (∀ tk ∈ tks, ¬ (tk.pos.offset ≤ i ∧ i < tk.end.offset)) → isWs b = true
  alone : ∀ tk ∈ tks, ∃ pos, tokenise std (span input tk) = .ok [⟨tk.token, Position.start, pos⟩] ∧
    pos.offset = (span input tk).length

/-- The tokens of an input tile it, and the prefix mode returns the tokens of the bytes in front
of the offset that it returns. -/
theorem tokenise_tiles (std : StdF64) (input : List UInt8) :
    (∀ tks, tokenise std input = .ok tks → Tiles std input tks) ∧
      tokenise std (input.take (tokenisePrefix std input).2)
        = .ok (tokenisePrefix std input).1 := by
  refine ⟨fun tks h => ?_, tokenise_take_prefix std input⟩
  obtain ⟨tks', t', hRun, hWs, hTokens⟩ := tokeniseLoop_sound h
  obtain rfl : tks = tks' := hTokens
  have hTiled := lexed_tiled hRun
  have hInput : t'.input = input := hRun.inside.2.1
  refine ⟨fun tk hMem => ?_, hTiled.ordered, fun i b hb hOut => ?_,
    fun tk hMem => tokenise_spelling (hTiled.spelled tk hMem)⟩
  · obtain ⟨-, hLt, hLe⟩ := hTiled.inside tk hMem
    obtain ⟨w, hReads⟩ := hRun.reads
    obtain ⟨hOffset, hTake, -⟩ := offset_of_reads hReads
    refine ⟨hLt, hLe.trans ?_⟩
    rw [hOffset, ← hTake]
    exact List.length_take_le' _ _
  · by_cases hBefore : i < t'.pos.offset
    · exact hTiled.between i b (Nat.zero_le i) hBefore hb hOut
    · have hAt : t'.rest[i - t'.pos.offset]? = some b := by
        rw [rest, List.getElem?_drop, Nat.add_sub_cancel' (Nat.not_lt.mp hBefore), hInput]
        exact hb
      exact isWs_iff.mpr (hWs b (List.mem_of_getElem? hAt))

/-- Two numbers of one digit with a space between them. -/
theorem tokenise_tiles_ones : Tiles knowsOne [0x31, 0x20, 0x31]
    [⟨.number ⟨0x3FF0000000000000⟩, ⟨1, 1, 0⟩, ⟨1, 2, 1⟩⟩,
      ⟨.number ⟨0x3FF0000000000000⟩, ⟨1, 3, 2⟩, ⟨1, 4, 3⟩⟩] :=
  (tokenise_tiles knowsOne [0x31, 0x20, 0x31]).1 _ (by decide +kernel)

end CjsonRs.Rfc
