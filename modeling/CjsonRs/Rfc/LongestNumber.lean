import CjsonRs.Rfc.Prefix

/-!
# The longest number in front of an input

`read_number` commits itself to a fraction at a point and to an exponent at an `e`. So the
longest number that an input starts with is read, whatever follows it, unless what follows
looks like a part that the number does not have (`Unfinished`).
-/

namespace CjsonRs.Rfc

open CjsonRs.Core CjsonRs.Core.Tokeniser Library

variable {std : StdF64} {m i f e w w' r : List UInt8} {b d : UInt8} {t t' : Tokeniser}
  {start : Position}

/-- No number in front of `w ++ r` is longer than `w`. -/
def LongestNumber (w r : List UInt8) : Prop :=
  Number w ∧ ∀ w', Number w' → w' <+: w ++ r → w'.length ≤ w.length

/-- The letter of an exponent. -/
def ExpLetter (b : UInt8) : Prop := b = 0x65 ∨ b = 0x45

instance (b : UInt8) : Decidable (ExpLetter b) := inferInstanceAs (Decidable (_ ∨ _))

/-- What follows the number `w` starts with a point, and `w` has no fraction and no exponent,
or it starts with an `e`, and `w` has no exponent. -/
def Unfinished (w r : List UInt8) : Prop :=
  ∃ b ∈ r.head?, (b = 0x2E ∧ 0x2E ∉ w ∧ ∀ c ∈ w, ¬ ExpLetter c) ∨
    (ExpLetter b ∧ ∀ c ∈ w, ¬ ExpLetter c)

/-! ## The parts of a number -/

theorem Digit.ne_point (hd : Digit d) : d ≠ 0x2E := by
  rintro rfl
  exact absurd hd.1 (by decide)

theorem Digit.not_expLetter (hd : Digit d) : ¬ ExpLetter d := by
  rintro (rfl | rfl)
  · exact absurd hd.2 (by decide)
  · exact absurd hd.2 (by decide)

/-- The bytes in front of the exponent are no letters, those in front of the fraction no point. -/
theorem minus_int_bytes (hm : Minus m) (hi : IntPart i) :
    ∀ c ∈ m ++ i, c ≠ 0x2E ∧ ¬ ExpLetter c := by
  have hDigits : ∀ c, Digit c → c ≠ 0x2E ∧ ¬ ExpLetter c :=
    fun c hc => ⟨hc.ne_point, hc.not_expLetter⟩
  intro c hc
  rcases List.mem_append.mp hc with hc | hc
  · cases hm with
    | absent => cases hc
    | present =>
      rw [List.mem_singleton.mp hc]
      exact ⟨by decide, by decide⟩
  · cases hi with
    | zero =>
      rw [List.mem_singleton.mp hc]
      exact ⟨by decide, by decide⟩
    | digits hlo hhi hw =>
      rcases List.mem_cons.mp hc with rfl | hc
      · exact hDigits c ⟨UInt8.le_trans (by decide) hlo, hhi⟩
      · exact hDigits c (hw c hc)

theorem frac_bytes (hf : Frac f) : ∀ c ∈ f, ¬ ExpLetter c := by
  cases hf with
  | absent => exact nofun
  | present hw =>
    intro c hc
    rcases List.mem_cons.mp hc with rfl | hc
    · decide
    · exact (hw.2 c hc).not_expLetter

theorem frac_eq_nil_iff (hf : Frac f) : f = [] ↔ 0x2E ∉ f := by
  cases hf <;> simp

theorem exp_eq_nil_iff (he : Exp e) : e = [] ↔ ∀ c ∈ e, ¬ ExpLetter c := by
  cases he with
  | absent => simp
  | @present b s w hb hs hw =>
    constructor
    · rintro ⟨⟩
    · intro h
      exact absurd hb (h b List.mem_cons_self)

theorem exp_point (he : Exp e) : (0x2E : UInt8) ∉ e := by
  cases he with
  | absent => exact nofun
  | @present b s w hb hs hw =>
    intro hMem
    rcases List.mem_cons.mp hMem with rfl | hMem
    · exact absurd hb (by decide)
    rcases List.mem_append.mp hMem with hMem | hMem
    · cases hs <;> simp at hMem
    · exact (hw.2 _ hMem).ne_point rfl

/-- `Unfinished`, by the parts of the number. -/
theorem unfinished_iff (hm : Minus m) (hi : IntPart i) (hf : Frac f) (he : Exp e) :
    Unfinished (m ++ (i ++ (f ++ e))) r ↔
      ∃ b ∈ r.head?, e = [] ∧ (ExpLetter b ∨ b = 0x2E ∧ f = []) := by
  have hMI := minus_int_bytes hm hi
  have hF := frac_bytes hf
  have hLetters : (∀ c ∈ m ++ (i ++ (f ++ e)), ¬ ExpLetter c) ↔ e = [] := by
    rw [exp_eq_nil_iff he]
    constructor
    · exact fun h c hc => h c (by simp [hc])
    · intro h c hc
      rw [← List.append_assoc] at hc
      rcases List.mem_append.mp hc with hc | hc
      · exact (hMI c hc).2
      · rcases List.mem_append.mp hc with hc | hc
        · exact hF c hc
        · exact h c hc
  have hPoint : (0x2E ∉ m ++ (i ++ (f ++ e))) ↔ f = [] := by
    rw [frac_eq_nil_iff hf]
    constructor
    · exact fun h hc => h (by simp [hc])
    · intro h hc
      rw [← List.append_assoc] at hc
      rcases List.mem_append.mp hc with hc | hc
      · exact (hMI _ hc).1 rfl
      · rcases List.mem_append.mp hc with hc | hc
        · exact h hc
        · exact exp_point he hc
  unfold Unfinished
  simp only [hLetters, hPoint]
  constructor
  · rintro ⟨b, hb, ⟨rfl, hNil, hE⟩ | ⟨hLetter, hE⟩⟩
    · exact ⟨_, hb, hE, Or.inr ⟨rfl, hNil⟩⟩
    · exact ⟨b, hb, hE, Or.inl hLetter⟩
  · rintro ⟨b, hb, hE, hLetter | ⟨rfl, hNil⟩⟩
    · exact ⟨b, hb, Or.inr ⟨hLetter, hE⟩⟩
    · exact ⟨_, hb, Or.inl ⟨rfl, hNil, hE⟩⟩

/-! ## No longer number -/

theorem LongestNumber.not_append (h : LongestNumber w r) (b : UInt8) (w' : List UInt8)
    (hb : b :: w' <+: r) :
    ¬ Number (w ++ b :: w') := by
  intro hNumber
  have hLength := h.2 _ hNumber ((List.prefix_append_right_inj w).mpr hb)
  simp only [List.length_append, List.length_cons] at hLength
  omega

theorem digits_append (hw : Digits w) (hd : Digit d) : Digits (w ++ [d]) := by
  refine ⟨by simp, fun c hc => ?_⟩
  rcases List.mem_append.mp hc with hc | hc
  · exact hw.2 c hc
  · rw [List.mem_singleton.mp hc]
    exact hd

theorem digits_singleton (hd : Digit d) : Digits [d] :=
  ⟨by simp, fun c hc => by rw [List.mem_singleton.mp hc]; exact hd⟩

/-- A digit behind a number continues it, unless the number is a zero. -/
theorem LongestNumber.noDigit (h : LongestNumber (m ++ (i ++ (f ++ e))) r) (hm : Minus m)
    (hi : IntPart i) (hf : Frac f) (he : Exp e) (hZero : ¬ (i = [0x30] ∧ f = [] ∧ e = [])) :
    NoDigit r := by
  intro d hd hDigit
  obtain ⟨r', rfl⟩ := List.head?_eq_some_iff.mp hd
  refine h.not_append d [] ⟨r', rfl⟩ ?_
  cases he with
  | @present b s w hb hs hw =>
    have hMore := Number.mk hm hi hf (Exp.present hb hs (digits_append hw hDigit))
    simpa using hMore
  | absent =>
    cases hf with
    | @present w hw =>
      have hMore := Number.mk hm hi (Frac.present (digits_append hw hDigit)) Exp.absent
      simpa using hMore
    | absent =>
      cases hi with
      | zero => exact absurd ⟨rfl, rfl, rfl⟩ hZero
      | @digits b w hlo hhi hw =>
        have hMore := Number.mk hm (IntPart.digits (w := w ++ [d]) hlo hhi fun c hc => ?_)
          Frac.absent Exp.absent
        · simpa using hMore
        · rcases List.mem_append.mp hc with hc | hc
          · exact hw c hc
          · rw [List.mem_singleton.mp hc]
            exact hDigit

/-- No fraction follows a number that has none. -/
theorem LongestNumber.noFrac (h : LongestNumber (m ++ (i ++ ([] ++ []))) (0x2E :: r)) (hm : Minus m)
    (hi : IntPart i) : NoDigit r := by
  intro d hd hDigit
  obtain ⟨r', rfl⟩ := List.head?_eq_some_iff.mp hd
  refine h.not_append 0x2E [d] ⟨r', rfl⟩ ?_
  have hMore := Number.mk hm hi (Frac.present (digits_singleton hDigit)) Exp.absent
  simpa using hMore

/-- No exponent follows a number that has none. -/
theorem LongestNumber.noExp {s : List UInt8}
    (h : LongestNumber (m ++ (i ++ (f ++ []))) (b :: (s ++ r))) (hm : Minus m) (hi : IntPart i)
    (hf : Frac f) (hb : ExpLetter b) (hs : Sign s) : NoDigit r := by
  intro d hd hDigit
  obtain ⟨r', rfl⟩ := List.head?_eq_some_iff.mp hd
  refine h.not_append b (s ++ [d]) ⟨r', by simp⟩ ?_
  have hMore := Number.mk hm hi hf (Exp.present hb hs (digits_singleton hDigit))
  simpa using hMore

/-! ## The reader -/

theorem readDigits1_error (hr : NoDigit t.rest) :
    t.readDigits1 start = .error (.invalidNumber start) := by
  unfold readDigits1
  cases hPeek : t.peek with
  | none => rfl
  | some b =>
    have hb : isDigit b = false := by
      rw [Bool.eq_false_iff, ne_eq, isDigit_iff]
      exact hr b (by rw [← peek_eq]; exact hPeek)
    simp only [hb, Bool.false_eq_true, if_false]

theorem skipSign_error (hr : ∀ s r', Sign s → t.rest = s ++ r' → NoDigit r') :
    t.skipSign.readDigits1 start = .error (.invalidNumber start) := by
  obtain ⟨s, hs, hReads⟩ := skipSign_sound t
  exact readDigits1_error (hr s _ hs hReads.rest)

/-- The longest number is read when nothing behind it looks like another part. -/
theorem readNumber_longest {s : Str} {n : F64} (hLongest : LongestNumber (encode s) r)
    (hn : std.parse s = some n) (hFinite : n.isFinite) (hRest : t.rest = encode s ++ r)
    (hDone : ¬ Unfinished (encode s) r) :
    t.readNumber std = .ok (.number n, t.past (encode s)) := by
  have hNumber := hLongest.1
  generalize hw : encode s = w at hNumber
  obtain @⟨m, i, f, e, hm, hi, hf, he⟩ := hNumber
  have hReads : Reads t (encode s) (t.past (encode s)) := reads_past hRest
  have hAfter : (t.past (encode s)).rest = r := rest_past hRest
  rw [hw] at hLongest hDone
  refine readNumber_parts hw hm hi hf he hn hFinite (hw ▸ hReads) (fun hZero => ?_)
    fun hNil b hb => ?_
  · rw [← hw, hAfter]
    exact hLongest.noDigit hm hi hf he hZero
  · rw [← hw, hAfter] at hb
    rw [unfinished_iff hm hi hf he] at hDone
    exact ⟨fun hE => hDone ⟨b, hb, hNil, Or.inl hE⟩,
      fun hf hPoint => hDone ⟨b, hb, hNil, Or.inr ⟨hPoint, hf⟩⟩⟩

theorem readFrac_error (hPeek : t.peek = some 0x2E) (hr : NoDigit t.advance.rest) :
    t.readFrac start = .error (.invalidNumber start) := by
  rw [readFrac, if_pos hPeek, readDigits1_error hr]

theorem readExp_error (hPeek : t.peek = some b) (hb : ExpLetter b)
    (hr : ∀ s r', Sign s → t.advance.rest = s ++ r' → NoDigit r') :
    t.readExp start = .error (.invalidNumber start) := by
  have hLetter : t.peek = some 0x65 ∨ t.peek = some 0x45 := by
    rcases hb with rfl | rfl
    · exact Or.inl hPeek
    · exact Or.inr hPeek
  rw [readExp, if_pos hLetter, skipSign_error hr]

/-- Nothing is read when something behind the longest number looks like another part. -/
theorem readNumber_unfinished (hLongest : LongestNumber w r) (hRest : t.rest = w ++ r)
    (hMore : Unfinished w r) : t.readNumber std = .error (.invalidNumber t.pos) := by
  obtain ⟨hNumber, -⟩ := id hLongest
  obtain @⟨m, i, f, e, hm, hi, hf, he⟩ := hNumber
  obtain ⟨b, hb, rfl, hPart⟩ := (unfinished_iff hm hi hf he).mp hMore
  obtain ⟨r, rfl⟩ := List.head?_eq_some_iff.mp hb
  obtain ⟨t₃, hReads, hAfter⟩ : ∃ t₃, Reads t (m ++ (i ++ (f ++ []))) t₃ ∧ t₃.rest = b :: r :=
    ⟨_, reads_past hRest, rest_past hRest⟩
  obtain ⟨t₁, hMinus, hReads⟩ := reads_append_iff.mp hReads
  obtain ⟨t₂, hInt, hReads⟩ := reads_append_iff.mp hReads
  rw [List.append_nil] at hReads
  have hMinusFollow : ∃ b r, t₁.rest = b :: r ∧ Digit b := by
    obtain ⟨b, w, rfl, hb⟩ := hi.head
    exact ⟨b, _, hInt.rest, hb⟩
  have hNoDigit : NoDigit t₃.rest := by
    rw [hAfter]
    intro d hd hDigit
    cases hd
    rcases hPart with hLetter | ⟨rfl, -⟩
    · exact hDigit.not_expLetter hLetter
    · exact hDigit.ne_point rfl
  have hIntFollow : NoDigit t₂.rest := by
    rw [hReads.rest]
    exact hf.noDigit hNoDigit
  have hPeek : t₃.peek = some b := peek_of_rest hAfter
  unfold readNumber
  rw [skipMinus_complete hm hMinus hMinusFollow, readInt_complete hi hInt fun _ => hIntFollow,
    ok_bind]
  rcases hPart with hLetter | ⟨rfl, rfl⟩
  · have hPoint : f = [] → ∀ c ∈ t₃.rest.head?, c ≠ 0x2E := by
      intro _ c hc
      rw [hAfter] at hc
      cases hc
      rintro rfl
      exact absurd hLetter (by decide)
    have hAdvance : t₃.advance.rest = r := by
      have hRead := reads_advance hPeek (not_continuation_of_e hLetter)
      have hEq := hRead.rest
      rw [hAfter] at hEq
      exact (List.cons.inj hEq).2.symm
    rw [readFrac_complete hf hReads (fun _ => hNoDigit) hPoint, ok_bind,
      readExp_error hPeek hLetter fun s r' hs hEq => ?_]
    · rfl
    · rw [hAdvance] at hEq
      subst hEq
      exact hLongest.noExp hm hi hf hLetter hs
  · obtain rfl := reads_nil_iff.mp hReads
    have hAdvance : t₃.advance.rest = r := by
      have hEq := (reads_advance hPeek rfl).rest
      rw [hAfter] at hEq
      exact (List.cons.inj hEq).2.symm
    rw [readFrac_error hPeek (by rw [hAdvance]; exact hLongest.noFrac hm hi)]
    rfl

/-! ## The prefix parser -/

/-- The input starts with whitespace and a number. -/
theorem nextToken_number (std : StdF64) {l : List UInt8} (hl : Ws l) (hNumber : Number w)
    (r : List UInt8) :
    ∃ t, Reads (new (l ++ (w ++ r))) l t ∧ t.rest = w ++ r ∧ (new (l ++ (w ++ r))).skipWs = t ∧
      t.isAtEnd = false ∧ ∃ b, t.peek = some b ∧ t.readToken std b = t.readNumber std := by
  obtain ⟨b, w', rfl, hb⟩ := hNumber.head
  have hRest : (new (l ++ (b :: w' ++ r))).rest = l ++ (b :: w' ++ r) := rfl
  have hAfter := rest_past hRest
  have hWs : isWs b = false := by
    rcases hb with rfl | hb
    · rfl
    · exact isWs_of_digit hb
  have hSkip := skipWs_eq hRest (fun c hc => isWs_iff.mpr (hl c hc)) (by
    intro c hc
    cases hc
    exact hWs)
  refine ⟨_, reads_past hRest, hAfter, hSkip, ?_, b, peek_of_rest hAfter, readToken_number hb _⟩
  rw [Bool.eq_false_iff, ne_eq, isAtEnd_iff, hAfter]
  simp

/-- `parse_prefix` finds the longest number in front of an input, whatever follows it, exactly
when nothing behind it looks like a part that it does not have. -/
theorem parsePrefix_longestNumber_iff {l : List UInt8} {s : Str} {n : F64} (hl : Ws l)
    (hLongest : LongestNumber (encode s) r) (hn : std.parse s = some n) (hFinite : n.isFinite) :
    parsePrefix std (l ++ (encode s ++ r)) = .ok (.number n, (l ++ encode s).length) ↔
      ¬ Unfinished (encode s) r := by
  obtain ⟨t, hReads, hRest, hSkip, hEnd, b, hPeek, hRead⟩ :=
    nextToken_number std hl hLongest.1 r
  constructor
  · intro h hMore
    have hError : t.nextToken std = .error (.invalidNumber t.pos) := by
      unfold nextToken
      simp only [hPeek, hRead, readNumber_unfinished hLongest hRest hMore]
    obtain ⟨tks, t₁, -, hne, hRun, -⟩ := parsePrefix_sound h
    cases hRun with
    | nil => exact hne rfl
    | cons hl' hReads' hNext _ =>
      have hSame := skipWs_of_reads hl' hReads' hNext
      rw [hSkip] at hSame
      subst hSame
      rw [hError] at hNext
      cases hNext
  · intro hDone
    have hNext : t.nextToken std
        = .ok (⟨.number n, t.pos, (t.past (encode s)).pos⟩, t.past (encode s)) := by
      unfold nextToken
      simp only [hPeek, hRead, readNumber_longest hLongest hn hFinite hRest hDone]
    have hRun := Lexed.cons hl hReads hNext (Lexed.nil _)
    have hLength : (t.past (encode s)).pos.offset = (l ++ encode s).length :=
      (offset_of_reads (hReads.trans (reads_past hRest))).1
    have hT : TValue ([⟨.number n, t.pos, (t.past (encode s)).pos⟩].map PositionedToken.token)
        (.number n) := TValue.number n
    rw [← hLength]
    exact parsePrefix_complete hT hRun (Nat.zero_le _)

/-- A parser that knows one number. -/
def knowsOne : StdF64 where
  parse s := if s = ['1'] then some ⟨0x3FF0000000000000⟩ else none
  display _ := []

/-- `1` is the longest number of `1.x`. -/
theorem longestNumber_one : LongestNumber (encode ['1']) [0x2E, 0x78] := by
  have hOne : encode ['1'] = [0x31] := by decide
  rw [hOne]
  have hNumber : Number ([] ++ ([0x31] ++ ([] ++ []))) :=
    Number.mk Minus.absent (IntPart.digits (by decide) (by decide) (by simp)) Frac.absent Exp.absent
  refine ⟨hNumber, fun w' hw' hPre => ?_⟩
  obtain ⟨w, b, rfl, hb⟩ := hw'.last
  obtain ⟨r, hr⟩ := hPre
  rcases w with _ | ⟨x, _ | ⟨y, _ | ⟨z, w⟩⟩⟩
  · exact le_refl 1
  · cases hr
    exact absurd rfl hb.ne_point
  · cases hr
    exact absurd hb.2 (by decide)
  · have hLength := congrArg List.length hr
    simp at hLength

/-- The whole of `1.x` is rejected. -/
theorem parsePrefix_rejects_longestNumber :
    ¬ ∀ (std : StdF64) (l r : List UInt8) (s : Str) (n : F64), Ws l →
      LongestNumber (encode s) r → std.parse s = some n → n.isFinite →
      parsePrefix std (l ++ (encode s ++ r)) = .ok (.number n, (l ++ encode s).length) := by
  intro hAll
  have hOk := hAll knowsOne [] [0x2E, 0x78] ['1'] _ ws_nil longestNumber_one rfl rfl
  have hCheck : (match parsePrefix knowsOne ([] ++ (encode ['1'] ++ [0x2E, 0x78])) with
      | .ok _ => false
      | .error _ => true) = true := by decide +kernel
  rw [hOk] at hCheck
  cases hCheck

theorem parsePrefix_longestNumber_iff_one :
    parsePrefix knowsOne ([] ++ (encode ['1'] ++ [0x2E, 0x78]))
        = .ok (.number ⟨0x3FF0000000000000⟩, ([] ++ encode ['1']).length) ↔
      ¬ Unfinished (encode ['1']) [0x2E, 0x78] :=
  parsePrefix_longestNumber_iff ws_nil longestNumber_one rfl rfl

end CjsonRs.Rfc
