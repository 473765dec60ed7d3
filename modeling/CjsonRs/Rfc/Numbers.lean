import CjsonRs.Rfc.Strings

/-!
# The number reader against the grammar

`read_number` takes as much as it can, so soundness needs nothing about what follows, while
completeness needs that the byte after the number cannot continue it (`NumberFollow`).
-/

namespace CjsonRs.Rfc

/-! ## What follows a number -/

/-- No digit is ahead. -/
def NoDigit (r : List UInt8) : Prop := ∀ b ∈ r.head?, ¬ Digit b

/-- Nothing that continues a number is ahead. -/
def NumberFollow (r : List UInt8) : Prop :=
  ∀ b ∈ r.head?, ¬ Digit b ∧ b ≠ 0x2E ∧ b ≠ 0x65 ∧ b ≠ 0x45

theorem NumberFollow.noDigit {r : List UInt8} (h : NumberFollow r) : NoDigit r :=
  fun b hb => (h b hb).1

theorem numberFollow_nil : NumberFollow [] := by simp [NumberFollow]

theorem IntPart.head {w : List UInt8} (h : IntPart w) : ∃ b w', w = b :: w' ∧ Digit b := by
  cases h with
  | zero => exact ⟨_, _, rfl, by decide, by decide⟩
  | digits hlo hhi _ => exact ⟨_, _, rfl, UInt8.le_trans (by decide) hlo, hhi⟩

theorem Exp.noDigit {e r : List UInt8} (he : Exp e) (hr : NoDigit r) : NoDigit (e ++ r) := by
  cases he with
  | absent => exact hr
  | present hE _ _ =>
    intro b hb
    cases hb
    rcases hE with rfl | rfl <;> simp [Digit]

theorem Frac.noDigit {f r : List UInt8} (hf : Frac f) (hr : NoDigit r) : NoDigit (f ++ r) := by
  cases hf with
  | absent => exact hr
  | present _ =>
    intro b hb
    cases hb
    simp [Digit]

end CjsonRs.Rfc

namespace CjsonRs.Core.Tokeniser

open Rfc Library

/-! ## Digits -/

theorem skipDigits_sound (t : Tokeniser) : ∃ w, (∀ b ∈ w, Digit b) ∧ Reads t w t.skipDigits := by
  fun_induction skipDigits t with
  | case1 t b hPeek hb ih =>
    obtain ⟨w, hw, hReads⟩ := ih
    refine ⟨b :: w, ?_, (reads_advance hPeek (not_continuation_of_isDigit hb)).trans hReads⟩
    intro c hc
    rcases List.mem_cons.mp hc with rfl | hc
    · exact isDigit_iff.mp hb
    · exact hw c hc
  | case2 t b hPeek hb => exact ⟨[], by simp, Reads.refl t⟩
  | case3 t hPeek => exact ⟨[], by simp, Reads.refl t⟩

theorem skipDigits_complete {t t' : Tokeniser} {w : List UInt8} (hw : ∀ b ∈ w, Digit b)
    (hReads : Reads t w t') (hr : NoDigit t'.rest) : t.skipDigits = t' := by
  rw [skipDigits_eq hReads.rest (fun b hb => isDigit_iff.mpr (hw b hb)), hReads.eq]
  intro b hb
  rw [Bool.eq_false_iff, ne_eq, isDigit_iff]
  exact hr b hb

theorem not_continuation_of_digit {b : UInt8} (h : Digit b) : isContinuation b = false :=
  not_continuation_of_isDigit (isDigit_iff.mpr h)

/-! ## The parts of a number -/

section Parts

variable {start : Position} {t t' : Tokeniser}

theorem readDigits1_sound (h : t.readDigits1 start = .ok t') :
    ∃ w, Digits w ∧ Reads t w t' := by
  unfold readDigits1 at h
  split at h
  · cases h
  · rename_i b hPeek
    split_ifs at h with hb
    cases h
    rw [skipDigits_of_peek hPeek, if_pos hb]
    obtain ⟨w, hw, hReads⟩ := skipDigits_sound t.advance
    refine ⟨b :: w, ⟨by simp, ?_⟩,
      (reads_advance hPeek (not_continuation_of_isDigit hb)).trans hReads⟩
    intro c hc
    rcases List.mem_cons.mp hc with rfl | hc
    · exact isDigit_iff.mp hb
    · exact hw c hc

theorem readDigits1_complete {w : List UInt8} (hw : Digits w) (hReads : Reads t w t')
    (hr : NoDigit t'.rest) : t.readDigits1 start = .ok t' := by
  obtain ⟨hne, hAll⟩ := hw
  obtain ⟨b, w, rfl⟩ := List.exists_cons_of_ne_nil hne
  unfold readDigits1
  simp only [hReads.peek, isDigit_iff.mpr (hAll b List.mem_cons_self), if_true,
    skipDigits_complete hAll hReads hr]

theorem readInt_sound (h : t.readInt start = .ok t') : ∃ w, IntPart w ∧ Reads t w t' := by
  unfold readInt at h
  split at h
  · cases h
  · rename_i b hPeek
    split_ifs at h with hZero hDigit
    · cases h
      subst hZero
      exact ⟨_, IntPart.zero, reads_advance hPeek rfl⟩
    · cases h
      obtain ⟨w, hw, hReads⟩ := skipDigits_sound t.advance
      have hb : Digit b := ⟨UInt8.le_trans (by decide) hDigit.1, hDigit.2⟩
      exact ⟨_, IntPart.digits hDigit.1 hDigit.2 hw,
        (reads_advance hPeek (not_continuation_of_digit hb)).trans hReads⟩

theorem readInt_complete {w : List UInt8} (hw : IntPart w) (hReads : Reads t w t')
    (hr : w ≠ [0x30] → NoDigit t'.rest) : t.readInt start = .ok t' := by
  unfold readInt
  cases hw with
  | zero =>
    obtain ⟨hPeek, rfl⟩ := (reads_byte_iff rfl).mp hReads
    simp only [hPeek, if_true]
  | digits hlo hhi hw =>
    rename_i b w
    have hb : Digit b := ⟨UInt8.le_trans (by decide) hlo, hhi⟩
    have hne : b ≠ 0x30 := by
      rintro rfl
      exact absurd hlo (by decide)
    obtain ⟨t₁, h₁, hReads⟩ := reads_cons_iff.mp hReads
    obtain ⟨hPeek, rfl⟩ := (reads_byte_iff (not_continuation_of_digit hb)).mp h₁
    have hr' : NoDigit t'.rest := hr fun hEq => hne (List.cons.inj hEq).1
    simp only [hPeek, if_neg hne, if_pos (And.intro hlo hhi), skipDigits_complete hw hReads hr']

theorem readFrac_sound (h : t.readFrac start = .ok t') : ∃ w, Frac w ∧ Reads t w t' := by
  unfold readFrac at h
  split_ifs at h with hPoint
  · obtain ⟨w, hw, hReads⟩ := readDigits1_sound h
    exact ⟨_, Frac.present hw, (reads_advance hPoint rfl).trans hReads⟩
  · cases h
    exact ⟨[], Frac.absent, Reads.refl t⟩

theorem readFrac_complete {w : List UInt8} (hw : Frac w) (hReads : Reads t w t')
    (hr : w ≠ [] → NoDigit t'.rest) (hPoint : w = [] → ∀ b ∈ t'.rest.head?, b ≠ 0x2E) :
    t.readFrac start = .ok t' := by
  unfold readFrac
  cases hw with
  | absent =>
    obtain rfl := reads_nil_iff.mp hReads
    rw [if_neg]
    intro hPeek
    rw [peek_eq] at hPeek
    exact hPoint rfl _ hPeek rfl
  | present hw =>
    obtain ⟨t₁, h₁, hReads⟩ := reads_cons_iff.mp hReads
    obtain ⟨hPeek, rfl⟩ := (reads_byte_iff rfl).mp h₁
    rw [if_pos hPeek]
    exact readDigits1_complete hw hReads (hr (List.cons_ne_nil _ _))

theorem skipMinus_sound (t : Tokeniser) : ∃ w, Minus w ∧ Reads t w t.skipMinus := by
  unfold skipMinus
  split_ifs with hPeek
  · exact ⟨_, Minus.present, reads_advance hPeek rfl⟩
  · exact ⟨_, Minus.absent, Reads.refl t⟩

theorem skipMinus_complete {w : List UInt8} (hw : Minus w) (hReads : Reads t w t')
    (hr : ∃ b r, t'.rest = b :: r ∧ Digit b) : t.skipMinus = t' := by
  unfold skipMinus
  cases hw with
  | absent =>
    obtain rfl := reads_nil_iff.mp hReads
    obtain ⟨b, r, hRest, hb⟩ := hr
    rw [if_neg]
    intro hPeek
    rw [peek_of_rest hRest] at hPeek
    cases hPeek
    exact absurd hb.1 (by decide)
  | present =>
    obtain ⟨hPeek, rfl⟩ := (reads_byte_iff rfl).mp hReads
    rw [if_pos hPeek]

theorem skipSign_sound (t : Tokeniser) : ∃ w, Sign w ∧ Reads t w t.skipSign := by
  unfold skipSign
  split_ifs with hPeek
  · rcases hPeek with hPeek | hPeek
    · exact ⟨_, Sign.plus, reads_advance hPeek rfl⟩
    · exact ⟨_, Sign.minus, reads_advance hPeek rfl⟩
  · exact ⟨_, Sign.absent, Reads.refl t⟩

theorem skipSign_complete {w : List UInt8} (hw : Sign w) (hReads : Reads t w t')
    (hr : ∃ b r, t'.rest = b :: r ∧ Digit b) : t.skipSign = t' := by
  unfold skipSign
  cases hw with
  | absent =>
    obtain rfl := reads_nil_iff.mp hReads
    obtain ⟨b, r, hRest, hb⟩ := hr
    rw [if_neg]
    rintro (hPeek | hPeek)
    all_goals
      rw [peek_of_rest hRest] at hPeek
      cases hPeek
      exact absurd hb.1 (by decide)
  | plus =>
    obtain ⟨hPeek, rfl⟩ := (reads_byte_iff rfl).mp hReads
    rw [if_pos (Or.inl hPeek)]
  | minus =>
    obtain ⟨hPeek, rfl⟩ := (reads_byte_iff rfl).mp hReads
    rw [if_pos (Or.inr hPeek)]

theorem not_continuation_of_e {e : UInt8} (he : e = 0x65 ∨ e = 0x45) :
    isContinuation e = false := by
  rcases he with rfl | rfl <;> rfl

theorem readExp_sound (h : t.readExp start = .ok t') : ∃ w, Exp w ∧ Reads t w t' := by
  unfold readExp at h
  split_ifs at h with hE
  · obtain ⟨s, hs, hSign⟩ := skipSign_sound t.advance
    obtain ⟨w, hw, hReads⟩ := readDigits1_sound h
    obtain ⟨e, he, hPeek⟩ : ∃ e, (e = 0x65 ∨ e = 0x45) ∧ t.peek = some e := by
      rcases hE with hE | hE
      · exact ⟨_, Or.inl rfl, hE⟩
      · exact ⟨_, Or.inr rfl, hE⟩
    exact ⟨_, Exp.present he hs hw,
      (reads_advance hPeek (not_continuation_of_e he)).trans (hSign.trans hReads)⟩
  · cases h
    exact ⟨[], Exp.absent, Reads.refl t⟩

theorem readExp_complete {w : List UInt8} (hw : Exp w) (hReads : Reads t w t')
    (hr : w ≠ [] → NoDigit t'.rest)
    (hLetter : w = [] → ∀ b ∈ t'.rest.head?, ¬ (b = 0x65 ∨ b = 0x45)) :
    t.readExp start = .ok t' := by
  unfold readExp
  cases hw with
  | absent =>
    obtain rfl := reads_nil_iff.mp hReads
    rw [if_neg]
    rintro (hPeek | hPeek)
    all_goals
      rw [peek_eq] at hPeek
      exact hLetter rfl _ hPeek (by simp)
  | present he hs hw =>
    obtain ⟨t₁, h₁, hReads⟩ := reads_cons_iff.mp hReads
    obtain ⟨hPeek, rfl⟩ := (reads_byte_iff (not_continuation_of_e he)).mp h₁
    obtain ⟨t₂, h₂, hReads⟩ := reads_append_iff.mp hReads
    have hDigit : ∃ b r, t₂.rest = b :: r ∧ Digit b := by
      obtain ⟨hne, hAll⟩ := hw
      obtain ⟨b, w, rfl⟩ := List.exists_cons_of_ne_nil hne
      exact ⟨b, _, hReads.rest, hAll b List.mem_cons_self⟩
    rw [if_pos, skipSign_complete hs h₂ hDigit]
    · exact readDigits1_complete hw hReads (hr (List.cons_ne_nil _ _))
    · rcases he with rfl | rfl
      · exact Or.inl hPeek
      · exact Or.inr hPeek

end Parts

/-! ## Numbers -/

theorem slice_of_reads {t t' : Tokeniser} {w : List UInt8} (h : Reads t w t') :
    t.slice t.pos.offset t'.pos.offset = w := by
  have hOffset : t'.pos.offset - t.pos.offset = w.length := by
    rw [h.eq, past_pos, Position.past_offset]
    omega
  change t.rest.take _ = w
  rw [hOffset, h.rest, List.take_left]

/-- What `read_number` reads is a number of the grammar with a finite value. -/
theorem readNumber_sound {std : StdF64} {t t' : Tokeniser} {tok : Token}
    (h : t.readNumber std = .ok (tok, t')) :
    ∃ s n, Number (encode s) ∧ std.parse s = some n ∧ n.isFinite ∧ tok = .number n ∧
      Reads t (encode s) t' := by
  unfold readNumber at h
  obtain ⟨t₁, hInt, h⟩ := bind_eq_ok.mp h
  obtain ⟨t₂, hFrac, h⟩ := bind_eq_ok.mp h
  obtain ⟨t₃, hExp, h⟩ := bind_eq_ok.mp h
  obtain ⟨m, hm, hMinus⟩ := skipMinus_sound t
  obtain ⟨i, hi, hInt⟩ := readInt_sound hInt
  obtain ⟨f, hf, hFrac⟩ := readFrac_sound hFrac
  obtain ⟨e, he, hExp⟩ := readExp_sound hExp
  have hReads := hMinus.trans (hInt.trans (hFrac.trans hExp))
  have hNumber := Number.mk hm hi hf he
  rw [slice_of_reads hReads] at h
  split at h
  · cases h
  · rename_i s hs
    split at h
    · cases h
    · rename_i n hn
      split_ifs at h with hFinite
      cases h
      rw [fromUtf8_eq_some.mp hs] at hReads hNumber
      exact ⟨s, n, hNumber, hn, hFinite, rfl, hReads⟩

/-- A number is read whole when what follows continues none of its parts and begins none that
it does not have. -/
theorem readNumber_parts {std : StdF64} {t t' : Tokeniser} {s : Str} {n : F64}
    {m i f e : List UInt8} (hs : encode s = m ++ (i ++ (f ++ e))) (hm : Minus m) (hi : IntPart i)
    (hf : Frac f) (he : Exp e) (hn : std.parse s = some n) (hFinite : n.isFinite)
    (hReads : Reads t (encode s) t') (hr : ¬ (i = [0x30] ∧ f = [] ∧ e = []) → NoDigit t'.rest)
    (hStop : e = [] → ∀ b ∈ t'.rest.head?, ¬ (b = 0x65 ∨ b = 0x45) ∧ (f = [] → b ≠ 0x2E)) :
    t.readNumber std = .ok (.number n, t') := by
  have hSlice := slice_of_reads hReads
  rw [hs] at hReads
  obtain ⟨t₁, hMinus, hReads⟩ := reads_append_iff.mp hReads
  obtain ⟨t₂, hInt, hReads⟩ := reads_append_iff.mp hReads
  obtain ⟨t₃, hFrac, hExp⟩ := reads_append_iff.mp hReads
  have hMinusFollow : ∃ b r, t₁.rest = b :: r ∧ Digit b := by
    obtain ⟨b, w, rfl, hb⟩ := hi.head
    exact ⟨b, _, hInt.rest, hb⟩
  have hFollow : f ++ e = [] ∨ NoDigit t₂.rest := by
    by_cases hNil : f ++ e = []
    · exact Or.inl hNil
    · right
      rw [hFrac.rest, hExp.rest]
      refine hf.noDigit (he.noDigit (hr ?_))
      rintro ⟨-, rfl, rfl⟩
      exact hNil rfl
  have hIntFollow : i ≠ [0x30] → NoDigit t₂.rest := by
    intro hne
    rcases hFollow with hNil | hNo
    · obtain ⟨rfl, rfl⟩ := List.append_eq_nil_iff.mp hNil
      rw [hFrac.rest, hExp.rest]
      exact hr fun hAll => hne hAll.1
    · exact hNo
  have hFracFollow : f ≠ [] → NoDigit t₃.rest := by
    intro hne
    rw [hExp.rest]
    exact he.noDigit (hr fun hAll => hne hAll.2.1)
  have hPoint : f = [] → ∀ b ∈ t₃.rest.head?, b ≠ 0x2E := by
    intro hNil b hb
    rw [hExp.rest] at hb
    cases he with
    | absent => exact (hStop rfl b hb).2 hNil
    | present hE _ _ =>
      cases hb
      rcases hE with rfl | rfl <;> decide
  unfold readNumber
  rw [skipMinus_complete hm hMinus hMinusFollow, readInt_complete hi hInt hIntFollow, ok_bind,
    readFrac_complete hf hFrac hFracFollow hPoint, ok_bind,
    readExp_complete he hExp (fun hne => hr fun hAll => hne hAll.2.2)
      (fun hNil b hb => (hStop hNil b hb).1), ok_bind, hSlice, fromUtf8_encode]
  simp only [hn, hFinite, if_true]

/-- A number of the grammar is read whole in front of a byte that cannot continue it. -/
theorem readNumber_complete {std : StdF64} {t t' : Tokeniser} {s : Str} {n : F64}
    (hNumber : Number (encode s)) (hn : std.parse s = some n) (hFinite : n.isFinite)
    (hReads : Reads t (encode s) t') (hr : NumberFollow t'.rest) :
    t.readNumber std = .ok (.number n, t') := by
  generalize hw : encode s = w at hNumber
  obtain ⟨hm, hi, hf, he⟩ := hNumber
  refine readNumber_parts hw hm hi hf he hn hFinite hReads (fun _ => hr.noDigit) fun _ b hb => ?_
  obtain ⟨-, hPoint, hE, hE'⟩ := hr b hb
  exact ⟨not_or_intro hE hE', fun _ => hPoint⟩

end CjsonRs.Core.Tokeniser
