import CjsonRs.Core.Tokeniser
import CjsonRs.Rfc.Grammar

/-!
# The readers of the tokeniser against the grammar

`Tokeniser.rest` is the input from the current offset on, and `Reads t w t'` says that `t'`
is `t` moved over the bytes `w`. Every reader is characterised in these terms: a reader
without look-ahead by an equivalence (`readHex4_iff`, `readString_iff`, …), the number
reader by soundness and by completeness in front of a byte that cannot continue a number.
-/

namespace CjsonRs.Core

open Rfc Library

/-! ## Positions over bytes -/

/-- A byte of an encoding after its first. -/
def isContinuation (b : UInt8) : Bool := 0x80 ≤ b && b ≤ 0xBF

namespace Position

/-- The position after a byte: a newline starts a line, a continuation byte stays in the
column of its character. -/
def step (p : Position) (b : UInt8) : Position where
  line := if b = 0x0A then p.line + 1 else p.line
  column := if b = 0x0A then 1 else if isContinuation b then p.column else p.column + 1
  offset := p.offset + 1

/-- The position after some bytes. -/
def past (p : Position) (w : List UInt8) : Position := w.foldl step p

@[simp] theorem past_nil (p : Position) : p.past [] = p := rfl

@[simp] theorem past_append (p : Position) (w w' : List UInt8) :
    p.past (w ++ w') = (p.past w).past w' := List.foldl_append

@[simp] theorem past_offset (p : Position) (w : List UInt8) :
    (p.past w).offset = p.offset + w.length := by
  induction w generalizing p with
  | nil => rfl
  | cons b w ih =>
    change ((p.step b).past w).offset = _
    rw [ih, List.length_cons]
    simp only [step]
    omega

end Position

namespace Tokeniser

/-! ## The bytes ahead -/

/-- The input from the current offset on. -/
def rest (t : Tokeniser) : List UInt8 := t.input.drop t.pos.offset

/-- The tokeniser moved over some bytes. -/
def past (t : Tokeniser) (w : List UInt8) : Tokeniser := { t with pos := t.pos.past w }

/-- `t'` is `t` moved over the bytes `w`, which are ahead of `t`. -/
def Reads (t : Tokeniser) (w : List UInt8) (t' : Tokeniser) : Prop :=
  ∃ r, t.rest = w ++ r ∧ t' = t.past w

@[simp] theorem past_nil (t : Tokeniser) : t.past [] = t := rfl

@[simp] theorem past_past (t : Tokeniser) (w w' : List UInt8) :
    (t.past w).past w' = t.past (w ++ w') := by
  simp [past]

@[simp] theorem past_input (t : Tokeniser) (w : List UInt8) : (t.past w).input = t.input := rfl

@[simp] theorem past_pos (t : Tokeniser) (w : List UInt8) : (t.past w).pos = t.pos.past w := rfl

theorem rest_past {t : Tokeniser} {w r : List UInt8} (h : t.rest = w ++ r) :
    (t.past w).rest = r := by
  simp only [rest, past_input, past_pos, Position.past_offset] at h ⊢
  rw [← List.drop_drop, h, List.drop_left]

theorem reads_past {t : Tokeniser} {w r : List UInt8} (h : t.rest = w ++ r) :
    Reads t w (t.past w) := ⟨r, h, rfl⟩

theorem Reads.rest {t t' : Tokeniser} {w : List UInt8} (h : Reads t w t') :
    t.rest = w ++ t'.rest := by
  obtain ⟨r, hr, rfl⟩ := h
  rw [rest_past hr, hr]

theorem Reads.eq {t t' : Tokeniser} {w : List UInt8} (h : Reads t w t') : t' = t.past w := by
  obtain ⟨_, _, h⟩ := h
  exact h

theorem Reads.refl (t : Tokeniser) : Reads t [] t := ⟨t.rest, rfl, rfl⟩

theorem Reads.trans {t t' t'' : Tokeniser} {w w' : List UInt8} (h : Reads t w t')
    (h' : Reads t' w' t'') : Reads t (w ++ w') t'' := by
  refine ⟨t''.rest, ?_, ?_⟩
  · rw [h.rest, h'.rest, List.append_assoc]
  · rw [h'.eq, h.eq, past_past]

theorem peek_eq (t : Tokeniser) : t.peek = t.rest.head? := by
  simp [peek, rest, List.head?_drop]

theorem peekAt_eq (t : Tokeniser) (n : Nat) : t.peekAt n = t.rest[n]? := by
  simp [peekAt, rest]

theorem rest_of_peek {t : Tokeniser} {b : UInt8} (h : t.peek = some b) :
    ∃ r, t.rest = b :: r := by
  rw [peek_eq] at h
  exact List.head?_eq_some_iff.mp h

theorem peek_of_rest {t : Tokeniser} {b : UInt8} {r : List UInt8} (h : t.rest = b :: r) :
    t.peek = some b := by
  rw [peek_eq, h, List.head?_cons]

theorem peek_of_rest_nil {t : Tokeniser} (h : t.rest = []) : t.peek = none := by
  rw [peek_eq, h, List.head?_nil]

/-- `advance` moves over one byte. -/
theorem advance_eq {t : Tokeniser} {b : UInt8} (h : t.peek = some b)
    (hb : isContinuation b = false) : t.advance = t.past [b] := by
  simp only [advance, h, past, Position.past, List.foldl_cons, List.foldl_nil, Position.step, hb,
    Bool.false_eq_true, if_false]
  split_ifs <;> rfl

theorem reads_advance {t : Tokeniser} {b : UInt8} (h : t.peek = some b)
    (hb : isContinuation b = false) : Reads t [b] t.advance := by
  obtain ⟨r, hr⟩ := rest_of_peek h
  exact ⟨r, hr, advance_eq h hb⟩

/-! ## Whitespace and digits -/

theorem isWs_iff {b : UInt8} :
    isWs b = true ↔ b = 0x20 ∨ b = 0x09 ∨ b = 0x0A ∨ b = 0x0D := by
  simp [isWs, or_assoc]

theorem isDigit_iff {b : UInt8} : isDigit b = true ↔ Digit b := by
  simp [isDigit, Digit]

theorem not_continuation_of_le {b : UInt8} (h : b ≤ 0x7F) : isContinuation b = false := by
  simp only [isContinuation, Bool.and_eq_false_iff, decide_eq_false_iff_not, UInt8.not_le]
  exact Or.inl (UInt8.lt_of_le_of_lt h (by decide))

theorem not_continuation_of_isWs {b : UInt8} (h : isWs b = true) : isContinuation b = false := by
  rcases isWs_iff.mp h with rfl | rfl | rfl | rfl <;> rfl

theorem not_continuation_of_isDigit {b : UInt8} (h : isDigit b = true) :
    isContinuation b = false := by
  simp only [isDigit, Bool.and_eq_true, decide_eq_true_eq] at h
  exact not_continuation_of_le (UInt8.le_trans h.2 (by decide))

theorem skipWs_of_peek {t : Tokeniser} {b : UInt8} (h : t.peek = some b) :
    t.skipWs = if isWs b then t.advance.skipWs else t := by
  rw [skipWs]
  split
  · rename_i b' h'
    rw [h] at h'
    cases h'
    rfl
  · rename_i h'
    rw [h] at h'
    cases h'

theorem skipWs_of_none {t : Tokeniser} (h : t.peek = none) : t.skipWs = t := by
  rw [skipWs]
  split
  · rename_i b' h'
    rw [h] at h'
    cases h'
  · rfl

theorem skipDigits_of_peek {t : Tokeniser} {b : UInt8} (h : t.peek = some b) :
    t.skipDigits = if isDigit b then t.advance.skipDigits else t := by
  rw [skipDigits]
  split
  · rename_i b' h'
    rw [h] at h'
    cases h'
    rfl
  · rename_i h'
    rw [h] at h'
    cases h'

theorem skipDigits_of_none {t : Tokeniser} (h : t.peek = none) : t.skipDigits = t := by
  rw [skipDigits]
  split
  · rename_i b' h'
    rw [h] at h'
    cases h'
  · rfl

/-- `skipWs` moves over the whitespace ahead. -/
theorem skipWs_eq {t : Tokeniser} {w r : List UInt8} (h : t.rest = w ++ r)
    (hw : ∀ b ∈ w, isWs b = true) (hr : ∀ b ∈ r.head?, isWs b = false) :
    t.skipWs = t.past w := by
  induction w generalizing t with
  | nil =>
    cases r with
    | nil => exact skipWs_of_none (peek_of_rest_nil h)
    | cons b r =>
      rw [skipWs_of_peek (peek_of_rest h), if_neg (by simpa using hr b rfl), past_nil]
  | cons b w ih =>
    have hb := hw b List.mem_cons_self
    have hPeek := peek_of_rest h
    have hAdvance := advance_eq hPeek (not_continuation_of_isWs hb)
    rw [skipWs_of_peek hPeek, if_pos hb, hAdvance,
      ih (rest_past (w := [b]) h) (fun c hc => hw c (List.mem_cons_of_mem b hc)), past_past]
    rfl

/-- `skipDigits` moves over the digits ahead. -/
theorem skipDigits_eq {t : Tokeniser} {w r : List UInt8} (h : t.rest = w ++ r)
    (hw : ∀ b ∈ w, isDigit b = true) (hr : ∀ b ∈ r.head?, isDigit b = false) :
    t.skipDigits = t.past w := by
  induction w generalizing t with
  | nil =>
    cases r with
    | nil => exact skipDigits_of_none (peek_of_rest_nil h)
    | cons b r =>
      rw [skipDigits_of_peek (peek_of_rest h), if_neg (by simpa using hr b rfl), past_nil]
  | cons b w ih =>
    have hb := hw b List.mem_cons_self
    have hPeek := peek_of_rest h
    have hAdvance := advance_eq hPeek (not_continuation_of_isDigit hb)
    rw [skipDigits_of_peek hPeek, if_pos hb, hAdvance,
      ih (rest_past (w := [b]) h) (fun c hc => hw c (List.mem_cons_of_mem b hc)), past_past]
    rfl

end Tokeniser

end CjsonRs.Core
