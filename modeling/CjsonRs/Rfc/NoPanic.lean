import CjsonRs.Core.Checked
import CjsonRs.Rfc.Prefix

/-!
# The parser does not panic

Each checked function returns what the plain one returns: the readers of the tokeniser one by
one, its loops by their recursion, the parser by the tokens left.
-/

namespace CjsonRs.Core

open Library

variable {α β : Type}

@[simp] theorem lift_ok (a : α) : lift (.ok a) = .ok a := rfl

@[simp] theorem lift_error (e : Error) : (lift (.error e) : Checked α) = .error (.error e) := rfl

@[simp] theorem lift_raise (e : Error) : (raise e : Checked α) = .error (.error e) := rfl

/-- A plain result is never a panic. -/
theorem lift_ne_panic (x : Except Error α) (p : Panic) : lift x ≠ .error (.panic p) := by
  cases x <;> simp

theorem checkedSub_of_le {a b : Nat} (h : b ≤ a) : checkedSub a b = .ok (a - b) := if_pos h

namespace Tokeniser

open Rfc

variable {std : StdF64} {t t' : Tokeniser} {start : Position}

/-! ## Strings -/

theorem hexDigitChecked_eq (b : UInt8) : hexDigitChecked b = .ok (hexDigit b) := by
  unfold hexDigitChecked hexDigit
  simp only [UInt8.le_iff_toNat_le, UInt8.reduceToNat]
  split_ifs with hDigit hLower hUpper
  · rw [checkedSub_of_le hDigit.1]
    rfl
  · rw [checkedSub_of_le hLower.1]
    rfl
  · rw [checkedSub_of_le hUpper.1]
    rfl
  · rfl

theorem readHexDigitsChecked_eq (n val : Nat) (t : Tokeniser) :
    readHexDigitsChecked start n val t = lift (readHexDigits start n val t) := by
  induction n generalizing val t with
  | zero => rfl
  | succ n ih =>
    unfold readHexDigitsChecked readHexDigits
    cases t.peek with
    | none => rfl
    | some b =>
      simp only [hexDigitChecked_eq, ok_bind]
      cases hexDigit b with
      | none => rfl
      | some d => exact ih _ _

theorem surrogateCodeChecked_eq {high low : Nat} (hHigh : isHighSurrogate high = true)
    (hLow : isLowSurrogate low = true) :
    surrogateCodeChecked high low = .ok (surrogateCode high low) := by
  have hHigh := (isHighSurrogate_iff.mp hHigh).1
  have hLow := (isLowSurrogate_iff.mp hLow).1
  rw [surrogateCodeChecked, checkedSub_of_le hHigh, ok_bind, checkedSub_of_le hLow]
  rfl

theorem readLowSurrogateChecked_eq {high : Nat} (hHigh : isHighSurrogate high = true) :
    t.readLowSurrogateChecked start high = lift (t.readLowSurrogate start high) := by
  unfold readLowSurrogateChecked readLowSurrogate
  split
  · rw [readHexDigitsChecked_eq, ← readHex4]
    cases t.advance.advance.readHex4 start with
    | error e => rfl
    | ok r =>
      obtain ⟨low, t'⟩ := r
      simp only [lift_ok, ok_bind]
      split
      · rename_i hLow
        rw [surrogateCodeChecked_eq hHigh hLow, ok_bind]
        cases charFromU32 (surrogateCode high low) <;> rfl
      · rfl
  · rfl

theorem readUnicodeEscapeChecked_eq :
    t.readUnicodeEscapeChecked start = lift (t.readUnicodeEscape start) := by
  unfold readUnicodeEscapeChecked readUnicodeEscape
  rw [readHexDigitsChecked_eq, ← readHex4]
  cases t.readHex4 start with
  | error e => rfl
  | ok r =>
    obtain ⟨high, t'⟩ := r
    simp only [lift_ok, ok_bind]
    split
    · rename_i hHigh
      exact readLowSurrogateChecked_eq hHigh
    · split
      · rfl
      · cases charFromU32 high <;> rfl

theorem readEscapeChecked_eq : t.readEscapeChecked = lift t.readEscape := by
  unfold readEscapeChecked readEscape
  dsimp only
  cases t.advance.peek with
  | none => rfl
  | some esc =>
    dsimp only
    cases shortEscape esc with
    | some c => rfl
    | none =>
      dsimp only
      split
      · exact readUnicodeEscapeChecked_eq
      · rfl

theorem readUtf8CharChecked_eq : t.readUtf8CharChecked = lift t.readUtf8Char := by
  unfold readUtf8CharChecked readUtf8Char
  dsimp only
  cases t.peek with
  | none => rfl
  | some first =>
    dsimp only
    split_ifs with hLen hStop
    · rfl
    · rfl
    · rw [sliceChecked, if_pos ⟨Nat.le_add_right _ _, Nat.le_of_not_gt hStop⟩, ok_bind]
      rcases fromUtf8 (t.slice t.pos.offset (t.pos.offset + utf8Len first)) with _ | _ | _ <;> rfl

theorem readStringLoopChecked_eq {steps : Nat} {out : Str} (hSteps : t.remaining < steps) :
    readStringLoopChecked start steps t out = lift (readStringLoop start t out) := by
  obtain ⟨n, rfl⟩ : ∃ n, steps = n + 1 := ⟨steps - 1, by omega⟩
  fun_induction readStringLoop start t out generalizing n with
  | case1 t out hb => simp [readStringLoopChecked, hb, lift_raise]
  | case2 t out hb =>
    simp only [readStringLoopChecked, hb, if_true]
    rfl
  | case3 t out e he hb hne =>
    simp only [readStringLoopChecked, hb, if_neg hne, if_true, readEscapeChecked_eq, he]
    rfl
  | case4 t out c t₁ he hb hne ih =>
    have hLt := readEscape_lt hb he
    obtain ⟨m, rfl⟩ : ∃ m, n = m + 1 := ⟨n - 1, by omega⟩
    rw [readStringLoopChecked]
    simp only [hb, if_neg hne, if_true, readEscapeChecked_eq, he]
    exact ih m (by omega)
  | case5 t out b hb h₁ h₂ h₃ =>
    simp only [readStringLoopChecked, hb, if_neg h₁, if_neg h₂, if_pos h₃]
    rfl
  | case6 t out b hb h₁ h₂ h₃ h₄ ih =>
    have hLt := advance_lt hb
    obtain ⟨m, rfl⟩ : ∃ m, n = m + 1 := ⟨n - 1, by omega⟩
    rw [readStringLoopChecked]
    simp only [hb, if_neg h₁, if_neg h₂, if_neg h₃, if_pos h₄]
    exact ih m (by omega)
  | case7 t out b hb h₁ h₂ h₃ h₄ e he =>
    simp only [readStringLoopChecked, hb, if_neg h₁, if_neg h₂, if_neg h₃, if_neg h₄,
      readUtf8CharChecked_eq, he]
    rfl
  | case8 t out b hb h₁ h₂ h₃ h₄ c t₁ he ih =>
    have hLt := readUtf8Char_lt he
    obtain ⟨m, rfl⟩ : ∃ m, n = m + 1 := ⟨n - 1, by omega⟩
    rw [readStringLoopChecked]
    simp only [hb, if_neg h₁, if_neg h₂, if_neg h₃, if_neg h₄, readUtf8CharChecked_eq, he]
    exact ih m (by omega)

theorem remaining_le (t : Tokeniser) : t.remaining ≤ t.input.length := Nat.sub_le _ _

theorem readStringChecked_eq : t.readStringChecked = lift t.readString := by
  refine readStringLoopChecked_eq ?_
  have h₁ := remaining_le t
  have h₂ := advance_le t
  omega

/-! ## Numbers and tokens -/

/-- Reading moves forward inside the input. -/
theorem Reads.bounds {w : List UInt8} (h : Reads t w t') (hne : w ≠ []) :
    t.pos.offset < t'.pos.offset ∧ t'.pos.offset ≤ t.input.length := by
  have hLength := congrArg List.length h.rest
  have hPos := List.length_pos_of_ne_nil hne
  rw [h.eq, past_pos, Position.past_offset]
  simp only [Tokeniser.rest, List.length_drop, List.length_append] at hLength
  omega

theorem readNumberChecked_eq : t.readNumberChecked std = lift (t.readNumber std) := by
  unfold readNumberChecked readNumber
  cases hInt : t.skipMinus.readInt t.pos with
  | error e => rfl
  | ok t₁ =>
    simp only [lift_ok, ok_bind]
    cases hFrac : t₁.readFrac t.pos with
    | error e => rfl
    | ok t₂ =>
      simp only [lift_ok, ok_bind]
      cases hExp : t₂.readExp t.pos with
      | error e => rfl
      | ok t₃ =>
        simp only [lift_ok, ok_bind]
        obtain ⟨m, -, hMinus⟩ := skipMinus_sound t
        obtain ⟨i, hi, hInt⟩ := readInt_sound hInt
        obtain ⟨f, -, hFrac⟩ := readFrac_sound hFrac
        obtain ⟨e, -, hExp⟩ := readExp_sound hExp
        have hReads := hMinus.trans (hInt.trans (hFrac.trans hExp))
        obtain ⟨hLt, hLe⟩ := hReads.bounds (by
          obtain ⟨b, i, rfl, -⟩ := hi.head
          simp)
        rw [sliceChecked, if_pos ⟨hLt.le, hLe⟩, ok_bind]
        cases fromUtf8 (t.slice t.pos.offset t₃.pos.offset) with
        | none => rfl
        | some s =>
          dsimp only
          cases std.parse s with
          | none => rfl
          | some n =>
            dsimp only
            split <;> rfl

theorem readTokenChecked_eq (b : UInt8) : t.readTokenChecked std b = lift (t.readToken std b) := by
  unfold readTokenChecked readToken
  cases structural b with
  | some token => rfl
  | none =>
    dsimp only
    split_ifs
    · exact readStringChecked_eq
    · rfl
    · rfl
    · rfl
    · exact readNumberChecked_eq
    · rfl

/-- Every token is at least one byte of the input. -/
theorem nextToken_progress {tk : PositionedToken} (h : t.nextToken std = .ok (tk, t')) :
    t.pos.offset < t'.pos.offset ∧ t'.pos.offset ≤ t.input.length := by
  obtain ⟨w, hw, hReads, -⟩ := nextToken_sound h
  obtain ⟨b, w, rfl, -⟩ := hw.head
  exact hReads.bounds (List.cons_ne_nil _ _)

theorem nextTokenChecked_eq : t.nextTokenChecked std = lift (t.nextToken std) := by
  cases hNext : t.nextToken std with
  | error e =>
    unfold nextToken at hNext
    unfold nextTokenChecked
    dsimp only at hNext ⊢
    cases hPeek : t.peek with
    | none =>
      simp only [hPeek] at hNext ⊢
      cases hNext
      rfl
    | some b =>
      simp only [hPeek, readTokenChecked_eq] at hNext ⊢
      split at hNext
      · rename_i hRead
        cases hNext
        rw [hRead]
        rfl
      · cases hNext
  | ok r =>
    obtain ⟨tk, t'⟩ := r
    have hProgress := nextToken_progress hNext
    unfold nextToken at hNext
    unfold nextTokenChecked
    dsimp only at hNext ⊢
    cases hPeek : t.peek with
    | none =>
      simp only [hPeek] at hNext
      cases hNext
    | some b =>
      simp only [hPeek, readTokenChecked_eq] at hNext ⊢
      split at hNext
      · cases hNext
      · rename_i hRead
        cases hNext
        rw [hRead]
        exact if_pos hProgress

/-! ## The loops -/

theorem tokeniseLoopChecked_eq {steps : Nat} {out : List PositionedToken}
    (hSteps : t.remaining < steps) :
    tokeniseLoopChecked std steps t out = lift (tokeniseLoop std t out) := by
  obtain ⟨n, rfl⟩ : ∃ n, steps = n + 1 := ⟨steps - 1, by omega⟩
  fun_induction tokeniseLoop std t out generalizing n with
  | case1 t out hEnd =>
    rw [tokeniseLoopChecked, if_pos hEnd]
    rfl
  | case2 t out hEnd e he =>
    rw [tokeniseLoopChecked, if_neg hEnd, nextTokenChecked_eq, he]
    rfl
  | case3 t out hEnd tk t₁ hNext ih =>
    have hLt := (nextToken_lt hNext).trans_le (skipWs_le t)
    obtain ⟨m, rfl⟩ : ∃ m, n = m + 1 := ⟨n - 1, by omega⟩
    rw [tokeniseLoopChecked, if_neg hEnd, nextTokenChecked_eq, hNext]
    exact ih m (by omega)

theorem tokeniseChecked_eq (std : StdF64) (input : List UInt8) :
    tokeniseChecked std input = lift (tokenise std input) :=
  tokeniseLoopChecked_eq (Nat.lt_succ_of_le (remaining_le (new input)))

theorem tokenisePrefixLoopChecked_eq {steps n : Nat} {out : List PositionedToken}
    (hSteps : t.remaining < steps) :
    tokenisePrefixLoopChecked std steps t out n = .ok (tokenisePrefixLoop std t out n) := by
  obtain ⟨k, rfl⟩ : ∃ k, steps = k + 1 := ⟨steps - 1, by omega⟩
  fun_induction tokenisePrefixLoop std t out n generalizing k with
  | case1 t out n hEnd =>
    rw [tokenisePrefixLoopChecked, if_pos hEnd]
    rfl
  | case2 t out n hEnd e he =>
    rw [tokenisePrefixLoopChecked, if_neg hEnd, nextTokenChecked_eq, he]
    rfl
  | case3 t out n hEnd tk t₁ hNext ih =>
    have hLt := (nextToken_lt hNext).trans_le (skipWs_le t)
    obtain ⟨m, rfl⟩ : ∃ m, k = m + 1 := ⟨k - 1, by omega⟩
    rw [tokenisePrefixLoopChecked, if_neg hEnd, nextTokenChecked_eq, hNext]
    exact ih m (by omega)

theorem tokenisePrefixChecked_eq (std : StdF64) (input : List UInt8) :
    tokenisePrefixChecked std input = .ok (tokenisePrefix std input) :=
  tokenisePrefixLoopChecked_eq (Nat.lt_succ_of_le (remaining_le (new input)))

end Tokeniser

/-! ## The parser -/

namespace Parser

open Rfc

/-- The plain result of a parser function. -/
def plain {p : Parser} (x : Except Error (Consumed p Value)) : Checked (Value × Parser) :=
  lift (x.map fun r => (r.value, r.next))

@[simp] theorem plain_ok {p : Parser} (r : Consumed p Value) :
    plain (.ok r) = .ok (r.value, r.next) := rfl

@[simp] theorem plain_error {p : Parser} (e : Error) :
    plain (.error e : Except Error (Consumed p Value)) = .error (.error e) := rfl

/-- The checked `parse_value` returns what the plain one returns: `active` is one more than the
depth. -/
def ValueChecks (p : Parser) : Prop :=
  ∀ steps, 3 * p.remaining + 1 < steps → p.depth ≤ p.limit →
    parseValueChecked steps (p.depth + 1) p = plain p.parseValue

/-- Inside a container `active` is the depth. -/
def ItemsChecks (p : Parser) : Prop :=
  ∀ steps items, 3 * p.remaining + 2 < steps → 0 < p.depth → p.depth ≤ p.limit →
    parseItemsChecked steps p.depth p items = plain (p.parseItems items)

def MembersChecks (p : Parser) : Prop :=
  ∀ steps members, 3 * p.remaining + 2 < steps → 0 < p.depth → p.depth ≤ p.limit →
    parseMembersChecked steps p.depth p members = plain (p.parseMembers members)

theorem leaveChecked_eq {p : Parser} (h : 0 < p.depth) : p.leaveChecked = .ok p.leave := by
  rw [leaveChecked, checkedSub_of_le h]
  rfl

/-! The plain functions without the proofs they carry. -/

theorem plain_parseArray {p : Parser} (hp : p.peek = some .beginArray) :
    plain (p.parseArray hp) = (do
      let q ← lift (p.enter p.peekPos)
      if q.advance.peek = some .endArray then .ok (.array [], q.advance.advance.leave)
      else plain (q.advance.parseItems [])) := by
  unfold parseArray
  split
  · rename_i e he
    conv_rhs => rw [he]
    rfl
  · rename_i q he
    conv_rhs => rw [he, lift_ok, ok_bind]
    dsimp only
    split
    · rename_i hq
      rw [if_pos hq]
      rfl
    · rename_i hq
      rw [if_neg hq]
      cases q.advance.parseItems [] <;> rfl

theorem plain_parseObject {p : Parser} (hp : p.peek = some .beginObject) :
    plain (p.parseObject hp) = (do
      let q ← lift (p.enter p.peekPos)
      if q.advance.peek = some .endObject then .ok (.object [], q.advance.advance.leave)
      else plain (q.advance.parseMembers [])) := by
  unfold parseObject
  split
  · rename_i e he
    conv_rhs => rw [he]
    rfl
  · rename_i q he
    conv_rhs => rw [he, lift_ok, ok_bind]
    dsimp only
    split
    · rename_i hq
      rw [if_pos hq]
      rfl
    · rename_i hq
      rw [if_neg hq]
      cases q.advance.parseMembers [] <;> rfl

theorem plain_parseItems (p : Parser) (items : List Value) :
    plain (p.parseItems items) = (do
      let (value, p) ← plain p.parseValue
      match p.peek with
      | some .valueSeparator =>
        if p.advance.peek = some .endArray then raise (.unexpectedToken p.peekPos)
        else plain (p.advance.parseItems (items ++ [value]))
      | some .endArray => .ok (.array (items ++ [value]), p.advance.leave)
      | some _ => raise (.unexpectedToken p.peekPos)
      | none => raise (.unexpectedEof p.peekPos)) := by
  conv_lhs => unfold parseItems
  cases hValue : p.parseValue with
  | error e => rfl
  | ok r =>
    simp only [plain_ok, ok_bind]
    split
    · rename_i hq
      conv_rhs => rw [hq]
      dsimp only
      split
      · rfl
      · cases r.next.advance.parseItems (items ++ [r.value]) <;> rfl
    · rename_i hq
      conv_rhs => rw [hq]
      rfl
    · rename_i tok hNotSep hNotEnd hq
      conv_rhs => rw [hq]
      cases tok <;> first | rfl | exact absurd rfl hNotSep | exact absurd rfl hNotEnd
    · rename_i hq
      conv_rhs => rw [hq]
      rfl

theorem plain_parseMembers (p : Parser) (members : List (Str × Value)) :
    plain (p.parseMembers members) = (
      match p.peek with
      | some (.string key) =>
        match p.advance.peek with
        | some .nameSeparator => do
          let (value, p) ← plain p.advance.advance.parseValue
          match p.peek with
          | some .valueSeparator =>
            if p.advance.peek = some .endObject then raise (.unexpectedToken p.peekPos)
            else plain (p.advance.parseMembers (members ++ [(key, value)]))
          | some .endObject => .ok (.object (members ++ [(key, value)]), p.advance.leave)
          | some _ => raise (.unexpectedToken p.peekPos)
          | none => raise (.unexpectedEof p.peekPos)
        | some _ => raise (.unexpectedToken p.advance.peekPos)
        | none => raise (.unexpectedEof p.advance.peekPos)
      | some _ => raise (.unexpectedToken p.peekPos)
      | none => raise (.unexpectedEof p.peekPos)) := by
  conv_lhs => unfold parseMembers
  split
  · rename_i key hk
    conv_rhs => rw [hk]
    dsimp only
    split
    · rename_i hc
      conv_rhs => rw [hc]
      dsimp only
      cases hValue : p.advance.advance.parseValue with
      | error e => rfl
      | ok r =>
        simp only [plain_ok, ok_bind]
        split
        · rename_i hq
          conv_rhs => rw [hq]
          dsimp only
          split
          · rfl
          · cases r.next.advance.parseMembers (members ++ [(key, r.value)]) <;> rfl
        · rename_i hq
          conv_rhs => rw [hq]
          rfl
        · rename_i tok hNotSep hNotEnd hq
          conv_rhs => rw [hq]
          cases tok <;> first | rfl | exact absurd rfl hNotSep | exact absurd rfl hNotEnd
        · rename_i hq
          conv_rhs => rw [hq]
          rfl
    · rename_i tok hNotColon hc
      conv_rhs => rw [hc]
      cases tok <;> first | rfl | exact absurd rfl hNotColon
    · rename_i hc
      conv_rhs => rw [hc]
      rfl
  · rename_i tok hNotKey hk
    conv_rhs => rw [hk]
    cases tok <;> first | rfl | exact absurd rfl (hNotKey _)
  · rename_i hk
    conv_rhs => rw [hk]
    rfl

/-! Against the checked functions. -/

theorem parseArrayChecked_eq {p : Parser} (hp : p.peek = some .beginArray)
    (ih : ∀ q : Parser, Ahead p q → ItemsChecks q) {steps : Nat}
    (hSteps : 3 * p.remaining < steps) :
    parseArrayChecked steps (p.depth + 1) p = plain (p.parseArray hp) := by
  obtain ⟨n, rfl⟩ : ∃ n, steps = n + 1 := ⟨steps - 1, by omega⟩
  rw [parseArrayChecked, plain_parseArray]
  cases he : p.enter p.peekPos with
  | error e => rfl
  | ok q =>
    have hAhead := ahead_enter he hp
    have hLt := hAhead.remaining_lt
    obtain ⟨hDepth, rfl⟩ := enter_eq_ok he
    simp only [lift_ok, ok_bind]
    split
    · rw [leaveChecked_eq (Nat.succ_pos _)]
      rfl
    · exact ih _ hAhead n [] (by omega) (Nat.succ_pos _) hDepth

theorem parseObjectChecked_eq {p : Parser} (hp : p.peek = some .beginObject)
    (ih : ∀ q : Parser, Ahead p q → MembersChecks q) {steps : Nat}
    (hSteps : 3 * p.remaining < steps) :
    parseObjectChecked steps (p.depth + 1) p = plain (p.parseObject hp) := by
  obtain ⟨n, rfl⟩ : ∃ n, steps = n + 1 := ⟨steps - 1, by omega⟩
  rw [parseObjectChecked, plain_parseObject]
  cases he : p.enter p.peekPos with
  | error e => rfl
  | ok q =>
    have hAhead := ahead_enter he hp
    have hLt := hAhead.remaining_lt
    obtain ⟨hDepth, rfl⟩ := enter_eq_ok he
    simp only [lift_ok, ok_bind]
    split
    · rw [leaveChecked_eq (Nat.succ_pos _)]
      rfl
    · exact ih _ hAhead n [] (by omega) (Nat.succ_pos _) hDepth

/-- A value leaves the depth and the limit as they were. -/
theorem depth_of_parseValue {p : Parser} (hp : p.depth ≤ p.limit) {r : Consumed p Value}
    (h : p.parseValue = .ok r) : r.next.depth = p.depth ∧ r.next.limit = p.limit := by
  obtain ⟨ts, -, -, hNext, -⟩ := parseValue_sound hp r h
  rw [hNext]
  exact ⟨rfl, rfl⟩

theorem itemsChecks_step {p : Parser} (hValue : ValueChecks p)
    (ih : ∀ q : Parser, Ahead p q → ItemsChecks q) : ItemsChecks p := by
  intro steps items hSteps hPos hp
  obtain ⟨n, rfl⟩ : ∃ n, steps = n + 1 := ⟨steps - 1, by omega⟩
  rw [parseItemsChecked, plain_parseItems, hValue n (by omega) hp]
  cases hParse : p.parseValue with
  | error e => rfl
  | ok r =>
    obtain ⟨hDepth, hLimit⟩ := depth_of_parseValue hp hParse
    simp only [plain_ok, ok_bind]
    cases hq : r.next.peek with
    | none => rfl
    | some tok =>
      cases tok with
      | valueSeparator =>
        have hAhead := r.ahead.trans (ahead_advance hq)
        have hLt := hAhead.remaining_lt
        have hNext := ih _ hAhead n (items ++ [r.value]) (by omega) (hDepth ▸ hPos)
          (by change r.next.depth ≤ r.next.limit; omega)
        change parseItemsChecked n r.next.depth _ _ = _ at hNext
        rw [hDepth] at hNext
        dsimp only
        rw [hNext]
      | endArray =>
        dsimp only
        rw [leaveChecked_eq (hDepth ▸ hPos)]
        rfl
      | _ => rfl

theorem membersChecks_step {p : Parser} (ihValue : ∀ q : Parser, Ahead p q → ValueChecks q)
    (ih : ∀ q : Parser, Ahead p q → MembersChecks q) : MembersChecks p := by
  intro steps members hSteps hPos hp
  obtain ⟨n, rfl⟩ : ∃ n, steps = n + 1 := ⟨steps - 1, by omega⟩
  rw [parseMembersChecked, plain_parseMembers]
  cases hk : p.peek with
  | none => rfl
  | some tok =>
    cases tok with
    | string key =>
      dsimp only
      cases hc : p.advance.peek with
      | none => rfl
      | some tok =>
        cases tok with
        | nameSeparator =>
          have hColon := (ahead_advance hk).trans (ahead_advance hc)
          have hLt := hColon.remaining_lt
          have hValue : parseValueChecked n (p.depth + 1) p.advance.advance
              = plain p.advance.advance.parseValue := ihValue _ hColon n (by omega) hp
          dsimp only
          rw [hValue]
          cases hParse : p.advance.advance.parseValue with
          | error e => rfl
          | ok r =>
            have hKept := depth_of_parseValue (show p.advance.advance.depth ≤ _ from hp) hParse
            have hDepth : r.next.depth = p.depth := hKept.1
            have hLimit : r.next.limit = p.limit := hKept.2
            simp only [plain_ok, ok_bind]
            cases hq : r.next.peek with
            | none => rfl
            | some tok =>
              cases tok with
              | valueSeparator =>
                have hAhead := (hColon.trans r.ahead).trans (ahead_advance hq)
                have hLt := hAhead.remaining_lt
                have hNext := ih _ hAhead n (members ++ [(key, r.value)]) (by omega)
                  (hDepth ▸ hPos) (by change r.next.depth ≤ r.next.limit; omega)
                change parseMembersChecked n r.next.depth _ _ = _ at hNext
                rw [hDepth] at hNext
                dsimp only
                rw [hNext]
              | endObject =>
                dsimp only
                rw [leaveChecked_eq (hDepth ▸ hPos)]
                rfl
              | _ => rfl
        | _ => rfl
    | _ => rfl

theorem checks (n : Nat) : ∀ p : Parser, p.remaining ≤ n →
    ValueChecks p ∧ ItemsChecks p ∧ MembersChecks p := by
  induction n using Nat.strong_induction_on with
  | _ n ih =>
    intro p hn
    have ihAhead : ∀ q : Parser, Ahead p q → ValueChecks q ∧ ItemsChecks q ∧ MembersChecks q :=
      fun q hq => ih q.remaining (hq.remaining_lt.trans_le hn) q le_rfl
    have hValue : ValueChecks p := by
      intro steps hSteps hp
      obtain ⟨k, rfl⟩ : ∃ k, steps = k + 1 := ⟨steps - 1, by omega⟩
      have hActive : ¬ p.limit + 1 < p.depth + 1 := by omega
      unfold parseValue
      split
      case h_7 hPeek =>
        conv_lhs => rw [parseValueChecked, if_neg hActive, hPeek]
        exact parseArrayChecked_eq hPeek (fun q hq => (ihAhead q hq).2.1) (by omega)
      case h_8 hPeek =>
        conv_lhs => rw [parseValueChecked, if_neg hActive, hPeek]
        exact parseObjectChecked_eq hPeek (fun q hq => (ihAhead q hq).2.2) (by omega)
      case h_9 tok hNull hTrue hFalse hNumber hString hArray hObject hPeek =>
        rw [parseValueChecked, if_neg hActive, hPeek]
        cases tok <;> simp_all
      all_goals
        rename_i hPeek
        conv_lhs => rw [parseValueChecked, if_neg hActive, hPeek]
        rfl
    exact ⟨hValue, itemsChecks_step hValue fun q hq => (ihAhead q hq).2.1,
      membersChecks_step (fun q hq => (ihAhead q hq).1) fun q hq => (ihAhead q hq).2.2⟩

/-- The parser returns the plain result, whatever its limit. -/
theorem parseValueChecked_eq (tokens : List PositionedToken) (limit : Nat) :
    let p : Parser := ⟨tokens, 0, 0, limit⟩
    p.parseValueChecked p.stepsFor 1 = plain p.parseValue := by
  intro p
  refine (checks p.remaining p le_rfl).1 p.stepsFor ?_ (Nat.zero_le _)
  change 3 * (tokens.length - 0) + 1 < 3 * tokens.length + 2
  omega

end Parser

/-! ## The entry points -/

open CjsonRs.Core.Parser CjsonRs.Core.Tokeniser

theorem parseWithOptionsChecked_eq (std : StdF64) (input : List UInt8) (opts : ParserOptions) :
    parseWithOptionsChecked std input opts = lift (parseWithOptions std input opts) := by
  unfold parseWithOptionsChecked parseWithOptions
  rw [tokeniseChecked_eq]
  cases tokenise std input with
  | error e => rfl
  | ok tokens =>
    simp only [lift_ok, ok_bind, parseValueChecked_eq]
    split
    · rename_i e he
      rw [he]
      rfl
    · rename_i r hr
      rw [hr, plain_ok, ok_bind]
      dsimp only
      split
      · rename_i hCursor
        rw [tokenAtChecked, List.getElem?_eq_getElem hCursor]
        rfl
      · rfl

theorem parsePrefixChecked_eq (std : StdF64) (input : List UInt8) :
    parsePrefixChecked std input = lift (parsePrefix std input) := by
  unfold parsePrefixChecked parsePrefix
  rw [tokenisePrefixChecked_eq, ok_bind]
  dsimp only
  rw [parseValueChecked_eq]
  split
  · rename_i e he
    rw [he]
    rfl
  · rename_i r hr
    have hCursor := r.ahead.cursor
    have hBound := r.ahead.bound
    rw [hr, plain_ok, ok_bind]
    dsimp only
    rw [checkedSub_of_le (by omega), ok_bind, tokenAtChecked, List.getElem?_eq_getElem (by omega)]
    rfl

/-- With every check of the language and both assertions the tokeniser and the parser return
what they return without them: no input and no nesting limit leads to a panic, and every
run ends within its steps. A token that is read is at least one byte, and inside the input. -/
theorem parser_no_panic (std : StdF64) (input : List UInt8) (opts : ParserOptions) :
    (tokeniseChecked std input = lift (tokenise std input) ∧
      tokenisePrefixChecked std input = .ok (tokenisePrefix std input) ∧
      parseWithOptionsChecked std input opts = lift (parseWithOptions std input opts) ∧
      parsePrefixChecked std input = lift (parsePrefix std input)) ∧
    (∀ p : Panic, tokeniseChecked std input ≠ .error (.panic p) ∧
      tokenisePrefixChecked std input ≠ .error (.panic p) ∧
      parseWithOptionsChecked std input opts ≠ .error (.panic p) ∧
      parsePrefixChecked std input ≠ .error (.panic p)) ∧
    ∀ (t : Tokeniser) tk t', t.nextToken std = .ok (tk, t') →
      t.pos.offset < t'.pos.offset ∧ t'.pos.offset ≤ t.input.length := by
  rw [tokeniseChecked_eq, tokenisePrefixChecked_eq, parseWithOptionsChecked_eq,
    parsePrefixChecked_eq]
  exact ⟨⟨rfl, rfl, rfl, rfl⟩, fun p => ⟨lift_ne_panic _ p, nofun, lift_ne_panic _ p,
    lift_ne_panic _ p⟩, fun t tk t' h => nextToken_progress h⟩

end CjsonRs.Core
