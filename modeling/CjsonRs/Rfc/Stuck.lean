import CjsonRs.Rfc.Syntax

/-!
# Where the parser gets stuck

The failures of `Parser.parseValue` over the grammar of tokens. `ValueStuck room ts i w` says
that reading a value off `ts`, with `room` levels of nesting left, fails at the token `i` for
the reason `w`. Every error of the parser is one of these (`stuck_of_parseValue`). When the
tokens have run out they can be continued to a value (`ValueStuck.continued`); for any other
reason they cannot (`ValueStuck.fails`).
-/

namespace CjsonRs.Rfc

open CjsonRs.Core

/-- Why the parser stops. -/
inductive Why where
  | eof
  | token
  | nesting
  deriving DecidableEq, Repr

/-- The error for a reason, at a position. -/
def Why.error : Why → Position → Error
  | .eof, pos => .unexpectedEof pos
  | .token, pos => .unexpectedToken pos
  | .nesting, pos => .nestingLimitExceeded pos

/-- Tokens that no value starts with. -/
def Closes : Token → Bool
  | .endObject | .endArray | .nameSeparator | .valueSeparator => true
  | _ => false

/-- Tokens that open a container. -/
def Opens : Token → Bool
  | .beginObject | .beginArray => true
  | _ => false

/-- Failures after an element of a container that `close` ends. -/
inductive SepStuck (close : Token) : List Token → Why → Prop where
  | eof : SepStuck close [] .eof
  | token {tok : Token} {r : List Token} : tok ≠ .valueSeparator → tok ≠ close →
      SepStuck close (tok :: r) .token
  | trailing {r : List Token} : SepStuck close (.valueSeparator :: close :: r) .token

/-- Failures in front of the value of a member. -/
inductive KeyStuck : List Token → Nat → Why → Prop where
  | eof : KeyStuck [] 0 .eof
  | token {tok : Token} {r : List Token} : (∀ key, tok ≠ .string key) → KeyStuck (tok :: r) 0 .token
  | colonEof (key : Str) : KeyStuck [.string key] 1 .eof
  | colon (key : Str) {tok : Token} {r : List Token} : tok ≠ .nameSeparator →
      KeyStuck (.string key :: tok :: r) 1 .token

mutual

/-- Failures of a value. -/
inductive ValueStuck : Nat → List Token → Nat → Why → Prop where
  | eof (room : Nat) : ValueStuck room [] 0 .eof
  | token {room : Nat} {tok : Token} {r : List Token} : Closes tok →
      ValueStuck room (tok :: r) 0 .token
  | nesting {tok : Token} {r : List Token} : Opens tok → ValueStuck 0 (tok :: r) 0 .nesting
  | array {room i : Nat} {r : List Token} {w : Why} : r.head? ≠ some .endArray →
      ItemsStuck room r i w → ValueStuck (room + 1) (.beginArray :: r) (i + 1) w
  | object {room i : Nat} {r : List Token} {w : Why} : r.head? ≠ some .endObject →
      MembersStuck room r i w → ValueStuck (room + 1) (.beginObject :: r) (i + 1) w

/-- Failures of the elements of an array. -/
inductive ItemsStuck : Nat → List Token → Nat → Why → Prop where
  | value {room i : Nat} {ts : List Token} {w : Why} : ValueStuck room ts i w →
      ItemsStuck room ts i w
  | sep {room : Nat} {ts r : List Token} {v : Value} {w : Why} : TValue ts v → v.depth ≤ room →
      SepStuck .endArray r w → ItemsStuck room (ts ++ r) ts.length w
  | next {room i : Nat} {ts r : List Token} {v : Value} {w : Why} : TValue ts v →
      v.depth ≤ room → r.head? ≠ some .endArray → ItemsStuck room r i w →
      ItemsStuck room (ts ++ .valueSeparator :: r) (ts.length + 1 + i) w

/-- Failures of the members of an object. -/
inductive MembersStuck : Nat → List Token → Nat → Why → Prop where
  | key {room i : Nat} {ts : List Token} {w : Why} : KeyStuck ts i w → MembersStuck room ts i w
  | value {room i : Nat} {ts : List Token} {w : Why} (key : Str) : ValueStuck room ts i w →
      MembersStuck room (.string key :: .nameSeparator :: ts) (2 + i) w
  | sep {room : Nat} {ts r : List Token} {v : Value} {w : Why} (key : Str) : TValue ts v →
      v.depth ≤ room → SepStuck .endObject r w →
      MembersStuck room (.string key :: .nameSeparator :: (ts ++ r)) (2 + ts.length) w
  | next {room i : Nat} {ts r : List Token} {v : Value} {w : Why} (key : Str) : TValue ts v →
      v.depth ≤ room → r.head? ≠ some .endObject → MembersStuck room r i w →
      MembersStuck room (.string key :: .nameSeparator :: (ts ++ .valueSeparator :: r))
        (2 + (ts.length + 1 + i)) w

end

/-! ## Running out of tokens -/

theorem SepStuck.rest {close : Token} {r : List Token} (h : SepStuck close r .eof) : r = [] := by
  cases h
  rfl

/-- Tokens that have run out in front of a member's value can be continued up to it. -/
theorem KeyStuck.continued {ts : List Token} {i : Nat} (h : KeyStuck ts i .eof) :
    ∃ us key, ts ++ us = [.string key, .nameSeparator, .null] := by
  cases h with
  | eof => exact ⟨[.string [], .nameSeparator, .null], [], rfl⟩
  | colonEof key => exact ⟨[.nameSeparator, .null], key, rfl⟩

theorem depthItems_singleton (v : Value) : Value.depthItems [v] = v.depth := by
  simp [Value.depthItems]

theorem depthMembers_singleton (key : Str) (v : Value) :
    Value.depthMembers [(key, v)] = v.depth := by
  simp [Value.depthMembers]

mutual

/-- When the tokens run out, there is a value that starts with them. -/
theorem ValueStuck.continued {room i : Nat} {ts : List Token} {w : Why} :
    ValueStuck room ts i w → w = .eof → ∃ us v, TValue (ts ++ us) v ∧ v.depth ≤ room
  | .eof room, _ => ⟨[.null], .null, TValue.null, Nat.zero_le _⟩
  | .array _ h, hw => by
    obtain ⟨us, items, hItems, hDepth⟩ := h.continued hw
    refine ⟨us ++ [.endArray], .array items, ?_, ?_⟩
    · have hT := TValue.array hItems
      rwa [List.append_assoc] at hT
    · rw [Value.depth]
      omega
  | .object _ h, hw => by
    obtain ⟨us, members, hMembers, hDepth⟩ := h.continued hw
    refine ⟨us ++ [.endObject], .object members, ?_, ?_⟩
    · have hT := TValue.object hMembers
      rwa [List.append_assoc] at hT
    · rw [Value.depth]
      omega

theorem ItemsStuck.continued {room i : Nat} {ts : List Token} {w : Why} :
    ItemsStuck room ts i w → w = .eof →
      ∃ us items, TItems (ts ++ us) items ∧ Value.depthItems items ≤ room
  | .value h, hw => by
    obtain ⟨us, v, hv, hDepth⟩ := h.continued hw
    exact ⟨us, [v], TItems.one hv, by rwa [depthItems_singleton]⟩
  | .sep (v := v) hv hDepth hSep, hw => by
    subst hw
    obtain rfl := hSep.rest
    refine ⟨[], [v], ?_, by rwa [depthItems_singleton]⟩
    rw [List.append_nil, List.append_nil]
    exact TItems.one hv
  | .next (v := v) hv hDepth _ h, hw => by
    obtain ⟨us, items, hItems, hRoom⟩ := h.continued hw
    refine ⟨us, v :: items, ?_, ?_⟩
    · rw [List.append_assoc]
      exact TItems.cons hv hItems
    · rw [Value.depthItems]
      exact max_le hDepth hRoom

theorem MembersStuck.continued {room i : Nat} {ts : List Token} {w : Why} :
    MembersStuck room ts i w → w = .eof →
      ∃ us members, TMembers (ts ++ us) members ∧ Value.depthMembers members ≤ room
  | .key h, hw => by
    subst hw
    obtain ⟨us, key, hus⟩ := h.continued
    exact ⟨us, [(key, .null)], hus ▸ TMembers.one TValue.null,
      by simp [Value.depthMembers, Value.depth]⟩
  | .value key h, hw => by
    obtain ⟨us, v, hv, hDepth⟩ := h.continued hw
    exact ⟨us, [(key, v)], TMembers.one hv, by rwa [depthMembers_singleton]⟩
  | .sep (v := v) key hv hDepth hSep, hw => by
    subst hw
    obtain rfl := hSep.rest
    refine ⟨[], [(key, v)], ?_, by rwa [depthMembers_singleton]⟩
    rw [List.append_nil, List.append_nil]
    exact TMembers.one hv
  | .next (v := v) key hv hDepth _ h, hw => by
    obtain ⟨us, members, hMembers, hRoom⟩ := h.continued hw
    refine ⟨us, (key, v) :: members, ?_, ?_⟩
    · rw [List.cons_append, List.cons_append, List.append_assoc]
      exact TMembers.cons hv hMembers
    · rw [Value.depthMembers]
      exact max_le hDepth hRoom

end

end CjsonRs.Rfc

namespace CjsonRs.Core.Parser

open Rfc

/-! ## Every error is a failure of the grammar -/

/-- Every error of `parseValue` names the token at which the value gets stuck. -/
def ValueStops (p : Parser) : Prop :=
  ∀ e, p.parseValue = .error e → ∃ i w, ValueStuck (p.limit - p.depth) p.rest i w ∧
    e = w.error (p.skip i).peekPos

def ItemsStops (p : Parser) : Prop :=
  ∀ items e, p.parseItems items = .error e → ∃ i w, ItemsStuck (p.limit - p.depth) p.rest i w ∧
    e = w.error (p.skip i).peekPos

def MembersStops (p : Parser) : Prop :=
  ∀ members e, p.parseMembers members = .error e →
    ∃ i w, MembersStuck (p.limit - p.depth) p.rest i w ∧ e = w.error (p.skip i).peekPos

theorem rest_of_none {p : Parser} (h : p.peek = none) : p.rest = [] := by
  rw [peek_eq] at h
  exact List.head?_eq_none_iff.mp h

theorem head_ne_of_peek {p : Parser} {tok : Token} (h : p.peek ≠ some tok) :
    p.rest.head? ≠ some tok := by
  rwa [← peek_eq]

theorem advance_advance_skip (p : Parser) (n : Nat) :
    p.advance.advance.skip n = p.skip (2 + n) := by
  rw [advance_eq, advance_eq, skip_skip, skip_skip, ← Nat.add_assoc]

theorem enter_error {p : Parser} {pos : Position} {e : Error} (h : p.enter pos = .error e) :
    p.limit - p.depth = 0 ∧ e = Why.nesting.error pos := by
  unfold enter at h
  split_ifs at h with hDepth
  cases h
  exact ⟨by omega, rfl⟩

theorem valueStops_array {p : Parser} (hp : p.peek = some .beginArray)
    (ih : ∀ q : Parser, Ahead p q → q.depth ≤ q.limit → ItemsStops q) {e : Error}
    (h : p.parseArray hp = .error e) : ∃ i w, ValueStuck (p.limit - p.depth) p.rest i w ∧
      e = w.error (p.skip i).peekPos := by
  have hRest := rest_of_peek hp
  unfold parseArray at h
  split at h
  · rename_i e' he
    cases h
    obtain ⟨hRoom, rfl⟩ := enter_error he
    rw [hRoom, hRest]
    exact ⟨0, .nesting, ValueStuck.nesting rfl, rfl⟩
  · rename_i q he
    have hAhead := ahead_enter he hp
    obtain ⟨hDepth, rfl⟩ := enter_eq_ok he
    split at h
    · cases h
    · rename_i hOpen
      split at h
      · rename_i e' hItems
        cases h
        obtain ⟨i, w, hStuck, rfl⟩ := ih _ hAhead hDepth _ _ hItems
        have hRoom : p.limit - p.depth = p.limit - (p.depth + 1) + 1 := by omega
        refine ⟨i + 1, w, ?_, ?_⟩
        · rw [hRest, hRoom]
          exact ValueStuck.array (head_ne_of_peek (p := p.advance) hOpen) hStuck
        · rw [Nat.add_comm i 1, ← skip_skip]
          rfl
      · cases h

theorem valueStops_object {p : Parser} (hp : p.peek = some .beginObject)
    (ih : ∀ q : Parser, Ahead p q → q.depth ≤ q.limit → MembersStops q) {e : Error}
    (h : p.parseObject hp = .error e) : ∃ i w, ValueStuck (p.limit - p.depth) p.rest i w ∧
      e = w.error (p.skip i).peekPos := by
  have hRest := rest_of_peek hp
  unfold parseObject at h
  split at h
  · rename_i e' he
    cases h
    obtain ⟨hRoom, rfl⟩ := enter_error he
    rw [hRoom, hRest]
    exact ⟨0, .nesting, ValueStuck.nesting rfl, rfl⟩
  · rename_i q he
    have hAhead := ahead_enter he hp
    obtain ⟨hDepth, rfl⟩ := enter_eq_ok he
    split at h
    · cases h
    · rename_i hOpen
      split at h
      · rename_i e' hMembers
        cases h
        obtain ⟨i, w, hStuck, rfl⟩ := ih _ hAhead hDepth _ _ hMembers
        have hRoom : p.limit - p.depth = p.limit - (p.depth + 1) + 1 := by omega
        refine ⟨i + 1, w, ?_, ?_⟩
        · rw [hRest, hRoom]
          exact ValueStuck.object (head_ne_of_peek (p := p.advance) hOpen) hStuck
        · rw [Nat.add_comm i 1, ← skip_skip]
          rfl
      · cases h

/-- The room left after a value of a container. -/
theorem room_of_sound {p q : Parser} {ts : List Token} {v : Value} (hNext : q = p.skip ts.length)
    (hDepth : p.depth + v.depth ≤ p.limit) :
    v.depth ≤ p.limit - p.depth ∧ q.limit - q.depth = p.limit - p.depth ∧ q.depth ≤ q.limit := by
  subst hNext
  refine ⟨by omega, rfl, ?_⟩
  change p.depth ≤ p.limit
  omega

theorem itemsStops_step {p : Parser} (hValue : ValueStops p)
    (ih : ∀ q : Parser, Ahead p q → q.depth ≤ q.limit → ItemsStops q) (hp : p.depth ≤ p.limit) :
    ItemsStops p := by
  intro items e h
  unfold parseItems at h
  split at h
  · rename_i e' he
    cases h
    obtain ⟨i, w, hStuck, rfl⟩ := hValue _ he
    exact ⟨i, w, ItemsStuck.value hStuck, rfl⟩
  · rename_i r₀ hr₀
    obtain ⟨ts, hT, hRest, hNext, hDepth⟩ := parseValue_sound hp r₀ hr₀
    obtain ⟨hRoom, hSame, hLimit⟩ := room_of_sound hNext hDepth
    rw [hRest]
    split at h
    · rename_i hq
      rw [rest_of_peek hq]
      split_ifs at h with hTrailing
      · cases h
        rw [rest_of_peek hTrailing, hNext]
        exact ⟨_, .token, ItemsStuck.sep hT hRoom SepStuck.trailing, rfl⟩
      · split at h
        · rename_i e' hItems
          cases h
          have hAhead := r₀.ahead.trans (ahead_advance hq)
          obtain ⟨i, w, hStuck, rfl⟩ := ih _ hAhead hLimit _ _ hItems
          refine ⟨_, w, ItemsStuck.next hT hRoom (head_ne_of_peek hTrailing) (hSame ▸ hStuck), ?_⟩
          rw [hNext, advance_eq, skip_skip, skip_skip, Nat.add_assoc]
        · cases h
    · cases h
    · rename_i tok hNotSep hNotEnd hq
      cases h
      rw [rest_of_peek hq]
      rw [hNext]
      exact ⟨_, .token, ItemsStuck.sep hT hRoom (SepStuck.token hNotSep hNotEnd), rfl⟩
    · rename_i hq
      cases h
      rw [rest_of_none hq]
      rw [hNext]
      exact ⟨_, .eof, ItemsStuck.sep hT hRoom SepStuck.eof, rfl⟩

theorem membersStops_step {p : Parser}
    (ihValue : ∀ q : Parser, Ahead p q → q.depth ≤ q.limit → ValueStops q)
    (ih : ∀ q : Parser, Ahead p q → q.depth ≤ q.limit → MembersStops q)
    (hp : p.depth ≤ p.limit) : MembersStops p := by
  intro members e h
  unfold parseMembers at h
  split at h
  · rename_i key hk
    rw [rest_of_peek hk]
    split at h
    · rename_i hc
      have hColon := (ahead_advance hk).trans (ahead_advance hc)
      rw [rest_of_peek hc]
      split at h
      · rename_i e' he
        cases h
        obtain ⟨i, w, hStuck, rfl⟩ := ihValue _ hColon hp _ he
        exact ⟨2 + i, w, MembersStuck.value key hStuck, by rw [advance_advance_skip]⟩
      · rename_i r₀ hr₀
        obtain ⟨ts, hT, hRest, hNext, hDepth⟩ := parseValue_sound
          (p := p.advance.advance) hp r₀ hr₀
        obtain ⟨hRoom, hSame, hLimit⟩ := room_of_sound hNext hDepth
        rw [hRest]
        dsimp only at h
        split at h
        · rename_i hq
          rw [rest_of_peek hq]
          split_ifs at h with hTrailing
          · cases h
            rw [rest_of_peek hTrailing, hNext]
            exact ⟨_, .token, MembersStuck.sep key hT hRoom SepStuck.trailing,
              by rw [advance_advance_skip]; rfl⟩
          · split at h
            · rename_i e' hMembers
              cases h
              have hAhead := (hColon.trans r₀.ahead).trans (ahead_advance hq)
              obtain ⟨i, w, hStuck, rfl⟩ := ih _ hAhead hLimit _ _ hMembers
              refine ⟨_, w, MembersStuck.next key hT hRoom (head_ne_of_peek hTrailing)
                (hSame ▸ hStuck), ?_⟩
              rw [hNext, advance_advance_skip, advance_eq, skip_skip, skip_skip, Nat.add_assoc,
                Nat.add_assoc]
            · cases h
        · cases h
        · rename_i tok hNotSep hNotEnd hq
          cases h
          rw [rest_of_peek hq, hNext]
          exact ⟨_, .token, MembersStuck.sep key hT hRoom (SepStuck.token hNotSep hNotEnd),
            by rw [advance_advance_skip]; rfl⟩
        · rename_i hq
          cases h
          rw [rest_of_none hq, hNext]
          exact ⟨_, .eof, MembersStuck.sep key hT hRoom SepStuck.eof,
            by rw [advance_advance_skip]; rfl⟩
    · rename_i tok hNotColon hc
      cases h
      rw [rest_of_peek hc]
      exact ⟨1, .token, MembersStuck.key (KeyStuck.colon key hNotColon), rfl⟩
    · rename_i hc
      cases h
      rw [rest_of_none hc]
      exact ⟨1, .eof, MembersStuck.key (KeyStuck.colonEof key), rfl⟩
  · rename_i tok hNotKey hk
    cases h
    rw [rest_of_peek hk]
    exact ⟨0, .token, MembersStuck.key (KeyStuck.token hNotKey), rfl⟩
  · rename_i hk
    cases h
    rw [rest_of_none hk]
    exact ⟨0, .eof, MembersStuck.key KeyStuck.eof, rfl⟩

theorem stops (n : Nat) : ∀ p : Parser, p.remaining ≤ n → p.depth ≤ p.limit →
    ValueStops p ∧ ItemsStops p ∧ MembersStops p := by
  induction n using Nat.strong_induction_on with
  | _ n ih =>
    intro p hn hp
    have ihAhead : ∀ q : Parser, Ahead p q → q.depth ≤ q.limit →
        ValueStops q ∧ ItemsStops q ∧ MembersStops q := fun q hq hLimit =>
      ih q.remaining (hq.remaining_lt.trans_le hn) q le_rfl hLimit
    have hValue : ValueStops p := by
      intro e h
      unfold parseValue at h
      split at h
      case h_1 hPeek =>
        cases h
        rw [rest_of_none hPeek]
        exact ⟨0, .eof, ValueStuck.eof _, rfl⟩
      case h_7 hPeek => exact valueStops_array hPeek (fun q hq hl => (ihAhead q hq hl).2.1) h
      case h_8 hPeek => exact valueStops_object hPeek (fun q hq hl => (ihAhead q hq hl).2.2) h
      case h_9 tok _ _ _ _ _ _ _ hPeek =>
        cases h
        rw [rest_of_peek hPeek]
        refine ⟨0, .token, ValueStuck.token ?_, rfl⟩
        cases tok <;> simp_all [Closes]
      all_goals cases h
    exact ⟨hValue, itemsStops_step hValue (fun q hq hl => (ihAhead q hq hl).2.1) hp,
      membersStops_step (fun q hq hl => (ihAhead q hq hl).1)
        (fun q hq hl => (ihAhead q hq hl).2.2) hp⟩

/-- Every error of the parser names the token at which the grammar gets stuck. -/
theorem stuck_of_parseValue {p : Parser} (hp : p.depth ≤ p.limit) : ValueStops p :=
  (stops p.remaining p le_rfl hp).1

/-! ## A failure that more tokens do not mend -/

theorem stuck_nil {room i : Nat} {w : Why} :
    (ValueStuck room [] i w → w = .eof) ∧ (ItemsStuck room [] i w → w = .eof) ∧
      (MembersStuck room [] i w → w = .eof) := by
  have hValue : ∀ {i}, ValueStuck room [] i w → w = .eof := by
    rintro i ⟨⟩
    rfl
  refine ⟨hValue, fun h => ?_, fun h => ?_⟩
  · generalize hts : ([] : List Token) = ts at h
    cases h with
    | value h =>
      subst hts
      exact hValue h
    | sep hT _ _ =>
      obtain ⟨tok, ts, rfl, -⟩ := tvalue_head hT
      cases hts
    | next hT _ _ _ => simp at hts
  · cases h with
    | key h =>
      cases h
      rfl

/-- The value of a container is read, and what is stuck after it is stuck with more tokens. -/
theorem sep_fails {p : Parser} {close : Token} {ts r us : List Token} {v : Value} {w : Why}
    (hT : TValue ts v) (hSep : SepStuck close r w) (hw : w ≠ .eof)
    (hRest : p.rest = ts ++ r ++ us) (hDepth : p.depth + v.depth ≤ p.limit) :
    ∃ out tok, p.parseValue = .ok out ∧ out.next.peek = some tok ∧
      (tok ≠ .valueSeparator ∧ tok ≠ close ∨
        tok = .valueSeparator ∧ out.next.advance.peek = some close) := by
  cases hSep with
  | eof => exact absurd rfl hw
  | @token tok r hNotSep hNotEnd =>
    obtain ⟨out, hOut, -, -, hPeek, -⟩ := value_then tok (parseValue_complete hT)
      (r := r ++ us) (by simpa using hRest) hDepth
    exact ⟨out, tok, hOut, hPeek, Or.inl ⟨hNotSep, hNotEnd⟩⟩
  | @trailing r =>
    obtain ⟨out, hOut, -, -, hPeek, hAfter⟩ := value_then .valueSeparator
      (parseValue_complete hT) (r := close :: (r ++ us)) (by simpa using hRest) hDepth
    exact ⟨out, _, hOut, hPeek, Or.inr ⟨rfl, peek_of_rest hAfter⟩⟩

/-- What a container goes on with does not close it, with more tokens either. -/
theorem head_append {r us : List Token} {tok : Token} (hne : r ≠ []) (h : r.head? ≠ some tok) :
    (r ++ us).head? ≠ some tok := by
  obtain ⟨tok', r, rfl⟩ := List.exists_cons_of_ne_nil hne
  exact h

theorem peek_ne {p : Parser} {r : List Token} {tok : Token} (hRest : p.rest = r)
    (h : r.head? ≠ some tok) : p.peek ≠ some tok := by
  rwa [peek_eq, hRest]

mutual

/-- A value that is stuck on a token or too deep stays so, whatever follows. -/
theorem valueStuck_fails {room i : Nat} {ts : List Token} {w : Why} :
    ValueStuck room ts i w → w ≠ .eof → ∀ (p : Parser) (us : List Token), p.rest = ts ++ us →
      p.depth + room = p.limit → ∃ e, p.parseValue = .error e
  | .eof _, hw, _, _, _, _ => absurd rfl hw
  | @ValueStuck.token _ tok _ hTok, _, p, us, hRest, _ => by
    have hPeek := peek_of_rest hRest
    refine ⟨.unexpectedToken p.peekPos, ?_⟩
    unfold parseValue
    cases tok <;> grind [Closes]
  | @ValueStuck.nesting tok _ hTok, _, p, us, hRest, hRoom => by
    have hPeek := peek_of_rest hRest
    have hEnter : p.enter p.peekPos = .error (.nestingLimitExceeded p.peekPos) := by
      rw [enter, if_pos (by omega)]
    refine ⟨.nestingLimitExceeded p.peekPos, ?_⟩
    unfold parseValue
    cases tok <;> grind [Opens, parseArray, parseObject]
  | .array (r := r) hHead h, hw, p, us, hRest, hRoom => by
    have hPeek := peek_of_rest hRest
    have hne : r ≠ [] := fun hNil => hw (stuck_nil.2.1 (hNil ▸ h))
    have hAfter : ({ p with depth := p.depth + 1 } : Parser).advance.rest = r ++ us :=
      rest_advance (p := p) hRest
    have hOpen := peek_ne hAfter (head_append hne hHead)
    obtain ⟨e, he⟩ := itemsStuck_fails h hw { p with depth := p.depth + 1 }.advance us hAfter
      (by simp only [advance]; omega) []
    have hEnter := enter_ok (p := p) p.peekPos (by omega)
    refine ⟨e, ?_⟩
    unfold parseValue
    grind [parseArray]
  | .object (r := r) hHead h, hw, p, us, hRest, hRoom => by
    have hPeek := peek_of_rest hRest
    have hne : r ≠ [] := fun hNil => hw (stuck_nil.2.2 (hNil ▸ h))
    have hAfter : ({ p with depth := p.depth + 1 } : Parser).advance.rest = r ++ us :=
      rest_advance (p := p) hRest
    have hOpen := peek_ne hAfter (head_append hne hHead)
    obtain ⟨e, he⟩ := membersStuck_fails h hw { p with depth := p.depth + 1 }.advance us hAfter
      (by simp only [advance]; omega) []
    have hEnter := enter_ok (p := p) p.peekPos (by omega)
    refine ⟨e, ?_⟩
    unfold parseValue
    grind [parseObject]

theorem itemsStuck_fails {room i : Nat} {ts : List Token} {w : Why} :
    ItemsStuck room ts i w → w ≠ .eof → ∀ (p : Parser) (us : List Token), p.rest = ts ++ us →
      p.depth + room = p.limit → ∀ done, ∃ e, p.parseItems done = .error e
  | .value h, hw, p, us, hRest, hRoom, done => by
    obtain ⟨e, he⟩ := valueStuck_fails h hw p us hRest hRoom
    refine ⟨e, ?_⟩
    unfold parseItems
    grind
  | .sep hT hDepth hSep, hw, p, us, hRest, hRoom, done => by
    obtain ⟨out, tok, hOut, hPeek, hTok⟩ := sep_fails hT hSep hw hRest (by omega)
    refine ⟨.unexpectedToken out.next.peekPos, ?_⟩
    unfold parseItems
    grind
  | .next (r := r) hT hDepth hHead h, hw, p, us, hRest, hRoom, done => by
    have hne : r ≠ [] := fun hNil => hw (stuck_nil.2.1 (hNil ▸ h))
    obtain ⟨out, hOut, -, hNext, hPeek, hAfter⟩ := value_then .valueSeparator
      (parseValue_complete hT) (r := r ++ us) (by simpa using hRest) (by omega)
    have hOpen := peek_ne hAfter (head_append hne hHead)
    obtain ⟨e, he⟩ := itemsStuck_fails h hw out.next.advance us hAfter
      (by rw [hNext]; simp only [advance, skip]; omega) (done ++ [out.value])
    refine ⟨e, ?_⟩
    unfold parseItems
    grind

theorem membersStuck_fails {room i : Nat} {ts : List Token} {w : Why} :
    MembersStuck room ts i w → w ≠ .eof → ∀ (p : Parser) (us : List Token), p.rest = ts ++ us →
      p.depth + room = p.limit → ∀ done, ∃ e, p.parseMembers done = .error e
  | .key h, hw, p, us, hRest, hRoom, done => by
    cases h with
    | eof => exact absurd rfl hw
    | @token tok r hKey =>
      have hPeek := peek_of_rest hRest
      refine ⟨.unexpectedToken p.peekPos, ?_⟩
      unfold parseMembers
      grind
    | colonEof => exact absurd rfl hw
    | @colon key tok r hColon =>
      have hPeek := peek_of_rest hRest
      have hNext := peek_of_rest (rest_advance hRest)
      refine ⟨.unexpectedToken p.advance.peekPos, ?_⟩
      unfold parseMembers
      grind
  | .value key h, hw, p, us, hRest, hRoom, done => by
    obtain ⟨hk, hc, hAfter⟩ := member_head hRest
    obtain ⟨e, he⟩ := valueStuck_fails h hw p.advance.advance us hAfter hRoom
    refine ⟨e, ?_⟩
    unfold parseMembers
    grind
  | .sep key hT hDepth hSep, hw, p, us, hRest, hRoom, done => by
    obtain ⟨hk, hc, hAfter⟩ := member_head hRest
    obtain ⟨out, tok, hOut, hPeek, hTok⟩ := sep_fails hT hSep hw hAfter
      (by simp only [advance]; omega)
    refine ⟨.unexpectedToken out.next.peekPos, ?_⟩
    unfold parseMembers
    grind
  | .next (r := r) key hT hDepth hHead h, hw, p, us, hRest, hRoom, done => by
    have hne : r ≠ [] := fun hNil => hw (stuck_nil.2.2 (hNil ▸ h))
    obtain ⟨hk, hc, hRest'⟩ := member_head hRest
    obtain ⟨out, hOut, -, hNext, hPeek, hAfter⟩ := value_then .valueSeparator
      (p := p.advance.advance) (parseValue_complete hT) (r := r ++ us) (by simpa using hRest')
      (by simp only [advance]; omega)
    have hOpen := peek_ne hAfter (head_append hne hHead)
    obtain ⟨e, he⟩ := membersStuck_fails h hw out.next.advance us hAfter
      (by rw [hNext]; simp only [advance, skip]; omega) (done ++ [(key, out.value)])
    refine ⟨e, ?_⟩
    unfold parseMembers
    grind

end

end CjsonRs.Core.Parser
