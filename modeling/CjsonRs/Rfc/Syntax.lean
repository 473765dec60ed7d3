import CjsonRs.Core.Parser

/-!
# The parser against the grammar of tokens

The grammar of RFC 8259 §3 to §5 over tokens, without whitespace, and the two directions
of `Parser.parseValue` against it. `parseValue_sound` reads a derivation off a successful
run, `parseValue_complete` runs the parser along a derivation; both say that the parser
stops right after the tokens of the value, whatever follows them.
-/

namespace CjsonRs.Rfc

open CjsonRs.Core

mutual

/-- The tokens of a value. -/
inductive TValue : List Token → Value → Prop where
  | null : TValue [.null] .null
  | true : TValue [.true] (.bool true)
  | false : TValue [.false] (.bool false)
  | number (n : F64) : TValue [.number n] (.number n)
  | string (s : Str) : TValue [.string s] (.string s)
  | emptyArray : TValue [.beginArray, .endArray] (.array [])
  | array {ts : List Token} {items : List Value} : TItems ts items →
      TValue (.beginArray :: (ts ++ [.endArray])) (.array items)
  | emptyObject : TValue [.beginObject, .endObject] (.object [])
  | object {ts : List Token} {members : List (Str × Value)} : TMembers ts members →
      TValue (.beginObject :: (ts ++ [.endObject])) (.object members)

/-- The tokens of the elements of a nonempty array. -/
inductive TItems : List Token → List Value → Prop where
  | one {ts : List Token} {v : Value} : TValue ts v → TItems ts [v]
  | cons {ts ts' : List Token} {v : Value} {items : List Value} : TValue ts v →
      TItems ts' items → TItems (ts ++ .valueSeparator :: ts') (v :: items)

/-- The tokens of the members of a nonempty object. -/
inductive TMembers : List Token → List (Str × Value) → Prop where
  | one {ts : List Token} {key : Str} {v : Value} : TValue ts v →
      TMembers (.string key :: .nameSeparator :: ts) [(key, v)]
  | cons {ts ts' : List Token} {key : Str} {v : Value} {members : List (Str × Value)} :
      TValue ts v → TMembers ts' members →
      TMembers (.string key :: .nameSeparator :: (ts ++ .valueSeparator :: ts'))
        ((key, v) :: members)

end

end CjsonRs.Rfc

namespace CjsonRs.Core.Parser

open Rfc

/-! ## The tokens ahead -/

/-- The tokens from the cursor on. -/
def rest (p : Parser) : List Token := (p.tokens.drop p.cursor).map PositionedToken.token

/-- The parser `n` tokens further on. -/
def skip (p : Parser) (n : Nat) : Parser := { p with cursor := p.cursor + n }

theorem peek_eq (p : Parser) : p.peek = p.rest.head? := by
  simp [peek, rest, List.head?_drop]

theorem advance_eq (p : Parser) : p.advance = p.skip 1 := rfl

@[simp] theorem skip_skip (p : Parser) (m n : Nat) : (p.skip m).skip n = p.skip (m + n) := by
  simp [skip, Nat.add_assoc]

theorem rest_skip {p : Parser} {ts r : List Token} (h : p.rest = ts ++ r) :
    (p.skip ts.length).rest = r := by
  simp only [rest, skip] at h ⊢
  rw [← List.drop_drop, List.map_drop, h, List.drop_left]

theorem rest_advance {p : Parser} {tok : Token} {r : List Token} (h : p.rest = tok :: r) :
    p.advance.rest = r := by
  rw [advance_eq]
  exact rest_skip (p := p) (show p.rest = [tok] ++ r from h)

theorem rest_of_peek {p : Parser} {tok : Token} (h : p.peek = some tok) :
    p.rest = tok :: p.advance.rest := by
  rw [peek_eq] at h
  obtain ⟨r, hr⟩ := List.head?_eq_some_iff.mp h
  rw [hr, rest_advance hr]

@[simp] theorem rest_depth (p : Parser) (d : Nat) :
    ({ p with depth := d } : Parser).rest = p.rest :=
  rfl

/-! ## Soundness -/

/-- What a successful `parseValue` has read. -/
def ValueSound (p : Parser) : Prop :=
  ∀ r, p.parseValue = .ok r → ∃ ts, TValue ts r.value ∧ p.rest = ts ++ r.next.rest ∧
    r.next = p.skip ts.length ∧ p.depth + r.value.depth ≤ p.limit

/-- What the loop of `parseArray` has read, up to the closing bracket. -/
def ItemsSound (p : Parser) : Prop :=
  ∀ items r, p.parseItems items = .ok r → ∃ ts vs, TItems ts vs ∧
    r.value = .array (items ++ vs) ∧ p.rest = ts ++ .endArray :: r.next.rest ∧
    r.next = (p.skip (ts.length + 1)).leave ∧ p.depth + Value.depthItems vs ≤ p.limit

/-- What the loop of `parseObject` has read, up to the closing brace. -/
def MembersSound (p : Parser) : Prop :=
  ∀ members r, p.parseMembers members = .ok r → ∃ ts ms, TMembers ts ms ∧
    r.value = .object (members ++ ms) ∧ p.rest = ts ++ .endObject :: r.next.rest ∧
    r.next = (p.skip (ts.length + 1)).leave ∧ p.depth + Value.depthMembers ms ≤ p.limit

theorem valueSound_array {p : Parser} (hp : p.peek = some .beginArray)
    (ih : ∀ q : Parser, Ahead p q → q.depth ≤ q.limit → ItemsSound q)
    {r : Consumed p Value} (h : p.parseArray hp = .ok r) :
    ∃ ts, TValue ts r.value ∧ p.rest = ts ++ r.next.rest ∧ r.next = p.skip ts.length ∧
      p.depth + r.value.depth ≤ p.limit := by
  have hRest := rest_of_peek hp
  unfold parseArray at h
  split at h
  · cases h
  · rename_i q he
    have hAhead := ahead_enter he hp
    obtain ⟨hDepth, rfl⟩ := enter_eq_ok he
    split at h
    · rename_i hq
      cases h
      refine ⟨_, .emptyArray, ?_, rfl, ?_⟩
      · exact hRest.trans (congrArg _ (rest_of_peek hq))
      · simp only [close, Value.depth, Value.depthItems]
        omega
    · split at h
      · cases h
      · rename_i r' hItems
        cases h
        obtain ⟨ts, vs, hT, hv, hr, hn, hd⟩ := ih _ hAhead hDepth _ _ hItems
        refine ⟨.beginArray :: (ts ++ [.endArray]), ?_, ?_, ?_, ?_⟩
        · exact hv ▸ .array hT
        · have hr' : p.advance.rest = ts ++ .endArray :: r'.next.rest := hr
          simp [hRest, hr']
        · rw [hn]
          simp [advance, skip, leave, Nat.add_assoc, Nat.add_comm 1]
        · rw [hv]
          simp only [List.nil_append, Value.depth]
          simp only [advance] at hd
          omega

theorem itemsSound_step {p : Parser} (hValue : ValueSound p)
    (ih : ∀ q : Parser, Ahead p q → q.depth ≤ q.limit → ItemsSound q) (hp : p.depth ≤ p.limit) :
    ItemsSound p := by
  intro items r h
  unfold parseItems at h
  split at h
  · cases h
  · rename_i r₀ hr₀
    obtain ⟨ts, hT, hRest, hNext, hDepth⟩ := hValue r₀ hr₀
    split at h
    · rename_i hq
      split_ifs at h
      split at h
      · cases h
      · rename_i r' hItems
        cases h
        have hAhead := r₀.ahead.trans (ahead_advance hq)
        have hLimit : r₀.next.advance.depth ≤ r₀.next.advance.limit := by
          rw [hNext]
          exact hp
        obtain ⟨ts', vs, hT', hv, hr, hn, hd⟩ := ih _ hAhead hLimit _ _ hItems
        refine ⟨_, _, .cons hT hT', ?_, ?_, ?_, ?_⟩
        · simpa using hv
        · rw [hRest, rest_of_peek hq, hr]
          simp
        · rw [hn, hNext]
          simp [advance, skip, leave]
          omega
        · rw [hNext] at hd
          simp only [advance, skip] at hd
          simp only [Value.depthItems]
          omega
    · rename_i hq
      cases h
      refine ⟨_, _, .one hT, rfl, ?_, ?_, ?_⟩
      · rw [hRest, rest_of_peek hq]
        rfl
      · simp only [close]
        rw [hNext]
        rfl
      · simp only [Value.depthItems]
        omega
    · cases h
    · cases h

theorem valueSound_object {p : Parser} (hp : p.peek = some .beginObject)
    (ih : ∀ q : Parser, Ahead p q → q.depth ≤ q.limit → MembersSound q)
    {r : Consumed p Value} (h : p.parseObject hp = .ok r) :
    ∃ ts, TValue ts r.value ∧ p.rest = ts ++ r.next.rest ∧ r.next = p.skip ts.length ∧
      p.depth + r.value.depth ≤ p.limit := by
  have hRest := rest_of_peek hp
  unfold parseObject at h
  split at h
  · cases h
  · rename_i q he
    have hAhead := ahead_enter he hp
    obtain ⟨hDepth, rfl⟩ := enter_eq_ok he
    split at h
    · rename_i hq
      cases h
      refine ⟨_, .emptyObject, ?_, rfl, ?_⟩
      · exact hRest.trans (congrArg _ (rest_of_peek hq))
      · simp only [close, Value.depth, Value.depthMembers]
        omega
    · split at h
      · cases h
      · rename_i r' hMembers
        cases h
        obtain ⟨ts, ms, hT, hv, hr, hn, hd⟩ := ih _ hAhead hDepth _ _ hMembers
        refine ⟨.beginObject :: (ts ++ [.endObject]), ?_, ?_, ?_, ?_⟩
        · exact hv ▸ .object hT
        · have hr' : p.advance.rest = ts ++ .endObject :: r'.next.rest := hr
          simp [hRest, hr']
        · rw [hn]
          simp [advance, skip, leave, Nat.add_assoc, Nat.add_comm 1]
        · rw [hv]
          simp only [List.nil_append, Value.depth]
          simp only [advance] at hd
          omega

theorem membersSound_step {p : Parser}
    (ihValue : ∀ q : Parser, Ahead p q → q.depth ≤ q.limit → ValueSound q)
    (ih : ∀ q : Parser, Ahead p q → q.depth ≤ q.limit → MembersSound q)
    (hp : p.depth ≤ p.limit) : MembersSound p := by
  intro members r h
  unfold parseMembers at h
  split at h
  · rename_i key hk
    split at h
    · rename_i hc
      have hColon := (ahead_advance hk).trans (ahead_advance hc)
      have hHead : p.rest = .string key :: .nameSeparator :: p.advance.advance.rest := by
        rw [rest_of_peek hk, rest_of_peek hc]
      split at h
      · cases h
      · rename_i r₀ hr₀
        obtain ⟨ts, hT, hRest, hNext, hDepth⟩ := ihValue _ hColon hp r₀ hr₀
        simp only [advance] at hDepth
        dsimp only at h
        split at h
        · rename_i hq
          split_ifs at h
          split at h
          · cases h
          · rename_i r' hMembers
            cases h
            have hAhead := (hColon.trans r₀.ahead).trans (ahead_advance hq)
            have hLimit : r₀.next.advance.depth ≤ r₀.next.advance.limit := by
              rw [hNext]
              exact hp
            obtain ⟨ts', ms, hT', hv, hr, hn, hd⟩ := ih _ hAhead hLimit _ _ hMembers
            refine ⟨.string key :: .nameSeparator :: (ts ++ .valueSeparator :: ts'),
              (key, r₀.value) :: ms, .cons hT hT', ?_, ?_, ?_, ?_⟩
            · simpa using hv
            · rw [hHead, hRest, rest_of_peek hq, hr]
              simp
            · rw [hn, hNext]
              simp [advance, skip, leave]
              omega
            · rw [hNext] at hd
              simp only [advance, skip] at hd
              simp only [Value.depthMembers]
              omega
        · rename_i hq
          cases h
          refine ⟨_, _, .one hT, rfl, ?_, ?_, ?_⟩
          · rw [hHead, hRest, rest_of_peek hq]
            rfl
          · simp only [close]
            rw [hNext]
            simp [advance, skip, leave]
            omega
          · simp only [Value.depthMembers]
            omega
        · cases h
        · cases h
    · cases h
    · cases h
  · cases h
  · cases h

/-- Every successful call reads the tokens of a value within the nesting limit; so do the
loops of the containers. The induction is on the tokens left. -/
theorem sound (n : Nat) : ∀ p : Parser, p.remaining ≤ n → p.depth ≤ p.limit →
    ValueSound p ∧ ItemsSound p ∧ MembersSound p := by
  induction n using Nat.strong_induction_on with
  | _ n ih =>
    intro p hn hp
    have ihAhead : ∀ q : Parser, Ahead p q → q.depth ≤ q.limit →
        ValueSound q ∧ ItemsSound q ∧ MembersSound q := fun q hq hLimit =>
      ih q.remaining (hq.remaining_lt.trans_le hn) q le_rfl hLimit
    have hValue : ValueSound p := by
      intro r h
      unfold parseValue at h
      split at h
      case h_1 => cases h
      case h_7 hPeek => exact valueSound_array hPeek (fun q hq hl => (ihAhead q hq hl).2.1) h
      case h_8 hPeek => exact valueSound_object hPeek (fun q hq hl => (ihAhead q hq hl).2.2) h
      case h_9 => cases h
      all_goals
        rename_i hPeek
        cases h
        refine ⟨_, by constructor, rest_of_peek hPeek, rfl, ?_⟩
        simpa only [Value.depth, Nat.add_zero] using hp
    exact ⟨hValue, itemsSound_step hValue (fun q hq hl => (ihAhead q hq hl).2.1) hp,
      membersSound_step (fun q hq hl => (ihAhead q hq hl).1)
        (fun q hq hl => (ihAhead q hq hl).2.2) hp⟩

theorem parseValue_sound {p : Parser} (hp : p.depth ≤ p.limit) : ValueSound p :=
  (sound p.remaining p le_rfl hp).1

/-! ## Completeness -/

theorem peek_of_rest {p : Parser} {tok : Token} {r : List Token} (h : p.rest = tok :: r) :
    p.peek = some tok := by
  rw [peek_eq, h, List.head?_cons]

/-- The run of `parseValue` along the tokens of a value, whatever follows. -/
def ValueComplete (ts : List Token) (v : Value) : Prop :=
  ∀ (p : Parser) (r : List Token), p.rest = ts ++ r → p.depth + v.depth ≤ p.limit →
    ∃ out, p.parseValue = .ok out ∧ out.value = v ∧ out.next = p.skip ts.length

/-- The run of the loop of `parseArray`, up to the closing bracket. -/
def ItemsComplete (ts : List Token) (items : List Value) : Prop :=
  ∀ (p : Parser) (done : List Value) (r : List Token), p.rest = ts ++ .endArray :: r →
    p.depth + Value.depthItems items ≤ p.limit →
    ∃ out, p.parseItems done = .ok out ∧ out.value = .array (done ++ items) ∧
      out.next = (p.skip (ts.length + 1)).leave

/-- The run of the loop of `parseObject`, up to the closing brace. -/
def MembersComplete (ts : List Token) (members : List (Str × Value)) : Prop :=
  ∀ (p : Parser) (done : List (Str × Value)) (r : List Token), p.rest = ts ++ .endObject :: r →
    p.depth + Value.depthMembers members ≤ p.limit →
    ∃ out, p.parseMembers done = .ok out ∧ out.value = .object (done ++ members) ∧
      out.next = (p.skip (ts.length + 1)).leave

theorem enter_ok {p : Parser} (pos : Position) (h : p.depth < p.limit) :
    p.enter pos = .ok { p with depth := p.depth + 1 } := by
  rw [enter, if_neg (by omega)]

/-- The first token of a value opens it: it is no closing token. -/
theorem tvalue_head {ts : List Token} {v : Value} (h : TValue ts v) :
    ∃ tok ts', ts = tok :: ts' ∧ tok ≠ .endArray ∧ tok ≠ .endObject := by
  cases h <;> exact ⟨_, _, rfl, by simp, by simp⟩

theorem titems_head {ts : List Token} {items : List Value} (h : TItems ts items) :
    ∃ tok ts', ts = tok :: ts' ∧ tok ≠ .endArray := by
  cases h with
  | one hv =>
    obtain ⟨tok, ts', rfl, hne, -⟩ := tvalue_head hv
    exact ⟨tok, ts', rfl, hne⟩
  | cons hv hs =>
    obtain ⟨tok, ts', rfl, hne, -⟩ := tvalue_head hv
    exact ⟨tok, _, rfl, hne⟩

theorem tmembers_head {ts : List Token} {members : List (Str × Value)}
    (h : TMembers ts members) : ∃ key ts', ts = .string key :: ts' := by
  cases h <;> exact ⟨_, _, rfl⟩

/-- Entering a container and reading its first token. -/
theorem enter_container {p : Parser} {open' tok : Token} {r : List Token}
    (hRest : p.rest = open' :: tok :: r) (hDepth : p.depth < p.limit) :
    ∃ q, p.enter p.peekPos = .ok q ∧
      q.advance = ⟨p.tokens, p.cursor + 1, p.depth + 1, p.limit⟩ ∧
      q.advance.peek = some tok ∧ q.advance.rest = tok :: r :=
  ⟨_, enter_ok _ hDepth, rfl, peek_of_rest (rest_advance hRest), rest_advance hRest⟩

theorem valueComplete_emptyArray : ValueComplete [.beginArray, .endArray] (.array []) := by
  intro p r hRest hDepth
  simp only [Value.depth, Value.depthItems] at hDepth
  have hp := peek_of_rest hRest
  obtain ⟨q, he, hq, hClose, -⟩ := enter_container hRest (by omega)
  refine ⟨close (.array []) (ahead_enter he hp) hClose, ?_, rfl, ?_⟩
  · unfold parseValue parseArray
    grind
  · simp only [close, hq]
    rfl

theorem valueComplete_emptyObject : ValueComplete [.beginObject, .endObject] (.object []) := by
  intro p r hRest hDepth
  simp only [Value.depth, Value.depthMembers] at hDepth
  have hp := peek_of_rest hRest
  obtain ⟨q, he, hq, hClose, -⟩ := enter_container hRest (by omega)
  refine ⟨close (.object []) (ahead_enter he hp) hClose, ?_, rfl, ?_⟩
  · unfold parseValue parseObject
    grind
  · simp only [close, hq]
    rfl

theorem valueComplete_array {ts : List Token} {items : List Value} (h : TItems ts items)
    (ih : ItemsComplete ts items) :
    ValueComplete (.beginArray :: (ts ++ [.endArray])) (.array items) := by
  intro p r hRest hDepth
  simp only [Value.depth] at hDepth
  obtain ⟨tok, ts', hts, hne⟩ := titems_head h
  have hp := peek_of_rest hRest
  obtain ⟨q, he, hq, hTok, hqRest⟩ :=
    enter_container (r := ts' ++ .endArray :: r) (by simpa [hts] using hRest) (by omega)
  obtain ⟨out, hOut, hv, hn⟩ := ih q.advance [] r (by simp [hqRest, hts])
    (by rw [hq]; simp only; omega)
  refine ⟨⟨out.value, out.next, (ahead_enter he hp).trans out.ahead⟩, ?_, hv, ?_⟩
  · unfold parseValue parseArray
    grind
  · simp only [hn, hq]
    simp [skip, leave, Nat.add_assoc, Nat.add_comm 1]

theorem valueComplete_object {ts : List Token} {members : List (Str × Value)}
    (h : TMembers ts members) (ih : MembersComplete ts members) :
    ValueComplete (.beginObject :: (ts ++ [.endObject])) (.object members) := by
  intro p r hRest hDepth
  simp only [Value.depth] at hDepth
  obtain ⟨key, ts', hts⟩ := tmembers_head h
  have hp := peek_of_rest hRest
  obtain ⟨q, he, hq, hTok, hqRest⟩ :=
    enter_container (r := ts' ++ .endObject :: r) (by simpa [hts] using hRest) (by omega)
  obtain ⟨out, hOut, hv, hn⟩ := ih q.advance [] r (by simp [hqRest, hts])
    (by rw [hq]; simp only; omega)
  refine ⟨⟨out.value, out.next, (ahead_enter he hp).trans out.ahead⟩, ?_, hv, ?_⟩
  · unfold parseValue parseObject
    grind
  · simp only [hn, hq]
    simp [skip, leave, Nat.add_assoc, Nat.add_comm 1]

/-- After a value of a container: the parser stands at the token that follows it. -/
theorem value_then {p : Parser} {ts r : List Token} {v : Value} (tok : Token)
    (ih : ValueComplete ts v) (hRest : p.rest = ts ++ tok :: r)
    (hDepth : p.depth + v.depth ≤ p.limit) :
    ∃ out, p.parseValue = .ok out ∧ out.value = v ∧ out.next = p.skip ts.length ∧
      out.next.peek = some tok ∧ out.next.advance.rest = r := by
  obtain ⟨out, hOut, hv, hn⟩ := ih p (tok :: r) hRest hDepth
  have hNext : out.next.rest = tok :: r := hn ▸ rest_skip hRest
  exact ⟨out, hOut, hv, hn, peek_of_rest hNext, rest_advance hNext⟩

theorem itemsComplete_one {ts : List Token} {v : Value} (ih : ValueComplete ts v) :
    ItemsComplete ts [v] := by
  intro p done r hRest hDepth
  simp only [Value.depthItems, Nat.max_zero] at hDepth
  obtain ⟨out, hOut, rfl, hn, hq, -⟩ := value_then .endArray ih hRest hDepth
  refine ⟨close (.array (done ++ [out.value])) out.ahead hq, ?_, rfl, ?_⟩
  · unfold parseItems
    grind
  · simp [close, hn, advance, skip, leave, Nat.add_assoc]

theorem itemsComplete_cons {ts ts' : List Token} {v : Value} {items : List Value}
    (ih : ValueComplete ts v) (h : TItems ts' items) (ih' : ItemsComplete ts' items) :
    ItemsComplete (ts ++ .valueSeparator :: ts') (v :: items) := by
  intro p done r hRest hDepth
  simp only [Value.depthItems] at hDepth
  obtain ⟨out, hOut, rfl, hn, hq, hAfter⟩ :=
    value_then .valueSeparator (r := ts' ++ .endArray :: r) ih (by simpa using hRest)
      (by omega)
  obtain ⟨tok, ts'', rfl, hne⟩ := titems_head h
  have hHead := peek_of_rest hAfter
  obtain ⟨out', hOut', hv, hn'⟩ := ih' out.next.advance (done ++ [out.value]) r hAfter
    (by rw [hn]; simp only [advance, skip]; omega)
  refine ⟨⟨out'.value, out'.next, (out.ahead.trans (ahead_advance hq)).trans out'.ahead⟩,
    ?_, by simpa using hv, ?_⟩
  · unfold parseItems
    grind
  · rw [hn', hn]
    simp [advance, skip, leave, Nat.add_assoc, Nat.add_comm 1]

/-- The key and the colon of a member. -/
theorem member_head {p : Parser} {key : Str} {r : List Token}
    (hRest : p.rest = .string key :: .nameSeparator :: r) :
    p.peek = some (.string key) ∧ p.advance.peek = some .nameSeparator ∧
      p.advance.advance.rest = r := by
  have hAdvance := rest_advance hRest
  exact ⟨peek_of_rest hRest, peek_of_rest hAdvance, rest_advance hAdvance⟩

theorem membersComplete_one {ts : List Token} {key : Str} {v : Value}
    (ih : ValueComplete ts v) :
    MembersComplete (.string key :: .nameSeparator :: ts) [(key, v)] := by
  intro p done r hRest hDepth
  simp only [Value.depthMembers, Nat.max_zero] at hDepth
  obtain ⟨hk, hc, hRest'⟩ := member_head hRest
  obtain ⟨out, hOut, rfl, hn, hq, -⟩ := value_then .endObject ih hRest' hDepth
  refine ⟨close (.object (done ++ [(key, out.value)]))
    (((ahead_advance hk).trans (ahead_advance hc)).trans out.ahead) hq, ?_, rfl, ?_⟩
  · unfold parseMembers
    grind
  · simp only [close, hn]
    simp [advance, skip, leave, Nat.add_comm, Nat.add_left_comm]

theorem membersComplete_cons {ts ts' : List Token} {key : Str} {v : Value}
    {members : List (Str × Value)} (ih : ValueComplete ts v) (h : TMembers ts' members)
    (ih' : MembersComplete ts' members) :
    MembersComplete (.string key :: .nameSeparator :: (ts ++ .valueSeparator :: ts'))
      ((key, v) :: members) := by
  intro p done r hRest hDepth
  simp only [Value.depthMembers] at hDepth
  obtain ⟨hk, hc, hRest'⟩ := member_head (by simpa using hRest)
  obtain ⟨out, hOut, rfl, hn, hq, hAfter⟩ :=
    value_then .valueSeparator (p := p.advance.advance) (r := ts' ++ .endObject :: r) ih
      (by simpa using hRest') (by simp only [advance]; omega)
  obtain ⟨key', ts'', rfl⟩ := tmembers_head h
  have hHead := peek_of_rest hAfter
  obtain ⟨out', hOut', hv, hn'⟩ := ih' out.next.advance (done ++ [(key, out.value)]) r hAfter
    (by rw [hn]; simp only [advance, skip]; omega)
  refine ⟨⟨out'.value, out'.next, ((((ahead_advance hk).trans (ahead_advance hc)).trans
    out.ahead).trans (ahead_advance hq)).trans out'.ahead⟩, ?_, by simpa using hv, ?_⟩
  · unfold parseMembers
    grind
  · rw [hn', hn]
    simp [advance, skip, leave, Nat.add_comm, Nat.add_left_comm]

/-- The parser reads every value of the token grammar, whatever follows it. -/
theorem parseValue_complete {ts : List Token} {v : Value} (h : TValue ts v) :
    ValueComplete ts v := by
  have leaf : ∀ {tok : Token} {v : Value}, (∀ p : Parser, p.peek = some tok →
      ∃ out, p.parseValue = .ok out ∧ out.value = v ∧ out.next = p.advance) →
      ValueComplete [tok] v := fun h p _ hRest _ => h p (peek_of_rest hRest)
  refine @TValue.rec (fun ts v _ => ValueComplete ts v)
    (fun ts items _ => ItemsComplete ts items)
    (fun ts members _ => MembersComplete ts members)
    ?_ ?_ ?_ ?_ ?_ valueComplete_emptyArray (fun h ih => valueComplete_array h ih)
    valueComplete_emptyObject (fun h ih => valueComplete_object h ih)
    (fun _ ih => itemsComplete_one ih) (fun _ h ih ih' => itemsComplete_cons ih h ih')
    (fun _ ih => membersComplete_one ih) (fun _ h ih ih' => membersComplete_cons ih h ih') _ _ h
  · refine leaf fun p hp => ⟨⟨.null, p.advance, ahead_advance hp⟩, ?_, rfl, rfl⟩
    unfold parseValue
    grind
  · refine leaf fun p hp => ⟨⟨.bool .true, p.advance, ahead_advance hp⟩, ?_, rfl, rfl⟩
    unfold parseValue
    grind
  · refine leaf fun p hp => ⟨⟨.bool .false, p.advance, ahead_advance hp⟩, ?_, rfl, rfl⟩
    unfold parseValue
    grind
  · refine fun n => leaf fun p hp => ⟨⟨.number n, p.advance, ahead_advance hp⟩, ?_, rfl, rfl⟩
    unfold parseValue
    grind
  · refine fun s => leaf fun p hp => ⟨⟨.string s, p.advance, ahead_advance hp⟩, ?_, rfl, rfl⟩
    unfold parseValue
    grind

end CjsonRs.Core.Parser
