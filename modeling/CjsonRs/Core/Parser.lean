import CjsonRs.Core.Tokeniser

/-!
# The parser

`cjson-rs/src/parser.rs`: recursive descent over the token list with one token of
look-ahead and a depth counter.

`parse_value`, `parse_array` and `parse_object` call each other; they terminate because
`parse_value` consumes a token. `Consumed` is the result of a call together with that
fact, so the recursion is well-founded on the tokens left.
-/

namespace CjsonRs.Core

/-- `struct ParserOptions`. -/
structure ParserOptions where
  nestingLimit : Nat
  deriving DecidableEq, Repr

/-- `ParserOptions::default()`, cJSON's `CJSON_NESTING_LIMIT`. -/
def ParserOptions.default : ParserOptions := ⟨1000⟩

/-- `struct Parser`. -/
structure Parser where
  tokens : List PositionedToken
  cursor : Nat
  depth : Nat
  limit : Nat
  deriving DecidableEq, Repr

namespace Parser

def peek (p : Parser) : Option Token := p.tokens[p.cursor]?.map PositionedToken.token

def peekPos (p : Parser) : Position :=
  ((p.tokens[p.cursor]?.map PositionedToken.pos).or
    (p.tokens.getLast?.map PositionedToken.pos)).getD Position.start

def advance (p : Parser) : Parser := { p with cursor := p.cursor + 1 }

def enter (p : Parser) (pos : Position) : Except Error Parser :=
  if p.depth ≥ p.limit then .error (.nestingLimitExceeded pos)
  else .ok { p with depth := p.depth + 1 }

def leave (p : Parser) : Parser := { p with depth := p.depth - 1 }

/-! ## Tokens left -/

/-- `q` reads the same tokens as `p`, further on. -/
structure Ahead (p q : Parser) : Prop where
  tokens : q.tokens = p.tokens
  cursor : p.cursor < q.cursor
  bound : q.cursor ≤ q.tokens.length

/-- A result together with the parser it leaves, which has consumed a token of `p`. -/
structure Consumed (p : Parser) (α : Type) where
  value : α
  next : Parser
  ahead : Ahead p next

/-- How many tokens are left: the measure of the recursion. -/
def remaining (p : Parser) : Nat := p.tokens.length - p.cursor

theorem Ahead.trans {p q r : Parser} (h : Ahead p q) (h' : Ahead q r) : Ahead p r :=
  ⟨h'.tokens.trans h.tokens, h.cursor.trans h'.cursor, h'.bound⟩

theorem Ahead.remaining_lt {p q : Parser} (h : Ahead p q) : q.remaining < p.remaining := by
  have := h.cursor
  have := h.bound
  simp only [remaining, ← h.tokens]
  omega

theorem ahead_advance {p : Parser} {tok : Token} (h : p.peek = some tok) : Ahead p p.advance := by
  obtain ⟨pt, hpt, -⟩ := Option.map_eq_some_iff.mp h
  exact ⟨rfl, Nat.lt_succ_self _, (List.getElem?_eq_some_iff.mp hpt).1⟩

theorem enter_eq_ok {p q : Parser} {pos : Position} (h : p.enter pos = .ok q) :
    p.depth < p.limit ∧ q = { p with depth := p.depth + 1 } := by
  unfold enter at h
  split_ifs at h with hDepth
  cases h
  exact ⟨by omega, rfl⟩

theorem ahead_enter {p q : Parser} {pos : Position} {tok : Token} (h : p.enter pos = .ok q)
    (hp : p.peek = some tok) : Ahead p q.advance := by
  obtain ⟨-, rfl⟩ := enter_eq_ok h
  obtain ⟨hTokens, hCursor, hBound⟩ := ahead_advance hp
  exact ⟨hTokens, hCursor, hBound⟩

/-- The end of a container: consume the closing token and leave a level. -/
def close {p q : Parser} {tok : Token} (v : Value) (hq : Ahead p q) (h : q.peek = some tok) :
    Consumed p Value where
  value := v
  next := q.advance.leave
  ahead := by
    obtain ⟨hTokens, hCursor, hBound⟩ := hq.trans (ahead_advance h)
    exact ⟨hTokens, hCursor, hBound⟩

/-! ## The grammar -/

mutual

/-- RFC 8259 §3: value = false / null / true / object / array / number / string -/
def parseValue (p : Parser) : Except Error (Consumed p Value) :=
  match h : p.peek with
  | none => .error (.unexpectedEof p.peekPos)
  | some .null => .ok ⟨.null, p.advance, ahead_advance h⟩
  | some .true => .ok ⟨.bool .true, p.advance, ahead_advance h⟩
  | some .false => .ok ⟨.bool .false, p.advance, ahead_advance h⟩
  | some (.number n) => .ok ⟨.number n, p.advance, ahead_advance h⟩
  | some (.string s) => .ok ⟨.string s, p.advance, ahead_advance h⟩
  | some .beginArray => parseArray p h
  | some .beginObject => parseObject p h
  | some _ => .error (.unexpectedToken p.peekPos)
termination_by 3 * p.remaining + 1

/-- RFC 8259 §5: array = begin-array [ value *( value-separator value ) ] end-array -/
def parseArray (p : Parser) (hp : p.peek = some .beginArray) : Except Error (Consumed p Value) :=
  match he : p.enter p.peekPos with
  | .error e => .error e
  | .ok q =>
    have hAhead := ahead_enter he hp
    match hq : q.advance.peek with
    | some .endArray => .ok (close (.array []) hAhead hq)
    | _ =>
      match parseItems q.advance [] with
      | .error e => .error e
      | .ok r => .ok ⟨r.value, r.next, hAhead.trans r.ahead⟩
termination_by 3 * p.remaining
decreasing_by
  have := hAhead.remaining_lt
  omega

/-- The loop of `parse_array`. -/
def parseItems (p : Parser) (items : List Value) : Except Error (Consumed p Value) :=
  match parseValue p with
  | .error e => .error e
  | .ok r =>
    match hq : r.next.peek with
    | some .valueSeparator =>
      -- Reject trailing comma: next token must start a value, not close.
      if r.next.advance.peek = some .endArray then .error (.unexpectedToken r.next.peekPos)
      else
        have hAhead := r.ahead.trans (ahead_advance hq)
        match parseItems r.next.advance (items ++ [r.value]) with
        | .error e => .error e
        | .ok r' => .ok ⟨r'.value, r'.next, hAhead.trans r'.ahead⟩
    | some .endArray => .ok (close (.array (items ++ [r.value])) r.ahead hq)
    | some _ => .error (.unexpectedToken r.next.peekPos)
    | none => .error (.unexpectedEof r.next.peekPos)
termination_by 3 * p.remaining + 2
decreasing_by
  · omega
  · have := hAhead.remaining_lt
    omega

/-- RFC 8259 §4: object = begin-object [ member *( value-separator member ) ] end-object -/
def parseObject (p : Parser) (hp : p.peek = some .beginObject) :
    Except Error (Consumed p Value) :=
  match he : p.enter p.peekPos with
  | .error e => .error e
  | .ok q =>
    have hAhead := ahead_enter he hp
    match hq : q.advance.peek with
    | some .endObject => .ok (close (.object []) hAhead hq)
    | _ =>
      match parseMembers q.advance [] with
      | .error e => .error e
      | .ok r => .ok ⟨r.value, r.next, hAhead.trans r.ahead⟩
termination_by 3 * p.remaining
decreasing_by
  have := hAhead.remaining_lt
  omega

/-- The loop of `parse_object`; member = string name-separator value. -/
def parseMembers (p : Parser) (members : List (Str × Value)) : Except Error (Consumed p Value) :=
  match hk : p.peek with
  | some (.string key) =>
    match hc : p.advance.peek with
    | some .nameSeparator =>
      have hColon := (ahead_advance hk).trans (ahead_advance hc)
      match parseValue p.advance.advance with
      | .error e => .error e
      | .ok r =>
        have hValue := hColon.trans r.ahead
        match hq : r.next.peek with
        | some .valueSeparator =>
          if r.next.advance.peek = some .endObject then .error (.unexpectedToken r.next.peekPos)
          else
            have hAhead := hValue.trans (ahead_advance hq)
            match parseMembers r.next.advance (members ++ [(key, r.value)]) with
            | .error e => .error e
            | .ok r' => .ok ⟨r'.value, r'.next, hAhead.trans r'.ahead⟩
        | some .endObject => .ok (close (.object (members ++ [(key, r.value)])) hValue hq)
        | some _ => .error (.unexpectedToken r.next.peekPos)
        | none => .error (.unexpectedEof r.next.peekPos)
    | some _ => .error (.unexpectedToken p.advance.peekPos)
    | none => .error (.unexpectedEof p.advance.peekPos)
  | some _ => .error (.unexpectedToken p.peekPos)
  | none => .error (.unexpectedEof p.peekPos)
termination_by 3 * p.remaining + 2
decreasing_by
  · have := hColon.remaining_lt
    omega
  · have := hAhead.remaining_lt
    omega

end

end Parser

/-! ## Entry points -/

/-- `parse_with_options`: parse a complete JSON document. -/
def parseWithOptions (std : StdF64) (input : List UInt8) (opts : ParserOptions) :
    Except Error Value :=
  match Tokeniser.tokenise std input with
  | .error e => .error e
  | .ok tokens =>
    let parser : Parser := { tokens, cursor := 0, depth := 0, limit := opts.nestingLimit }
    match parser.parseValue with
    | .error e => .error e
    | .ok r =>
      if h : r.next.cursor < r.next.tokens.length then
        .error (.trailingData r.next.tokens[r.next.cursor].pos)
      else .ok r.value

/-- `parse`: parse a complete JSON document with default options. -/
def parse (std : StdF64) (input : List UInt8) : Except Error Value :=
  parseWithOptions std input .default

/-- `parse_prefix`: parse a single value from the prefix of the input; with the byte
offset after its last consumed byte. -/
def parsePrefix (std : StdF64) (input : List UInt8) : Except Error (Value × Nat) :=
  let tokens := (Tokeniser.tokenisePrefix std input).1
  let parser : Parser :=
    { tokens, cursor := 0, depth := 0, limit := ParserOptions.default.nestingLimit }
  match parser.parseValue with
  | .error e => .error e
  | .ok r =>
    -- `parse_value` consumed at least one token, so `cursor ≥ 1`.
    have : r.next.cursor - 1 < r.next.tokens.length := by
      have := r.ahead.cursor
      have := r.ahead.bound
      omega
    .ok (r.value, r.next.tokens[r.next.cursor - 1].end.offset)

end CjsonRs.Core
