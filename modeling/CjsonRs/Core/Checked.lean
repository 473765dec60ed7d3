import CjsonRs.Core.Parser

/-!
# The parser with its run-time checks

The functions of `tokeniser.rs` and `parser.rs` once more, with everything that Rust checks at
run time written out: a slice `&input[a..b]` needs `a <= b <= len`, an index has to exist, a
subtraction must not go below zero. Two assertions are added, that `next_token` moves forward
inside the input and that `parse_value` is not active in more calls than the nesting limit
and one. Loops and recursion count the steps they may still take, so a run that does not end is
a panic here. Readers that only peek and advance have nothing to check and are used as they are.
-/

namespace CjsonRs.Core

open Library

/-- Why a run is stopped by the language and not by the program. -/
inductive Panic where
  | slice
  | index
  | underflow
  | progress
  | active
  | steps
  deriving DecidableEq, Repr

/-- An error of the program, or a panic. -/
inductive Stop where
  | error (e : Error)
  | panic (p : Panic)
  deriving DecidableEq, Repr

abbrev Checked (α : Type) := Except Stop α

/-- A result without a panic. -/
def lift {α : Type} : Except Error α → Checked α
  | .ok a => .ok a
  | .error e => .error (.error e)

def raise {α : Type} (e : Error) : Checked α := .error (.error e)

def stopWith {α : Type} (p : Panic) : Checked α := .error (.panic p)

/-- `a - b` of unsigned integers. -/
def checkedSub (a b : Nat) : Checked Nat := if b ≤ a then .ok (a - b) else stopWith .underflow

namespace Tokeniser

/-- `&self.input[a..b]` -/
def sliceChecked (t : Tokeniser) (a b : Nat) : Checked (List UInt8) :=
  if a ≤ b ∧ b ≤ t.input.length then .ok (t.slice a b) else stopWith .slice

def hexDigitChecked (b : UInt8) : Checked (Option Nat) :=
  if 0x30 ≤ b ∧ b ≤ 0x39 then do
    let d ← checkedSub b.toNat 0x30
    return some d
  else if 0x61 ≤ b ∧ b ≤ 0x66 then do
    let d ← checkedSub b.toNat 0x61
    return some (d + 10)
  else if 0x41 ≤ b ∧ b ≤ 0x46 then do
    let d ← checkedSub b.toNat 0x41
    return some (d + 10)
  else return none

def readHexDigitsChecked (start : Position) : Nat → Nat → Tokeniser → Checked (Nat × Tokeniser)
  | 0, val, t => .ok (val, t)
  | n + 1, val, t =>
    match t.peek with
    | none => raise (.unexpectedEof start)
    | some b => do
      match ← hexDigitChecked b with
      | none => raise (.invalidUnicodeEscape start)
      | some d => readHexDigitsChecked start n (val <<< 4 ||| d) t.advance

/-- `0x10000 + ((high - 0xD800) << 10) + (low - 0xDC00)` -/
def surrogateCodeChecked (high low : Nat) : Checked Nat := do
  let h ← checkedSub high 0xD800
  let l ← checkedSub low 0xDC00
  return 0x10000 + h <<< 10 + l

def readLowSurrogateChecked (t : Tokeniser) (start : Position) (high : Nat) :
    Checked (Char × Tokeniser) :=
  if t.peek = some 0x5C ∧ t.peekAt 1 = some 0x75 then do
    let (low, t') ← readHexDigitsChecked start 4 0 t.advance.advance
    if isLowSurrogate low then do
      let code ← surrogateCodeChecked high low
      match charFromU32 code with
      | some c => return (c, t')
      | none => raise (.invalidSurrogatePair start)
    else raise (.invalidSurrogatePair start)
  else raise (.invalidSurrogatePair start)

def readUnicodeEscapeChecked (t : Tokeniser) (start : Position) : Checked (Char × Tokeniser) := do
  let (high, t') ← readHexDigitsChecked start 4 0 t
  if isHighSurrogate high then t'.readLowSurrogateChecked start high
  else if isLowSurrogate high then raise (.invalidSurrogatePair start)
  else
    match charFromU32 high with
    | some c => return (c, t')
    | none => raise (.invalidUnicodeEscape start)

def readEscapeChecked (t : Tokeniser) : Checked (Char × Tokeniser) :=
  let escapePos := t.pos
  let t := t.advance
  match t.peek with
  | none => raise (.unexpectedEof escapePos)
  | some esc =>
    let t := t.advance
    match shortEscape esc with
    | some c => return (c, t)
    | none =>
      if esc = 0x75 then t.readUnicodeEscapeChecked escapePos
      else raise (.invalidEscape escapePos)

def readUtf8CharChecked (t : Tokeniser) : Checked (Char × Tokeniser) :=
  let start := t.pos
  match t.peek with
  | none => raise (.unexpectedEof start)
  | some first =>
    let len := utf8Len first
    if len = 0 then raise (.invalidUtf8 start)
    else
      let stop := t.pos.offset + len
      if stop > t.input.length then raise (.invalidUtf8 start)
      else do
        let slice ← t.sliceChecked t.pos.offset stop
        match fromUtf8 slice with
        | none => raise (.invalidUtf8 start)
        | some [] => raise (.invalidUtf8 start)
        | some (ch :: _) =>
          return (ch, { t with pos := { t.pos with offset := stop, column := t.pos.column + 1 } })

def readStringLoopChecked (start : Position) :
    Nat → Tokeniser → Str → Checked (Token × Tokeniser)
  | 0, _, _ => stopWith .steps
  | steps + 1, t, out =>
    match t.peek with
    | none => raise (.unexpectedEof start)
    | some b =>
      if b = 0x22 then return (.string out, t.advance)
      else if b = 0x5C then do
        let (c, t') ← t.readEscapeChecked
        readStringLoopChecked start steps t' (out ++ [c])
      else if b ≤ 0x1F then raise (.unexpectedChar (Char.ofNat b.toNat) t.pos)
      else if b ≤ 0x7F then
        readStringLoopChecked start steps t.advance (out ++ [Char.ofNat b.toNat])
      else do
        let (c, t') ← t.readUtf8CharChecked
        readStringLoopChecked start steps t' (out ++ [c])

/-- One step for every byte, and one for the end of the input. -/
def readStringChecked (t : Tokeniser) : Checked (Token × Tokeniser) :=
  readStringLoopChecked t.pos (t.input.length + 1) t.advance []

def readNumberChecked (std : StdF64) (t : Tokeniser) : Checked (Token × Tokeniser) := do
  let t₁ ← lift (t.skipMinus.readInt t.pos)
  let t₂ ← lift (t₁.readFrac t.pos)
  let t₃ ← lift (t₂.readExp t.pos)
  let slice ← t.sliceChecked t.pos.offset t₃.pos.offset
  match fromUtf8 slice with
  | none => raise (.invalidNumber t.pos)
  | some s =>
    match std.parse s with
    | none => raise (.invalidNumber t.pos)
    | some n => if n.isFinite then return (.number n, t₃) else raise (.numberOutOfRange t.pos)

def readTokenChecked (std : StdF64) (t : Tokeniser) (b : UInt8) : Checked (Token × Tokeniser) :=
  match structural b with
  | some token => return (token, t.advance)
  | none =>
    if b = 0x22 then t.readStringChecked
    else if b = 0x74 then lift (t.readLiteral trueBytes .true)
    else if b = 0x66 then lift (t.readLiteral falseBytes .false)
    else if b = 0x6E then lift (t.readLiteral nullBytes .null)
    else if b = 0x2D ∨ isDigit b then t.readNumberChecked std
    else raise (.unexpectedChar (Char.ofNat b.toNat) t.pos)

/-- `next_token`, with the assertion that it moves forward inside the input. -/
def nextTokenChecked (std : StdF64) (t : Tokeniser) : Checked (PositionedToken × Tokeniser) :=
  let start := t.pos
  match t.peek with
  | none => raise (.unexpectedEof start)
  | some b => do
    let (token, t') ← t.readTokenChecked std b
    if t.pos.offset < t'.pos.offset ∧ t'.pos.offset ≤ t.input.length then
      return (⟨token, start, t'.pos⟩, t')
    else stopWith .progress

def tokeniseLoopChecked (std : StdF64) :
    Nat → Tokeniser → List PositionedToken → Checked (List PositionedToken)
  | 0, _, _ => stopWith .steps
  | steps + 1, t, out =>
    if t.skipWs.isAtEnd then return out
    else do
      let (tk, t') ← t.skipWs.nextTokenChecked std
      tokeniseLoopChecked std steps t' (out ++ [tk])

/-- One step for every byte, and one for the end of the input. -/
def tokeniseChecked (std : StdF64) (input : List UInt8) : Checked (List PositionedToken) :=
  tokeniseLoopChecked std (input.length + 1) (new input) []

def tokenisePrefixLoopChecked (std : StdF64) :
    Nat → Tokeniser → List PositionedToken → Nat → Checked (List PositionedToken × Nat)
  | 0, _, _, _ => stopWith .steps
  | steps + 1, t, out, lastTokenEnd =>
    if t.skipWs.isAtEnd then return (out, lastTokenEnd)
    else
      match t.skipWs.nextTokenChecked std with
      | .error (.error _) => return (out, lastTokenEnd)
      | .error (.panic p) => stopWith p
      | .ok (tk, t') => tokenisePrefixLoopChecked std steps t' (out ++ [tk]) t'.pos.offset

def tokenisePrefixChecked (std : StdF64) (input : List UInt8) :
    Checked (List PositionedToken × Nat) :=
  tokenisePrefixLoopChecked std (input.length + 1) (new input) [] 0

end Tokeniser

namespace Parser

/-- `self.depth -= 1` -/
def leaveChecked (p : Parser) : Checked Parser := do
  let depth ← checkedSub p.depth 1
  return { p with depth }

mutual

/-- `parse_value`, as the call number `active` that has not returned. -/
def parseValueChecked : Nat → Nat → Parser → Checked (Value × Parser)
  | 0, _, _ => stopWith .steps
  | steps + 1, active, p =>
    if p.limit + 1 < active then stopWith .active
    else
      match p.peek with
      | none => raise (.unexpectedEof p.peekPos)
      | some .null => return (.null, p.advance)
      | some .true => return (.bool .true, p.advance)
      | some .false => return (.bool .false, p.advance)
      | some (.number n) => return (.number n, p.advance)
      | some (.string s) => return (.string s, p.advance)
      | some .beginArray => parseArrayChecked steps active p
      | some .beginObject => parseObjectChecked steps active p
      | some _ => raise (.unexpectedToken p.peekPos)

def parseArrayChecked : Nat → Nat → Parser → Checked (Value × Parser)
  | 0, _, _ => stopWith .steps
  | steps + 1, active, p => do
    let q ← lift (p.enter p.peekPos)
    let q := q.advance
    if q.peek = some .endArray then do
      let q ← q.advance.leaveChecked
      return (.array [], q)
    else parseItemsChecked steps active q []

def parseItemsChecked : Nat → Nat → Parser → List Value → Checked (Value × Parser)
  | 0, _, _, _ => stopWith .steps
  | steps + 1, active, p, items => do
    let (value, p) ← parseValueChecked steps (active + 1) p
    match p.peek with
    | some .valueSeparator =>
      let commaPos := p.peekPos
      let p := p.advance
      if p.peek = some .endArray then raise (.unexpectedToken commaPos)
      else parseItemsChecked steps active p (items ++ [value])
    | some .endArray => do
      let p ← p.advance.leaveChecked
      return (.array (items ++ [value]), p)
    | some _ => raise (.unexpectedToken p.peekPos)
    | none => raise (.unexpectedEof p.peekPos)

def parseObjectChecked : Nat → Nat → Parser → Checked (Value × Parser)
  | 0, _, _ => stopWith .steps
  | steps + 1, active, p => do
    let q ← lift (p.enter p.peekPos)
    let q := q.advance
    if q.peek = some .endObject then do
      let q ← q.advance.leaveChecked
      return (.object [], q)
    else parseMembersChecked steps active q []

def parseMembersChecked : Nat → Nat → Parser → List (Str × Value) → Checked (Value × Parser)
  | 0, _, _, _ => stopWith .steps
  | steps + 1, active, p, members =>
    match p.peek with
    | some (.string key) =>
      let p := p.advance
      match p.peek with
      | some .nameSeparator => do
        let (value, p) ← parseValueChecked steps (active + 1) p.advance
        match p.peek with
        | some .valueSeparator =>
          let commaPos := p.peekPos
          let p := p.advance
          if p.peek = some .endObject then raise (.unexpectedToken commaPos)
          else parseMembersChecked steps active p (members ++ [(key, value)])
        | some .endObject => do
          let p ← p.advance.leaveChecked
          return (.object (members ++ [(key, value)]), p)
        | some _ => raise (.unexpectedToken p.peekPos)
        | none => raise (.unexpectedEof p.peekPos)
      | some _ => raise (.unexpectedToken p.peekPos)
      | none => raise (.unexpectedEof p.peekPos)
    | some _ => raise (.unexpectedToken p.peekPos)
    | none => raise (.unexpectedEof p.peekPos)

end

/-- Three steps for every token, and some for the end of the tokens. -/
def stepsFor (p : Parser) : Nat := 3 * p.tokens.length + 2

/-- `&self.tokens[i]` -/
def tokenAtChecked (p : Parser) (i : Nat) : Checked PositionedToken :=
  match p.tokens[i]? with
  | some tk => .ok tk
  | none => stopWith .index

end Parser

def parseWithOptionsChecked (std : StdF64) (input : List UInt8) (opts : ParserOptions) :
    Checked Value := do
  let tokens ← Tokeniser.tokeniseChecked std input
  let parser : Parser := { tokens, cursor := 0, depth := 0, limit := opts.nestingLimit }
  let (value, parser) ← parser.parseValueChecked parser.stepsFor 1
  if parser.cursor < parser.tokens.length then do
    let tk ← parser.tokenAtChecked parser.cursor
    raise (.trailingData tk.pos)
  else return value

def parsePrefixChecked (std : StdF64) (input : List UInt8) : Checked (Value × Nat) := do
  let (tokens, _) ← Tokeniser.tokenisePrefixChecked std input
  let parser : Parser :=
    { tokens, cursor := 0, depth := 0, limit := ParserOptions.default.nestingLimit }
  let (value, parser) ← parser.parseValueChecked parser.stepsFor 1
  let last ← checkedSub parser.cursor 1
  let tk ← parser.tokenAtChecked last
  return (value, tk.end.offset)

end CjsonRs.Core
