import CjsonRs.Core.Error
import CjsonRs.Core.Value
import CjsonRs.Library.Except
import CjsonRs.Library.Utf8

/-!
# The tokeniser

`cjson-rs/src/token.rs` and `cjson-rs/src/tokeniser.rs`. A method that takes `&mut self`
returns the tokeniser it leaves behind; on an error the caller drops the tokeniser, so
only the error is returned.

The loops of the source are well-founded on the number of bytes left. That every reader
moves forward is proved right after its definition, since the loops above it need it.
-/

namespace CjsonRs.Core

open Library

/-- `enum Token`. -/
inductive Token where
  | beginObject
  | endObject
  | beginArray
  | endArray
  | nameSeparator
  | valueSeparator
  | null
  | true
  | false
  | number (n : F64)
  | string (s : Str)
  deriving DecidableEq, Repr

/-- `struct PositionedToken`: a token, the position of its first byte and the position
after its last. -/
structure PositionedToken where
  token : Token
  pos : Position
  «end» : Position
  deriving DecidableEq, Repr

/-- `struct Tokeniser`. -/
structure Tokeniser where
  input : List UInt8
  pos : Position
  deriving DecidableEq, Repr

/-- `b' ' | b'\t' | b'\n' | b'\r'`. -/
def isWs (b : UInt8) : Bool := b == 0x20 || b == 0x09 || b == 0x0A || b == 0x0D

/-- `b'0'..=b'9'`. -/
def isDigit (b : UInt8) : Bool := 0x30 ≤ b && b ≤ 0x39

/-- `char::from_u32`. -/
def charFromU32 (n : Nat) : Option Char :=
  if h : n.isValidChar then some (Char.ofNatAux n h) else none

namespace Tokeniser

/-- `Tokeniser::new`. -/
def new (input : List UInt8) : Tokeniser := ⟨input, Position.start⟩

def isAtEnd (t : Tokeniser) : Bool := t.input.length ≤ t.pos.offset

def peek (t : Tokeniser) : Option UInt8 := t.input[t.pos.offset]?

def peekAt (t : Tokeniser) (n : Nat) : Option UInt8 := t.input[t.pos.offset + n]?

def advance (t : Tokeniser) : Tokeniser :=
  match t.peek with
  | none => t
  | some b =>
    let pos := if b = 0x0A then { t.pos with line := t.pos.line + 1, column := 1 }
      else { t.pos with column := t.pos.column + 1 }
    { t with pos := { pos with offset := t.pos.offset + 1 } }

/-- The slice `&input[a..b]`. -/
def slice (t : Tokeniser) (a b : Nat) : List UInt8 := (t.input.drop a).take (b - a)

/-! ## Bytes left -/

/-- How many bytes are left: the measure of every loop. -/
def remaining (t : Tokeniser) : Nat := t.input.length - t.pos.offset

theorem remaining_pos {t : Tokeniser} {b : UInt8} (h : t.peek = some b) : 0 < t.remaining := by
  have hlt := (List.getElem?_eq_some_iff.mp h).1
  simp only [remaining]
  omega

theorem advance_lt {t : Tokeniser} {b : UInt8} (h : t.peek = some b) :
    t.advance.remaining < t.remaining := by
  have hlt := (List.getElem?_eq_some_iff.mp h).1
  simp only [advance, h, remaining]
  omega

theorem advance_le (t : Tokeniser) : t.advance.remaining ≤ t.remaining := by
  cases h : t.peek with
  | none => simp [advance, h]
  | some b => exact (advance_lt h).le

/-! ## Whitespace, digits and literals -/

/-- RFC 8259 §2: ws = *( %x20 / %x09 / %x0A / %x0D ) -/
def skipWs (t : Tokeniser) : Tokeniser :=
  match _h : t.peek with
  | some b => if isWs b then skipWs t.advance else t
  | none => t
termination_by t.remaining
decreasing_by exact advance_lt _h

/-- `while let Some(b'0'..=b'9') = self.peek() { self.advance(); }` -/
def skipDigits (t : Tokeniser) : Tokeniser :=
  match _h : t.peek with
  | some b => if isDigit b then skipDigits t.advance else t
  | none => t
termination_by t.remaining
decreasing_by exact advance_lt _h

/-- The loop of `read_literal` over the expected bytes. -/
def readExpected (start : Position) : List UInt8 → Tokeniser → Except Error Tokeniser
  | [], t => .ok t
  | exp :: expected, t =>
    match t.peek with
    | some b => if b = exp then readExpected start expected t.advance
      else .error (.invalidLiteral start)
    | none => .error (.invalidLiteral start)

def readLiteral (t : Tokeniser) (expected : List UInt8) (tok : Token) :
    Except Error (Token × Tokeniser) := do
  let t ← readExpected t.pos expected t
  return (tok, t)

theorem skipDigits_le (t : Tokeniser) : t.skipDigits.remaining ≤ t.remaining := by
  fun_induction skipDigits t with
  | case1 t b h hb ih => exact ih.trans (advance_le t)
  | case2 t b h hb => exact le_rfl
  | case3 t h => exact le_rfl

/-! ## Strings -/

/-- `b'0'..=b'9' | b'a'..=b'f' | b'A'..=b'F'`, with the digit's value. -/
def hexDigit (b : UInt8) : Option Nat :=
  if 0x30 ≤ b ∧ b ≤ 0x39 then some (b.toNat - 0x30)
  else if 0x61 ≤ b ∧ b ≤ 0x66 then some (b.toNat - 0x61 + 10)
  else if 0x41 ≤ b ∧ b ≤ 0x46 then some (b.toNat - 0x41 + 10)
  else none

/-- The loop of `read_hex4`, with the number of digits still to read. -/
def readHexDigits (start : Position) : Nat → Nat → Tokeniser → Except Error (Nat × Tokeniser)
  | 0, val, t => .ok (val, t)
  | n + 1, val, t =>
    match t.peek with
    | none => .error (.unexpectedEof start)
    | some b =>
      match hexDigit b with
      | none => .error (.invalidUnicodeEscape start)
      | some d => readHexDigits start n (val <<< 4 ||| d) t.advance

def readHex4 (t : Tokeniser) (start : Position) : Except Error (Nat × Tokeniser) :=
  readHexDigits start 4 0 t

/-- `(0xD800..=0xDBFF).contains(&u)`. -/
def isHighSurrogate (u : Nat) : Bool := 0xD800 ≤ u && u ≤ 0xDBFF

/-- `(0xDC00..=0xDFFF).contains(&u)`. -/
def isLowSurrogate (u : Nat) : Bool := 0xDC00 ≤ u && u ≤ 0xDFFF

/-- The code point of a surrogate pair. -/
def surrogateCode (high low : Nat) : Nat := 0x10000 + (high - 0xD800) <<< 10 + (low - 0xDC00)

/-- A high surrogate must be followed by the escape of a low surrogate. -/
def readLowSurrogate (t : Tokeniser) (start : Position) (high : Nat) :
    Except Error (Char × Tokeniser) :=
  if t.peek = some 0x5C ∧ t.peekAt 1 = some 0x75 then
    match t.advance.advance.readHex4 start with
    | .error e => .error e
    | .ok (low, t') =>
      if isLowSurrogate low then
        match charFromU32 (surrogateCode high low) with
        | some c => .ok (c, t')
        | none => .error (.invalidSurrogatePair start)
      else .error (.invalidSurrogatePair start)
  else .error (.invalidSurrogatePair start)

/-- A 4-hex-digit Unicode escape; UTF-16 surrogate pairs per RFC 8259 §7. -/
def readUnicodeEscape (t : Tokeniser) (start : Position) : Except Error (Char × Tokeniser) :=
  match t.readHex4 start with
  | .error e => .error e
  | .ok (high, t') =>
    if isHighSurrogate high then t'.readLowSurrogate start high
    -- A lone low surrogate is invalid.
    else if isLowSurrogate high then .error (.invalidSurrogatePair start)
    else
      match charFromU32 high with
      | some c => .ok (c, t')
      | none => .error (.invalidUnicodeEscape start)

/-- The two-character escapes. -/
def shortEscape (esc : UInt8) : Option Char :=
  if esc = 0x22 then some '"'
  else if esc = 0x5C then some '\\'
  else if esc = 0x2F then some '/'
  else if esc = 0x62 then some '\x08'
  else if esc = 0x66 then some '\x0C'
  else if esc = 0x6E then some '\n'
  else if esc = 0x72 then some '\r'
  else if esc = 0x74 then some '\t'
  else none

/-- The arm of `read_string` for a backslash. -/
def readEscape (t : Tokeniser) : Except Error (Char × Tokeniser) :=
  let escapePos := t.pos
  let t := t.advance
  match t.peek with
  | none => .error (.unexpectedEof escapePos)
  | some esc =>
    let t := t.advance
    match shortEscape esc with
    | some c => .ok (c, t)
    | none =>
      if esc = 0x75 then t.readUnicodeEscape escapePos
      else .error (.invalidEscape escapePos)

/-- The length of an encoding by its first byte; 0 for a byte that starts none. -/
def utf8Len (first : UInt8) : Nat :=
  if first ≤ 0x7F then 1
  else if 0xC2 ≤ first ∧ first ≤ 0xDF then 2
  else if 0xE0 ≤ first ∧ first ≤ 0xEF then 3
  else if 0xF0 ≤ first ∧ first ≤ 0xF4 then 4
  else 0

/-- Decode one UTF-8 codepoint at the current position; advance past it. -/
def readUtf8Char (t : Tokeniser) : Except Error (Char × Tokeniser) :=
  let start := t.pos
  match t.peek with
  | none => .error (.unexpectedEof start)
  | some first =>
    let len := utf8Len first
    if len = 0 then .error (.invalidUtf8 start)
    else
      let stop := t.pos.offset + len
      if stop > t.input.length then .error (.invalidUtf8 start)
      else
        match fromUtf8 (t.slice t.pos.offset stop) with
        | none => .error (.invalidUtf8 start)
        | some [] => .error (.invalidUtf8 start)
        | some (ch :: _) =>
          -- One codepoint = one column, but `len` bytes of offset.
          .ok (ch, { t with pos := { t.pos with offset := stop, column := t.pos.column + 1 } })

theorem readHexDigits_le {start : Position} {n val v : Nat} {t t' : Tokeniser}
    (h : readHexDigits start n val t = .ok (v, t')) : t'.remaining ≤ t.remaining := by
  induction n generalizing val t with
  | zero =>
    cases h
    exact le_rfl
  | succ n ih =>
    unfold readHexDigits at h
    split at h
    · cases h
    · split at h
      · cases h
      · exact (ih h).trans (advance_le t)

theorem readLowSurrogate_le {start : Position} {high : Nat} {c : Char} {t t' : Tokeniser}
    (h : t.readLowSurrogate start high = .ok (c, t')) : t'.remaining ≤ t.remaining := by
  have hAdvance := (advance_le t.advance).trans (advance_le t)
  unfold readLowSurrogate at h
  split at h
  · split at h
    · cases h
    · rename_i low t₁ hLow
      split at h
      · split at h
        · cases h
          exact (readHexDigits_le hLow).trans hAdvance
        · cases h
      · cases h
  · cases h

theorem readUnicodeEscape_le {start : Position} {c : Char} {t t' : Tokeniser}
    (h : t.readUnicodeEscape start = .ok (c, t')) : t'.remaining ≤ t.remaining := by
  unfold readUnicodeEscape at h
  split at h
  · cases h
  · rename_i high t₁ hHigh
    have hHex := readHexDigits_le hHigh
    split at h
    · exact (readLowSurrogate_le h).trans hHex
    · split at h
      · cases h
      · split at h
        · cases h
          exact hHex
        · cases h

theorem readEscape_lt {c : Char} {t t' : Tokeniser} {b : UInt8} (hb : t.peek = some b)
    (h : t.readEscape = .ok (c, t')) : t'.remaining < t.remaining := by
  have h₁ := advance_lt hb
  have h₂ := advance_le t.advance
  unfold readEscape at h
  dsimp only at h
  split at h
  · cases h
  · split at h
    · cases h
      omega
    · split_ifs at h
      have := readUnicodeEscape_le h
      omega

theorem readUtf8Char_lt {c : Char} {t t' : Tokeniser} (h : t.readUtf8Char = .ok (c, t')) :
    t'.remaining < t.remaining := by
  unfold readUtf8Char at h
  dsimp only at h
  split at h
  · cases h
  · rename_i first hFirst
    have hPos := remaining_pos hFirst
    split_ifs at h
    split at h
    · cases h
    · cases h
    · cases h
      simp only [remaining] at hPos ⊢
      omega

/-- The loop of `read_string` after the opening quote. -/
def readStringLoop (start : Position) (t : Tokeniser) (out : Str) :
    Except Error (Token × Tokeniser) :=
  match _hb : t.peek with
  | none => .error (.unexpectedEof start)
  | some b =>
    if b = 0x22 then .ok (.string out, t.advance)
    else if b = 0x5C then
      match _h : t.readEscape with
      | .error e => .error e
      | .ok (c, t') => readStringLoop start t' (out ++ [c])
    -- RFC 8259 §7: unescaped control characters U+0000..=U+001F are forbidden
    else if b ≤ 0x1F then .error (.unexpectedChar (Char.ofNat b.toNat) t.pos)
    else if b ≤ 0x7F then readStringLoop start t.advance (out ++ [Char.ofNat b.toNat])
    else
      match _h : t.readUtf8Char with
      | .error e => .error e
      | .ok (c, t') => readStringLoop start t' (out ++ [c])
termination_by t.remaining
decreasing_by
  · exact readEscape_lt _hb _h
  · exact advance_lt _hb
  · exact readUtf8Char_lt _h

/-- RFC 8259 §7: string parsing with escape processing. -/
def readString (t : Tokeniser) : Except Error (Token × Tokeniser) :=
  readStringLoop t.pos t.advance []

/-! ## Numbers -/

/-- int: %x30 / ( %x31-39 *DIGIT ) -/
def readInt (t : Tokeniser) (start : Position) : Except Error Tokeniser :=
  match t.peek with
  | none => .error (.invalidNumber start)
  | some b =>
    if b = 0x30 then .ok t.advance
    else if 0x31 ≤ b ∧ b ≤ 0x39 then .ok t.advance.skipDigits
    else .error (.invalidNumber start)

/-- The digits required after a decimal point and after the sign of an exponent. -/
def readDigits1 (t : Tokeniser) (start : Position) : Except Error Tokeniser :=
  match t.peek with
  | none => .error (.invalidNumber start)
  | some b => if isDigit b then .ok t.skipDigits else .error (.invalidNumber start)

/-- Optional frac. -/
def readFrac (t : Tokeniser) (start : Position) : Except Error Tokeniser :=
  if t.peek = some 0x2E then t.advance.readDigits1 start else .ok t

/-- Optional minus. -/
def skipMinus (t : Tokeniser) : Tokeniser := if t.peek = some 0x2D then t.advance else t

/-- Optional sign of an exponent. -/
def skipSign (t : Tokeniser) : Tokeniser :=
  if t.peek = some 0x2B ∨ t.peek = some 0x2D then t.advance else t

/-- Optional exp. -/
def readExp (t : Tokeniser) (start : Position) : Except Error Tokeniser :=
  if t.peek = some 0x65 ∨ t.peek = some 0x45 then t.advance.skipSign.readDigits1 start else .ok t

/-- RFC 8259 §6: number = [ minus ] int [ frac ] [ exp ] -/
def readNumber (std : StdF64) (t : Tokeniser) : Except Error (Token × Tokeniser) := do
  let t₁ ← t.skipMinus.readInt t.pos
  let t₂ ← t₁.readFrac t.pos
  let t₃ ← t₂.readExp t.pos
  match fromUtf8 (t.slice t.pos.offset t₃.pos.offset) with
  | none => .error (.invalidNumber t.pos)
  | some s =>
    match std.parse s with
    | none => .error (.invalidNumber t.pos)
    | some n =>
      -- RFC 8259 §6 does not permit NaN or Infinity.
      if n.isFinite then .ok (.number n, t₃) else .error (.numberOutOfRange t.pos)

/-! ## Tokens -/

/-- The six structural characters. -/
def structural (b : UInt8) : Option Token :=
  if b = 0x7B then some .beginObject
  else if b = 0x7D then some .endObject
  else if b = 0x5B then some .beginArray
  else if b = 0x5D then some .endArray
  else if b = 0x3A then some .nameSeparator
  else if b = 0x2C then some .valueSeparator
  else none

/-- The bytes of `b"true"`, `b"false"` and `b"null"`. -/
def trueBytes : List UInt8 := [0x74, 0x72, 0x75, 0x65]
def falseBytes : List UInt8 := [0x66, 0x61, 0x6C, 0x73, 0x65]
def nullBytes : List UInt8 := [0x6E, 0x75, 0x6C, 0x6C]

/-- The match of `next_token` on the byte at the current position. -/
def readToken (std : StdF64) (t : Tokeniser) (b : UInt8) : Except Error (Token × Tokeniser) :=
  match structural b with
  | some token => .ok (token, t.advance)
  | none =>
    if b = 0x22 then t.readString
    else if b = 0x74 then t.readLiteral trueBytes .true
    else if b = 0x66 then t.readLiteral falseBytes .false
    else if b = 0x6E then t.readLiteral nullBytes .null
    else if b = 0x2D ∨ isDigit b then t.readNumber std
    else .error (.unexpectedChar (Char.ofNat b.toNat) t.pos)

def nextToken (std : StdF64) (t : Tokeniser) : Except Error (PositionedToken × Tokeniser) :=
  let start := t.pos
  match t.peek with
  | none => .error (.unexpectedEof start)
  | some b =>
    match t.readToken std b with
    | .error e => .error e
    | .ok (token, t') => .ok (⟨token, start, t'.pos⟩, t')

theorem readStringLoop_lt {start : Position} {out : Str} {tok : Token} {t t' : Tokeniser}
    (h : readStringLoop start t out = .ok (tok, t')) : t'.remaining < t.remaining := by
  fun_induction readStringLoop start t out with
  | case1 t out hb => cases h
  | case2 t out hb =>
    cases h
    exact advance_lt hb
  | case3 t out hb e he => cases h
  | case4 t out c t₁ he hb hne ih => exact (ih h).trans (readEscape_lt hb he)
  | case5 t out b hb => cases h
  | case6 t out b hb h₁ h₂ h₃ h₄ ih => exact (ih h).trans (advance_lt hb)
  | case7 t out b hb h₁ h₂ h₃ h₄ e he => cases h
  | case8 t out b hb h₁ h₂ h₃ h₄ c t₁ he ih => exact (ih h).trans (readUtf8Char_lt he)

theorem readExpected_le {start : Position} {expected : List UInt8} {t t' : Tokeniser}
    (h : readExpected start expected t = .ok t') : t'.remaining ≤ t.remaining := by
  induction expected generalizing t with
  | nil =>
    cases h
    exact le_rfl
  | cons exp expected ih =>
    unfold readExpected at h
    split at h
    · split_ifs at h
      exact (ih h).trans (advance_le t)
    · cases h

theorem skipMinus_le (t : Tokeniser) : t.skipMinus.remaining ≤ t.remaining := by
  unfold skipMinus
  split_ifs
  · exact advance_le t
  · exact le_rfl

theorem skipSign_le (t : Tokeniser) : t.skipSign.remaining ≤ t.remaining := by
  unfold skipSign
  split_ifs
  · exact advance_le t
  · exact le_rfl

theorem readInt_lt {start : Position} {t t' : Tokeniser} (h : t.readInt start = .ok t') :
    t'.remaining < t.remaining := by
  unfold readInt at h
  split at h
  · cases h
  · rename_i b hb
    split_ifs at h
    · cases h
      exact advance_lt hb
    · cases h
      exact (skipDigits_le _).trans_lt (advance_lt hb)

theorem readDigits1_le {start : Position} {t t' : Tokeniser} (h : t.readDigits1 start = .ok t') :
    t'.remaining ≤ t.remaining := by
  unfold readDigits1 at h
  split at h
  · cases h
  · split_ifs at h
    cases h
    exact skipDigits_le t

theorem readFrac_le {start : Position} {t t' : Tokeniser} (h : t.readFrac start = .ok t') :
    t'.remaining ≤ t.remaining := by
  unfold readFrac at h
  split_ifs at h
  · exact (readDigits1_le h).trans (advance_le t)
  · cases h
    exact le_rfl

theorem readExp_le {start : Position} {t t' : Tokeniser} (h : t.readExp start = .ok t') :
    t'.remaining ≤ t.remaining := by
  unfold readExp at h
  split_ifs at h
  · exact (readDigits1_le h).trans ((skipSign_le _).trans (advance_le t))
  · cases h
    exact le_rfl

theorem readNumber_lt {std : StdF64} {tok : Token} {t t' : Tokeniser}
    (h : t.readNumber std = .ok (tok, t')) : t'.remaining < t.remaining := by
  unfold readNumber at h
  obtain ⟨t₁, hInt, h⟩ := bind_eq_ok.mp h
  obtain ⟨t₂, hFrac, h⟩ := bind_eq_ok.mp h
  obtain ⟨t₃, hExp, h⟩ := bind_eq_ok.mp h
  have h₀ := skipMinus_le t
  have h₁ := readInt_lt hInt
  have h₂ := readFrac_le hFrac
  have h₃ := readExp_le hExp
  split at h
  · cases h
  · split at h
    · cases h
    · split_ifs at h
      cases h
      omega

theorem readLiteral_lt {expected : List UInt8} {b : UInt8} {tok tok' : Token} {t t' : Tokeniser}
    (hb : t.peek = some b) (h : t.readLiteral (b :: expected) tok = .ok (tok', t')) :
    t'.remaining < t.remaining := by
  unfold readLiteral at h
  obtain ⟨t₁, hRead, h⟩ := bind_eq_ok.mp h
  cases h
  simp only [readExpected, hb, if_true] at hRead
  exact (readExpected_le hRead).trans_lt (advance_lt hb)

theorem readToken_lt {std : StdF64} {b : UInt8} {tok : Token} {t t' : Tokeniser}
    (hb : t.peek = some b) (h : t.readToken std b = .ok (tok, t')) :
    t'.remaining < t.remaining := by
  unfold readToken at h
  split at h
  · cases h
    exact advance_lt hb
  · split_ifs at h with hQuote hTrue hFalse hNull
    · exact (readStringLoop_lt h).trans (advance_lt hb)
    · exact readLiteral_lt (hTrue ▸ hb) h
    · exact readLiteral_lt (hFalse ▸ hb) h
    · exact readLiteral_lt (hNull ▸ hb) h
    · exact readNumber_lt h

/-- Every token consumes at least one byte. -/
theorem nextToken_lt {std : StdF64} {tk : PositionedToken} {t t' : Tokeniser}
    (h : t.nextToken std = .ok (tk, t')) : t'.remaining < t.remaining := by
  unfold nextToken at h
  dsimp only at h
  split at h
  · cases h
  · rename_i b hb
    split at h
    · cases h
    · rename_i token t₁ hRead
      cases h
      exact readToken_lt hb hRead

theorem skipWs_le (t : Tokeniser) : t.skipWs.remaining ≤ t.remaining := by
  fun_induction skipWs t with
  | case1 t b h hb ih => exact ih.trans (advance_le t)
  | case2 t b h hb => exact le_rfl
  | case3 t h => exact le_rfl

/-- The loop of `tokenise`. -/
def tokeniseLoop (std : StdF64) (t : Tokeniser) (out : List PositionedToken) :
    Except Error (List PositionedToken) :=
  if t.skipWs.isAtEnd then .ok out
  else
    match _h : t.skipWs.nextToken std with
    | .error e => .error e
    | .ok (tk, t') => tokeniseLoop std t' (out ++ [tk])
termination_by t.remaining
decreasing_by exact (nextToken_lt _h).trans_le (skipWs_le t)

/-- Tokenise the entire input. -/
def tokenise (std : StdF64) (input : List UInt8) : Except Error (List PositionedToken) :=
  tokeniseLoop std (new input) []

/-- The loop of `tokenise_prefix`. -/
def tokenisePrefixLoop (std : StdF64) (t : Tokeniser) (out : List PositionedToken)
    (lastTokenEnd : Nat) : List PositionedToken × Nat :=
  if t.skipWs.isAtEnd then (out, lastTokenEnd)
  else
    match _h : t.skipWs.nextToken std with
    | .error _ => (out, lastTokenEnd)
    | .ok (tk, t') => tokenisePrefixLoop std t' (out ++ [tk]) t'.pos.offset
termination_by t.remaining
decreasing_by exact (nextToken_lt _h).trans_le (skipWs_le t)

/-- Tokenise as many tokens as possible, stopping silently on the first error; with the
byte offset after the last token. -/
def tokenisePrefix (std : StdF64) (input : List UInt8) : List PositionedToken × Nat :=
  tokenisePrefixLoop std (new input) [] 0

end Tokeniser

end CjsonRs.Core
