import CjsonRs.Core.Value

/-!
# The serialiser

`cjson-rs/src/serialiser.rs`: compact output and pretty output with two spaces per level.
Every writer appends to the `String` it is given.
-/

namespace CjsonRs.Core

/-- A digit of `{:x}`. -/
def hexChar (d : Nat) : Char :=
  if d < 10 then Char.ofNat ('0'.toNat + d) else Char.ofNat ('a'.toNat + (d - 10))

/-- `write!(out, "\\u{:04x}", n)` for `n < 0x10000`. -/
def unicodeEscape (n : Nat) : Str :=
  ['\\', 'u', hexChar (n / 4096 % 16), hexChar (n / 256 % 16), hexChar (n / 16 % 16),
    hexChar (n % 16)]

/-- What a character of a string is written as. -/
def escapeChar (ch : Char) : Str :=
  if ch = '"' then ['\\', '"']
  else if ch = '\\' then ['\\', '\\']
  else if ch = '\n' then ['\\', 'n']
  else if ch = '\r' then ['\\', 'r']
  else if ch = '\t' then ['\\', 't']
  else if ch = '\x08' then ['\\', 'b']
  else if ch = '\x0C' then ['\\', 'f']
  else if ch.toNat < 0x20 then unicodeEscape ch.toNat
  else [ch]

/-- RFC 8259 §7: quotation mark, reverse solidus and U+0000..=U+001F are escaped. -/
def writeString (out : Str) (s : Str) : Str :=
  s.foldl (fun out ch => out ++ escapeChar ch) (out ++ ['"']) ++ ['"']

def writeNumber (std : StdF64) (out : Str) (n : F64) : Str :=
  -- RFC 8259 §6 forbids NaN / Infinity. Emit "null" rather than invalid JSON.
  if n.isFinite then out ++ std.display n else out ++ ['n', 'u', 'l', 'l']

def writeIndent (out : Str) (step depth : Nat) : Str := out ++ List.replicate (step * depth) ' '

mutual

/-- `indent`: `none` = compact, `some n` = pretty with `n` spaces per level. -/
def writeValue (std : StdF64) (indent : Option Nat) : Value → Nat → Str → Str
  | .null, _, out => out ++ ['n', 'u', 'l', 'l']
  | .bool true, _, out => out ++ ['t', 'r', 'u', 'e']
  | .bool false, _, out => out ++ ['f', 'a', 'l', 's', 'e']
  | .number n, _, out => writeNumber std out n
  | .string s, _, out => writeString out s
  | .array items, depth, out =>
    if items.isEmpty then out ++ ['[', ']']
    else
      match indent with
      | some step =>
        let out := out ++ ['['] ++ ['\n']
        let out := writeItems std indent items.length items 0 depth out
        writeIndent out step depth ++ [']']
      | none => writeItems std indent items.length items 0 depth (out ++ ['[']) ++ [']']
  | .object members, depth, out =>
    if members.isEmpty then out ++ ['{', '}']
    else
      match indent with
      | some step =>
        let out := out ++ ['{'] ++ ['\n']
        let out := writeMembers std indent members.length members 0 depth out
        writeIndent out step depth ++ ['}']
      | none => writeMembers std indent members.length members 0 depth (out ++ ['{']) ++ ['}']

/-- The loops of `write_array`: the elements from index `i` of `len` on. -/
def writeItems (std : StdF64) (indent : Option Nat) (len : Nat) :
    List Value → Nat → Nat → Str → Str
  | [], _, _, out => out
  | item :: items, i, depth, out =>
    match indent with
    | some step =>
      let out := writeIndent out step (depth + 1)
      let out := writeValue std indent item (depth + 1) out
      let out := if i + 1 < len then out ++ [','] else out
      writeItems std indent len items (i + 1) depth (out ++ ['\n'])
    | none =>
      let out := if i > 0 then out ++ [','] else out
      writeItems std indent len items (i + 1) depth (writeValue std indent item (depth + 1) out)

/-- The loops of `write_object`. -/
def writeMembers (std : StdF64) (indent : Option Nat) (len : Nat) :
    List (Str × Value) → Nat → Nat → Str → Str
  | [], _, _, out => out
  | (k, v) :: members, i, depth, out =>
    match indent with
    | some step =>
      let out := writeIndent out step (depth + 1)
      let out := writeString out k ++ [':', ' ']
      let out := writeValue std indent v (depth + 1) out
      let out := if i + 1 < len then out ++ [','] else out
      writeMembers std indent len members (i + 1) depth (out ++ ['\n'])
    | none =>
      let out := if i > 0 then out ++ [','] else out
      let out := writeString out k ++ [':']
      writeMembers std indent len members (i + 1) depth (writeValue std indent v (depth + 1) out)

end

/-- Serialise a `Value` as compact JSON text. -/
def serialise (std : StdF64) (value : Value) : Str := writeValue std none value 0 []

/-- Serialise a `Value` as pretty-printed JSON text (2-space indent). -/
def serialisePretty (std : StdF64) (value : Value) : Str := writeValue std (some 2) value 0 []

/-! ## Writers only append -/

theorem writeString_eq (out s : Str) :
    writeString out s = out ++ ('"' :: (s.flatMap escapeChar ++ ['"'])) := by
  have hfold : ∀ (s out : Str),
      s.foldl (fun out ch => out ++ escapeChar ch) out = out ++ s.flatMap escapeChar := by
    intro s
    induction s with
    | nil => simp
    | cons ch s ih =>
      intro out
      simp [ih]
  simp [writeString, hfold]

theorem writeNumber_append (std : StdF64) (out out' : Str) (n : F64) :
    writeNumber std (out ++ out') n = out ++ writeNumber std out' n := by
  unfold writeNumber
  split_ifs <;> simp

mutual

theorem writeValue_append (std : StdF64) (indent : Option Nat) (out out' : Str) :
    ∀ (v : Value) (depth : Nat),
      writeValue std indent v depth (out ++ out') = out ++ writeValue std indent v depth out'
  | .null, _ => by simp [writeValue]
  | .bool true, _ => by simp [writeValue]
  | .bool false, _ => by simp [writeValue]
  | .number n, _ => by simp only [writeValue, writeNumber_append]
  | .string s, _ => by simp [writeValue, writeString_eq]
  | .array items, depth => by
    unfold writeValue
    split_ifs
    · simp
    · cases indent <;>
        simp [writeIndent, writeItems_append std _ items.length out _ items]
  | .object members, depth => by
    unfold writeValue
    split_ifs
    · simp
    · cases indent <;>
        simp [writeIndent, writeMembers_append std _ members.length out _ members]

theorem writeItems_append (std : StdF64) (indent : Option Nat) (len : Nat) (out out' : Str) :
    ∀ (items : List Value) (i depth : Nat),
      writeItems std indent len items i depth (out ++ out') =
        out ++ writeItems std indent len items i depth out'
  | [], _, _ => by simp [writeItems]
  | item :: items, i, depth => by
    unfold writeItems
    cases indent with
    | none =>
      dsimp only
      split_ifs <;>
        simp [writeValue_append std none out _ item, writeItems_append std none len out _ items]
    | some step =>
      dsimp only
      split_ifs <;>
        simp [writeIndent, writeValue_append std (some step) out _ item,
          writeItems_append std (some step) len out _ items]

theorem writeMembers_append (std : StdF64) (indent : Option Nat) (len : Nat) (out out' : Str) :
    ∀ (members : List (Str × Value)) (i depth : Nat),
      writeMembers std indent len members i depth (out ++ out') =
        out ++ writeMembers std indent len members i depth out'
  | [], _, _ => by simp [writeMembers]
  | (k, v) :: members, i, depth => by
    unfold writeMembers
    cases indent with
    | none =>
      dsimp only
      split_ifs <;>
        simp [writeString_eq, writeValue_append std none out _ v,
          writeMembers_append std none len out _ members]
    | some step =>
      dsimp only
      split_ifs <;>
        simp [writeIndent, writeString_eq, writeValue_append std (some step) out _ v,
          writeMembers_append std (some step) len out _ members]

end

end CjsonRs.Core
