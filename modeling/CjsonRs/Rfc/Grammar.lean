import CjsonRs.Core.Value
import CjsonRs.Library.Utf8

/-!
# The grammar of RFC 8259

The productions of RFC 8259 §2 to §7 over bytes, each with the value it denotes. Nothing
here mentions the tokeniser or the parser. `JsonText std w v` says that the text `w` is
`ws value ws` and denotes `v`: elements and members in source order, duplicate keys kept,
escapes decoded, numbers read by `std.parse`.
-/

namespace CjsonRs.Rfc

open CjsonRs.Core Library

/-! ## Whitespace and structural characters (§2) -/

/-- `ws = *( %x20 / %x09 / %x0A / %x0D )` -/
def Ws (w : List UInt8) : Prop := ∀ b ∈ w, b = 0x20 ∨ b = 0x09 ∨ b = 0x0A ∨ b = 0x0D

/-- A structural character with its optional whitespace: `ws c ws`. -/
def Structural (c : UInt8) (w : List UInt8) : Prop := ∃ l r, Ws l ∧ Ws r ∧ w = l ++ c :: r

/-! ## Numbers (§6) -/

/-- `DIGIT` -/
def Digit (b : UInt8) : Prop := 0x30 ≤ b ∧ b ≤ 0x39

/-- `1*DIGIT` -/
def Digits (w : List UInt8) : Prop := w ≠ [] ∧ ∀ b ∈ w, Digit b

/-- `int = zero / ( digit1-9 *DIGIT )` -/
inductive IntPart : List UInt8 → Prop where
  | zero : IntPart [0x30]
  | digits {b : UInt8} {w : List UInt8} : 0x31 ≤ b → b ≤ 0x39 → (∀ d ∈ w, Digit d) →
      IntPart (b :: w)

/-- `[ frac ]` with `frac = decimal-point 1*DIGIT` -/
inductive Frac : List UInt8 → Prop where
  | absent : Frac []
  | present {w : List UInt8} : Digits w → Frac (0x2E :: w)

/-- `[ minus / plus ]` -/
inductive Sign : List UInt8 → Prop where
  | absent : Sign []
  | plus : Sign [0x2B]
  | minus : Sign [0x2D]

/-- `[ exp ]` with `exp = e [ minus / plus ] 1*DIGIT` -/
inductive Exp : List UInt8 → Prop where
  | absent : Exp []
  | present {e : UInt8} {s w : List UInt8} : e = 0x65 ∨ e = 0x45 → Sign s → Digits w →
      Exp (e :: (s ++ w))

/-- `[ minus ]` -/
inductive Minus : List UInt8 → Prop where
  | absent : Minus []
  | present : Minus [0x2D]

/-- `number = [ minus ] int [ frac ] [ exp ]` -/
inductive Number : List UInt8 → Prop where
  | mk {m i f e : List UInt8} : Minus m → IntPart i → Frac f → Exp e → Number (m ++ (i ++ (f ++ e)))

/-! ## Strings (§7) -/

/-- `HEXDIG`, of either case, with its value. -/
inductive HexDigit : UInt8 → Nat → Prop where
  | digit {b : UInt8} : 0x30 ≤ b → b ≤ 0x39 → HexDigit b (b.toNat - 0x30)
  | lower {b : UInt8} : 0x61 ≤ b → b ≤ 0x66 → HexDigit b (b.toNat - 0x61 + 10)
  | upper {b : UInt8} : 0x41 ≤ b → b ≤ 0x46 → HexDigit b (b.toNat - 0x41 + 10)

/-- `4HEXDIG`, with its value. -/
inductive Hex4 : List UInt8 → Nat → Prop where
  | mk {a b c d : UInt8} {i j k l : Nat} : HexDigit a i → HexDigit b j → HexDigit c k →
      HexDigit d l → Hex4 [a, b, c, d] (((i * 16 + j) * 16 + k) * 16 + l)

/-- The two-character escapes, by the byte after the backslash. -/
inductive ShortEscape : UInt8 → Char → Prop where
  | quote : ShortEscape 0x22 '"'
  | backslash : ShortEscape 0x5C '\\'
  | slash : ShortEscape 0x2F '/'
  | b : ShortEscape 0x62 '\x08'
  | f : ShortEscape 0x66 '\x0C'
  | n : ShortEscape 0x6E '\n'
  | r : ShortEscape 0x72 '\r'
  | t : ShortEscape 0x74 '\t'

/-- The code point of a high and a low surrogate. -/
def surrogatePair (high low : Nat) : Nat := 0x10000 + (high - 0xD800) * 0x400 + (low - 0xDC00)

/-- The first half of the surrogates. -/
def HighSurrogate (n : Nat) : Prop := 0xD800 ≤ n ∧ n ≤ 0xDBFF

/-- The second half of the surrogates. -/
def LowSurrogate (n : Nat) : Prop := 0xDC00 ≤ n ∧ n ≤ 0xDFFF

/-- `char`, with the character it denotes. -/
inductive Spelling : List UInt8 → Char → Prop where
  | unescaped {c : Char} : 0x20 ≤ c.toNat → c ≠ '"' → c ≠ '\\' →
      Spelling (String.utf8EncodeChar c) c
  | short {e : UInt8} {c : Char} : ShortEscape e c → Spelling [0x5C, e] c
  | unicode {w : List UInt8} {c : Char} : Hex4 w c.toNat → Spelling (0x5C :: 0x75 :: w) c
  | pair {w w' : List UInt8} {high low : Nat} {c : Char} : Hex4 w high → Hex4 w' low →
      HighSurrogate high → LowSurrogate low → c.toNat = surrogatePair high low →
      Spelling (0x5C :: 0x75 :: (w ++ 0x5C :: 0x75 :: w')) c

/-- `*char` -/
inductive Chars : List UInt8 → Str → Prop where
  | nil : Chars [] []
  | cons {w ws : List UInt8} {c : Char} {s : Str} : Spelling w c → Chars ws s →
      Chars (w ++ ws) (c :: s)

/-- `string = quotation-mark *char quotation-mark` -/
inductive JString : List UInt8 → Str → Prop where
  | mk {w : List UInt8} {s : Str} : Chars w s → JString (0x22 :: (w ++ [0x22])) s

/-! ## Values (§3 to §5) -/

mutual

/-- `value = false / null / true / object / array / number / string` -/
inductive JValue (std : StdF64) : List UInt8 → Value → Prop where
  | null : JValue std [0x6E, 0x75, 0x6C, 0x6C] .null
  | true : JValue std [0x74, 0x72, 0x75, 0x65] (.bool true)
  | false : JValue std [0x66, 0x61, 0x6C, 0x73, 0x65] (.bool false)
  | number {s : Str} {n : F64} : Number (encode s) → std.parse s = some n → n.isFinite →
      JValue std (encode s) (.number n)
  | string {w : List UInt8} {s : Str} : JString w s → JValue std w (.string s)
  | emptyArray {o c : List UInt8} : Structural 0x5B o → Structural 0x5D c →
      JValue std (o ++ c) (.array [])
  | array {o w c : List UInt8} {items : List Value} : Structural 0x5B o → JItems std w items →
      Structural 0x5D c → JValue std (o ++ (w ++ c)) (.array items)
  | emptyObject {o c : List UInt8} : Structural 0x7B o → Structural 0x7D c →
      JValue std (o ++ c) (.object [])
  | object {o w c : List UInt8} {members : List (Str × Value)} : Structural 0x7B o →
      JMembers std w members → Structural 0x7D c → JValue std (o ++ (w ++ c)) (.object members)

/-- `value *( value-separator value )` -/
inductive JItems (std : StdF64) : List UInt8 → List Value → Prop where
  | one {w : List UInt8} {v : Value} : JValue std w v → JItems std w [v]
  | cons {w c w' : List UInt8} {v : Value} {items : List Value} : JValue std w v →
      Structural 0x2C c → JItems std w' items → JItems std (w ++ (c ++ w')) (v :: items)

/-- `member *( value-separator member )` with `member = string name-separator value` -/
inductive JMembers (std : StdF64) : List UInt8 → List (Str × Value) → Prop where
  | one {k c w : List UInt8} {key : Str} {v : Value} : JString k key → Structural 0x3A c →
      JValue std w v → JMembers std (k ++ (c ++ w)) [(key, v)]
  | cons {k c w c' w' : List UInt8} {key : Str} {v : Value} {members : List (Str × Value)} :
      JString k key → Structural 0x3A c → JValue std w v → Structural 0x2C c' →
      JMembers std w' members → JMembers std (k ++ (c ++ (w ++ (c' ++ w')))) ((key, v) :: members)

end

/-- `JSON-text = ws value ws` -/
inductive JsonText (std : StdF64) : List UInt8 → Value → Prop where
  | mk {l w r : List UInt8} {v : Value} : Ws l → JValue std w v → Ws r →
      JsonText std (l ++ (w ++ r)) v

/-! ## Whitespace joins -/

theorem ws_nil : Ws [] := by simp [Ws]

theorem Ws.append {l r : List UInt8} (hl : Ws l) (hr : Ws r) : Ws (l ++ r) := by
  intro b hb
  rcases List.mem_append.mp hb with hb | hb
  · exact hl b hb
  · exact hr b hb

theorem Ws.tail {b : UInt8} {w : List UInt8} (h : Ws (b :: w)) : Ws w :=
  fun c hc => h c (List.mem_cons_of_mem b hc)

theorem structural_self (c : UInt8) : Structural c [c] := ⟨[], [], ws_nil, ws_nil, rfl⟩

/-- Whitespace on either side belongs to the structural character. -/
theorem Structural.pad {c : UInt8} {l w r : List UInt8} (hl : Ws l) (h : Structural c w)
    (hr : Ws r) : Structural c (l ++ (w ++ r)) := by
  obtain ⟨l', r', hl', hr', rfl⟩ := h
  exact ⟨l ++ l', r' ++ r, hl.append hl', hr'.append hr, by simp⟩

end CjsonRs.Rfc
