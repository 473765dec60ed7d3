/-!
# Source positions and errors

`cjson-rs/src/error.rs`. The message of an error is its variant with the line and column
of its position, so the variant and the position are what is kept here.
-/

namespace CjsonRs.Core

/-- One-based line and column, plus zero-based byte offset into the input. -/
structure Position where
  line : Nat
  column : Nat
  offset : Nat
  deriving DecidableEq, Repr

/-- `Position::START`. -/
def Position.start : Position where
  line := 1
  column := 1
  offset := 0

/-- `enum Error`. -/
inductive Error where
  | unexpectedChar (ch : Char) (pos : Position)
  | unexpectedEof (pos : Position)
  | invalidEscape (pos : Position)
  | invalidUnicodeEscape (pos : Position)
  | invalidSurrogatePair (pos : Position)
  | invalidNumber (pos : Position)
  | numberOutOfRange (pos : Position)
  | invalidLiteral (pos : Position)
  | nestingLimitExceeded (pos : Position)
  | invalidUtf8 (pos : Position)
  | trailingData (pos : Position)
  | unexpectedToken (pos : Position)
  deriving DecidableEq, Repr

/-- `Error::position`: the source position the error refers to. -/
def Error.position : Error → Position
  | .unexpectedChar _ pos | .unexpectedEof pos | .invalidEscape pos
  | .invalidUnicodeEscape pos | .invalidSurrogatePair pos | .invalidNumber pos
  | .numberOutOfRange pos | .invalidLiteral pos | .nestingLimitExceeded pos
  | .invalidUtf8 pos | .trailingData pos | .unexpectedToken pos => pos

end CjsonRs.Core
