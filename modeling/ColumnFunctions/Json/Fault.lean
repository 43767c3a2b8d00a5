namespace ColumnFunctions.Json

inductive Cause where
  | endInValue
  | endInList
  | endInObject
  | endInString
  | valueExpected
  | wordExpected
  | colonExpected
  | keyExpected
  | listSeparatorExpected
  | objectSeparatorExpected
  | trailingComma
  | trailingCharacters
  | invalidNumber
  | numberOutOfRange
  | controlCharacter
  | invalidEscape
  | loneSurrogate
  | escapeCutShort
  | tooDeep
  deriving DecidableEq, Repr

def Cause.message : Cause → String
  | .endInValue => "EOF while parsing a value"
  | .endInList => "EOF while parsing a list"
  | .endInObject => "EOF while parsing an object"
  | .endInString => "EOF while parsing a string"
  | .valueExpected => "expected value"
  | .wordExpected => "expected ident"
  | .colonExpected => "expected `:`"
  | .keyExpected => "key must be a string"
  | .listSeparatorExpected => "expected `,` or `]`"
  | .objectSeparatorExpected => "expected `,` or `\x7d`"
  | .trailingComma => "trailing comma"
  | .trailingCharacters => "trailing characters"
  | .invalidNumber => "invalid number"
  | .numberOutOfRange => "number out of range"
  | .controlCharacter => "control character (\\u0000-\\u001F) found while parsing a string"
  | .invalidEscape => "invalid escape"
  | .loneSurrogate => "lone leading surrogate in hex escape"
  | .escapeCutShort => "unexpected end of hex escape"
  | .tooDeep => "recursion limit exceeded"

/-- A cause, and the number of bytes of the text up to and with the one that shows it. -/
structure Issue where
  cause : Cause
  offset : Nat
  deriving DecidableEq, Repr

/-- A place where the text stops being JSON, as each kind of reader sees it: one that wants a value,
one that skips a value, and one that has all it wants of a list and waits for its end. -/
structure Fault where
  wanted : Issue
  skipped : Issue
  closing : Issue
  deriving Repr

namespace Fault

def all (cause : Cause) (offset : Nat) : Fault :=
  let i : Issue := ⟨cause, offset⟩
  ⟨i, i, i⟩

def skippedAs (skipped cause : Cause) (offset : Nat) : Fault :=
  ⟨⟨cause, offset⟩, ⟨skipped, offset⟩, ⟨cause, offset⟩⟩

def closingAs (closing cause : Cause) (offset : Nat) : Fault :=
  ⟨⟨cause, offset⟩, ⟨cause, offset⟩, ⟨closing, offset⟩⟩

end Fault

end ColumnFunctions.Json
