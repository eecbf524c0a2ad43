import SqlTokens.Position
import SqlTokens.Text.Quoted

/-!
# Diagnoses

What is wrong with a malformed token, and what was read but will not be honoured. Scanning goes on
in either case. A diagnosis has a place in the source, and its message ends with it.
-/

namespace SqlTokens

/-- What makes a token malformed. -/
inductive ScanErrorKind where
  /-- A string without closing quote. -/
  | unterminatedString
  /-- A name without closing backtick. -/
  | unterminatedQuotedIdentifier
  /-- A comment without end. -/
  | unterminatedComment
  /-- A hexadecimal literal with another character in it, or without closing quote. -/
  | invalidHexLiteral
  /-- A binary literal with another character in it, or without closing quote. -/
  | invalidBitLiteral
  /-- A byte with which nothing starts. -/
  | unexpectedByte (byte : UInt8)
  /-- A rune that is not well formed. -/
  | invalidUtf8
  deriving DecidableEq, Repr

/-- Two hexadecimal digits of a byte, in upper case. -/
def twoHexDigits (b : UInt8) : String :=
  let digits := (Text.hexDigits b.toNat).toUpper
  if b < 16 then "0" ++ digits else digits

/-- The wording of an error. -/
def ScanErrorKind.message : ScanErrorKind → String
  | .unterminatedString => "unterminated string literal"
  | .unterminatedQuotedIdentifier => "unterminated quoted identifier"
  | .unterminatedComment => "unterminated comment"
  | .invalidHexLiteral => "invalid hexadecimal literal"
  | .invalidBitLiteral => "invalid bit literal"
  | .unexpectedByte b => "unexpected byte 0x" ++ twoHexDigits b
  | .invalidUtf8 => "invalid UTF-8 sequence"

/-- An error in a source. -/
structure ScanError where
  /-- What is wrong. -/
  kind : ScanErrorKind
  /-- Where it is. -/
  pos : Position
  deriving DecidableEq, Repr

/-- An error with its place, as it is shown. -/
def ScanError.message (e : ScanError) : String :=
  e.kind.message ++ " at " ++ e.pos.render

/-- What is read but not honoured. -/
inductive ScanWarningKind where
  /-- A comment for the optimizer behind `FOR UPDATE`. -/
  | ignoredOptimizerHint
  deriving DecidableEq, Repr

/-- The wording of a warning. -/
def ScanWarningKind.message : ScanWarningKind → String
  | .ignoredOptimizerHint => "optimizer hint after FOR UPDATE is ignored"

/-- A warning about a source. -/
structure ScanWarning where
  /-- What is not honoured. -/
  kind : ScanWarningKind
  /-- Where it is. -/
  pos : Position
  deriving DecidableEq, Repr

/-- A warning with its place, as it is shown. -/
def ScanWarning.message (w : ScanWarning) : String :=
  w.kind.message ++ " at " ++ w.pos.render

end SqlTokens
