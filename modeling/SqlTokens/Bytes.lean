/-!
# Byte texts

Source text is a list of bytes, of which nothing is assumed: it need not be UTF-8. This module holds
the two operations on byte texts that every later layer uses: the bytes of a string, and comparison
that ignores the case of ASCII letters. Bytes outside ASCII have no case here.
-/

namespace SqlTokens

/-- A text as bytes. -/
abbrev Bytes := List UInt8

namespace Bytes

/-- The UTF-8 bytes of a string, character after character. -/
def ofString (s : String) : Bytes :=
  s.toList.flatMap String.utf8EncodeChar

/-- The upper case of an ASCII letter; every other byte is its own. -/
def upper (b : UInt8) : UInt8 :=
  if 0x61 ≤ b ∧ b ≤ 0x7A then b - 0x20 else b

/-- A text with its ASCII letters in upper case. -/
def toUpper (bytes : Bytes) : Bytes :=
  bytes.map upper

/-- Whether two texts are equal up to the case of ASCII letters. -/
def sameLetters (s t : Bytes) : Bool :=
  toUpper s == toUpper t

/-- Upper case keeps the length of a text. -/
@[simp] theorem length_toUpper (bytes : Bytes) : (toUpper bytes).length = bytes.length := by
  simp [toUpper]

/-- Equality up to case is equality of the upper-case texts. -/
theorem sameLetters_iff {s t : Bytes} : sameLetters s t = true ↔ toUpper s = toUpper t := by
  simp [sameLetters]

end Bytes

end SqlTokens
