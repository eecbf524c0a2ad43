import SqlTokens.Text.Quoted

/-!
# Runes

A rune is what reading one step of a byte text yields: the code of a character, or one of three
marks that are carried among the characters. `invalid` stands for malformed input and has the code
of U+FFFD, `eof` says that nothing is left, and `bom` is the byte-order mark, which is accepted at
the start of a text only. The classes of runes are ASCII classes; the one exception is `isExtended`,
through which characters of several bytes enter names.
-/

namespace SqlTokens

/-- The code of a character, or a mark. -/
structure Rune where
  /-- The code; `-1` at the end of input. -/
  value : Int
  deriving DecidableEq, Repr

namespace Rune

/-- Malformed input. -/
def invalid : Rune := ⟨0xFFFD⟩

/-- No input is left. -/
def eof : Rune := ⟨-1⟩

/-- The byte-order mark. -/
def bom : Rune := ⟨0xFEFF⟩

/-- The rune of a character. -/
def ofChar (c : Char) : Rune := ⟨c.toNat⟩

/-- The rune of a byte, which is that of the character with the same code. -/
def ofByte (b : UInt8) : Rune := ⟨b.toNat⟩

/-- Runes are ordered by their codes. -/
instance : Ord Rune := ⟨fun r s => compare r.value s.value⟩

/-- Whether a rune is the given character. -/
def is (r : Rune) (c : Char) : Bool := r == ofChar c

/-- Whether a rune lies between two characters, ends included. -/
def within (r : Rune) (first last : Char) : Bool :=
  first.toNat ≤ r.value && r.value ≤ last.toNat

/-- The code as a byte, if it is one. -/
def byte? (r : Rune) : Option UInt8 :=
  if 0 ≤ r.value ∧ r.value < 256 then some (UInt8.ofNat r.value.toNat) else none

/-- The code as an ASCII byte, if it is one. -/
def ascii? (r : Rune) : Option UInt8 :=
  r.byte?.filter (· < 0x80)

/-- The character with this code: none for `eof`, for surrogates and for codes out of range. -/
def char? (r : Rune) : Option Char :=
  if 0 ≤ r.value ∧ r.value.toNat.isValidChar then some (Char.ofNat r.value.toNat) else none

/-! ## Classes -/

/-- The end of input. -/
def isEof (r : Rune) : Bool := r == eof

/-- Malformed input, or U+FFFD itself. -/
def isInvalid (r : Rune) : Bool := r == invalid

/-- The byte-order mark. -/
def isBom (r : Rune) : Bool := r == bom

/-- A decimal digit. -/
def isDigit (r : Rune) : Bool := r.within '0' '9'

/-- A binary digit. -/
def isBit (r : Rune) : Bool := r.within '0' '1'

/-- A hexadecimal digit, in either case. -/
def isHexDigit (r : Rune) : Bool := r.isDigit || r.within 'a' 'f' || r.within 'A' 'F'

/-- An ASCII letter. -/
def isLetter (r : Rune) : Bool := r.within 'a' 'z' || r.within 'A' 'Z'

/-- An ASCII letter or a decimal digit. -/
def isAlphanumeric (r : Rune) : Bool := r.isLetter || r.isDigit

/-- A space, or one of the five controls from tab to carriage return. -/
def isSpace (r : Rune) : Bool := r.is ' ' || r.within '\t' '\r'

/-- A character of several bytes in the basic plane, the two marks there apart. -/
def isExtended (r : Rune) : Bool :=
  0x80 ≤ r.value && r.value ≤ 0xFFFF && !r.isInvalid && !r.isBom

/-- What a name is made of. -/
def isNameChar (r : Rune) : Bool := r.isAlphanumeric || r.is '_' || r.is '$' || r.isExtended

/-- What an unquoted variable is made of. -/
def isVariableChar (r : Rune) : Bool := r.isNameChar || r.is '.'

/-- Either quote of a string. -/
def isQuote (r : Rune) : Bool := r.is '\'' || r.is '"'

/-! ## Text -/

/-- A rune as shown in messages: a mark by its name, a character in quotes, and any other code in
hexadecimal, as a word of 32 bits. -/
def label (r : Rune) : String :=
  if r = eof then "EOF"
  else if r = invalid then "INVALID"
  else if r = bom then "BOM"
  else match r.char? with
    | some c => Text.quotedChar c
    | none => "0x" ++ Text.hexDigits (r.value % 0x1_0000_0000).toNat

/-! ## Facts -/

/-- The rune of a character has that character. -/
theorem char?_ofChar (c : Char) : (ofChar c).char? = some c := by
  have h : c.toNat.isValidChar := c.valid
  simp [ofChar, char?, h]

/-- Characters with the same rune are the same. -/
theorem ofChar_inj {ch ch' : Char} (h : ofChar ch = ofChar ch') : ch = ch' := by
  have hboth := congrArg char? h
  rwa [char?_ofChar, char?_ofChar, Option.some_inj] at hboth

/-- A rune is a character exactly if it is the rune of it. -/
theorem is_iff {r : Rune} {c : Char} : r.is c = true ↔ r = ofChar c := by
  simp [is]

/-- The end of input is no character. -/
@[simp] theorem is_eof (c : Char) : eof.is c = false := by
  simp [is, eof, ofChar]

/-- The end of input belongs to no name. -/
@[simp] theorem isNameChar_eof : eof.isNameChar = false := by decide

/-- The end of input belongs to no variable. -/
@[simp] theorem isVariableChar_eof : eof.isVariableChar = false := by decide

end Rune

end SqlTokens
