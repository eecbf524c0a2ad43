import SqlTokens.Text.Printable

/-!
# Quoted text in messages

The form in which a character or a text is shown inside a message: between quotes, with a backslash
before the quote and before a backslash, with `\0`, `\t`, `\n`, `\r` for those characters, and with
`\u` and the hexadecimal code in braces for every other character that is not printable.
-/

namespace SqlTokens.Text

/-- The hexadecimal digits of a number, in lower case and without leading zeros. -/
def hexDigits (n : Nat) : String :=
  String.ofList (Nat.toDigits 16 n)

/-- A character as it stands between the given quotes. -/
def escape (quote c : Char) : String :=
  match c with
  | '\x00' => "\\0"
  | '\t' => "\\t"
  | '\n' => "\\n"
  | '\r' => "\\r"
  | '\\' => "\\\\"
  | _ =>
    if c = quote then "\\" ++ c.toString
    else if isPrintable c then c.toString
    else "\\u\x7b" ++ hexDigits c.toNat ++ "\x7d"

/-- A character between apostrophes. -/
def quotedChar (c : Char) : String :=
  "'" ++ escape '\'' c ++ "'"

/-- A text between quotation marks. -/
def quotedString (s : String) : String :=
  "\"" ++ String.join (s.toList.map (escape '"')) ++ "\""

end SqlTokens.Text
