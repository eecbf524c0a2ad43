import SqlTokens.Text.Quoted

/-!
# Kinds of tokens

The kind of a token is a code that a parser shares with this library. Code 0 is the end of input,
the codes of the bytes 1 to 255 are the operators of one byte, and the code of malformed tokens is
that of the malformed rune. The kinds with a name of their own lie above: the literals and the
operators of several bytes from 57346 on, then the reserved words, the words of window functions and
the names of built-in functions, each group in the order of its list.
-/

namespace SqlTokens

/-- The code of a token. -/
structure TokenKind where
  /-- The code as the parser knows it. -/
  code : UInt32
  deriving DecidableEq, Repr

namespace TokenKind

/-- The end of input. -/
def eof : TokenKind := ⟨0⟩

/-- A token that could not be read. -/
def invalid : TokenKind := ⟨0xFFFD⟩

/-- The operator of one byte. -/
def ofByte (b : UInt8) : TokenKind := ⟨b.toUInt32⟩

/-- The operator of one ASCII character. -/
def ofChar (c : Char) : TokenKind := ⟨c.val⟩

/-! ## Literals and operators -/

/-- A name without quotes. -/
def identifier : TokenKind := ⟨57346⟩

/-- A name in backticks. -/
def quotedIdentifier : TokenKind := ⟨57347⟩

/-- A string in either quotes. -/
def stringLiteral : TokenKind := ⟨57348⟩

/-- A number without fraction and exponent. -/
def intLiteral : TokenKind := ⟨57349⟩

/-- A number with a fraction and no exponent. -/
def decimalLiteral : TokenKind := ⟨57350⟩

/-- A number with an exponent. -/
def floatLiteral : TokenKind := ⟨57351⟩

/-- A hexadecimal literal. -/
def hexLiteral : TokenKind := ⟨57352⟩

/-- A binary literal. -/
def bitLiteral : TokenKind := ⟨57353⟩

/-- A character set in front of a string. -/
def charsetIntroducer : TokenKind := ⟨57354⟩

/-- A comment for the optimizer. -/
def optimizerHint : TokenKind := ⟨57355⟩

/-- A variable of the user. -/
def userVariable : TokenKind := ⟨57356⟩

/-- A variable of the system. -/
def systemVariable : TokenKind := ⟨57357⟩

/-- The operator that extracts from a document. -/
def jsonExtract : TokenKind := ⟨57358⟩

/-- The operator that extracts from a document and removes quotes. -/
def jsonUnquoteExtract : TokenKind := ⟨57359⟩

/-- Two bars, before it is decided what they mean. -/
def pipes : TokenKind := ⟨57370⟩

/-- Two bars that mean a disjunction. -/
def pipesAsOr : TokenKind := ⟨57371⟩

/-- A negation that binds tightly. -/
def tightNot : TokenKind := ⟨57372⟩

/-- The texts of the literals and of the operators of several bytes, from code 57346 on. -/
def symbols : List String :=
  ["identifier", "quoted identifier", "string literal", "integer literal", "decimal literal",
    "float literal", "hex literal", "bit literal", "charset introducer", "optimizer hint",
    "user variable", "system variable", "->", "->>", "&&", ":=", "<=>", ">=", "<=", "!=", "<>",
    "<<", ">>", "\\N", "||", "|| (or)", "NOT (high precedence)"]

/-! ## Words -/

/-- The reserved words, from code 57400 on. -/
def reservedWords : List String :=
  ["SELECT", "INSERT", "UPDATE", "DELETE", "REPLACE", "FOR", "BINDING", "CREATE", "NOT", "AS",
    "FROM", "WHERE", "AND", "OR", "XOR", "IS", "NULL", "TRUE", "FALSE", "IN", "LIKE", "BETWEEN",
    "ORDER", "GROUP", "BY", "HAVING", "LIMIT", "JOIN", "LEFT", "RIGHT", "INNER", "OUTER", "CROSS",
    "ON", "USING", "UNION", "ALL", "DISTINCT", "INTO", "VALUES", "SET", "TABLE", "DROP", "ALTER",
    "INDEX", "PRIMARY", "KEY", "DEFAULT", "CASE", "WHEN", "THEN", "ELSE", "WITH", "EXISTS", "DIV",
    "MOD", "ASC", "DESC", "LOCK", "SHARE", "IF", "INTERVAL", "COLLATE", "BINARY", "UNIQUE",
    "REGEXP", "RLIKE", "ESCAPE", "EXPLAIN", "SHOW", "USE"]

/-- The words of window functions, from code 57500 on. -/
def windowWords : List String :=
  ["CUME_DIST", "DENSE_RANK", "FIRST_VALUE", "GROUPS", "LAG", "LAST_VALUE", "LEAD", "NTH_VALUE",
    "NTILE", "OVER", "PERCENT_RANK", "RANK", "ROW_NUMBER", "WINDOW"]

/-- The names of built-in functions, from code 57550 on. -/
def builtinWords : List String :=
  ["ADDDATE", "BIT_AND", "BIT_OR", "BIT_XOR", "CAST", "COUNT", "CURDATE", "CURTIME", "DATE_ADD",
    "DATE_SUB", "EXTRACT", "GROUP_CONCAT", "MAX", "MID", "MIN", "NOW", "POSITION", "SESSION_USER",
    "STD", "STDDEV", "STDDEV_POP", "STDDEV_SAMP", "SUBDATE", "SUBSTR", "SUBSTRING", "SUM",
    "SYSDATE", "SYSTEM_USER", "TRIM", "VAR_POP", "VAR_SAMP", "VARIANCE"]

/-- The texts of a list with their kinds, whose codes run upwards from the given one. -/
def numbered (first : Nat) (texts : List String) : List (String × TokenKind) :=
  (texts.zipIdx first).map fun (text, code) => (text, ⟨.ofNat code⟩)

/-- The reserved word `SELECT`. -/
def selectWord : TokenKind := ⟨57400⟩

/-- The reserved word `INSERT`. -/
def insertWord : TokenKind := ⟨57401⟩

/-- The reserved word `UPDATE`. -/
def updateWord : TokenKind := ⟨57402⟩

/-- The reserved word `DELETE`. -/
def deleteWord : TokenKind := ⟨57403⟩

/-- The reserved word `REPLACE`. -/
def replaceWord : TokenKind := ⟨57404⟩

/-- The reserved word `FOR`. -/
def forWord : TokenKind := ⟨57405⟩

/-- The reserved word `BINDING`. -/
def bindingWord : TokenKind := ⟨57406⟩

/-- The reserved word `NOT`. -/
def notWord : TokenKind := ⟨57408⟩

/-- The keywords after which a comment may speak to the optimizer. -/
def isHintable (k : TokenKind) : Bool :=
  [selectWord, insertWord, updateWord, deleteWord, replaceWord].contains k

/-- These keywords are `SELECT`, `INSERT`, `UPDATE`, `DELETE` and `REPLACE`. -/
theorem isHintable_iff {k : TokenKind} : k.isHintable = true ↔
    k ∈ [selectWord, insertWord, updateWord, deleteWord, replaceWord] :=
  List.contains_iff_mem

/-! ## Names -/

/-- Every kind that has a name of its own, with that name. -/
def named : List (String × TokenKind) :=
  [("EOF", eof), ("INVALID", invalid)] ++ numbered 57346 symbols ++ numbered 57400 reservedWords
    ++ numbered 57500 windowWords ++ numbered 57550 builtinWords

/-- The name of a kind that has one. -/
def name? (k : TokenKind) : Option String :=
  (named.find? fun entry => entry.2 == k).map (·.1)

/-- The byte of an operator of one byte. -/
def byte? (k : TokenKind) : Option UInt8 :=
  if k.code ≠ 0 ∧ k.code < 256 then some k.code.toUInt8 else none

/-- A kind as it is shown: by its name, else by its byte as a character, else by its code. -/
def render (k : TokenKind) : String :=
  match k.name?, k.byte? with
  | some name, _ => name
  | none, some b => "'" ++ (Char.ofNat b.toNat).toString ++ "'"
  | none, none => "#" ++ toString k.code.toNat

/-- A kind as it is shown with the character of a byte escaped. -/
def label (k : TokenKind) : String :=
  match k.name?, k.byte? with
  | some name, _ => name
  | none, some b => Text.quotedChar (Char.ofNat b.toNat)
  | none, none => toString k.code.toNat

end TokenKind

end SqlTokens
