import SqlTokens.Bytes
import SqlTokens.Token.Kind

/-!
# Vocabularies

A vocabulary is a list of entries: the fixed texts that a language has, each with its kind.
Operators are found by the bytes that come next; words are found among the names, and some of them
only where they stand for a function. `Vocabulary.standard` is the vocabulary of MySQL; a caller
with another grammar brings a list of its own. The names of character sets and of features are
closed lists.
-/

namespace SqlTokens

/-- How an entry of a vocabulary is used. -/
inductive EntryClass where
  /-- A fixed text, read wherever it comes next. -/
  | operator
  /-- A reserved word. -/
  | keyword
  /-- A word that is reserved as long as window functions are wanted. -/
  | windowFunction
  /-- A word that is reserved in front of a parenthesis. -/
  | builtinFunction
  deriving DecidableEq, Repr

/-- One text of a vocabulary. -/
structure Entry where
  /-- The text. -/
  text : String
  /-- The kind of the tokens with this text. -/
  kind : TokenKind
  /-- How the text is used. -/
  role : EntryClass
  deriving DecidableEq, Repr

namespace Entry

/-- The text of an entry as it is met in a source. -/
def bytes (e : Entry) : Bytes := Bytes.ofString e.text

end Entry

namespace Vocabulary

/-- The operators of one byte, each with the code of its byte. -/
def singles : List Entry :=
  "=><();,&%:|!^~?\x7b\x7d[]+".toList.map fun c => ⟨c.toString, .ofChar c, .operator⟩

/-- The operators of several bytes, from code 57360 on. -/
def compounds : List Entry :=
  (TokenKind.numbered 57360
    ["&&", ":=", "<=>", ">=", "<=", "!=", "<>", "<<", ">>", "\\N", "||"]).map
    fun (text, kind) => ⟨text, kind, .operator⟩

/-- The entries of a list of words, with codes from the given one on. -/
def words (first : Nat) (texts : List String) (role : EntryClass) : List Entry :=
  (TokenKind.numbered first texts).map fun (text, kind) => ⟨text, kind, role⟩

/-- The vocabulary that is used unless another one is given. -/
def standard : List Entry :=
  singles ++ compounds ++ words 57400 TokenKind.reservedWords .keyword
    ++ words 57500 TokenKind.windowWords .windowFunction
    ++ words 57550 TokenKind.builtinWords .builtinFunction

/-- The character sets that can introduce a string. -/
def charsets : List String :=
  ["utf8", "utf8mb4", "ascii", "latin1", "binary", "gbk", "gb18030"]

/-- The canonical name of a character set, whichever case its name is written in. -/
def charset? (name : Bytes) : Option String :=
  charsets.find? fun charset => Bytes.sameLetters (Bytes.ofString charset) name

/-- The features that can gate a comment. -/
def features : List String :=
  ["auto_rand", "auto_id_cache", "auto_rand_base", "clustered_index", "force_inc", "placement",
    "ttl", "resource_group", "global_index"]

/-- Whether a feature is known; names of features have one spelling. -/
def isFeature (name : Bytes) : Bool :=
  features.any fun feature => Bytes.ofString feature == name

/-- A known feature is one of the list, letter by letter. -/
theorem isFeature_iff {name : Bytes} :
    isFeature name = true ↔ name ∈ features.map Bytes.ofString := by
  simp only [isFeature, List.any_eq_true, List.mem_map, beq_iff_eq]

end Vocabulary

end SqlTokens
