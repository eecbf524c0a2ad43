import SqlTokens.Cursor.Basic
import SqlTokens.Trie
import SqlTokens.Vocabulary

/-!
# Dispatch tables

A table tells from the bytes that come next what kind of thing starts there. The forms of variable
length (strings, numbers, names, comments) are each opened by a starter, one byte that belongs to
them alone; the operators of a vocabulary fill the rest of the same trie. The words of a vocabulary
are kept apart, under their upper-case spelling, since they are told from names only after a name
has been read. A name is looked up only if it is no longer than the longest word, and the spelling
of a short name is made in a buffer of fixed size.

`Table.walk` reads an operator: it follows the trie as far as the next bytes lead and takes the kind
of the place where it stops. It does not turn back, so a beginning of an operator that is no
operator itself is malformed.
-/

namespace SqlTokens

/-- The forms of variable length, by what opens them. -/
inductive Starter where
  /-- A slash: a division or a comment. -/
  | slash
  /-- A star: a product or the end of a vendor comment. -/
  | star
  /-- The mark `@`: a variable. -/
  | at
  /-- A sharp sign: a comment to the end of the line. -/
  | sharp
  /-- A dash: a difference, an arrow, or a comment to the end of the line. -/
  | dash
  /-- A point: a qualifier or a number. -/
  | dot
  /-- A digit: a number, or a name that starts with one. -/
  | number
  /-- Either quote: a string. -/
  | string
  /-- A backtick: a name. -/
  | quotedIdentifier
  /-- The letter `x`: a hexadecimal literal or a name. -/
  | hexMark
  /-- The letter `b`: a binary literal or a name. -/
  | bitMark
  /-- The letter `n`: a national string or a name. -/
  | nationalMark
  /-- Any other character that names start with. -/
  | identifier
  deriving DecidableEq, Repr

/-- The form that a byte opens. -/
def Starter.ofByte? (b : UInt8) : Option Starter :=
  let r := Rune.ofByte b
  if r.is '/' then some .slash
  else if r.is '*' then some .star
  else if r.is '@' then some .at
  else if r.is '#' then some .sharp
  else if r.is '-' then some .dash
  else if r.is '.' then some .dot
  else if r.isDigit then some .number
  else if r.isQuote then some .string
  else if r.is '\x60' then some .quotedIdentifier
  else if r.is 'x' || r.is 'X' then some .hexMark
  else if r.is 'b' || r.is 'B' then some .bitMark
  else if r.is 'n' || r.is 'N' then some .nationalMark
  else if r.isLetter || r.is '_' || r.is '$' then some .identifier
  else none

/-- What a place of the trie stands for. -/
inductive Form where
  /-- A form of variable length starts with this byte. -/
  | starter (starter : Starter)
  /-- An operator ends here. -/
  | operator (kind : TokenKind)
  deriving DecidableEq, Repr

/-- A word of a vocabulary. -/
structure Keyword where
  /-- The kind of its tokens. -/
  kind : TokenKind
  /-- Where it counts as a word. -/
  role : EntryClass
  deriving DecidableEq, Repr

/-- What a vocabulary says about the bytes that come next. -/
structure Table where
  /-- Starters and operators, by their bytes. -/
  forms : Trie Form
  /-- Words, by their upper-case bytes. -/
  words : Trie Keyword
  /-- The number of bytes of the longest word. -/
  longestWord : Nat
  deriving DecidableEq, Repr

namespace Table

/-- The table of the empty vocabulary, which has the starters alone. -/
def starters : Table :=
  let bytes := (List.range 256).map UInt8.ofNat
  let bind (forms : Trie Form) (b : UInt8) :=
    match Starter.ofByte? b with
    | some s => forms.insert [b] (.starter s)
    | none => forms
  ⟨bytes.foldl bind .empty, .empty, 0⟩

/-- The form at the place of an operator: a starter keeps its byte, and a later operator takes the
place of an earlier one. -/
def placeOperator (kind : TokenKind) : Option Form → Option Form
  | some (.starter s) => some (.starter s)
  | _ => some (.operator kind)

/-- The table with one more entry. An entry without text adds nothing. -/
def add (t : Table) (e : Entry) : Table :=
  -- Neither trie has a place for the empty text.
  match e.role with
  | .operator => { t with forms := t.forms.alter (placeOperator e.kind) e.bytes }
  | role =>
    let spelling := Bytes.toUpper e.bytes
    { t with
      words := t.words.insert spelling ⟨e.kind, role⟩
      longestWord := max t.longestWord spelling.length }

/-- The table of a vocabulary. -/
def ofEntries (entries : List Entry) : Table :=
  entries.foldl add starters

/-- The table of the standard vocabulary. -/
def standard : Table := ofEntries Vocabulary.standard

/-- What the given bytes stand for. -/
def form? (t : Table) (bytes : Bytes) : Option Form :=
  t.forms.find? bytes

/-- The size of the buffer in which short names are spelled. -/
def bufferSize : Nat := 64

/-- The buffer with a name in upper case at its start and zeros behind it. -/
def buffer (name : Bytes) : Vector UInt8 bufferSize :=
  Vector.ofFn fun i => (name[i.val]?.map Bytes.upper).getD 0

/-- The spelling of a name, which is a beginning of the buffer if the name fits there. -/
def spell (name : Bytes) : Bytes :=
  if name.length ≤ bufferSize then (buffer name).toList.take name.length else Bytes.toUpper name

/-- The word with the given spelling, in whichever case. -/
def keyword? (t : Table) (name : Bytes) : Option Keyword :=
  if name = [] ∨ t.longestWord < name.length then none else t.words.find? (spell name)

/-- A name that fits into the buffer stands at its start. -/
theorem take_buffer {name : Bytes} (h : name.length ≤ bufferSize) :
    (buffer name).toList.take name.length = Bytes.toUpper name := by
  refine List.ext_getElem ?_ fun i hi hi' => ?_
  · rw [List.length_take, Vector.length_toList, Nat.min_eq_left h, Bytes.length_toUpper]
  · have hlt : i < name.length := by rwa [Bytes.length_toUpper] at hi'
    simp [buffer, Bytes.toUpper, hlt]

/-- Wherever a name is spelled, it is spelled in upper case. -/
theorem spell_eq (name : Bytes) : spell name = Bytes.toUpper name := by
  unfold spell
  split
  · exact take_buffer ‹_›
  · rfl

/-- A word that is found for a name is kept under its upper-case spelling. -/
theorem find?_of_keyword? {t : Table} {name : Bytes} {word : Keyword}
    (h : t.keyword? name = some word) : t.words.find? (Bytes.toUpper name) = some word := by
  unfold keyword? at h
  split at h
  · cases h
  · rwa [spell_eq] at h

/-- The number of places of the trie, its root included. -/
def nodeCount (t : Table) : Nat := t.forms.size + 1

/-- The number of words. -/
def keywordCount (t : Table) : Nat := t.words.count

/-! ## Reading an operator -/

/-- What a table makes of the bytes at a cursor. -/
inductive Walk where
  /-- A form of variable length starts here; nothing has been read. -/
  | starter (starter : Starter)
  /-- An operator has been read, or the beginning of one, which has the kind of malformed tokens. -/
  | fixed (kind : TokenKind)
  /-- Nothing starts with this byte; nothing has been read. -/
  | none
  deriving DecidableEq, Repr

/-- The child of a trie for the rune at a cursor. Only ASCII leads on. -/
def follow? (forms : Trie Form) (c : Cursor) : Option (Option Form × Trie Form) :=
  c.rune.ascii?.bind forms.child?

/-- The kind of the place where a walk stops. -/
def kindOf : Option Form → TokenKind
  | some (.operator kind) => kind
  | _ => .invalid

/-- A rune that leads on is not the end of input. -/
theorem atEnd_eq_false_of_follow? {forms : Trie Form} {c : Cursor} {place : Option Form × Trie Form}
    (h : follow? forms c = some place) : c.atEnd = false := by
  cases he : c.atEnd with
  | false => rfl
  | true => simp [follow?, Cursor.rune_eq_eof_iff.mpr he, Rune.ascii?, Rune.byte?, Rune.eof] at h

/-- The kind of the deepest place that the next bytes lead to from the given one, and the cursor
behind those bytes. -/
def descend (value : Option Form) (below : Trie Form) (c : Cursor) : TokenKind × Cursor :=
  match _h : follow? below c with
  | none => (kindOf value, c)
  | some (value, below) => descend value below c.advance
termination_by c.remaining
decreasing_by exact Cursor.remaining_advance_lt (atEnd_eq_false_of_follow? _h)

/-- Following the trie never brings bytes back. -/
theorem remaining_descend_le (value : Option Form) (below : Trie Form) (c : Cursor) :
    (descend value below c).2.remaining ≤ c.remaining := by
  fun_induction descend value below c with
  | case1 => exact Nat.le_refl _
  | case2 _ _ c _ _ _ ih => exact Nat.le_trans ih c.remaining_advance_le

/-- What starts at a cursor, and the cursor behind it if that is an operator. -/
def walk (t : Table) (c : Cursor) : Walk × Cursor :=
  match follow? t.forms c with
  | none => (.none, c)
  | some (some (.starter s), _) => (.starter s, c)
  | some (value, below) =>
    let (kind, stop) := descend value below c.advance
    (.fixed kind, stop)

/-- An operator that is read has at least one byte. -/
theorem remaining_walk_lt {t : Table} {c stop : Cursor} {kind : TokenKind}
    (h : t.walk c = (.fixed kind, stop)) : stop.remaining < c.remaining := by
  unfold walk at h
  split at h
  · cases h
  · cases h
  · rename_i value below _ hf
    simp only [Prod.mk.injEq, Walk.fixed.injEq] at h
    obtain ⟨_, rfl⟩ := h
    exact Nat.lt_of_le_of_lt (remaining_descend_le _ _ _)
      (Cursor.remaining_advance_lt (atEnd_eq_false_of_follow? hf))

end Table

end SqlTokens
