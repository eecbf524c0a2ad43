import SqlTokens.Text.Blank
import SqlTokens.Text.Quoted

/-!
# SQL modes

A mode is a set of flags, kept as a word of 64 bits; bits that are no flag's are carried along. In
text a mode is a list of names between commas. Reading the text (`SqlMode.parse`) goes item by item:
blanks around a name do not count, nor does the case of its ASCII letters, and a flag that combines
others brings these with it. Writing (`SqlMode.render`) lists the flags that are set, in the order
of their bits.

Five of the flags matter to the scanner: `ansiQuotes`, `noBackslashEscapes`, `pipesAsConcat`,
`ignoreSpace` and `highNotPrecedence`.
-/

namespace SqlTokens

/-- The flags that a mode can have. -/
inductive Flag where
  | realAsFloat
  | pipesAsConcat
  | ansiQuotes
  | ignoreSpace
  | notUsed
  | onlyFullGroupBy
  | noUnsignedSubtraction
  | noDirInCreate
  | postgresql
  | oracle
  | mssql
  | db2
  | maxdb
  | noKeyOptions
  | noTableOptions
  | noFieldOptions
  | mysql323
  | mysql40
  | ansi
  | noAutoValueOnZero
  | noBackslashEscapes
  | strictTransTables
  | strictAllTables
  | noZeroInDate
  | noZeroDate
  | invalidDates
  | errorForDivisionByZero
  | traditional
  | noAutoCreateUser
  | highNotPrecedence
  | noEngineSubstitution
  | padCharToFullLength
  | allowInvalidDates
  deriving DecidableEq, Repr

namespace Flag

/-- Every flag, in the order of their bits. -/
def all : List Flag :=
  [.realAsFloat, .pipesAsConcat, .ansiQuotes, .ignoreSpace, .notUsed, .onlyFullGroupBy,
    .noUnsignedSubtraction, .noDirInCreate, .postgresql, .oracle, .mssql, .db2, .maxdb,
    .noKeyOptions, .noTableOptions, .noFieldOptions, .mysql323, .mysql40, .ansi,
    .noAutoValueOnZero, .noBackslashEscapes, .strictTransTables, .strictAllTables,
    .noZeroInDate, .noZeroDate, .invalidDates, .errorForDivisionByZero, .traditional,
    .noAutoCreateUser, .highNotPrecedence, .noEngineSubstitution, .padCharToFullLength,
    .allowInvalidDates]

/-- The bit of a flag. -/
def bit : Flag → Nat
  | .realAsFloat => 0
  | .pipesAsConcat => 2
  | .ansiQuotes => 3
  | .ignoreSpace => 4
  | .notUsed => 5
  | .onlyFullGroupBy => 6
  | .noUnsignedSubtraction => 7
  | .noDirInCreate => 8
  | .postgresql => 9
  | .oracle => 10
  | .mssql => 11
  | .db2 => 12
  | .maxdb => 13
  | .noKeyOptions => 14
  | .noTableOptions => 15
  | .noFieldOptions => 16
  | .mysql323 => 17
  | .mysql40 => 18
  | .ansi => 19
  | .noAutoValueOnZero => 20
  | .noBackslashEscapes => 21
  | .strictTransTables => 22
  | .strictAllTables => 23
  | .noZeroInDate => 24
  | .noZeroDate => 25
  | .invalidDates => 26
  | .errorForDivisionByZero => 27
  | .traditional => 28
  | .noAutoCreateUser => 29
  | .highNotPrecedence => 30
  | .noEngineSubstitution => 31
  | .padCharToFullLength => 32
  | .allowInvalidDates => 33

/-- The name of a flag, in upper case. -/
def name : Flag → String
  | .realAsFloat => "REAL_AS_FLOAT"
  | .pipesAsConcat => "PIPES_AS_CONCAT"
  | .ansiQuotes => "ANSI_QUOTES"
  | .ignoreSpace => "IGNORE_SPACE"
  | .notUsed => "NOT_USED"
  | .onlyFullGroupBy => "ONLY_FULL_GROUP_BY"
  | .noUnsignedSubtraction => "NO_UNSIGNED_SUBTRACTION"
  | .noDirInCreate => "NO_DIR_IN_CREATE"
  | .postgresql => "POSTGRESQL"
  | .oracle => "ORACLE"
  | .mssql => "MSSQL"
  | .db2 => "DB2"
  | .maxdb => "MAXDB"
  | .noKeyOptions => "NO_KEY_OPTIONS"
  | .noTableOptions => "NO_TABLE_OPTIONS"
  | .noFieldOptions => "NO_FIELD_OPTIONS"
  | .mysql323 => "MYSQL323"
  | .mysql40 => "MYSQL40"
  | .ansi => "ANSI"
  | .noAutoValueOnZero => "NO_AUTO_VALUE_ON_ZERO"
  | .noBackslashEscapes => "NO_BACKSLASH_ESCAPES"
  | .strictTransTables => "STRICT_TRANS_TABLES"
  | .strictAllTables => "STRICT_ALL_TABLES"
  | .noZeroInDate => "NO_ZERO_IN_DATE"
  | .noZeroDate => "NO_ZERO_DATE"
  | .invalidDates => "INVALID_DATES"
  | .errorForDivisionByZero => "ERROR_FOR_DIVISION_BY_ZERO"
  | .traditional => "TRADITIONAL"
  | .noAutoCreateUser => "NO_AUTO_CREATE_USER"
  | .highNotPrecedence => "HIGH_NOT_PRECEDENCE"
  | .noEngineSubstitution => "NO_ENGINE_SUBSTITUTION"
  | .padCharToFullLength => "PAD_CHAR_TO_FULL_LENGTH"
  | .allowInvalidDates => "ALLOW_INVALID_DATES"

/-- What a compatible dialect implies about quotes, bars, blanks and options. -/
def dialect : List Flag :=
  [.pipesAsConcat, .ansiQuotes, .ignoreSpace, .noKeyOptions, .noTableOptions, .noFieldOptions]

/-- The flags that a flag brings with it. -/
def implied : Flag → List Flag
  | .ansi => [.realAsFloat, .pipesAsConcat, .ansiQuotes, .ignoreSpace, .onlyFullGroupBy]
  | .db2 | .mssql | .postgresql => dialect
  | .maxdb | .oracle => dialect ++ [.noAutoCreateUser]
  | .mysql323 | .mysql40 => [.highNotPrecedence]
  | .traditional =>
    [.strictTransTables, .strictAllTables, .noZeroInDate, .noZeroDate, .errorForDivisionByZero,
      .noAutoCreateUser]
  | _ => []

/-- The flag with the given name. -/
def named? (name : List Char) : Option Flag :=
  all.find? fun flag => flag.name.toList == name

/-- The list of flags leaves none out. -/
theorem mem_all (flag : Flag) : flag ∈ all := by
  cases flag <;> decide

/-- A flag is found again by its bit. -/
theorem find?_bit (flag : Flag) : all.find? (fun f => f.bit == flag.bit) = some flag := by
  cases flag <;> rfl

/-- Two flags never share a bit. -/
theorem bit_injective {f g : Flag} (h : f.bit = g.bit) : f = g :=
  Option.some.inj (by rw [← find?_bit f, h, find?_bit g])

/-- The bit of a flag lies within the word. -/
theorem bit_lt (flag : Flag) : flag.bit < 64 := by
  cases flag <;> decide

end Flag

/-- A set of flags. -/
structure SqlMode where
  /-- The word, with one bit for each flag. -/
  bits : BitVec 64
  deriving DecidableEq, Repr

/-- A name that is no flag's. -/
structure UnknownMode where
  /-- The name as it was written, without blanks around it. -/
  name : String
  deriving DecidableEq, Repr

/-- The message about a name that is no flag's. -/
def UnknownMode.message (e : UnknownMode) : String :=
  "unknown sql_mode " ++ Text.quotedString e.name

namespace SqlMode

/-- The mode without flags. -/
def empty : SqlMode := ⟨0⟩

/-- The mode of one flag. -/
def ofFlag (flag : Flag) : SqlMode := ⟨BitVec.twoPow 64 flag.bit⟩

/-- The flags of both modes. -/
def union (m n : SqlMode) : SqlMode := ⟨m.bits ||| n.bits⟩

/-- The mode with the flags of a list. -/
def ofFlags (flags : List Flag) : SqlMode :=
  flags.foldl (fun mode flag => mode.union (ofFlag flag)) empty

/-- Whether a mode has a flag. -/
def has (m : SqlMode) (flag : Flag) : Bool := m.bits.getLsbD flag.bit

/-- The flags of a mode, in the order of their bits. -/
def flags (m : SqlMode) : List Flag := Flag.all.filter m.has

/-- A flag has itself and no other. -/
@[simp] theorem has_ofFlag (f g : Flag) : (ofFlag f).has g = decide (f = g) := by
  have := f.bit_lt
  have := g.bit_lt
  by_cases h : f = g
  · subst h
    simp [has, ofFlag, this]
  · have : f.bit ≠ g.bit := fun hb => h (Flag.bit_injective hb)
    simp [has, ofFlag, BitVec.getLsbD_twoPow, h, this]

/-- A union has what either mode has. -/
@[simp] theorem has_union (m n : SqlMode) (flag : Flag) :
    (m.union n).has flag = (m.has flag || n.has flag) := by
  simp [has, union]

/-! ## Text -/

/-- The parts of a text between its commas. A text without comma is one part. -/
def items : List Char → List (List Char)
  | [] => [[]]
  | c :: rest =>
    if c = ',' then [] :: items rest
    else match items rest with
      | [] => [[c]]
      | item :: more => (c :: item) :: more

/-- The mode of one item: none of its flags if it is blank, else the flag it names with those that
this flag brings. -/
def parseItem (item : List Char) : Except UnknownMode SqlMode :=
  -- The name is compared in upper case and reported as it was written.
  let written := Text.trim item
  if written = [] then .ok empty
  else match Flag.named? (written.map Char.toUpper) with
    | some flag => .ok ((ofFlag flag).union (ofFlags flag.implied))
    | none => .error ⟨String.ofList written⟩

/-- The mode of a list of items, which is the union over the list; the first item that names no flag
is reported. -/
def parseItems : List (List Char) → Except UnknownMode SqlMode
  | [] => .ok empty
  | item :: rest =>
    match parseItem item with
    | .error e => .error e
    | .ok mode =>
      match parseItems rest with
      | .error e => .error e
      | .ok more => .ok (mode.union more)

/-- The mode that a text names. -/
def parse (text : String) : Except UnknownMode SqlMode :=
  parseItems (items text.toList)

/-- The text of a mode: the names of its flags between commas. -/
def render (m : SqlMode) : String :=
  ",".intercalate (m.flags.map Flag.name)

end SqlMode

end SqlTokens
