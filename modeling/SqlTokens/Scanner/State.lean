import SqlTokens.Diagnostic
import SqlTokens.Token.Kind

/-!
# What is carried from token to token

How a piece of the source is read depends on little of what stood before it: whether a vendor
comment is open, which keywords the last three tokens were, and whether the last name is followed by
a dot. The state holds this, the place of the last hint for the optimizer, and the diagnoses so far.
-/

namespace SqlTokens

/-- The keywords among the last three tokens; a token that is no keyword counts as the end of input.
-/
structure Recent where
  /-- The last token. -/
  latest : TokenKind := .eof
  /-- The token before it. -/
  second : TokenKind := .eof
  /-- The token before that. -/
  third : TokenKind := .eof
  deriving DecidableEq, Repr

/-- The history after one more token. -/
def Recent.push (r : Recent) (kind : TokenKind) : Recent :=
  ⟨kind, r.latest, r.second⟩

/-- What is carried from token to token. -/
structure State where
  /-- Whether a vendor comment is open, whose end is to be read in silence. -/
  inVendorBlock : Bool := false
  /-- The last three tokens. -/
  recent : Recent := {}
  /-- Where the last hint for the optimizer starts. -/
  hintAt : Option Position := none
  /-- Whether the last name is followed by a dot, behind which digits are a name. -/
  afterNameDot : Bool := false
  /-- The errors so far, in the order of the source. -/
  errors : List ScanError := []
  /-- The warnings so far, in the order of the source. -/
  warnings : List ScanWarning := []
  deriving DecidableEq, Repr

namespace State

/-- The state with one more error, if there is one. -/
def report (s : State) (fault : Option ScanError) : State :=
  { s with errors := s.errors ++ fault.toList }

/-- Without an error nothing is reported. -/
theorem report_none (s : State) : s.report none = s := by
  rcases s with ⟨inVendorBlock, recent, hintAt, afterNameDot, errors, warnings⟩
  rw [report, Option.toList_none, List.append_nil]

/-- The state with one more warning. -/
def warn (s : State) (kind : ScanWarningKind) (pos : Position) : State :=
  { s with warnings := s.warnings ++ [⟨kind, pos⟩] }

/-- The state behind the opening of a vendor comment. -/
def openVendorBlock (s : State) : State :=
  { s with inVendorBlock := true }

end State

end SqlTokens
