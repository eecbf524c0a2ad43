import SqlTokens.SqlMode

/-!
# Settings of a scanner

What a session decides about the text that it sends: its mode, whether the words of window functions
are reserved, and whether a parser is to keep the positions of keywords. The last one is carried for
the parser and changes nothing here.
-/

namespace SqlTokens

/-- The settings of a scanner. -/
structure Config where
  /-- The mode of the session. -/
  mode : SqlMode := .empty
  /-- Whether the words of window functions are reserved. -/
  windowFunctions : Bool := true
  /-- Whether a parser keeps the positions of keywords. -/
  recordPositions : Bool := true
  deriving DecidableEq, Repr

/-- Whether the mode of the settings has a flag. -/
def Config.has (config : Config) (flag : Flag) : Bool := config.mode.has flag

end SqlTokens
