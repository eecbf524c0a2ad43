import SqlTokens.Reader.Basic
import SqlTokens.Table
import SqlTokens.Config
import SqlTokens.Lexeme.Variable
import SqlTokens.Scanner.Stream
import SqlTokens.Proofs.Runes
import SqlTokens.Proofs.Codec
import SqlTokens.Proofs.Walk
import SqlTokens.Proofs.Cursors
import SqlTokens.Proofs.Lines
import SqlTokens.Proofs.Readers
import SqlTokens.Proofs.Starters
import SqlTokens.Proofs.Tries
import SqlTokens.Proofs.Spans
import SqlTokens.Proofs.Runs
import SqlTokens.Proofs.Features
import SqlTokens.Proofs.Trivia
import SqlTokens.Proofs.Outcomes
import SqlTokens.Proofs.Steps
import SqlTokens.Proofs.Copies
import SqlTokens.Proofs.Calls
import SqlTokens.Proofs.Coverage
import SqlTokens.Proofs.Diagnoses
import SqlTokens.Proofs.Records
import SqlTokens.Proofs.Traces
import SqlTokens.Proofs.Malformed
import SqlTokens.Proofs.Errors
import SqlTokens.Proofs.Positions
import SqlTokens.Proofs.Histories
import SqlTokens.Proofs.Excerpts
import SqlTokens.Proofs.Forms
import SqlTokens.Proofs.Comments
import SqlTokens.Proofs.Kinds
import SqlTokens.Proofs.Searches
import SqlTokens.Proofs.Readings
import SqlTokens.Proofs.Splits
import SqlTokens.Proofs.Hints
import SqlTokens.Proofs.Continuations
import SqlTokens.Proofs.ContinuedForms
import SqlTokens.Proofs.ContinuedSearches
import SqlTokens.Proofs.ContinuedReadings
import SqlTokens.Proofs.NamePoints
import SqlTokens.Proofs.QuotedNames
import SqlTokens.Proofs.Settings
import SqlTokens.Proofs.VendorBlocks
import SqlTokens.Proofs.StringContents
import SqlTokens.Proofs.Rewinds
import SqlTokens.Proofs.Characters
import SqlTokens.Proofs.LookAhead
import SqlTokens.Proofs.Versions
import SqlTokens.Proofs.LineStarts
import SqlTokens.Proofs.Counts
import SqlTokens.Proofs.Quoting
import SqlTokens.Proofs.Operators
import SqlTokens.Proofs.Numerals
import SqlTokens.Proofs.Words
import SqlTokens.Proofs.BlockComments
import SqlTokens.Proofs.Qualifiers
import SqlTokens.Proofs.Names
import SqlTokens.Proofs.Functions
import SqlTokens.Proofs.Keywords
import SqlTokens.Proofs.QualifiedNumbers
import SqlTokens.Proofs.ModeItems
import SqlTokens.Proofs.ModeTexts
import SqlTokens.Proofs.QuotedDigits
import SqlTokens.Proofs.Variables
