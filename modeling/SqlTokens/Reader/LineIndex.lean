import SqlTokens.Position
import SqlTokens.Rune.Codec

/-!
# The index of lines

The offsets at which lines begin, as far as a reader has come. With the index, the position of an
offset that has been passed before is found from the offset alone (`locate`): its line from the
number of recorded starts at or before it, and its column by counting the runes since the last of
them.
-/

namespace SqlTokens

/-- The lines that are known to begin, up to a frontier. -/
structure LineIndex where
  /-- The offsets of the first bytes of the known lines, the latest first. -/
  starts : List Nat
  /-- The offset up to which the source has been looked at. -/
  frontier : Nat
  deriving DecidableEq, Repr

namespace LineIndex

/-- Before anything is read, one line is known. -/
def initial : LineIndex := ⟨[0], 0⟩

/-- The offsets after the newlines of a text that starts at the given offset, the latest first, put
before those that are there. -/
def startsIn (offset : Nat) : Bytes → List Nat → List Nat
  | [], starts => starts
  | b :: rest, starts =>
    startsIn (offset + 1) rest (if b = 0x0A then (offset + 1) :: starts else starts)

/-- The index after a rune has been read that ends at the given offset. Only a rune beyond the
frontier is news. -/
def record (lines : LineIndex) (r : Rune) (stop : Nat) : LineIndex :=
  if lines.frontier < stop then
    ⟨if r.is '\n' then stop :: lines.starts else lines.starts, stop⟩
  else lines

/-- The index after the source has been looked through up to the given offset. -/
def discover (lines : LineIndex) (source : Bytes) (stop : Nat) : LineIndex :=
  if lines.frontier < stop then
    let span := (source.take stop).drop lines.frontier
    ⟨startsIn lines.frontier span lines.starts, stop⟩
  else lines

/-- The position of an offset within the frontier. -/
def locate (lines : LineIndex) (source : Bytes) (offset : Nat) : Position :=
  let before := lines.starts.dropWhile (offset < ·)
  let line := (source.take offset).drop (before.headD 0)
  ⟨before.length, Rune.countRunes line + 1, offset⟩

end LineIndex

end SqlTokens
