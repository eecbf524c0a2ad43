import SqlTokens.Cursor.Basic
import SqlTokens.Reader.LineIndex

/-!
# Readers

A reader is a cursor that can go back. It remembers the widths of the runes it has read, so that
`retreat` undoes exactly the last `advance`, and it keeps an index of lines, so that `seek?` can
jump to an offset and still know line and column. A jump forgets the widths. A reader may be sent
between the bytes of one character, and from there it reads on rune by rune; only then can the
column of a step back fall below zero, which `retreat` reports.
-/

namespace SqlTokens

/-- A cursor with what it takes to go back. -/
structure Reader where
  /-- Where the reader stands. -/
  cursor : Cursor
  /-- The widths of the runes read since the last jump, the latest first. -/
  history : List Nat
  /-- The lines known so far. -/
  lines : LineIndex
  deriving DecidableEq, Repr

namespace Reader

/-- The reader at the start of a source. -/
def start (source : Bytes) : Reader :=
  ⟨.start source, [], .initial⟩

/-- The whole source. -/
def source (r : Reader) : Bytes := r.cursor.source

/-- Where the reader stands. -/
def pos (r : Reader) : Position := r.cursor.pos

/-- The offset of the reader. -/
def offset (r : Reader) : Nat := r.pos.offset

/-- Whether nothing is left to read. -/
def atEnd (r : Reader) : Bool := r.cursor.atEnd

/-- The rune at the reader. -/
def rune (r : Reader) : Rune := r.cursor.rune

/-! ## Forwards -/

/-- The reader behind the next rune; at the end it stays. -/
def advance (r : Reader) : Reader :=
  if r.atEnd then r
  else
    let next := r.cursor.advance
    ⟨next, r.cursor.width :: r.history, r.lines.record r.rune next.offset⟩

/-- The cursor of a reader moves as every cursor does. -/
@[simp] theorem cursor_advance (r : Reader) : r.advance.cursor = r.cursor.advance := by
  unfold advance
  split
  · rename_i h
    have h' : r.cursor.atEnd = true := h
    simp [Cursor.advance, h']
  · rfl

/-- The reader behind the longest run of runes of a class. -/
def skipWhile (p : Rune → Bool) (r : Reader) : Reader :=
  if r.atEnd then r
  else if p r.rune then skipWhile p r.advance
  else r
termination_by r.cursor.remaining
decreasing_by
  rw [cursor_advance]
  exact Cursor.remaining_advance_lt (by simp_all [atEnd])

/-- The first reader, from this one on, at or behind an offset; the end stops every move. -/
def advanceTo (stop : Nat) (r : Reader) : Reader :=
  if r.atEnd then r
  else if r.offset < stop then advanceTo stop r.advance
  else r
termination_by r.cursor.remaining
decreasing_by
  rw [cursor_advance]
  exact Cursor.remaining_advance_lt (by simp_all [atEnd])

/-- The offset `n` bytes ahead, unless it leaves its width. -/
def offsetAhead (r : Reader) (n : Nat) : Except Overflow Nat :=
  if r.offset + n < offsetBound then .ok (r.offset + n) else .error .above

/-- The reader after as many runes as it takes to read `n` bytes. -/
def advanceBytes (r : Reader) (n : Nat) : Except Overflow Reader :=
  (r.offsetAhead n).map fun stop => r.advanceTo stop

/-! ## Backwards and elsewhere -/

/-- The reader before the rune that was read last; none if no such rune is remembered. A newline is
the end of a line whose columns have to be counted again. -/
def retreat (r : Reader) : Except Overflow (Option Reader) :=
  match r.history with
  | [] => .ok none
  | width :: history =>
    let offset := r.offset - width
    -- The column before a newline is not known from the line behind it.
    if (Rune.decodeAt r.source offset).1.is '\n' then
      .ok (some ⟨.place r.source (r.lines.locate r.source offset), history, r.lines⟩)
    else if r.pos.column = 0 then .error .below
    else .ok (some ⟨.place r.source ⟨r.pos.line, r.pos.column - 1, offset⟩, history, r.lines⟩)

/-- The reader at a byte of the source; none if there is no such byte. -/
def seek? (r : Reader) (index : Nat) : Option Reader :=
  if index < r.source.length then
    let lines := r.lines.discover r.source index
    some ⟨.place r.source (lines.locate r.source index), [], lines⟩
  else none

/-! ## Bytes around the reader -/

/-- The bytes from an offset up to the reader; none if the offset lies behind it. -/
def since (r : Reader) (offset : Nat) : Bytes :=
  (r.source.take r.offset).drop offset

/-- The bytes of the rune that was read last, if it is remembered. -/
def lastRune (r : Reader) : Bytes :=
  match r.history with
  | [] => []
  | width :: _ => r.since (r.offset - width)

/-- The byte `n` places ahead, if there is one. -/
def byteAhead (r : Reader) (n : Nat) : Except Overflow (Option UInt8) :=
  (r.offsetAhead n).map fun index => r.source[index]?

/-- Whether the text comes next, in whichever case its ASCII letters are. -/
def startsWith (r : Reader) (text : Bytes) : Bool :=
  r.cursor.startsWith text

end Reader

end SqlTokens
