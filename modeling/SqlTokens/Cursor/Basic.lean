import SqlTokens.Position
import SqlTokens.Rune.Codec

/-!
# Cursors

A cursor stands in a source: it knows its position and the bytes ahead of it. It is a value, so
whoever wants to come back to a place keeps the cursor. `advance` moves over one rune and
`skipWhile` over a run of them; nothing else moves a cursor, and so every cursor reached from the
start of a source stands between two runes of one walk.
-/

namespace SqlTokens

/-- A place in a source. -/
structure Cursor where
  /-- The whole source. -/
  source : Bytes
  /-- Where the cursor stands. -/
  pos : Position
  /-- The bytes not yet read. -/
  ahead : Bytes
  /-- The bytes not yet read are those from the offset on. -/
  ahead_eq : ahead = source.drop pos.offset
  deriving DecidableEq, Repr

namespace Cursor

/-- The cursor at the given position of a source. -/
def place (source : Bytes) (pos : Position) : Cursor :=
  ⟨source, pos, source.drop pos.offset, rfl⟩

/-- The cursor at the start of a source. -/
def start (source : Bytes) : Cursor :=
  place source .start

/-- The offset of the cursor. -/
def offset (c : Cursor) : Nat := c.pos.offset

/-- The number of bytes not yet read. -/
def remaining (c : Cursor) : Nat := c.ahead.length

/-- Whether nothing is left to read. -/
def atEnd (c : Cursor) : Bool := c.ahead.isEmpty

/-- The rune at the cursor, with its width. -/
def reading (c : Cursor) : Rune × Nat := Rune.decodeFrom c.offset c.ahead

/-- The rune at the cursor. -/
def rune (c : Cursor) : Rune := c.reading.1

/-- The width of the rune at the cursor. -/
def width (c : Cursor) : Nat := c.reading.2

/-- The cursor behind the next rune; at the end it stays. -/
def advance (c : Cursor) : Cursor :=
  if c.atEnd then c
  else
    { source := c.source
      pos := c.pos.step c.rune c.width
      ahead := c.ahead.drop c.width
      ahead_eq := by rw [c.ahead_eq, List.drop_drop, Position.step_offset] }

/-! ## Progress -/

/-- At the end there is no rune, and only there. -/
theorem rune_eq_eof_iff {c : Cursor} : c.rune = .eof ↔ c.atEnd = true := by
  constructor
  · intro h
    by_cases he : c.ahead = []
    · simp [atEnd, he]
    · exact absurd h (Rune.decodeFrom_ne_eof he _)
  · intro h
    have he : c.ahead = [] := by simpa [atEnd] using h
    simp [rune, reading, he, Rune.decodeFrom, Rune.isBom, Rune.eof, Rune.bom]

/-- Where there is a character, there is something to read. -/
theorem atEnd_eq_false_of_is {c : Cursor} {ch : Char} (h : c.rune.is ch = true) :
    c.atEnd = false := by
  cases he : c.atEnd with
  | false => rfl
  | true => simp [rune_eq_eof_iff.mpr he] at h

/-- The bytes before the end are used up one rune at a time. -/
theorem remaining_advance_lt {c : Cursor} (h : c.atEnd = false) :
    c.advance.remaining < c.remaining := by
  have he : c.ahead ≠ [] := by simpa [atEnd] using h
  have hw : 0 < c.width := by simpa [width, reading] using Rune.decode_width_pos he
  have := List.length_pos_iff.mpr he
  simp only [remaining, advance, h, Bool.false_eq_true, if_false, List.length_drop]
  omega

/-- Moving on never brings bytes back. -/
theorem remaining_advance_le (c : Cursor) : c.advance.remaining ≤ c.remaining := by
  cases h : c.atEnd with
  | false => exact Nat.le_of_lt (remaining_advance_lt h)
  | true => simp [advance, h]

/-- The first cursor, from this one on, whose rune is not in the class; the end stops every run. -/
def skipWhile (p : Rune → Bool) (c : Cursor) : Cursor :=
  if c.atEnd then c
  else if p c.rune then skipWhile p c.advance
  else c
termination_by c.remaining
decreasing_by exact remaining_advance_lt (by simp_all)

/-- Moving over a run never brings bytes back. -/
theorem remaining_skipWhile_le (p : Rune → Bool) (c : Cursor) :
    (c.skipWhile p).remaining ≤ c.remaining := by
  fun_induction skipWhile p c with
  | case1 => exact Nat.le_refl _
  | case2 c _ _ ih => exact Nat.le_trans ih (remaining_advance_le c)
  | case3 => exact Nat.le_refl _

/-- The cursor at the end of the source. -/
def toEnd (c : Cursor) : Cursor :=
  c.skipWhile fun _ => true

/-- Moving to the end never brings bytes back. -/
theorem remaining_toEnd_le (c : Cursor) : c.toEnd.remaining ≤ c.remaining :=
  remaining_skipWhile_le _ c

/-! ## Slices and look-ahead -/

/-- The bytes from one cursor up to another. -/
def upTo (first last : Cursor) : Bytes :=
  first.ahead.take (last.offset - first.offset)

/-- The cursor behind the next `n` runes. -/
def advanceBy (c : Cursor) : Nat → Cursor
  | 0 => c
  | n + 1 => c.advance.advanceBy n

/-- Moving over several runes never brings bytes back. -/
theorem remaining_advanceBy_le (c : Cursor) (n : Nat) :
    (c.advanceBy n).remaining ≤ c.remaining := by
  induction n generalizing c with
  | zero => exact Nat.le_refl _
  | succ n ih => exact Nat.le_trans (ih c.advance) (remaining_advance_le c)

/-- Whether the text comes next, in whichever case its ASCII letters are. -/
def startsWith (c : Cursor) (text : Bytes) : Bool :=
  Bytes.sameLetters (c.ahead.take text.length) text

end Cursor

end SqlTokens
