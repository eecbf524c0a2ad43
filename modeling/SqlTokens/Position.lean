import SqlTokens.Rune.Basic

/-!
# Positions in a source

A position says where a byte of the source stands: its line and column, both counted in runes from
1, and its offset in bytes from 0. `Position.step` moves over a rune by exact arithmetic. The counts
of a position have fixed widths in memory, and `step?` is the move that refuses to leave them; the
two agree as long as the result fits (`step?_eq_ok_iff`).
-/

namespace SqlTokens

/-- A count that left its width. -/
inductive Overflow where
  /-- A sum above the greatest value. -/
  | above
  /-- A difference below zero. -/
  | below
  deriving DecidableEq, Repr

/-- The message of a count that left its width. -/
def Overflow.message : Overflow → String
  | .above => "attempt to add with overflow"
  | .below => "attempt to subtract with overflow"

/-- The offsets of a source lie below this bound, `2 ^ 64`. -/
def offsetBound : Nat := 0x1_0000_0000_0000_0000

/-- Line and column lie below this bound, `2 ^ 32`. -/
def countBound : Nat := 0x1_0000_0000

/-- Where a byte stands in its source. -/
structure Position where
  /-- The line, from 1. -/
  line : Nat
  /-- The column in runes, from 1. -/
  column : Nat
  /-- The offset in bytes, from 0. -/
  offset : Nat
  deriving DecidableEq, Repr, Ord

namespace Position

/-- The position of the first byte of every source. -/
def start : Position := ⟨1, 1, 0⟩

/-- Whether the counts keep to their widths. -/
def Fits (p : Position) : Prop :=
  p.line < countBound ∧ p.column < countBound ∧ p.offset < offsetBound

instance (p : Position) : Decidable p.Fits :=
  inferInstanceAs (Decidable (_ ∧ _ ∧ _))

/-- The position after a rune of the given width: a newline opens the next line, and every other
rune takes one column. -/
def step (p : Position) (r : Rune) (width : Nat) : Position :=
  if r.is '\n' then ⟨p.line + 1, 1, p.offset + width⟩
  else ⟨p.line, p.column + 1, p.offset + width⟩

/-- The position after a rune, unless one of its counts leaves its width. -/
def step? (p : Position) (r : Rune) (width : Nat) : Except Overflow Position :=
  if (p.step r width).Fits then .ok (p.step r width) else .error .above

/-- Line and column, as they are written in messages. -/
def render (p : Position) : String :=
  toString p.line ++ ":" ++ toString p.column

/-- A step takes the offset past the rune. -/
@[simp] theorem step_offset (p : Position) (r : Rune) (width : Nat) :
    (p.step r width).offset = p.offset + width := by
  unfold step
  split <;> rfl

/-- The checked step is the exact one wherever that fits. -/
theorem step?_eq_ok_iff {p q : Position} {r : Rune} {width : Nat} :
    p.step? r width = .ok q ↔ (p.step r width).Fits ∧ p.step r width = q := by
  unfold step?
  split <;> simp_all

end Position

end SqlTokens
