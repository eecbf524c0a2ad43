import SqlTokens.Proofs.Spans
import SqlTokens.Proofs.Runs

/-!
# Copies of quoted text

A quoted text is copied in runs: what lies between two escapes is left where it is until an escape
or the closing quote ends the run, and is then copied as one slice of the source. `copy?` is this
copier with every slice checked, and `copy?_eq` says that no check ever fails and that the text is
the one of `Lexeme.enclosed`, which reads rune by rune.
-/

namespace SqlTokens

/-- The bytes of a source between two offsets; none if the offsets bound no slice. -/
def slice? (source : Bytes) (first last : Nat) : Option Bytes :=
  if first ≤ last ∧ last ≤ source.length then some ((source.take last).drop first) else none

/-- A text that is being copied. -/
structure Copy where
  /-- What has been copied. -/
  copied : Bytes
  /-- Where the run starts that has not. -/
  first : Nat

/-- The text with its run copied up to an offset. -/
def Copy.flush? (k : Copy) (source : Bytes) (last : Nat) : Option Bytes :=
  (slice? source k.first last).map (k.copied ++ ·)

namespace Lexeme

/-- The text up to the closing quote, if there is one, and the cursor behind it, like `enclosed`;
none if a slice fails. A delimiter that is written twice ends a run behind its first half. -/
def copy? (quote : Rune) (escapes : Bool) (k : Copy) (c : Cursor) :
    Option (Option Bytes × Cursor) :=
  if c.atEnd then some (none, c)
  else
    let next := c.advance
    if c.rune = quote then
      if next.rune = quote then
        (k.flush? c.source (c.offset + 1)).bind fun copied =>
          copy? quote escapes ⟨copied, c.offset + 2⟩ next.advance
      else (k.flush? c.source c.offset).map fun text => (some text, next)
    else if escapes && c.rune.is '\\' && !next.atEnd then
      (k.flush? c.source c.offset).bind fun copied =>
        copy? quote escapes ⟨copied ++ escaped next, next.advance.offset⟩ next.advance
    else copy? quote escapes k next
termination_by c.remaining
decreasing_by
  · exact Cursor.remaining_lt_of_le_advance (by simp_all) (Cursor.remaining_advance_le _)
  · exact Cursor.remaining_lt_of_le_advance (by simp_all) (Cursor.remaining_advance_le _)
  · exact Cursor.remaining_lt_of_le_advance (by simp_all) (Nat.le_refl _)

end Lexeme

namespace Copy

/-- What has been copied and the run up to a cursor. -/
def upTo (k : Copy) (c : Cursor) : Bytes :=
  k.copied ++ (c.source.take c.offset).drop k.first

/-- A run that starts at a cursor adds nothing yet. -/
theorem upTo_here (copied : Bytes) (c : Cursor) : upTo ⟨copied, c.offset⟩ c = copied := by
  have hempty : (c.source.take c.offset).drop c.offset = [] := by
    rw [List.drop_eq_nil_iff]
    exact List.length_take_le _ _
  rw [upTo, hempty, List.append_nil]

/-- The run goes on over what lies between two cursors. -/
theorem upTo_trans {k : Copy} {c d : Cursor} (h : c.Reaches d) (hk : k.first ≤ c.offset) :
    k.upTo d = k.upTo c ++ c.upTo d := by
  have hle := h.offset_le
  have hlen : d.offset - k.first = (c.offset - k.first) + (d.offset - c.offset) := by omega
  rw [upTo, upTo, h.source_eq, Cursor.upTo_eq, List.drop_take, List.drop_take, List.drop_take, hlen,
    List.take_add, List.drop_drop, Nat.add_sub_cancel' hk, List.append_assoc]

/-- A run within the source is copied without fail. -/
theorem flush?_eq {k : Copy} {c : Cursor} (hk : k.first ≤ c.offset)
    (hc : c.offset ≤ c.source.length) : k.flush? c.source c.offset = some (k.upTo c) := by
  rw [flush?, slice?, if_pos ⟨hk, hc⟩, Option.map_some, upTo]

end Copy

namespace Lexeme

/-- A character of one byte takes one byte. -/
theorem offset_advance_of_is {ch : Char} (hch : Rune.IsByte ch) {c : Cursor}
    (h : c.rune.is ch = true) : c.advance.offset = c.offset + 1 := by
  have hahead := (Cursor.upTo_advance_of_is hch h).2
  have hwidth : c.width = 1 := by rw [Cursor.width_eq, hahead, Rune.decode_width_ascii hch.lt]
  rw [Cursor.offset_advance (Cursor.atEnd_eq_false_of_is h), ← Cursor.reading_eq]
  exact congrArg (c.offset + ·) hwidth

/-- The copier fails nowhere, and its text is what has been copied, the run, and the text that is
read rune by rune. -/
theorem copy?_eq {ch : Char} (hch : Rune.IsByte ch) (escapes : Bool) (k : Copy)
    (c : Cursor) (hc : c.offset ≤ c.source.length) (hk : k.first ≤ c.offset) :
    copy? (.ofChar ch) escapes k c =
      some ((enclosed (.ofChar ch) escapes c).1.map (k.upTo c ++ ·),
        (enclosed (.ofChar ch) escapes c).2) := by
  have happend (x y : Bytes) (o : Option Bytes) :
      (o.map (x ++ ·)).map (y ++ ·) = o.map (y ++ x ++ ·) := by
    rcases o with _ | z
    · rfl
    · rw [Option.map_some, Option.map_some, Option.map_some, List.append_assoc]
  unfold copy? enclosed
  split
  · rfl
  · rename_i hend
    have hlt := Cursor.remaining_advance_lt (Bool.eq_false_iff.mpr hend)
    have hlt' := Nat.lt_of_le_of_lt c.advance.remaining_advance_le hlt
    -- The cursors behind the next rune and behind the one after it stand within the source.
    have hnext : c.Reaches c.advance := .next c
    have hle := hnext.le_length hc
    have hle' := hnext.advance.le_length hc
    have hk' := Nat.le_trans hk hnext.offset_le
    simp only
    split
    · rename_i hr
      split
      · -- The first half of the delimiter ends the run, and the next run starts behind the second.
        rename_i hr'
        have h1 := offset_advance_of_is hch (Rune.is_iff.mpr hr)
        have h2 := offset_advance_of_is hch (Rune.is_iff.mpr hr')
        have hflush := Copy.flush?_eq hk' hle
        have hrest := copy?_eq hch escapes ⟨k.upTo c.advance, c.advance.advance.offset⟩
          c.advance.advance hle' (Nat.le_refl _)
        rw [Cursor.source_advance, h1] at hflush
        rw [Copy.upTo_here, h2, h1] at hrest
        rw [hflush, Option.bind_some, hrest, happend, ← Copy.upTo_trans hnext hk]
      · rw [Copy.flush?_eq hk hc, Option.map_some, Option.map_some, List.append_nil]
    · split
      · -- The escape ends the run, and the next run starts behind it.
        have hrest := copy?_eq hch escapes
          ⟨k.upTo c ++ escaped c.advance, c.advance.advance.offset⟩ c.advance.advance hle'
          (Nat.le_refl _)
        rw [Copy.upTo_here] at hrest
        rw [Copy.flush?_eq hk hc, Option.bind_some, hrest, happend]
      · rw [copy?_eq hch escapes k c.advance hle hk', happend, ← Copy.upTo_trans hnext hk]
termination_by c.remaining
decreasing_by
  all_goals assumption

/-- A copier that starts at a cursor reads what is read rune by rune from there. -/
theorem copy?_start {ch : Char} (hch : Rune.IsByte ch) (escapes : Bool) {c : Cursor}
    (hc : c.offset ≤ c.source.length) :
    copy? (.ofChar ch) escapes ⟨[], c.offset⟩ c = some (enclosed (.ofChar ch) escapes c) := by
  rw [copy?_eq hch escapes _ c hc (Nat.le_refl _), Copy.upTo_here]
  simp only [List.nil_append, Option.map_id']

end Lexeme

end SqlTokens
