import SqlTokens.Proofs.Rewinds
import SqlTokens.Proofs.Runs

/-!
# Version numbers

A version number is read digit by digit, up to the greatest number of them, and a reader that meets
something else before the least number goes back with a jump. Whether the digits are read all or not
at all (`AllOrNothing`) depends on the order of the two bounds: where the greatest number is below
the least, that many digits are read although they are too few (`Lexeme.version_allOrNothing`). The
jump finds the position of its offset, and so the reader comes back to where it was if it had that
position (`Reader.run_version`). Behind jumps to boundaries it always has.
-/

namespace SqlTokens

/-- The number of digits that lie ahead of a cursor, one right behind the other. -/
def Cursor.digitsAhead (c : Cursor) : Nat :=
  (c.ahead.takeWhile (Rune.onByte Rune.isDigit)).length

/-- Whether the digits at the first cursor are all read by the second, as far as the greatest number
goes, or none of them if there are fewer than the least. -/
structure AllOrNothing (least most : Nat) (first stop : Cursor) : Prop where
  /-- With too few digits the cursor is where it was. -/
  nothing : first.digitsAhead < least → stop.pos = first.pos
  /-- With enough of them it is behind the digits that may be read. -/
  all : least ≤ first.digitsAhead → stop.offset = first.offset + min first.digitsAhead most

/-- With too few digits nothing else matters. -/
theorem allOrNothing_iff_of_lt {least most : Nat} {first stop : Cursor}
    (h : first.digitsAhead < least) : AllOrNothing least most first stop ↔ stop.pos = first.pos :=
  ⟨fun hall => hall.nothing h,
    fun hpos => ⟨fun _ => hpos, fun hle => absurd h (Nat.not_lt.mpr hle)⟩⟩

namespace Lexeme

variable {c : Cursor} {least most : Nat}

/-- As many digits are read as there are and as may be. -/
theorem offset_skipDigits (hc : c.offset ≤ c.source.length) (n : Nat) :
    (skipDigits c n).offset = c.offset + min c.digitsAhead n := by
  have hreach := skipDigits_reaches c n
  have hle := hreach.offset_le
  have hlength := hreach.length_upTo (hreach.le_length hc)
  rw [upTo_skipDigits, ← List.take_takeWhile, List.length_take] at hlength
  rw [Cursor.digitsAhead]
  omega

/-- A version number goes back where the digits end before either bound. -/
theorem version_eq (hc : c.offset ≤ c.source.length) :
    version least most c =
      if c.digitsAhead < least ∧ c.digitsAhead < most then c else skipDigits c most := by
  have hoffset := offset_skipDigits hc most
  unfold version
  by_cases h : c.digitsAhead < least ∧ c.digitsAhead < most
  · rw [if_pos h, if_pos (by omega)]
  · rw [if_neg h, if_neg (by omega)]

/-- A version number is all or nothing, unless its greatest number of digits is there and below the
least. -/
theorem version_allOrNothing (hc : c.offset ≤ c.source.length) :
    AllOrNothing least most c (version least most c) ↔
      ¬(0 < most ∧ most ≤ c.digitsAhead ∧ c.digitsAhead < least) := by
  have hoffset := offset_skipDigits hc most
  rw [version_eq hc]
  constructor
  · rintro ⟨hnothing, -⟩ ⟨hpos, hmost, hleast⟩
    have hstay := hnothing hleast
    rw [if_neg (by omega)] at hstay
    have hsame : (skipDigits c most).offset = c.offset := congrArg Position.offset hstay
    omega
  · intro h
    refine ⟨fun hleast => ?_, fun hleast => ?_⟩
    · by_cases hmost : c.digitsAhead < most
      · rw [if_pos ⟨hleast, hmost⟩]
      · -- No digit may be read at all.
        obtain rfl : most = 0 := by omega
        rw [if_neg (by omega), skipDigits]
    · rw [if_neg (by omega), hoffset]

end Lexeme

namespace Reader

/-! ## Readers -/

/-- The reader behind the digits at a reader, of which at most the given number are read. -/
def skipDigits (r : Reader) : Nat → Reader
  | 0 => r
  | n + 1 => if r.rune.isDigit then r.advance.skipDigits n else r

/-- The reader behind a version number of at most `most` digits. If the digits end before either
bound is reached, it jumps back to its offset; a jump that fails leaves it where it is. -/
def skipVersion (least most : Nat) (r : Reader) : Reader :=
  let stop := r.skipDigits most
  let digits := stop.offset - r.offset
  if digits < least ∧ digits < most then (stop.seek? r.offset).getD stop else stop

/-- The cursor of a reader moves over digits as every cursor does. -/
theorem cursor_skipDigits (r : Reader) (n : Nat) :
    (r.skipDigits n).cursor = Lexeme.skipDigits r.cursor n := by
  induction n generalizing r with
  | zero => rfl
  | succ n ih =>
    rw [skipDigits, Lexeme.skipDigits, show r.cursor.rune = r.rune from rfl]
    split
    · rw [ih, cursor_advance]
    · rfl

/-- The reader behind some digits is one that has read on. -/
theorem skipDigits_forward (r : Reader) (n : Nat) : ∃ k, r.skipDigits n = r.forward k := by
  induction n generalizing r with
  | zero => exact ⟨0, rfl⟩
  | succ n ih =>
    rw [skipDigits]
    split
    · obtain ⟨k, hk⟩ := ih r.advance
      exact ⟨k + 1, hk.trans (r.forward_advance k)⟩
    · exact ⟨0, rfl⟩

section skipVersion

variable {r : Reader} {least most first : Nat}

/-- A reader goes back where the digits end before either bound. -/
theorem skipVersion_eq (hr : r.offset ≤ r.source.length) :
    r.skipVersion least most =
      if r.cursor.digitsAhead < least ∧ r.cursor.digitsAhead < most then
        ((r.skipDigits most).seek? r.offset).getD (r.skipDigits most)
      else r.skipDigits most := by
  have hoffset : (r.skipDigits most).offset = r.offset + min r.cursor.digitsAhead most := by
    rw [offset, pos, cursor_skipDigits]
    exact Lexeme.offset_skipDigits hr most
  unfold skipVersion
  by_cases h : r.cursor.digitsAhead < least ∧ r.cursor.digitsAhead < most
  · rw [if_pos h, if_pos (by omega)]
  · rw [if_neg h, if_neg (by omega)]

/-- The jump back fails at the end, where no digit has been read, and elsewhere it finds the
position of the offset. -/
theorem Tracks.seek_back (h : r.Tracks first) (hb : Boundary r.source r.offset) (n : Nat) :
    (((r.skipDigits n).seek? r.offset).getD (r.skipDigits n)).cursor =
      if r.atEnd then r.cursor else .place r.source (.ofOffset r.source r.offset) := by
  obtain ⟨k, hk⟩ := r.skipDigits_forward n
  have hsource : (r.skipDigits n).source = r.source := by rw [hk, source_forward]
  rcases hend : r.atEnd with _ | _
  · have hlt : r.offset < (r.skipDigits n).source.length := by
      rw [hsource]
      exact offset_lt hend
    have hknown := (h.forward k).known
    rw [← hk] at hknown
    rw [seek?_boundary hknown hlt (by rwa [hsource]), hsource]
    rfl
  · have hge : ¬r.offset < (r.skipDigits n).source.length := by
      rw [hsource]
      exact Nat.not_lt.mpr (Cursor.atEnd_iff.mp hend)
    rw [seek?, if_neg hge, Option.getD_none, if_pos rfl, cursor_skipDigits]
    exact Lexeme.skipDigits_of_atEnd hend n

/-- Where a version number leaves a reader. -/
theorem Tracks.cursor_skipVersion (h : r.Tracks first) (hb : Boundary r.source r.offset)
    (least most : Nat) :
    (r.skipVersion least most).cursor =
      if r.cursor.digitsAhead < least ∧ r.cursor.digitsAhead < most then
        if r.atEnd then r.cursor else .place r.source (.ofOffset r.source r.offset)
      else Lexeme.skipDigits r.cursor most := by
  rw [skipVersion_eq h.le_length]
  split
  · exact h.seek_back hb most
  · exact r.cursor_skipDigits most

end skipVersion

/-- Whatever a reader has done before, if it stands on a boundary, a version number with fewer
digits than both bounds leaves it at its offset, and every other one behind as many digits as there
are and as may be. So the digits are read all or not at all unless the greatest number of them is
there and below the least, or the reader has to jump back and did not have the position of its
offset. A reader that has it goes where every cursor does. -/
theorem run_version (source : Bytes) (ops : List Op) (r : Reader) (last : Position)
    (hrun : run ops (start source) .start = .ok (r, last)) (hb : Boundary source r.offset)
    (least most digits : Nat) (hdigits : digits = r.cursor.digitsAhead) :
    (r.skipVersion least most).offset =
        r.offset + (if digits < least ∧ digits < most then 0 else min digits most) ∧
      (AllOrNothing least most r.cursor (r.skipVersion least most).cursor ↔
        ¬(0 < most ∧ most ≤ digits ∧ digits < least) ∧
          (digits < least → digits < most → r.atEnd = false →
            r.pos = .ofOffset source r.offset)) ∧
      (r.pos = .ofOffset source r.offset →
        (r.skipVersion least most).cursor = Lexeme.version least most r.cursor) := by
  obtain ⟨htracks, hsource⟩ := run_tracks (start_tracks source) hrun
  have hsource : r.source = source := hsource
  subst hsource hdigits
  have hle : r.cursor.offset ≤ r.cursor.source.length := htracks.le_length
  have hcursor := htracks.cursor_skipVersion hb least most
  have hversion : Lexeme.version least most r.cursor = _ := Lexeme.version_eq hle
  refine ⟨?_, ?_, fun hpos => ?_⟩
  · rw [offset, pos, hcursor]
    split
    · split
      · rfl
      · rfl
    · exact Lexeme.offset_skipDigits hle most
  · by_cases hshort : r.cursor.digitsAhead < least ∧ r.cursor.digitsAhead < most
    · -- The digits are too few, and where the reader is now is what matters.
      rw [hcursor, if_pos hshort, allOrNothing_iff_of_lt hshort.1]
      constructor
      · intro hback
        refine ⟨by omega, fun _ _ hend => ?_⟩
        rw [hend, if_neg Bool.false_ne_true] at hback
        exact hback.symm
      · rintro ⟨-, hpos⟩
        split
        · rfl
        · rename_i hend
          exact (hpos hshort.1 hshort.2 (Bool.eq_false_iff.mpr hend)).symm
    · -- Without a jump the reader goes where a cursor does.
      have hsame : (r.skipVersion least most).cursor = Lexeme.version least most r.cursor := by
        rw [hcursor, hversion, if_neg hshort, if_neg hshort]
      rw [hsame, Lexeme.version_allOrNothing hle]
      exact ⟨fun h => ⟨h, fun hleast hmost => absurd ⟨hleast, hmost⟩ hshort⟩, And.left⟩
  · have hplace : r.cursor = .place r.source (.ofOffset r.source r.offset) :=
      Cursor.Canonical.ext ⟨hb, hpos⟩ ⟨hb, rfl⟩ rfl rfl
    rw [hcursor, hversion, ← hplace, ite_self]

/-- Behind a newline and a digit two more digits are too few, and the reader comes back to its
position. -/
theorem run_version_short :
    ∃ r last, run [.advance, .advance] (start [0x0A, 0x31, 0x32, 0x33, 0x61]) .start =
        .ok (r, last) ∧ Boundary [0x0A, 0x31, 0x32, 0x33, 0x61] r.offset ∧
      2 = r.cursor.digitsAhead ∧ (r.skipVersion 3 5).offset = 2 ∧
      AllOrNothing 3 5 r.cursor (r.skipVersion 3 5).cursor := by
  have hrun : run [.advance, .advance] (start [0x0A, 0x31, 0x32, 0x33, 0x61]) .start =
      .ok ((start [0x0A, 0x31, 0x32, 0x33, 0x61]).advance.advance, .start) := rfl
  have hb : Boundary [0x0A, 0x31, 0x32, 0x33, 0x61] 2 :=
    ((Boundary.zero _).next (by decide)).next (by decide)
  have hdigits : 2 = (start [0x0A, 0x31, 0x32, 0x33, 0x61]).advance.advance.cursor.digitsAhead := by
    decide
  obtain ⟨hoffset, hall, -⟩ := run_version _ _ _ _ hrun hb 3 5 2 hdigits
  exact ⟨_, _, hrun, hb, hdigits, hoffset, hall.mpr ⟨by decide, fun _ _ _ => by decide +kernel⟩⟩

/-- Of four digits three are read although five are the least. -/
theorem run_version_greatest :
    (start [0x31, 0x32, 0x33, 0x34]).cursor.digitsAhead = 4 ∧
      ((start [0x31, 0x32, 0x33, 0x34]).skipVersion 5 3).pos = ⟨1, 4, 3⟩ ∧
      ¬AllOrNothing 5 3 (start [0x31, 0x32, 0x33, 0x34]).cursor
        ((start [0x31, 0x32, 0x33, 0x34]).skipVersion 5 3).cursor := by
  have hdigits : (start [0x31, 0x32, 0x33, 0x34]).cursor.digitsAhead = 4 := by decide
  have hpos : ((start [0x31, 0x32, 0x33, 0x34]).skipVersion 5 3).pos = ⟨1, 4, 3⟩ := by decide
  refine ⟨hdigits, hpos, fun h => ?_⟩
  have hback := h.nothing (by rw [hdigits]; decide)
  rw [show ((start [0x31, 0x32, 0x33, 0x34]).skipVersion 5 3).cursor.pos = ⟨1, 4, 3⟩ from hpos]
    at hback
  cases hback

end Reader

end SqlTokens
