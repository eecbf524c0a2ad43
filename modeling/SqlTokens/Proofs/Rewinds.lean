import SqlTokens.Proofs.Readers

/-!
# Undoing reads from anywhere

A reader may jump between the bytes of a rune, and then it counts columns that are not those of its
offsets. Its line, its history and its index of lines are right all the same (`Tracks`), so stepping
back finds the way. A step back over a newline, though, counts the column of that place again, and
does not find the one that the reader had there, if that was not right. `run_rewind` says exactly
when as many steps back as steps forward restore a position: if the reader had the right position at
each newline that it read. Behind jumps to boundaries it always has.
-/

namespace SqlTokens

namespace Reader

/-- The reader behind a number of runes. -/
def forward (r : Reader) : Nat → Reader
  | 0 => r
  | n + 1 => (r.forward n).advance

/-- The first of some runes may be read before the others. -/
theorem forward_advance (r : Reader) (n : Nat) : r.advance.forward n = r.forward (n + 1) := by
  induction n with
  | zero => rfl
  | succ n ih =>
    rw [forward, ih]
    rfl

/-! ## What every reader keeps -/

/-- What every reader keeps, wherever its jumps go; the last of them went to the given offset. -/
structure Tracks (r : Reader) (first : Nat) : Prop where
  /-- The index of lines is complete up to its frontier. -/
  known : r.lines.Knows r.source
  /-- The reader stands within the frontier. -/
  within : r.offset ≤ r.lines.frontier
  /-- The line of the reader is that of its offset. -/
  line_eq : r.pos.line = (r.source.take r.offset).count 0x0A + 1
  /-- The history leads from the place of the last jump to the reader. -/
  trail : Trail r.source first r.history r.offset
  /-- The column counts no more than the bytes before the last jump and the runes since then. -/
  column_le : r.pos.column ≤ first + r.history.length + 1

/-- The reader at the start of a source keeps this. -/
theorem start_tracks (source : Bytes) : (start source).Tracks 0 where
  known := LineIndex.initial_knows source
  within := Nat.le_refl _
  line_eq := rfl
  trail := rfl
  column_le := Nat.le_refl _

/-- The position behind a rune. -/
theorem pos_advance {r : Reader} (h : r.atEnd = false) :
    r.advance.pos = r.pos.step (Rune.decodeAt r.source r.offset).1
      (Rune.decodeAt r.source r.offset).2 := by
  rw [pos, cursor_advance, Cursor.pos_advance h, Cursor.rune, Cursor.width, Cursor.reading_eq]
  rfl

/-- The column of an offset counts no more than the bytes before any other and the runes of a walk
from there. -/
theorem column_ofOffset_le {source : Bytes} {first n offset : Nat} (hb : Boundary source offset)
    (hw : Walk source first n offset) :
    (Position.ofOffset source offset).column ≤ first + n + 1 := by
  -- From the start of the source there are at least the runes from the start of the line.
  obtain ⟨before, hbefore⟩ := hb.lineStart
  obtain ⟨m, hm⟩ := hb.lineStart.walk_of_le hb (lineStart_le source offset)
  have hadd := (hbefore.trans hm).le_add hw (Nat.zero_le first)
  rw [Position.ofOffset, hm.runesBetween_eq]
  simp only
  omega

/-- The reader at the rune that was read last, with the given position. -/
def backTo (r : Reader) (pos : Position) : Reader :=
  ⟨.place r.source pos, r.history.tail, r.lines⟩

namespace Tracks

variable {r : Reader} {first : Nat}

/-- Reading a rune keeps it. -/
theorem advance (h : r.Tracks first) : r.advance.Tracks first := by
  rcases he : r.atEnd with _ | _
  · obtain ⟨hknown, hwithin⟩ := knows_advance he h.known h.within
    have htrail := trail_advance he h.trail
    have hline : r.advance.pos.line = (r.source.take r.advance.offset).count 0x0A + 1 := by
      rw [pos_advance he, offset_advance he, Position.step]
      rcases hnl : (Rune.decodeAt r.source r.offset).1.is '\n' with _ | _
      · rw [(line_of_no_newline (no_newline_of_width hnl)).2]
        exact h.line_eq
      · rw [width_of_newline hnl, count_take_succ, if_pos ((decodeAt_newline_iff _ _).mp hnl)]
        exact congrArg (· + 1) h.line_eq
    have hcolumn : r.advance.pos.column ≤ first + r.advance.history.length + 1 := by
      have hle := h.column_le
      rw [pos_advance he, history_advance he, List.length_cons, Position.step]
      split
      · exact Nat.le_add_left _ _
      · exact Nat.succ_le_succ hle
    exact {
      known := by rwa [source_advance]
      within := hwithin
      line_eq := by rwa [source_advance]
      trail := by rwa [source_advance]
      column_le := hcolumn }
  · rwa [Reader.advance, if_pos he]

/-- A reader stands within its source. -/
theorem le_length (h : r.Tracks first) : r.offset ≤ r.source.length :=
  Nat.le_trans h.within h.known.frontier_le

/-- In a source whose length leaves room for one more count the position of a reader keeps to the
widths of its counts. -/
theorem fits (h : r.Tracks first) (hlen : r.source.length + 1 < countBound) : r.pos.Fits := by
  have hle := h.le_length
  have hadd := h.trail.walk.add_le
  have hcolumn := h.column_le
  have hline := h.line_eq
  have hcount := count_take_le r.source r.offset
  rw [Position.Fits, hline, show r.pos.offset = r.offset from rfl]
  simp only [countBound, offsetBound] at hlen ⊢
  omega

variable {width : Nat} {widths : List Nat}

/-- The latest width leads back to where the rune was read. -/
theorem trail_cons (h : r.Tracks first) (hr : r.history = width :: widths) :
    Trail r.source first widths (r.offset - width) ∧
      (Rune.decodeAt r.source (r.offset - width)).2 = width ∧
      r.offset - width + width = r.offset := by
  have htrail := h.trail
  rw [hr] at htrail
  obtain ⟨before, hbefore, -, hwidth, hoff⟩ := htrail
  obtain rfl : before = r.offset - width := by omega
  exact ⟨hbefore, hwidth, hoff⟩

/-- The reader there keeps the invariant, if line and column are bounded as they should be. -/
theorem backTo (h : r.Tracks first) (hr : r.history = width :: widths) {pos : Position}
    (hoff : pos.offset = r.offset - width)
    (hline : pos.line = (r.source.take (r.offset - width)).count 0x0A + 1)
    (hcolumn : pos.column ≤ first + widths.length + 1) : (r.backTo pos).Tracks first where
  known := h.known
  within := by
    have hle := h.within
    change pos.offset ≤ r.lines.frontier
    omega
  line_eq := by
    rw [← hoff] at hline
    exact hline
  trail := by
    have htrail := (h.trail_cons hr).1
    rw [← hoff] at htrail
    rw [Reader.backTo, hr]
    exact htrail
  column_le := by
    rw [Reader.backTo, hr]
    exact hcolumn

/-- A step back over a newline finds the position of its offset. -/
theorem retreat_newline (h : r.Tracks first) (hr : r.history = width :: widths)
    (hnl : (Rune.decodeAt r.source (r.offset - width)).1.is '\n' = true) :
    r.retreat = .ok (some (r.backTo (.ofOffset r.source (r.offset - width)))) ∧
      (r.backTo (.ofOffset r.source (r.offset - width))).Tracks first := by
  have hb := boundary_of_newline ((decodeAt_newline_iff _ _).mp hnl)
  have hle : r.offset - width ≤ r.lines.frontier := Nat.le_trans (Nat.sub_le _ _) h.within
  constructor
  · rw [retreat, hr]
    simp only
    rw [if_pos hnl, h.known.locate_eq hb hle, Reader.backTo, hr, List.tail_cons]
  · exact h.backTo hr rfl rfl (column_ofOffset_le hb (h.trail_cons hr).1.walk)

/-- A step back over another rune takes one column away, unless there is none. -/
theorem retreat_plain (h : r.Tracks first) (hr : r.history = width :: widths)
    (hnl : (Rune.decodeAt r.source (r.offset - width)).1.is '\n' = false) :
    if r.pos.column = 0 then r.retreat = .error .below
    else r.retreat =
        .ok (some (r.backTo ⟨r.pos.line, r.pos.column - 1, r.offset - width⟩)) ∧
      (r.backTo ⟨r.pos.line, r.pos.column - 1, r.offset - width⟩).Tracks first := by
  obtain ⟨-, hwidth, hoff⟩ := h.trail_cons hr
  have hretreat : r.retreat = if r.pos.column = 0 then .error .below
      else .ok (some (r.backTo ⟨r.pos.line, r.pos.column - 1, r.offset - width⟩)) := by
    rw [retreat, hr]
    simp only
    rw [hnl, if_neg Bool.false_ne_true, Reader.backTo, hr, List.tail_cons]
  split
  · rename_i hcolumn
    rw [hretreat, if_pos hcolumn]
  · rename_i hcolumn
    refine ⟨by rw [hretreat, if_neg hcolumn], h.backTo hr rfl ?_ ?_⟩
    · -- No newline is among the bytes of the rune.
      have hsame := (line_of_no_newline (no_newline_of_width hnl)).2
      rw [hwidth, hoff] at hsame
      rw [← hsame]
      exact h.line_eq
    · have hle := h.column_le
      rw [hr, List.length_cons] at hle
      change r.pos.column - 1 ≤ first + widths.length + 1
      omega

/-- A jump keeps it, with its own place as that of the last jump. -/
theorem seek (h : r.Tracks first) {index : Nat} (hlt : index < r.source.length) :
    ∃ there, r.seek? index = some there ∧ there.Tracks index ∧ there.offset = index ∧
      there.source = r.source := by
  have hknown := h.known.discover (Nat.le_of_lt hlt)
  have hle := LineIndex.le_frontier_discover r.lines r.source index
  refine ⟨_, if_pos hlt, ?_, rfl, rfl⟩
  have hline := congrArg Position.line (hknown.locate_of_le hle)
  exact ⟨hknown, hle, hline, rfl, LineIndex.locate_column_le _ _ _⟩

end Tracks

/-! ## Runs -/

/-- An operation that succeeds keeps what every reader keeps. -/
theorem Op.apply_tracks {r next : Reader} {last : Position} (h : r.Tracks last.offset) {op : Op}
    (hop : op.apply r = .ok next) :
    next.Tracks (op.anchor r last).offset ∧ next.source = r.source := by
  cases op with
  | advance =>
    cases hop
    exact ⟨h.advance, source_advance r⟩
  | retreat =>
    rw [apply] at hop
    rcases hr : r.history with _ | ⟨width, widths⟩
    · rw [Reader.retreat, hr] at hop
      cases hop
      exact ⟨h, rfl⟩
    · rcases hnl : (Rune.decodeAt r.source (r.offset - width)).1.is '\n' with _ | _
      · have hback := h.retreat_plain hr hnl
        split at hback
        · rw [hback] at hop
          cases hop
        · rw [hback.1] at hop
          cases hop
          exact ⟨hback.2, rfl⟩
      · obtain ⟨hback, hsound⟩ := h.retreat_newline hr hnl
        rw [hback] at hop
        cases hop
        exact ⟨hsound, rfl⟩
  | skipWhile p =>
    cases hop
    exact ⟨skipWhile_induct (P := fun x => x.Tracks last.offset) (fun _ hx => hx.advance) p h,
      source_skipWhile p r⟩
  | advanceBytes n =>
    rw [apply, Reader.advanceBytes, offsetAhead] at hop
    split at hop
    · cases hop
      exact ⟨advanceTo_induct (P := fun x => x.Tracks last.offset) (fun _ hx => hx.advance) _ h,
        source_advanceTo _ r⟩
    · cases hop
  | seek index =>
    rw [apply] at hop
    rw [anchor]
    rcases Nat.lt_or_ge index r.source.length with hlt | hge
    · obtain ⟨there, hthere, htracks, hoff, hsource⟩ := h.seek hlt
      rw [hthere] at hop ⊢
      cases hop
      rw [← hoff] at htracks
      exact ⟨htracks, hsource⟩
    · rw [seek?, if_neg (Nat.not_lt.mpr hge)] at hop ⊢
      cases hop
      exact ⟨h, rfl⟩

/-- So does a run that succeeds. -/
theorem run_tracks {ops : List Op} {r next : Reader} {last last' : Position}
    (h : r.Tracks last.offset) (hrun : run ops r last = .ok (next, last')) :
    next.Tracks last'.offset ∧ next.source = r.source := by
  induction ops generalizing r last with
  | nil =>
    cases hrun
    exact ⟨h, rfl⟩
  | cons op ops ih =>
    rw [run] at hrun
    rcases hop : op.apply r with _ | middle
    · rw [hop] at hrun
      cases hrun
    · rw [hop] at hrun
      obtain ⟨htracks, hsource⟩ := op.apply_tracks h hop
      obtain ⟨htracks', hsource'⟩ := ih htracks hrun
      exact ⟨htracks', hsource'.trans hsource⟩

/-! ## Forwards -/

/-- Whether a number of runes can be read. -/
def Reads (r : Reader) (n : Nat) : Prop := ∀ k < n, (r.forward k).atEnd = false

/-- Whether the reader has the right position at each newline among its next runes. -/
def RightAtNewlines (r : Reader) (n : Nat) : Prop :=
  ∀ k < n, (r.forward k).rune.is '\n' = true →
    (r.forward k).pos = .ofOffset r.source (r.forward k).offset

section forward

variable {r : Reader} {first : Nat}

/-- Reading on stays in the source. -/
theorem source_forward (r : Reader) (n : Nat) : (r.forward n).source = r.source := by
  induction n with
  | zero => rfl
  | succ n ih => rw [forward, source_advance, ih]

/-- Reading on keeps what every reader keeps. -/
theorem Tracks.forward (h : r.Tracks first) (n : Nat) : (r.forward n).Tracks first := by
  induction n with
  | zero => exact h
  | succ n ih => exact ih.advance

/-- Behind a newline a reader has the right position, whichever it had before. -/
theorem Tracks.canonical_advance (h : r.Tracks first) (hend : r.atEnd = false)
    (hnl : r.rune.is '\n' = true) : r.advance.cursor.Canonical := by
  rw [rune_eq] at hnl
  have hb := boundary_of_newline ((decodeAt_newline_iff _ _).mp hnl)
  have hlt := offset_lt hend
  have hright := Position.ofOffset_step hb hlt
  rw [Position.step, hnl, if_pos rfl] at hright
  constructor
  · have hnext := hb.next hlt
    rw [← offset_advance hend] at hnext
    rw [show r.advance.cursor.source = r.source from source_advance r]
    exact hnext
  · rw [show r.advance.cursor.source = r.source from source_advance r,
      show r.advance.cursor.offset = r.advance.offset from rfl,
      show r.advance.cursor.pos = r.advance.pos from rfl, offset_advance hend, ← hright,
      pos_advance hend, Position.step, hnl, if_pos rfl, h.line_eq]
    rfl

/-- It keeps the right position from there on. -/
theorem Tracks.pos_forward (h : r.Tracks first) {n k : Nat} (hreads : r.Reads n) (hk : k < n)
    (hnl : (r.forward k).rune.is '\n' = true) :
    (r.forward n).pos = .ofOffset r.source (r.forward n).offset := by
  have hcanonical : (r.forward n).cursor.Canonical := by
    induction n with
    | zero => exact absurd hk (Nat.not_lt_zero k)
    | succ n ih =>
      rcases Nat.lt_succ_iff_lt_or_eq.mp hk with hlt | rfl
      · rw [Reader.forward, cursor_advance]
        exact (ih (fun j hj => hreads j (Nat.lt_succ_of_lt hj)) hlt).advance
      · exact (h.forward k).canonical_advance (hreads k hk) hnl
  rw [← source_forward r n]
  exact hcanonical.pos_eq

end forward

/-! ## And back -/

/-- Whether steps back from a reader succeed and come to a position. -/
def Restores (x : Reader) (n : Nat) (pos : Position) : Prop :=
  ∃ back, x.rewind n = .ok (some back) ∧ back.pos = pos

/-- Whether a reader stands where another does, with the same history. -/
structure Follows (x r : Reader) (first : Nat) : Prop where
  /-- It keeps what every reader keeps. -/
  tracks : x.Tracks first
  /-- The source is the same. -/
  source_eq : x.source = r.source
  /-- The history is the same. -/
  history_eq : x.history = r.history
  /-- The offset is the same. -/
  offset_eq : x.offset = r.offset

section back

variable {x r : Reader} {first n : Nat}

/-- The first step back. -/
theorem restores_succ {before : Reader} (h : x.retreat = .ok (some before)) {pos : Position} :
    x.Restores (n + 1) pos ↔ before.Restores n pos := by
  rw [Restores, rewind, h]
  rfl

/-- Of readers that stand at one place the positions differ in the column only. -/
theorem Follows.pos_eq_iff (h : x.Follows r first) (hr : r.Tracks first) :
    x.pos = r.pos ↔ x.pos.column = r.pos.column := by
  refine ⟨congrArg _, fun hcolumn => ?_⟩
  have hline : x.pos.line = r.pos.line := by
    rw [h.tracks.line_eq, hr.line_eq, h.source_eq, h.offset_eq]
  have hoffset : x.pos.offset = r.pos.offset := h.offset_eq
  rcases hx : x.pos with ⟨line, column, offset⟩
  rcases hr : r.pos with ⟨line', column', offset'⟩
  rw [hx, hr] at hline hcolumn hoffset
  simp only at hline hcolumn hoffset
  rw [hline, hcolumn, hoffset]

/-- A reader that follows another behind a rune has its history, and undoes that rune. -/
theorem Follows.history_cons (h : x.Follows r.advance first) (hend : r.atEnd = false) :
    x.history = (Rune.decodeAt r.source r.offset).2 :: r.history ∧
      x.offset - (Rune.decodeAt r.source r.offset).2 = r.offset ∧ x.source = r.source := by
  refine ⟨h.history_eq.trans (history_advance hend), ?_, h.source_eq.trans (source_advance r)⟩
  rw [h.offset_eq, offset_advance hend, Nat.add_sub_cancel]

/-- What is left of it there follows the other. -/
theorem Follows.backTo (h : x.Follows r.advance first) (hend : r.atEnd = false) {pos : Position}
    (htracks : (x.backTo pos).Tracks first) (hoff : pos.offset = r.offset) :
    (x.backTo pos).Follows r first := by
  obtain ⟨hhistory, -, hsource⟩ := h.history_cons hend
  refine ⟨htracks, hsource, ?_, hoff⟩
  rw [Reader.backTo, hhistory, List.tail_cons]

/-- Behind a newline the step back finds the right position. -/
theorem Follows.retreat_newline (h : x.Follows r.advance first) (hend : r.atEnd = false)
    (hnl : r.rune.is '\n' = true) :
    ∃ before, x.retreat = .ok (some before) ∧ before.Follows r first ∧
      before.pos = .ofOffset r.source r.offset := by
  obtain ⟨hhistory, hoff, hsource⟩ := h.history_cons hend
  obtain ⟨hback, htracks⟩ := h.tracks.retreat_newline hhistory (by rwa [hoff, hsource, ← rune_eq])
  rw [hoff, hsource] at hback htracks
  exact ⟨_, hback, h.backTo hend htracks rfl, rfl⟩

/-- Behind another rune it takes one column away, unless there is none. -/
theorem Follows.retreat_plain (h : x.Follows r.advance first) (hend : r.atEnd = false)
    (hnl : r.rune.is '\n' = false) :
    if x.pos.column = 0 then x.retreat = .error .below
    else ∃ before, x.retreat = .ok (some before) ∧ before.Follows r first ∧
      before.pos.column = x.pos.column - 1 := by
  obtain ⟨hhistory, hoff, hsource⟩ := h.history_cons hend
  have hback := h.tracks.retreat_plain hhistory (by rwa [hoff, hsource, ← rune_eq])
  split
  · rwa [if_pos ‹_›] at hback
  · rw [if_neg ‹_›, hoff] at hback
    exact ⟨_, hback.1, h.backTo hend hback.2 rfl, rfl⟩

/-- Where no newline is undone, steps back restore the position that comes with the right column. -/
theorem Follows.restores_iff_column (h : x.Follows (r.forward n) first) (hr : r.Tracks first)
    (hreads : r.Reads n) (hnone : ∀ k < n, (r.forward k).rune.is '\n' = false) :
    x.Restores n r.pos ↔ x.pos.column = (r.forward n).pos.column := by
  induction n generalizing x with
  | zero =>
    rw [← h.pos_eq_iff hr]
    constructor
    · rintro ⟨back, hback, hpos⟩
      cases hback
      exact hpos
    · exact fun hpos => ⟨x, rfl, hpos⟩
  | succ n ih =>
    have hend := hreads n n.lt_succ_self
    have hnl := hnone n n.lt_succ_self
    have hcolumn : (r.forward (n + 1)).pos.column = (r.forward n).pos.column + 1 := by
      rw [rune_eq] at hnl
      rw [forward, pos_advance hend, Position.step, hnl, if_neg Bool.false_ne_true]
    have hback := Follows.retreat_plain h hend hnl
    rw [hcolumn]
    split at hback
    · -- The step back fails, and the column is not the one behind a rune.
      rename_i hzero
      rw [hzero]
      refine iff_of_false ?_ (Nat.succ_ne_zero _).symm
      rintro ⟨_, hrewind, -⟩
      rw [rewind, hback] at hrewind
      cases hrewind
    · obtain ⟨before, hretreat, hfollows, hbefore⟩ := hback
      rw [restores_succ hretreat, ih hfollows (fun k hk => hreads k (Nat.lt_succ_of_lt hk))
        (fun k hk => hnone k (Nat.lt_succ_of_lt hk)), hbefore]
      omega

/-- Steps back from the position of a reader restore an earlier one exactly if the reader had the
right position at each newline in between. -/
theorem Follows.restores_iff (h : x.Follows (r.forward n) first) (hr : r.Tracks first)
    (hreads : r.Reads n) (hpos : x.pos = (r.forward n).pos) :
    x.Restores n r.pos ↔ r.RightAtNewlines n := by
  induction n generalizing x with
  | zero => exact iff_of_true ⟨x, rfl, hpos⟩ fun k hk => absurd hk (Nat.not_lt_zero k)
  | succ n ih =>
    have hend := hreads n n.lt_succ_self
    have hreads' : r.Reads n := fun k hk => hreads k (Nat.lt_succ_of_lt hk)
    have hsucc : r.RightAtNewlines (n + 1) ↔ r.RightAtNewlines n ∧
        ((r.forward n).rune.is '\n' = true →
          (r.forward n).pos = .ofOffset r.source (r.forward n).offset) := by
      unfold RightAtNewlines
      exact Nat.forall_lt_succ_right
    rw [hsucc]
    rcases hnl : (r.forward n).rune.is '\n' with _ | _
    · -- The column is one more than that of the rune, and so the step back finds its position.
      have hcolumn : x.pos.column = (r.forward n).pos.column + 1 := by
        have hplain := hnl
        rw [rune_eq] at hplain
        rw [hpos, forward, pos_advance hend, Position.step, hplain, if_neg Bool.false_ne_true]
      have hback := Follows.retreat_plain h hend hnl
      rw [if_neg (by rw [hcolumn]; exact Nat.succ_ne_zero _)] at hback
      obtain ⟨before, hretreat, hfollows, hbefore⟩ := hback
      have hsame : before.pos = (r.forward n).pos := by
        rw [hfollows.pos_eq_iff (hr.forward n), hbefore, hcolumn, Nat.add_sub_cancel]
      rw [restores_succ hretreat, ih hfollows hreads' hsame]
      exact (and_iff_left (fun hnewline => absurd hnewline Bool.false_ne_true)).symm
    · obtain ⟨before, hretreat, hfollows, hbefore⟩ := Follows.retreat_newline h hend hnl
      rw [source_forward] at hbefore
      rw [restores_succ hretreat]
      by_cases hearlier : ∃ k < n, (r.forward k).rune.is '\n' = true
      · -- Behind an earlier newline the reader had the right position.
        obtain ⟨k, hk, hnewline⟩ := hearlier
        have hright := hr.pos_forward hreads' hk hnewline
        rw [ih hfollows hreads' (hbefore.trans hright.symm)]
        exact (and_iff_left fun _ => hright).symm
      · -- At the first newline it is the column that decides.
        have hnone (k : Nat) (hk : k < n) : (r.forward k).rune.is '\n' = false :=
          Bool.eq_false_iff.mpr fun hnewline => hearlier ⟨k, hk, hnewline⟩
        have hright : r.RightAtNewlines n := fun k hk hnewline =>
          absurd ⟨k, hk, hnewline⟩ hearlier
        rw [hfollows.restores_iff_column hr hreads' hnone, ← hfollows.pos_eq_iff (hr.forward n),
          hbefore]
        exact ⟨fun hsame => ⟨hright, fun _ => hsame.symm⟩, fun hboth => (hboth.2 rfl).symm⟩

end back

/-- When rewinding undoes reading. In a source whose length leaves room for one more count, take a
reader behind whatever operations, jumps between the bytes of a rune included, and as many steps
forward as there are runes to read. None of them takes a count out of its width. As many steps back
succeed and restore the position exactly if the reader had the position of its offset at each
newline that it read. If all its jumps went to boundaries, it had. -/
theorem run_rewind (source : Bytes) (hlen : source.length + 1 < countBound) (ops : List Op)
    (r : Reader) (last : Position) (hrun : run ops (start source) .start = .ok (r, last)) (n : Nat)
    (hreads : r.Reads n) :
    (∀ k ≤ n, (r.forward k).pos.Fits) ∧
      ((r.forward n).Restores n r.pos ↔ r.RightAtNewlines n) ∧
      (Permitted ops (start source) → (r.forward n).Restores n r.pos) := by
  have hstart : (start source).Tracks Position.start.offset := start_tracks source
  obtain ⟨htracks, hsource⟩ := run_tracks hstart hrun
  have hsource : r.source = source := hsource
  have hiff : (r.forward n).Restores n r.pos ↔ r.RightAtNewlines n :=
    Follows.restores_iff ⟨htracks.forward n, rfl, rfl, rfl⟩ htracks hreads rfl
  refine ⟨fun k _ => ?_, hiff, fun hops => hiff.mpr fun k _ _ => ?_⟩
  · refine (htracks.forward k).fits ?_
    rwa [source_forward, hsource]
  · -- Jumps to boundaries keep the position right everywhere.
    obtain ⟨r', last', hrun', hsound, -⟩ := run_sound (start_sound source) hops
    rw [hrun] at hrun'
    cases hrun'
    have hforward (k : Nat) : (r.forward k).Sound last := by
      induction k with
      | zero => exact hsound
      | succ k ih => exact ih.advance
    rw [← source_forward r k]
    exact (hforward k).canonical.pos_eq

/-- A reader that jumps behind the first byte of a character reads the three others and undoes that.
With the newline behind the character that fails. -/
theorem run_rewind_inside : ∃ r last,
    run [.seek 1] (start [0xF0, 0x9F, 0x98, 0x80, 0x0A]) .start = .ok (r, last) ∧
      r.pos = ⟨1, 2, 1⟩ ∧ (r.forward 3).pos = ⟨1, 5, 4⟩ ∧ (r.forward 3).Restores 3 r.pos ∧
      r.Reads 4 ∧ ¬(r.forward 4).Restores 4 r.pos := by
  have hrun : run [.seek 1] (start [0xF0, 0x9F, 0x98, 0x80, 0x0A]) .start =
      .ok (⟨.place [0xF0, 0x9F, 0x98, 0x80, 0x0A] ⟨1, 2, 1⟩, [], ⟨[0], 1⟩⟩, ⟨1, 2, 1⟩) := by
    decide +kernel
  have hreads : Reads ⟨.place [0xF0, 0x9F, 0x98, 0x80, 0x0A] ⟨1, 2, 1⟩, [], ⟨[0], 1⟩⟩ 4 := by
    unfold Reads
    decide +kernel
  have hrewind (n : Nat) (hn : n ≤ 4) :=
    (run_rewind [0xF0, 0x9F, 0x98, 0x80, 0x0A] (by decide) _ _ _ hrun n fun k hk =>
      hreads k (Nat.lt_of_lt_of_le hk hn)).2.1
  refine ⟨_, _, hrun, rfl, by decide +kernel, (hrewind 3 (by decide)).mpr ?_, hreads,
    mt (hrewind 4 (Nat.le_refl 4)).mp ?_⟩
  · unfold RightAtNewlines
    decide +kernel
  · unfold RightAtNewlines
    decide +kernel

/-- There the column falls below zero. -/
theorem rewind_below : ∃ r last,
    run [.seek 1] (start [0xF0, 0x9F, 0x98, 0x80, 0x0A]) .start = .ok (r, last) ∧ r.Reads 4 ∧
      (r.forward 4).rewind 4 = .error .below := by
  refine ⟨⟨.place [0xF0, 0x9F, 0x98, 0x80, 0x0A] ⟨1, 2, 1⟩, [], ⟨[0], 1⟩⟩, ⟨1, 2, 1⟩, ?_, ?_, ?_⟩
  · decide +kernel
  · unfold Reads
    decide +kernel
  · decide +kernel

end Reader

end SqlTokens
