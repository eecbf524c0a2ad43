import SqlTokens.Reader.Basic
import SqlTokens.Proofs.Cursors
import SqlTokens.Proofs.Lines

/-!
# Positions of readers

A reader comes to its positions in four ways: it steps over runes, it steps back, it counts the
runes of a line again, and it looks through a source for newlines. `Sound` is the invariant that
makes all of them agree: the cursor is canonical, the index of lines knows the source up to a
frontier behind the cursor, and the remembered widths are those of the runes between the place of
the last jump and the cursor. Each operation keeps it (`Op.apply_sound`), provided that jumps go to
boundaries, so every run of operations does (`run_sound`). From the invariant follows that the
position is a function of the offset, and that the history undoes itself one rune at a time down to
the place of the last jump (`Sound.rewind`).
-/

namespace SqlTokens

namespace Reader

/-! ## Operations and runs -/

/-- An operation that moves a reader. -/
inductive Op where
  /-- The next rune is read. -/
  | advance
  /-- The rune that was read last is undone. -/
  | retreat
  /-- A run of runes of a class is read. -/
  | skipWhile (p : Rune → Bool)
  /-- As many runes are read as it takes to read a number of bytes. -/
  | advanceBytes (n : Nat)
  /-- The reader jumps to a byte of the source. -/
  | seek (index : Nat)

namespace Op

/-- The reader behind an operation. A step back without history and a jump to no byte leave it where
it is. -/
def apply : Op → Reader → Except Overflow Reader
  | advance, r => .ok r.advance
  | retreat, r => r.retreat.map fun before => before.getD r
  | skipWhile p, r => .ok (r.skipWhile p)
  | advanceBytes n, r => r.advanceBytes n
  | seek index, r => .ok ((r.seek? index).getD r)

/-- The place of the last jump, behind an operation. -/
def anchor : Op → Reader → Position → Position
  | seek index, r, last => ((r.seek? index).map pos).getD last
  | _, _, last => last

/-- What is asked of an operation: the sum of a move in bytes keeps its width, and a jump that
succeeds goes to a boundary. -/
def Permitted (r : Reader) : Op → Prop
  | advanceBytes n => r.offset + n < offsetBound
  | seek index => index < r.source.length → Boundary r.source index
  | _ => True

end Op

/-- The reader behind some operations, and the place of its last jump. -/
def run : List Op → Reader → Position → Except Overflow (Reader × Position)
  | [], r, last => .ok (r, last)
  | op :: ops, r, last => (op.apply r).bind fun next => run ops next (op.anchor r last)

/-- Whether each of some operations is permitted where it is carried out. -/
def Permitted : List Op → Reader → Prop
  | [], _ => True
  | op :: ops, r => op.Permitted r ∧ ∀ next, op.apply r = .ok next → Permitted ops next

/-- The reader after a number of steps back; none if one of them finds no history. -/
def rewind : Nat → Reader → Except Overflow (Option Reader)
  | 0, r => .ok (some r)
  | n + 1, r => r.retreat.bind fun
    | some before => rewind n before
    | none => .ok none

/-! ## The invariant -/

/-- Whether the widths, the latest first, are those of the runes that lead from one offset of a
source to another. -/
def Trail (source : Bytes) (first : Nat) : List Nat → Nat → Prop
  | [], last => last = first
  | width :: widths, last => ∃ before, Trail source first widths before ∧
      before < source.length ∧ (Rune.decodeAt source before).2 = width ∧ before + width = last

/-- What every reader keeps whose jumps go to boundaries; the last of them went to the given
position. -/
structure Sound (r : Reader) (last : Position) : Prop where
  /-- The reader stands between two runes, with the position of that place. -/
  canonical : r.cursor.Canonical
  /-- The index of lines is complete up to its frontier. -/
  known : r.lines.Knows r.source
  /-- The reader stands within the frontier. -/
  within : r.offset ≤ r.lines.frontier
  /-- The last jump went to a boundary. -/
  anchored : Boundary r.source last.offset
  /-- The position of the last jump is that of its offset. -/
  last_eq : last = Position.ofOffset r.source last.offset
  /-- The history leads from the place of the last jump to the reader. -/
  trail : Trail r.source last.offset r.history r.offset

/-- A trail is a walk with one rune for each width. -/
theorem Trail.walk {source : Bytes} {first last : Nat} {widths : List Nat}
    (h : Trail source first widths last) : Walk source first widths.length last := by
  induction widths generalizing last with
  | nil =>
    rw [show last = first from h]
    exact .stay
  | cons width widths ih =>
    obtain ⟨before, hbefore, hlt, rfl, rfl⟩ := h
    exact .step (ih hbefore) hlt

/-- Where one trail ends another may go on. -/
theorem Trail.trans {source : Bytes} {first middle last : Nat} {widths more : List Nat}
    (h : Trail source first widths middle) (h' : Trail source middle more last) :
    Trail source first (more ++ widths) last := by
  induction more generalizing last with
  | nil =>
    rw [show last = middle from h']
    exact h
  | cons width more ih =>
    obtain ⟨before, hbefore, hlt, hwidth, hoff⟩ := h'
    exact ⟨before, ih hbefore, hlt, hwidth, hoff⟩

/-- The reader at the start of a source keeps the invariant. -/
theorem start_sound (source : Bytes) : (start source).Sound .start where
  canonical := Cursor.canonical_start source
  known := LineIndex.initial_knows source
  within := Nat.le_refl _
  anchored := Boundary.zero source
  last_eq := (Position.ofOffset_zero source).symm
  trail := rfl

/-! ## Moving on -/

/-- What reading a rune keeps, reading a run keeps. -/
theorem skipWhile_induct {P : Reader → Prop} (hstep : ∀ r, P r → P r.advance) (p : Rune → Bool)
    {r : Reader} (h : P r) : P (r.skipWhile p) := by
  fun_induction skipWhile p r with
  | case1 => exact h
  | case2 r _ _ ih => exact ih (hstep r h)
  | case3 => exact h

/-- What reading a rune keeps, reading up to an offset keeps. -/
theorem advanceTo_induct {P : Reader → Prop} (hstep : ∀ r, P r → P r.advance) (stop : Nat)
    {r : Reader} (h : P r) : P (r.advanceTo stop) := by
  fun_induction advanceTo stop r with
  | case1 => exact h
  | case2 r _ _ ih => exact ih (hstep r h)
  | case3 => exact h

/-- The source of a reader behind the next rune. -/
@[simp] theorem source_advance (r : Reader) : r.advance.source = r.source := by
  rw [source, cursor_advance, Cursor.source_advance]
  rfl

/-- The source of a reader behind a run. -/
theorem source_skipWhile (p : Rune → Bool) (r : Reader) : (r.skipWhile p).source = r.source :=
  skipWhile_induct (P := fun x => x.source = r.source) (fun x hx => by rw [source_advance, hx]) p
    rfl

/-- The source of a reader that has read up to an offset. -/
theorem source_advanceTo (stop : Nat) (r : Reader) : (r.advanceTo stop).source = r.source :=
  advanceTo_induct (P := fun x => x.source = r.source) (fun x hx => by rw [source_advance, hx])
    stop rfl

section advance

variable {r : Reader}

/-- Before the end there is a byte where a reader stands. -/
theorem offset_lt (h : r.atEnd = false) : r.offset < r.source.length :=
  Cursor.atEnd_eq_false_iff.mp h

/-- The rune at a reader is the one at its offset. -/
theorem rune_eq (r : Reader) : r.rune = (Rune.decodeAt r.source r.offset).1 :=
  congrArg Prod.fst (Cursor.reading_eq r.cursor)

/-- Reading a rune takes the offset past it. -/
theorem offset_advance (h : r.atEnd = false) :
    r.advance.offset = r.offset + (Rune.decodeAt r.source r.offset).2 := by
  rw [offset, pos, cursor_advance]
  exact Cursor.offset_advance h

/-- The history hears of the width of a rune that is read. -/
theorem history_advance (h : r.atEnd = false) :
    r.advance.history = (Rune.decodeAt r.source r.offset).2 :: r.history := by
  have hwidth : r.cursor.width = (Rune.decodeAt r.source r.offset).2 :=
    congrArg Prod.snd (Cursor.reading_eq r.cursor)
  rw [advance, if_neg (by rw [h]; decide), ← hwidth]

/-- A rune that is read keeps the index of lines complete and the reader within its frontier. -/
theorem knows_advance (h : r.atEnd = false) (hknown : r.lines.Knows r.source)
    (hwithin : r.offset ≤ r.lines.frontier) :
    r.advance.lines.Knows r.source ∧ r.advance.offset ≤ r.advance.lines.frontier := by
  have hlines : r.advance.lines = r.lines.record (Rune.decodeAt r.source r.offset).1
      (r.offset + (Rune.decodeAt r.source r.offset).2) := by
    rw [advance, if_neg (by rw [h]; decide), ← rune_eq, ← offset_advance h, offset, pos,
      cursor_advance]
    rfl
  rw [hlines, offset_advance h]
  exact ⟨hknown.record hwithin (offset_lt h), LineIndex.le_frontier_record _ _ _⟩

/-- A rune that is read makes a trail one longer. -/
theorem trail_advance (h : r.atEnd = false) {first : Nat}
    (htrail : Trail r.source first r.history r.offset) :
    Trail r.source first r.advance.history r.advance.offset := by
  rw [history_advance h, offset_advance h]
  exact ⟨r.offset, htrail, offset_lt h, rfl, rfl⟩

end advance

/-- A jump to a boundary finds the position of its offset, if the index of lines is complete: the
index looks through the source up to the place, and then knows its line. -/
theorem seek?_boundary {r : Reader} (hknown : r.lines.Knows r.source) {index : Nat}
    (hlt : index < r.source.length) (hb : Boundary r.source index) :
    r.seek? index = some ⟨.place r.source (.ofOffset r.source index), [],
      r.lines.discover r.source index⟩ := by
  rw [seek?, if_pos hlt]
  simp only
  rw [(hknown.discover (Nat.le_of_lt hlt)).locate_eq hb
    (LineIndex.le_frontier_discover r.lines r.source index)]

namespace Sound

variable {r : Reader} {last : Position}

/-- Reading a rune keeps the invariant. -/
theorem advance (h : r.Sound last) : r.advance.Sound last := by
  rcases he : r.atEnd with _ | _
  · obtain ⟨hknown, hwithin⟩ := knows_advance he h.known h.within
    exact {
      canonical := by
        rw [cursor_advance]
        exact h.canonical.advance
      known := by rwa [source_advance]
      within := hwithin
      anchored := by
        rw [source_advance]
        exact h.anchored
      last_eq := by
        rw [source_advance]
        exact h.last_eq
      trail := by
        rw [source_advance]
        exact trail_advance he h.trail }
  · rwa [Reader.advance, if_pos he]

/-- Reading a run keeps the invariant. -/
theorem skipWhile (h : r.Sound last) (p : Rune → Bool) : (r.skipWhile p).Sound last :=
  skipWhile_induct (P := fun x => x.Sound last) (fun _ hx => hx.advance) p h

/-- Reading up to an offset keeps the invariant. -/
theorem advanceTo (h : r.Sound last) (stop : Nat) : (r.advanceTo stop).Sound last :=
  advanceTo_induct (P := fun x => x.Sound last) (fun _ hx => hx.advance) stop h

/-- Without history there is nothing to undo, and the reader stands where it jumped to. -/
theorem retreat_nil (h : r.Sound last) (hr : r.history = []) :
    r.retreat = .ok none ∧ r.pos = last := by
  have htrail := h.trail
  rw [hr] at htrail
  refine ⟨by rw [retreat, hr], ?_⟩
  rw [h.last_eq, ← show r.offset = last.offset from htrail]
  exact h.canonical.pos_eq

/-- With history the last rune is undone, and the invariant kept. -/
theorem retreat_cons (h : r.Sound last) {width : Nat} {widths : List Nat}
    (hr : r.history = width :: widths) :
    ∃ before, r.retreat = .ok (some before) ∧ before.Sound last ∧ before.history = widths ∧
      before.source = r.source ∧
      before.offset + (Rune.decodeAt r.source before.offset).2 = r.offset := by
  have htrail := h.trail
  rw [hr] at htrail
  obtain ⟨offset, hbefore, hlt, hw, hoff⟩ := htrail
  -- The latest width leads back to the boundary before the rune, within the frontier.
  have hb : Boundary r.source offset := h.anchored.walk hbefore.walk
  have hback : r.offset - width = offset := by omega
  have hle : offset ≤ r.lines.frontier := by
    have := h.within
    omega
  -- Whichever way its position is found, the reader before the rune is this one.
  have key : ∀ p, p = Position.ofOffset r.source offset →
      (⟨.place r.source p, widths, r.lines⟩ : Reader).Sound last := by
    rintro p rfl
    exact ⟨⟨hb, rfl⟩, h.known, hle, h.anchored, h.last_eq, hbefore⟩
  rw [retreat, hr]
  simp only
  rw [hback]
  rcases hnl : (Rune.decodeAt r.source offset).1.is '\n' with _ | _
  · -- The column of the reader is one more than that of the rune.
    have hpos : r.pos =
        ⟨(Position.ofOffset r.source offset).line, (Position.ofOffset r.source offset).column + 1,
          r.offset⟩ := by
      have hstep := Position.ofOffset_step hb hlt
      rw [Position.step, hnl, if_neg (by decide), hw, hoff] at hstep
      calc r.pos = Position.ofOffset r.source r.offset := h.canonical.pos_eq
        _ = _ := hstep.symm
        _ = _ := by
          rw [show (Position.ofOffset r.source offset).offset + width = r.offset from hoff]
    rw [if_neg (by decide), if_neg (by rw [hpos]; exact Nat.succ_ne_zero _)]
    refine ⟨_, rfl, key _ ?_, rfl, rfl, by rw [← hw] at hoff; exact hoff⟩
    rw [hpos]
    rfl
  · -- Before a newline the column cannot be told from the reader, so the index is asked.
    rw [if_pos rfl]
    exact ⟨_, rfl, key _ (h.known.locate_eq hb hle), rfl, rfl, by rw [← hw] at hoff; exact hoff⟩

/-- A jump to a boundary keeps the invariant, with its own place as that of the last jump. -/
theorem seek (h : r.Sound last) {index : Nat} (hlt : index < r.source.length)
    (hb : Boundary r.source index) :
    ∃ there, r.seek? index = some there ∧ there.Sound there.pos ∧ there.source = r.source :=
  ⟨_, seek?_boundary h.known hlt hb, ⟨⟨hb, rfl⟩, h.known.discover (Nat.le_of_lt hlt),
    LineIndex.le_frontier_discover r.lines r.source index, hb, rfl, rfl⟩, rfl⟩

/-- A jump to the offset of a canonical cursor leads to this cursor. -/
theorem seek_cursor (h : r.Sound last) {c : Cursor} (hc : c.Canonical)
    (hsource : r.source = c.source) (hend : c.atEnd = false) :
    ∃ there, r.seek? c.offset = some there ∧ there.cursor = c := by
  have hlt : c.offset < r.source.length := by
    rw [hsource]
    exact Cursor.atEnd_eq_false_iff.mp hend
  obtain ⟨there, hthere, hsound, hsource'⟩ := h.seek hlt (by rw [hsource]; exact hc.boundary)
  -- The reader is at the cursor: both are canonical, in one source and at one offset.
  refine ⟨there, hthere, hsound.canonical.ext hc (hsource'.trans hsource) ?_⟩
  rw [seek?, if_pos hlt, Option.some_inj] at hthere
  rw [← hthere]
  rfl

end Sound

/-! ## Runs -/

/-- A permitted operation succeeds and keeps the invariant. -/
theorem Op.apply_sound {r : Reader} {last : Position} (h : r.Sound last) {op : Op}
    (hop : op.Permitted r) :
    ∃ next, op.apply r = .ok next ∧ next.Sound (op.anchor r last) ∧ next.source = r.source := by
  rcases op with _ | _ | p | n | index
  · exact ⟨_, rfl, h.advance, source_advance r⟩
  · rw [apply]
    rcases hr : r.history with _ | ⟨width, widths⟩
    · rw [(h.retreat_nil hr).1]
      exact ⟨r, rfl, h, rfl⟩
    · obtain ⟨before, hbefore, hsound, -, hsource, -⟩ := h.retreat_cons hr
      rw [hbefore]
      exact ⟨before, rfl, hsound, hsource⟩
  · exact ⟨_, rfl, h.skipWhile p, source_skipWhile p r⟩
  · have hn : r.offset + n < offsetBound := hop
    rw [apply, Reader.advanceBytes, offsetAhead, if_pos hn]
    exact ⟨_, rfl, h.advanceTo _, source_advanceTo _ r⟩
  · rw [apply, anchor]
    rcases Nat.lt_or_ge index r.source.length with hlt | hge
    · obtain ⟨there, hthere, hsound, hsource⟩ := h.seek hlt (hop hlt)
      rw [hthere]
      exact ⟨there, rfl, hsound, hsource⟩
    · rw [seek?, if_neg (Nat.not_lt.mpr hge)]
      exact ⟨r, rfl, h, rfl⟩

/-- A permitted run succeeds and keeps the invariant. -/
theorem run_sound {ops : List Op} {r : Reader} {last : Position} (h : r.Sound last)
    (hops : Permitted ops r) :
    ∃ next last', run ops r last = .ok (next, last') ∧ next.Sound last' ∧
      next.source = r.source := by
  induction ops generalizing r last with
  | nil => exact ⟨r, last, rfl, h, rfl⟩
  | cons op ops ih =>
    obtain ⟨hop, hrest⟩ := hops
    obtain ⟨middle, hmiddle, hsound, hsource⟩ := op.apply_sound h hop
    obtain ⟨next, last', hnext, hsound', hsource'⟩ := ih hsound (hrest middle hmiddle)
    refine ⟨next, last', ?_, hsound', hsource'.trans hsource⟩
    rw [run, hmiddle]
    exact hnext

/-- The history undoes itself, one rune at a time. -/
theorem Sound.rewind {r : Reader} {last : Position} (h : r.Sound last) {n : Nat}
    (hn : n ≤ r.history.length) :
    ∃ back, r.rewind n = .ok (some back) ∧ back.Sound last ∧
      back.history = r.history.drop n ∧ back.source = r.source := by
  induction n generalizing r with
  | zero => exact ⟨r, rfl, h, rfl, rfl⟩
  | succ n ih =>
    rcases hr : r.history with _ | ⟨width, widths⟩
    · rw [hr, List.length_nil] at hn
      omega
    · obtain ⟨before, hbefore, hsound, hwidths, hsource, -⟩ := h.retreat_cons hr
      rw [hr, List.length_cons] at hn
      obtain ⟨back, hback, hsound', hhistory, hsource'⟩ := ih hsound (by rw [hwidths]; omega)
      refine ⟨back, ?_, hsound', ?_, hsource'.trans hsource⟩
      · rw [Reader.rewind, hbefore]
        exact hback
      · rw [hhistory, hwidths, List.drop_succ_cons]

/-- Positions are a function of the offset. In a source whose length leaves room for one more count,
every permitted run from the start succeeds, and the reader behind it stands at a boundary, with the
position of that offset, and can read on without leaving the widths of its counts. From there the
history can be undone to its end. Each step back goes to the boundary one rune before, with the
position of its offset, and the last one to the place of the last jump, where no further step back
is possible. -/
theorem run_position (source : Bytes) (hlen : source.length + 1 < countBound) (ops : List Op)
    (hops : Permitted ops (start source)) :
    ∃ r last, run ops (start source) .start = .ok (r, last) ∧
      Boundary source r.offset ∧ r.pos = Position.ofOffset source r.offset ∧ r.pos.Fits ∧
      r.advance.pos.Fits ∧
      (∀ n < r.history.length, ∃ here before, r.rewind n = .ok (some here) ∧
        here.retreat = .ok (some before) ∧ Boundary source before.offset ∧
        before.pos = Position.ofOffset source before.offset ∧
        before.offset + (Rune.decodeAt source before.offset).2 = here.offset) ∧
      ∃ back, r.rewind r.history.length = .ok (some back) ∧ back.pos = last ∧
        back.retreat = .ok none := by
  obtain ⟨r, last, hrun, hsound, hsource⟩ := run_sound (start_sound source) hops
  have hsource : r.source = source := hsource
  refine ⟨r, last, hrun, ?_, ?_, ?_, ?_, ?_, ?_⟩
  · rw [← hsource]
    exact hsound.canonical.boundary
  · rw [← hsource]
    exact hsound.canonical.pos_eq
  · rw [← hsource] at hlen
    exact hsound.canonical.fits hlen
  · rw [← hsource, ← source_advance] at hlen
    exact hsound.advance.canonical.fits hlen
  · -- After fewer steps back than there is history, a width is left for one more.
    intro n hn
    obtain ⟨here, hhere, hsound', hhistory, hsource'⟩ := hsound.rewind (Nat.le_of_lt hn)
    have hcons : here.history = r.history[n] :: r.history.drop (n + 1) := by
      rw [hhistory, List.drop_eq_getElem_cons hn]
    obtain ⟨before, hbefore, hsound'', -, hsource'', hoff⟩ := hsound'.retreat_cons hcons
    have hb : before.source = source := hsource''.trans (hsource'.trans hsource)
    refine ⟨here, before, hhere, hbefore, ?_, ?_, ?_⟩
    · rw [← hb]
      exact hsound''.canonical.boundary
    · rw [← hb]
      exact hsound''.canonical.pos_eq
    · rw [← hsource, ← hsource']
      exact hoff
  · -- After as many, none is left, and the reader stands where the last jump went.
    obtain ⟨back, hback, hsound', hhistory, -⟩ := hsound.rewind (Nat.le_refl _)
    rw [List.drop_length] at hhistory
    obtain ⟨hretreat, hpos⟩ := hsound'.retreat_nil hhistory
    exact ⟨back, hback, hpos, hretreat⟩

/-- Two lines, of which the second starts with a byte that is no rune: the reader reads beyond the
newline, jumps behind the damaged byte, reads on, and undoes that. -/
theorem run_position_damaged :
    Permitted [.advance, .advance, .seek 3, .advance, .retreat] (start [0x61, 0x0A, 0xC3, 0x62]) ∧
      ∃ r last, run [.advance, .advance, .seek 3, .advance, .retreat]
          (start [0x61, 0x0A, 0xC3, 0x62]) .start = .ok (r, last) ∧
        r.pos = Position.ofOffset [0x61, 0x0A, 0xC3, 0x62] r.offset := by
  have hops : Permitted [.advance, .advance, .seek 3, .advance, .retreat]
      (start [0x61, 0x0A, 0xC3, 0x62]) := by
    have hb : Boundary [0x61, 0x0A, 0xC3, 0x62] 3 :=
      (((Boundary.zero _).next (by decide)).next (by decide)).next (by decide)
    refine ⟨trivial, fun r hr => ?_⟩
    obtain rfl := Except.ok.inj hr
    refine ⟨trivial, fun r hr => ?_⟩
    obtain rfl := Except.ok.inj hr
    refine ⟨fun _ => ?_, fun r hr => ⟨trivial, fun r hr => ⟨trivial, fun _ _ => trivial⟩⟩⟩
    rw [source_advance, source_advance]
    exact hb
  obtain ⟨r, last, hrun, -, hpos, -⟩ := run_position [0x61, 0x0A, 0xC3, 0x62] (by decide) _ hops
  exact ⟨hops, r, last, hrun, hpos⟩

end Reader

end SqlTokens
