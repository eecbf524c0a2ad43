import SqlTokens.Scanner.Stream
import SqlTokens.Proofs.Copies
import SqlTokens.Proofs.Readers
import SqlTokens.Proofs.Steps

/-!
# Calls of a scanner

What a caller can do with a scanner, and what every call comes to. Whatever calls were made before,
the scanner has the table it started with and stands on the walk through its source (`Placed`), and
every call keeps that (`Op.apply_placed`). From there a scan either comes to the end of the source
or yields a token that starts at or behind the scanner and ends behind its start
(`Placed.scan_progresses`), so as many scans as the source has bytes come to the end, where every
further scan finds the same token and nothing to report (`Placed.scans_end`).

In a source whose length leaves room for one more count, every place that a call can come to is safe
(`Cursor.Safe`): no count and no look-ahead leaves its width, a reader can jump there, and no slice
of a quoted text that starts there falls out of the source.
-/

namespace SqlTokens

/-! ## Safe places -/

/-- A place from which reading on cannot fail. -/
structure Cursor.Safe (c : Cursor) : Prop where
  /-- The place lies within its source. -/
  within : c.offset ≤ c.source.length
  /-- The counts of the position keep to their widths. -/
  fits : c.pos.Fits
  /-- Moving on does not take a count out of its width. -/
  step : c.atEnd = false → c.pos.step? c.rune c.width = .ok c.advance.pos
  /-- Looking ahead does not take the offset out of its width. -/
  look : ∀ n < countBound, c.offset + n < offsetBound
  /-- A reader of the source can jump to the place, unless that is the end. -/
  seek : ∀ (r : Reader) (last : Position), r.Sound last → r.source = c.source → c.atEnd = false →
    ∃ there, r.seek? c.offset = some there ∧ there.cursor = c
  /-- A quoted text that starts at the place is copied without fail. -/
  copy : ∀ quote ∈ ['\'', '"', '\x60'], ∀ escapes,
    Lexeme.copy? (.ofChar quote) escapes ⟨[], c.offset⟩ c =
      some (Lexeme.enclosed (.ofChar quote) escapes c)

/-- In a source of bounded length every place on the walk is safe. -/
theorem Cursor.Canonical.safe {c : Cursor} (h : c.Canonical)
    (hlen : c.source.length + 1 < countBound) : c.Safe where
  within := h.le_length
  fits := h.fits hlen
  step hend := by
    rw [Position.step?_eq_ok_iff]
    have hstep : c.pos.step c.rune c.width = c.advance.pos := by
      rw [Cursor.advance, if_neg (by rw [hend]; decide)]
    have hfits := h.advance.fits (by rwa [source_advance])
    rw [hstep]
    exact ⟨hfits, rfl⟩
  look n hn := by
    have hle := h.le_length
    simp only [countBound, offsetBound] at hlen hn ⊢
    omega
  seek _ _ hr hsource hend := hr.seek_cursor h hsource hend
  copy quote hquote escapes := by
    have hbyte : Rune.IsByte quote := by
      simp only [List.mem_cons, List.not_mem_nil, or_false] at hquote
      rcases hquote with rfl | rfl | rfl <;> decide
    exact Lexeme.copy?_start hbyte escapes h.le_length

namespace Scanner

/-! ## Calls and runs -/

/-- A call of a scanner. A scanner is restarted whether it is itself set to another source or makes
a new scanner for it. An iteration over tokens that is broken off is a number of scans. -/
inductive Op where
  /-- The next raw token is read. -/
  | scan
  /-- The next resolved token is read. -/
  | lex
  /-- The raw tokens are read up to the one that ends the stream. -/
  | tokens
  /-- The mode is changed. -/
  | setMode (mode : SqlMode)
  /-- A version number is read. -/
  | skipVersion (least most : Nat)
  /-- Another source is read with the same table and settings. -/
  | restart (source : Bytes)

/-- The scanner behind a call. -/
def Op.apply : Op → Scanner → Scanner
  | scan, s => s.scan.2
  | lex, s => s.lex.2
  | tokens, s => s.tokens.2
  | setMode mode, s => s.setMode mode
  | skipVersion least most, s => s.skipVersion least most
  | restart source, s => s.restart source

/-- Whether a call brings no source that is too long. -/
def Op.Short : Op → Prop
  | restart source => source.length + 1 < countBound
  | _ => True

/-- The scanner behind some calls. -/
def run (ops : List Op) (s : Scanner) : Scanner := ops.foldl (fun s op => op.apply s) s

/-- The scanner behind a number of scans. -/
def scans (s : Scanner) : Nat → Scanner
  | 0 => s
  | n + 1 => (s.scans n).scan.2

/-- What a call that reads a token comes to: the end of the source with the token that stands for
it, or a token that starts at or behind the scanner and before the place where the call leaves it.
-/
def Progresses (s : Scanner) (call : Token × Scanner) : Prop :=
  s.cursor.Reaches call.2.cursor ∧
    ((call.2.cursor.offset = s.cursor.source.length ∧ call.1 = .endAt call.2.cursor.pos) ∨
      (s.cursor.offset ≤ call.1.pos.offset ∧ call.1.pos.offset < call.2.cursor.offset))

/-! ## What every call keeps -/

/-- Whether a scanner has the table of a vocabulary and stands on the walk through its source. -/
structure Placed (entries : List Entry) (s : Scanner) : Prop where
  /-- The table is the one of the vocabulary. -/
  table_eq : s.table = .ofEntries entries
  /-- The scanner stands between two runes, with the position of that place. -/
  canonical : s.cursor.Canonical

variable {entries : List Entry} {s : Scanner}

/-- A scanner starts on the walk. -/
theorem start_placed (entries : List Entry) (config : Config) (source : Bytes) :
    (start (.ofEntries entries) config source).Placed entries :=
  ⟨rfl, Cursor.canonical_start source⟩

/-- The token of a scan is the one that the search finds. -/
theorem scan_token (s : Scanner) :
    s.scan.1 = (nextToken s.table s.config s.state s.cursor).1 := rfl

/-- A scan leaves the scanner where the search ends. -/
theorem scan_cursor (s : Scanner) :
    s.scan.2.cursor = (nextToken s.table s.config s.state s.cursor).2.1 := rfl

/-- A scan notes its token in the state that the search ends with. -/
theorem scan_state (s : Scanner) :
    s.scan.2.state = settle s.table (nextToken s.table s.config s.state s.cursor).1
      (nextToken s.table s.config s.state s.cursor).2.1
      (nextToken s.table s.config s.state s.cursor).2.2 := rfl

/-- A scan is a search for a token; what it notes about the token touches neither the errors nor the
vendor comment. -/
theorem Placed.scan_finds (h : s.Placed entries) :
    Finds s.state s.cursor s.scan.1 s.scan.2.cursor s.scan.2.state := by
  have hfinds := nextToken_finds entries s.config s.state s.cursor h.canonical.le_length
  rw [← h.table_eq] at hfinds
  rw [scan_token, scan_cursor, scan_state]
  refine hfinds.settled ?_ ?_
  · rfl
  · rfl

/-- A scan that does not come to the end finds its token by a step where the token starts. -/
theorem Placed.scan_step (h : s.Placed entries) (hend : s.scan.1.kind ≠ .eof) :
    ∃ first s' s'', s.cursor.Reaches first ∧ s.scan.1.pos = first.pos ∧
      stepAt (.ofEntries entries) s.config s' first = .token s.scan.1 s.scan.2.cursor s'' := by
  obtain ⟨first, s', hreach, hpos, -, -, ⟨-, hfound⟩ | ⟨t, next, s'', hstep, hfound⟩⟩ :=
    nextToken_last entries s.config s.state h.canonical.le_length
  · rw [scan_token, h.table_eq, hfound] at hend
    exact absurd rfl hend
  · refine ⟨first, s', s'', hreach, ?_, ?_⟩
    · rw [scan_token, h.table_eq, hpos]
    · rw [scan_token, scan_cursor, h.table_eq, hfound]
      exact hstep

/-- A scan keeps a scanner in its place. -/
theorem Placed.scan (h : s.Placed entries) : s.scan.2.Placed entries :=
  ⟨h.table_eq, h.scan_finds.reaches.canonical h.canonical⟩

/-- Reading raw tokens up to the end of the stream keeps a scanner in its place. -/
theorem Placed.scanAll (h : s.Placed entries) : s.scanAll.2.Placed entries := by
  fun_induction Scanner.scanAll s with
  | case1 s t next hscan _ =>
    have hnext := h.scan
    rw [hscan] at hnext
    exact hnext
  | case2 s t next hscan _ rest ih =>
    have hnext := h.scan
    rw [hscan] at hnext
    exact ih hnext

/-- Every call keeps a scanner in its place. -/
theorem Op.apply_placed (op : Op) (h : s.Placed entries) : (op.apply s).Placed entries := by
  rcases op with _ | _ | _ | mode | ⟨least, most⟩ | source
  · exact h.scan
  · exact ⟨h.table_eq, h.scan.canonical⟩
  · exact h.scanAll
  · exact ⟨h.table_eq, h.canonical⟩
  · exact ⟨h.table_eq, (Lexeme.version_reaches least most s.cursor).canonical h.canonical⟩
  · exact ⟨h.table_eq, Cursor.canonical_start source⟩

/-- Every run keeps a scanner in its place. -/
theorem run_placed (ops : List Op) (h : s.Placed entries) : (s.run ops).Placed entries := by
  induction ops generalizing s with
  | nil => exact h
  | cons op ops ih => exact ih (op.apply_placed h)

/-! ## Progress -/

/-- A scan makes progress. -/
theorem Placed.scan_progresses (h : s.Placed entries) : s.Progresses s.scan :=
  ⟨h.scan_finds.reaches, h.scan_finds.progress h.canonical.le_length⟩

/-- Resolution leaves a token where it starts. -/
theorem resolve_pos (s : Scanner) (t : Token) : (s.resolve t).pos = t.pos := by
  have hname : (s.resolveName t).pos = t.pos := by
    unfold resolveName
    repeat' split
    all_goals rfl
  unfold resolve
  repeat' split
  · exact hname
  all_goals rfl

/-- Resolution leaves a token as it is, unless it is a name, a string or two bars. -/
theorem resolve_of_kind {s : Scanner} {t : Token}
    (h : t.kind ∉ [TokenKind.identifier, .quotedIdentifier, .stringLiteral, .pipes]) :
    s.resolve t = t := by
  simp only [List.mem_cons, List.not_mem_nil, or_false, not_or] at h
  obtain ⟨hidentifier, hquoted, hstring, hpipes⟩ := h
  rw [resolve, if_neg hidentifier, if_neg hquoted, if_neg fun h => hstring h.1,
    if_neg fun h => hpipes h.1]

/-- Resolution leaves the token at the end of the source as it is. -/
theorem resolve_endAt (s : Scanner) (pos : Position) : s.resolve (.endAt pos) = .endAt pos :=
  resolve_of_kind (show TokenKind.eof ∉ _ by decide)

/-- Reading a resolved token makes progress. -/
theorem Placed.lex_progresses (h : s.Placed entries) : s.Progresses s.lex := by
  -- Resolution keeps the place of a token, and the scanner is where the scan has left it.
  obtain ⟨hreach, ⟨hoff, htoken⟩ | ⟨hle, hlt⟩⟩ := h.scan_progresses
  · refine ⟨hreach, .inl ⟨hoff, ?_⟩⟩
    show s.scan.2.resolve s.scan.1 = _
    rw [htoken]
    exact resolve_endAt _ _
  · have hpos : s.lex.1.pos = s.scan.1.pos := resolve_pos _ _
    refine ⟨hreach, .inr ⟨?_, ?_⟩⟩
    · rw [hpos]
      exact hle
    · rw [hpos]
      exact hlt

/-! ## The end -/

/-- At the end a scan finds the end, and neither moves nor reports anything. -/
theorem scan_of_atEnd (h : s.cursor.atEnd = true) :
    s.scan.1 = .endAt s.cursor.pos ∧ s.scan.2.cursor = s.cursor ∧
      s.scan.2.state.errors = s.state.errors ∧ s.scan.2.state.warnings = s.state.warnings := by
  rw [scan_token, scan_cursor, scan_state, nextToken_of_atEnd s.config s.table s.state h]
  exact ⟨rfl, rfl, rfl, rfl⟩

/-- Each scan before the end uses up at least one byte. -/
theorem Placed.scans (h : s.Placed entries) (n : Nat) :
    (s.scans n).Placed entries ∧ (s.scans n).cursor.source = s.cursor.source ∧
      ((s.scans n).cursor.atEnd = true ∨ s.cursor.offset + n ≤ (s.scans n).cursor.offset) := by
  induction n with
  | zero => exact ⟨h, rfl, .inr (Nat.le_refl _)⟩
  | succ n ih =>
    obtain ⟨hn, hsource, hfar⟩ := ih
    obtain ⟨hreach, hprogress⟩ := hn.scan_progresses
    refine ⟨hn.scan, hreach.source_eq.trans hsource, ?_⟩
    rw [Scanner.scans]
    rcases hprogress with ⟨hoff, -⟩ | ⟨hle, hlt⟩
    · left
      rw [Cursor.atEnd_iff, hoff, hreach.source_eq]
    · rcases hfar with hend | hfar
      · -- What is at the end stays there.
        left
        rw [(scan_of_atEnd hend).2.1]
        exact hend
      · -- The token starts at or behind the scanner, and the scan ends behind its start.
        right
        omega

/-- As many scans as bytes are left come to the end. -/
theorem Placed.atEnd_scans (h : s.Placed entries) {n : Nat} (hn : s.remaining ≤ n) :
    (s.scans n).cursor.atEnd = true := by
  obtain ⟨hplaced, hsource, hend | hfar⟩ := h.scans n
  · exact hend
  · rw [remaining, Cursor.remaining, s.cursor.ahead_eq, List.length_drop] at hn
    rw [Cursor.atEnd_iff, hsource]
    change _ - s.cursor.offset ≤ n at hn
    omega

/-- From the end on, every scan finds the same token and reports nothing. -/
theorem Placed.scans_end (h : s.Placed entries) :
    ∃ last : Position, last.offset = s.cursor.source.length ∧ ∀ n, s.remaining ≤ n →
      (s.scans n).cursor.pos = last ∧ (s.scans n).scan.1 = .endAt last ∧
        (s.scans n).state.errors = (s.scans s.remaining).state.errors ∧
        (s.scans n).state.warnings = (s.scans s.remaining).state.warnings := by
  obtain ⟨hplaced, hsource, -⟩ := h.scans s.remaining
  have hend := h.atEnd_scans (Nat.le_refl s.remaining)
  have hlast : (s.scans s.remaining).cursor.offset = s.cursor.source.length := by
    rw [← hsource]
    exact Nat.le_antisymm hplaced.canonical.le_length (Cursor.atEnd_iff.mp hend)
  refine ⟨(s.scans s.remaining).cursor.pos, hlast, fun n hn => ?_⟩
  -- One more scan at the end changes neither the place nor the reports.
  have hsame : (s.scans n).cursor = (s.scans s.remaining).cursor ∧
      (s.scans n).state.errors = (s.scans s.remaining).state.errors ∧
      (s.scans n).state.warnings = (s.scans s.remaining).state.warnings := by
    induction n, hn using Nat.le_induction with
    | base => exact ⟨rfl, rfl, rfl⟩
    | succ n hn ih =>
      obtain ⟨hcursor, herrors, hwarnings⟩ := ih
      obtain ⟨-, hstay, hquiet, hcalm⟩ := scan_of_atEnd (h.atEnd_scans hn)
      exact ⟨hstay.trans hcursor, hquiet.trans herrors, hcalm.trans hwarnings⟩
  obtain ⟨hcursor, herrors, hwarnings⟩ := hsame
  refine ⟨by rw [hcursor], ?_, herrors, hwarnings⟩
  rw [(scan_of_atEnd (h.atEnd_scans hn)).1, hcursor]

/-! ## Runs in short sources -/

/-- A call that brings no long source leaves a scanner in a short one. -/
theorem Op.apply_short {op : Op} (hop : op.Short) (h : s.Placed entries)
    (hlen : s.cursor.source.length + 1 < countBound) :
    (op.apply s).cursor.source.length + 1 < countBound := by
  have hall : s.scanAll.2.cursor.source = s.cursor.source := by
    fun_induction Scanner.scanAll s with
    | case1 s t next hscan _ =>
      have hreach := h.scan_finds.reaches
      rw [hscan] at hreach
      exact hreach.source_eq
    | case2 s t next hscan _ rest ih =>
      have hreach := h.scan_finds.reaches
      have hnext := h.scan
      rw [hscan] at hreach hnext
      rw [ih hnext (by rwa [hreach.source_eq]), hreach.source_eq]
  rcases op with _ | _ | _ | mode | ⟨least, most⟩ | source
  · rw [apply, h.scan_finds.reaches.source_eq]
    exact hlen
  · rw [apply, show s.lex.2.cursor = s.scan.2.cursor from rfl, h.scan_finds.reaches.source_eq]
    exact hlen
  · rw [apply, show s.tokens.2 = s.scanAll.2 from rfl, hall]
    exact hlen
  · exact hlen
  · have hreach := Lexeme.version_reaches least most s.cursor
    rw [apply, show (s.skipVersion least most).cursor = Lexeme.version least most s.cursor from rfl,
      hreach.source_eq]
    exact hlen
  · exact hop

/-- A run that brings no long source leaves a scanner in a short one. -/
theorem run_short {ops : List Op} (hops : ∀ op ∈ ops, op.Short) (h : s.Placed entries)
    (hlen : s.cursor.source.length + 1 < countBound) :
    (s.run ops).cursor.source.length + 1 < countBound := by
  induction ops generalizing s with
  | nil => exact hlen
  | cons op ops ih =>
    obtain ⟨hop, hrest⟩ := List.forall_mem_cons.mp hops
    exact ih hrest (op.apply_placed h) (Op.apply_short hop h hlen)

/-- Every call of a scanner succeeds and makes progress. Whatever calls were made before, in sources
whose lengths leave room for one more count, every place that the next call can come to is safe. A
scan, and so a reading of a resolved token, comes to the end of the source with the token that
stands for it, or to a token that starts at or behind the scanner and before the place where the
call leaves it. As many scans as bytes are left come to the end, and from there on every scan finds
the same token and reports nothing. -/
theorem run_progress (entries : List Entry) (config : Config) (source : Bytes)
    (hlen : source.length + 1 < countBound) (ops : List Op) (hops : ∀ op ∈ ops, op.Short)
    (s : Scanner) (hs : s = (start (.ofEntries entries) config source).run ops) :
    (∀ place, s.cursor.Reaches place → place.Safe) ∧ s.Progresses s.scan ∧ s.Progresses s.lex ∧
      ∃ last : Position, last.offset = s.cursor.source.length ∧ ∀ n, s.remaining ≤ n →
        (s.scans n).cursor.pos = last ∧ (s.scans n).scan.1 = .endAt last ∧
          (s.scans n).state.errors = (s.scans s.remaining).state.errors ∧
          (s.scans n).state.warnings = (s.scans s.remaining).state.warnings := by
  have hstart := start_placed entries config source
  have hplaced : s.Placed entries := by
    rw [hs]
    exact run_placed ops hstart
  have hshort : s.cursor.source.length + 1 < countBound := by
    rw [hs]
    exact run_short hops hstart hlen
  refine ⟨fun place hreach => ?_, hplaced.scan_progresses, hplaced.lex_progresses,
    hplaced.scans_end⟩
  exact (hreach.canonical hplaced.canonical).safe (by rwa [hreach.source_eq])

/-- A damaged source from which a version number is asked for, and then one with a string that is
not closed, under another mode. -/
theorem run_progress_damaged :
    (∀ op ∈ [Op.scan, .skipVersion 2 3, .setMode .empty, .restart [0x40, 0x27, 0x61], .lex],
      op.Short) ∧
      ∃ s, s = (start (.ofEntries []) {} [0xC3, 0x31, 0x2E]).run
          [.scan, .skipVersion 2 3, .setMode .empty, .restart [0x40, 0x27, 0x61], .lex] ∧
        s.cursor.Safe ∧ s.Progresses s.scan := by
  have hops : ∀ op ∈ [Op.scan, .skipVersion 2 3, .setMode .empty, .restart [0x40, 0x27, 0x61],
      .lex], op.Short := by
    simp [Op.Short, countBound]
  obtain ⟨hsafe, hscan, -⟩ := run_progress [] {} [0xC3, 0x31, 0x2E] (by decide) _ hops _ rfl
  exact ⟨hops, _, rfl, hsafe _ (.refl _), hscan⟩

end Scanner

end SqlTokens
