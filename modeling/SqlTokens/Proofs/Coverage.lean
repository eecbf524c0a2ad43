import SqlTokens.Proofs.Calls

/-!
# Every byte once

The tokens of a source and what stands between them make up the source: no byte is lost and none is
read twice. `Scanner.pieces` is the run of scans up to the end, each token with the offset where its
scan leaves the scanner, and `Laid` says that a source is laid out in such pieces. The gaps are of
the grammar of `Trivia`, and a token whose text is not rewritten has the bytes of its piece.
-/

namespace SqlTokens

/-- Whether a source is laid out, from an offset on and with a vendor comment open or not, in pieces
of which each is a token with the offset behind it. -/
inductive Laid (source : Bytes) : Nat → Bool → List (Token × Nat) → Prop where
  /-- Behind the last token there is nothing but what stands between tokens. -/
  | done {first : Nat} {vendor vendor' : Bool} : first ≤ source.length →
      Trivia first vendor (source.drop first) [] vendor' → Laid source first vendor []
  /-- A token stands behind a gap, and the source goes on behind it. -/
  | token {first stop : Nat} {vendor vendor' : Bool} {t : Token} {rest : List (Token × Nat)} :
      first ≤ t.pos.offset → t.pos.offset < stop → stop ≤ source.length →
      Trivia first vendor ((source.take t.pos.offset).drop first) (source.drop t.pos.offset)
        vendor' →
      (t.kind.isRewritten = false → t.text = (source.take stop).drop t.pos.offset) →
      Laid source stop vendor' rest → Laid source first vendor ((t, stop) :: rest)

/-- A search for a token lays out what it reads: the rest of the source if it comes to the end, and
else a gap and a piece that is not empty. -/
theorem Finds.laid {s s' : State} {c next : Cursor} {t : Token} (h : Finds s c t next s')
    (hc : c.offset ≤ c.source.length) :
    (¬t.pos.offset < next.offset ∧ Laid c.source c.offset s.inVendorBlock []) ∨
      (t.pos.offset < next.offset ∧ ∀ rest, Laid c.source next.offset s'.inVendorBlock rest →
        Laid c.source c.offset s.inVendorBlock ((t, next.offset) :: rest)) := by
  have hprogress := h.progress hc
  rcases h with ⟨hcross, hend, -⟩ | ⟨hcross, hend, hspans, -, -⟩
  · -- What is crossed goes up to the end of the source, and nothing follows it.
    left
    have htrivia := hcross.trivia
    have hle := Cursor.atEnd_iff.mp hend
    rw [hcross.reaches.source_eq] at hle
    rw [Cursor.upTo_eq, Cursor.atEnd_iff_ahead.mp hend, List.take_of_length_le hle] at htrivia
    exact ⟨Nat.lt_irrefl _, .done hc htrivia⟩
  · -- What is crossed is the gap, and what the lexeme spans is the piece behind it.
    rename_i first l
    right
    have hlt : first.offset < l.stop.offset :=
      Nat.lt_of_lt_of_le (Cursor.offset_lt_advance hend) hspans.reaches.offset_le
    have hall := hcross.reaches.advance.trans hspans.reaches
    have hle := hall.le_length hc
    have htrivia := hcross.trivia
    rw [hall.source_eq] at hle
    rw [Cursor.upTo_eq, first.ahead_eq, hcross.reaches.source_eq] at htrivia
    refine ⟨hlt, fun rest hrest => .token hcross.reaches.offset_le hlt hle htrivia ?_ hrest⟩
    intro hkind
    have htext := hspans.text_eq hkind
    rw [Cursor.upTo_eq, hcross.reaches.source_eq] at htext
    exact htext

namespace Scanner

/-- A scan whose token is not empty has read on. -/
theorem remaining_scan_lt_of_piece {s : Scanner}
    (h : s.scan.1.pos.offset < s.scan.2.cursor.offset) : s.scan.2.remaining < s.remaining := by
  have key (table : Table) (config : Config) (state : State) (c : Cursor) :
      (nextToken table config state c).1.pos.offset <
          (nextToken table config state c).2.1.offset →
        (nextToken table config state c).2.1.remaining < c.remaining := by
    fun_induction nextToken table config state c with
    | case1 state c t next state' hstep =>
      intro hlt
      rcases hend : (c.skipWhile Rune.isSpace).atEnd with _ | _
      · have hreads := step_reads table config state hend
        rw [hstep] at hreads
        exact hreads
      · -- At the end the token has no bytes.
        rw [step] at hstep
        simp only [hend, if_true, Outcome.token.injEq] at hstep
        obtain ⟨rfl, rfl, -⟩ := hstep
        exact absurd hlt (Nat.lt_irrefl _)
    | case2 state c next state' hstep ih =>
      exact fun hlt => Nat.lt_trans (ih hlt) (step_reads_of_trivia hstep)
  exact key s.table s.config s.state s.cursor h

/-- The tokens up to the end of the source, each with the offset where its scan leaves the scanner.
The end is where a scan yields a token without bytes. -/
def pieces (s : Scanner) : List (Token × Nat) :=
  if _h : s.scan.1.pos.offset < s.scan.2.cursor.offset then
    (s.scan.1, s.scan.2.cursor.offset) :: pieces s.scan.2
  else []
termination_by s.remaining
decreasing_by exact remaining_scan_lt_of_piece _h

variable {entries : List Entry} {s : Scanner}

/-- A scanner lays out the rest of its source. -/
theorem Placed.laid (h : s.Placed entries) :
    Laid s.cursor.source s.cursor.offset s.state.inVendorBlock s.pieces := by
  fun_induction pieces s with
  | case1 s hlt ih =>
    have hrest := ih h.scan
    rw [h.scan_finds.reaches.source_eq] at hrest
    rcases h.scan_finds.laid h.canonical.le_length with ⟨hnot, -⟩ | ⟨-, hlaid⟩
    · exact absurd hlt hnot
    · exact hlaid _ hrest
  | case2 s hnot =>
    rcases h.scan_finds.laid h.canonical.le_length with ⟨-, hlaid⟩ | ⟨hlt, -⟩
    · exact hlaid
    · exact absurd hlt hnot

/-- No byte is lost and none is read twice: with whatever vocabulary and settings, the tokens of a
source and what stands between them make up the source. -/
theorem start_laid (entries : List Entry) (config : Config) (source : Bytes) :
    Laid source 0 false (start (.ofEntries entries) config source).pieces :=
  (start_placed entries config source).laid

end Scanner

end SqlTokens
