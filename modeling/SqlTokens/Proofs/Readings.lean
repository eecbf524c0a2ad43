import SqlTokens.Proofs.Errors
import SqlTokens.Proofs.Histories
import SqlTokens.Proofs.Kinds

/-!
# Raw and resolved readings

Tokens are read raw or resolved, and much of what holds of the one reading holds of the other
(`Reading`): both move on, both end at the end of the source, and with the standard table only there
(`Reading.atEnd_of_isEnd`), since no word of the vocabulary ends the input. With that table, too,
both take a semicolon for a token by itself (`Reading.semicolon`).
-/

namespace SqlTokens

/-- The ways to read tokens. -/
inductive Reading where
  /-- The tokens are taken as they are read. -/
  | raw
  /-- The tokens are resolved. -/
  | resolved

namespace Reading

/-- The next token, and the scanner behind it. -/
def read : Reading → Scanner → Token × Scanner
  | raw, s => s.scan
  | resolved, s => s.lex

/-- The tokens up to the one that ends the stream, that one included, and the scanner behind. -/
def readAll : Reading → Scanner → List Token × Scanner
  | raw, s => s.scanAll
  | resolved, s => s.lexAll

/-- The first tokens, as many as the number says. -/
def first (m : Reading) : Nat → Scanner → List Token
  | 0, _ => []
  | n + 1, s => (m.read s).1 :: m.first n (m.read s).2

/-- The scanner behind the first tokens. -/
def after (m : Reading) : Nat → Scanner → Scanner
  | 0, s => s
  | n + 1, s => m.after n (m.read s).2

variable (m : Reading) {entries : List Entry} {s : Scanner}

/-- The last of several readings comes behind the others. -/
theorem after_succ (n : Nat) (s : Scanner) : m.after (n + 1) s = (m.read (m.after n s)).2 := by
  induction n generalizing s with
  | zero => rfl
  | succ n ih => exact ih (m.read s).2

/-- The last of several tokens comes behind the others. -/
theorem first_succ (n : Nat) (s : Scanner) :
    m.first (n + 1) s = m.first n s ++ [(m.read (m.after n s)).1] := by
  induction n generalizing s with
  | zero => rfl
  | succ n ih =>
    rw [first, ih]
    rfl

/-- A stream ends with the first token that ends the input. -/
theorem readAll_unfold (s : Scanner) : m.readAll s =
    if (m.read s).1.isEnd then ([(m.read s).1], (m.read s).2)
    else ((m.read s).1 :: (m.readAll (m.read s).2).1, (m.readAll (m.read s).2).2) := by
  cases m with
  | raw => rw [readAll, Scanner.scanAll]; rfl
  | resolved => rw [readAll, Scanner.lexAll]; rfl

/-- A stream consists of the first tokens up to the one that ends the input. -/
theorem readAll_eq (n : Nat) (s : Scanner)
    (hbefore : ∀ i < n, (m.read (m.after i s)).1.isEnd = false)
    (hend : (m.read (m.after n s)).1.isEnd = true) :
    m.readAll s = (m.first (n + 1) s, m.after (n + 1) s) := by
  induction n generalizing s with
  | zero =>
    rw [readAll_unfold, if_pos (show (m.read s).1.isEnd = true from hend)]
    rfl
  | succ n ih =>
    have hfirst : (m.read s).1.isEnd = false := hbefore 0 (Nat.succ_pos n)
    have hrest := ih (m.read s).2 (fun i hi => hbefore (i + 1) (Nat.succ_lt_succ hi)) hend
    rw [readAll_unfold, hrest, if_neg (by rw [hfirst]; decide)]
    rfl

/-- Reading keeps a scanner in its place. -/
theorem read_placed (h : s.Placed entries) : (m.read s).2.Placed entries := by
  cases m with
  | raw => exact h.scan
  | resolved => exact h.lex

/-- Reading keeps a scanner in its place. -/
theorem after_placed (n : Nat) (h : s.Placed entries) : (m.after n s).Placed entries := by
  induction n generalizing s with
  | zero => exact h
  | succ n ih => exact ih (m.read_placed h)

/-- Reading moves on. -/
theorem read_reaches (h : s.Placed entries) : s.cursor.Reaches (m.read s).2.cursor := by
  cases m with
  | raw => exact h.scan_progresses.1
  | resolved => exact h.lex_progresses.1

/-- The later of two readings has moved on from the earlier. -/
theorem after_reaches (h : s.Placed entries) {i n : Nat} (hi : i ≤ n) :
    (m.after i s).cursor.Reaches (m.after n s).cursor := by
  induction n, hi using Nat.le_induction with
  | base => exact .refl _
  | succ n hi ih =>
    rw [after_succ]
    exact ih.trans (m.read_reaches (m.after_placed n h))

/-- Reading stays in the source. -/
theorem source_after (h : s.Placed entries) (n : Nat) :
    (m.after n s).cursor.source = s.cursor.source :=
  (m.after_reaches h (Nat.zero_le n)).source_eq

/-- At the end both ways of reading find the end, and stay there. -/
theorem read_of_atEnd (h : s.cursor.atEnd = true) : s.FindsEnd (m.read s) := by
  cases m with
  | raw => exact (Scanner.read_of_atEnd h).1
  | resolved => exact (Scanner.read_of_atEnd h).2

end Reading

/-! ## The standard table -/

namespace Scanner

/-- A resolved token of a kind that is neither that of a word nor one that only resolution gives is
a raw token of that kind. -/
theorem Relabels.kind_eq {entries : List Entry} {raw t : Token}
    (h : Relabels (.ofEntries entries) raw t)
    (hwords : ∀ e ∈ entries, e.role ≠ .operator → e.kind ≠ t.kind)
    (hother : t.kind ∉ [TokenKind.tightNot, .charsetIntroducer, .identifier, .pipesAsOr]) :
    raw.kind = t.kind := by
  simp only [List.mem_cons, List.not_mem_nil, or_false, not_or] at hother
  obtain ⟨hnot, hcharset, hidentifier, hbars⟩ := hother
  cases h with
  | same => rfl
  | word _ hword hkind =>
    obtain ⟨e, he, hrole, hentry⟩ :=
      (Table.ofEntries_lists entries).words _ _ (Table.find?_of_keyword? hword)
    rcases hkind with hkind | ⟨-, hkind⟩
    · exact absurd (hentry.trans hkind.symm) (hwords e he hrole)
    · exact absurd hkind hnot
  | introducer => exact absurd rfl hcharset
  | backticks => exact absurd rfl hidentifier
  | quotationMarks => exact absurd rfl hidentifier
  | bars => exact absurd rfl hbars

end Scanner

namespace Reading

/-- A token of the kind of the semicolon or of the end has been read raw as such. -/
theorem kind_scan (m : Reading) {s : Scanner} (h : s.Placed Vocabulary.standard) {kind : TokenKind}
    (hkind : kind = .ofChar ';' ∨ kind = .eof) (ht : (m.read s).1.kind = kind) :
    s.scan.1.kind = kind := by
  cases m with
  | raw => exact ht
  | resolved =>
    have hrelabels := Scanner.resolve_relabels s.scan.2 s.scan.1
    rw [h.scan.table_eq] at hrelabels
    have hresolved : (s.scan.2.resolve s.scan.1).kind = kind := ht
    rw [hrelabels.kind_eq ?_ ?_, hresolved]
    · rw [hresolved]
      intro e he hrole heq
      rcases hkind with rfl | rfl
      · exact hrole (Vocabulary.standard_lone ';' (by decide) e he heq).1
      · exact Vocabulary.standard_ne (by decide) e he heq
    · rw [hresolved]
      rcases hkind with rfl | rfl
      · decide
      · decide

/-- The cursor behind a token is the same for both readings. -/
theorem cursor_read (m : Reading) (s : Scanner) : (m.read s).2.cursor = s.scan.2.cursor := by
  cases m with
  | raw => rfl
  | resolved => rfl

/-- The position of a token is the same for both readings. -/
theorem pos_read (m : Reading) (s : Scanner) : (m.read s).1.pos = s.scan.1.pos := by
  cases m with
  | raw => rfl
  | resolved => exact Scanner.resolve_pos _ _

/-- A token of the kind of the semicolon is a semicolon. -/
theorem semicolon (m : Reading) {s : Scanner} (h : s.Placed Vocabulary.standard)
    (ht : (m.read s).1.kind = .ofChar ';') :
    ∃ first, s.cursor.Reaches first ∧ first.rune.is ';' = true ∧ (m.read s).1.pos = first.pos ∧
      (m.read s).2.cursor = first.advance := by
  have hscan := m.kind_scan h (.inl rfl) ht
  obtain ⟨first, s', s'', hreach, hpos, hstep⟩ := h.scan_step (by rw [hscan]; decide)
  have hlone : ';' ∈ Vocabulary.lone := by decide
  have hrune := rune_of_stepAt _ _ hlone hstep hscan
  have hboth := hstep.symm.trans (stepAt_of_lone s.config s' hlone hrune)
  simp only [Outcome.ofLexeme, Outcome.token.injEq] at hboth
  exact ⟨first, hreach, hrune, by rw [pos_read, hpos], by rw [cursor_read]; exact hboth.2.1⟩

/-- With the standard table a stream ends at the end of the source. -/
theorem atEnd_of_isEnd (m : Reading) {s : Scanner} (h : s.Placed Vocabulary.standard)
    (ht : (m.read s).1.isEnd = true) : (m.read s).2.cursor.atEnd = true := by
  have hscan := m.kind_scan h (.inr rfl) (eq_of_beq ht)
  obtain ⟨first, s', -, -, -, -, ⟨hend, hfound⟩ | ⟨t, next, s'', hstep, hfound⟩⟩ :=
    nextToken_last Vocabulary.standard s.config s.state h.canonical.le_length
  · rw [cursor_read, Scanner.scan_cursor, h.table_eq, hfound]
    exact hend
  · rw [Scanner.scan_token, h.table_eq, hfound] at hscan
    exact absurd hscan (ne_eof_of_stepAt _ _ hstep)

/-- No token up to a semicolon ends the stream. -/
theorem isEnd_eq_false_of_semicolon (m : Reading) {s : Scanner}
    (h : s.Placed Vocabulary.standard) {n : Nat}
    (hsemi : (m.read (m.after n s)).1.kind = .ofChar ';') {i : Nat} (hi : i ≤ n) :
    (m.read (m.after i s)).1.isEnd = false := by
  rcases Nat.lt_or_eq_of_le hi with hlt | rfl
  · rw [Bool.eq_false_iff]
    intro hend
    -- From the end on there would be no rune left for the semicolon.
    obtain ⟨first, hreach, hrune, -⟩ := m.semicolon (m.after_placed n h) hsemi
    have hlast := m.atEnd_of_isEnd (m.after_placed i h) hend
    rw [← after_succ] at hlast
    have hall : (m.after (i + 1) s).cursor.Reaches first :=
      (m.after_reaches h (Nat.succ_le_of_lt hlt)).trans hreach
    have hnot := Cursor.atEnd_eq_false_iff.mp (Cursor.atEnd_eq_false_of_is hrune)
    have hle := Nat.le_trans (Cursor.atEnd_iff.mp hlast) hall.offset_le
    rw [hall.source_eq] at hnot
    omega
  · rw [Token.isEnd, hsemi]
    decide

end Reading

end SqlTokens
