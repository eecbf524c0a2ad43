import SqlTokens.Proofs.Names
import SqlTokens.Proofs.Qualifiers

/-!
# Names of functions

The name of a built-in function is one in front of a parenthesis, and where the mode ignores blanks
they may stand between the two. Resolution looks at the bytes ahead and not at the next token, and
it has blanks of its own: all those of the scanner but the vertical tab (`isFunctionBlank_iff`). So
what it sees ahead is that the next token is a parenthesis and that the gap before it is as it
should be and has no vertical tab in it (`Placed.followedByParenthesis_iff`). `run_functions` says
what becomes of a name that way, behind every run of calls.
-/

namespace SqlTokens

/-- No function of the vocabulary has the kind of a negation. -/
theorem Vocabulary.standard_functions : ∀ e ∈ standard, e.role = .builtinFunction →
    e.kind ≠ .notWord := by
  decide +kernel

namespace Scanner

variable {s : Scanner}

/-- The bytes between a scanner and the next token. -/
def gap (s : Scanner) : Bytes := s.cursor.upTo s.head

/-- Whether the next token is a parenthesis that makes a call of the name before it. -/
structure OpensCall (s : Scanner) : Prop where
  /-- The token opens a parenthesis. -/
  kind_eq : s.scan.1.kind = .ofChar '('
  /-- Nothing stands before it, or nothing but blanks where the mode ignores them. -/
  gap_blank : s.gap = [] ∨
    s.config.has .ignoreSpace = true ∧ ∀ b ∈ s.gap, Rune.onByte Rune.isSpace b = true

/-! ## What lies ahead -/

/-- The blanks that may come before a parenthesis are those of the scanner, without the vertical
tab. -/
theorem isFunctionBlank_iff : ∀ b : UInt8,
    isFunctionBlank b = true ↔ Rune.onByte Rune.isSpace b = true ∧ b ≠ 0x0B :=
  Bytes.forall_byte (by decide +kernel)

/-- A parenthesis behind blanks is the next token. -/
theorem Placed.opens_of_ahead (h : s.Placed Vocabulary.standard) {blanks rest : Bytes}
    (hblanks : ∀ b ∈ blanks, Rune.onByte Rune.isSpace b = true)
    (hahead : s.cursor.ahead = blanks ++ 0x28 :: rest) :
    s.scan.1.kind = .ofChar '(' ∧ s.gap = blanks := by
  have hlone : '(' ∈ Vocabulary.lone := by decide
  have hstop : ∀ b ∈ (0x28 :: rest).head?, Rune.onByte Rune.isSpace b = false := by
    rintro b ⟨⟩
    decide
  obtain ⟨hgap, hbehind⟩ := Cursor.skipWhile_of_run Rune.isAscii_isSpace hblanks hstop hahead
  have hrune : (s.cursor.skipWhile Rune.isSpace).rune.is '(' = true := by
    rw [Cursor.rune_is_iff (by decide), hbehind]
    rfl
  have hlexeme := stepAt_of_lone s.config s.state hlone hrune
  rw [show Table.standard = s.table from h.table_eq.symm] at hlexeme
  obtain ⟨htoken, hhead⟩ := scan_of_lexeme rfl (Cursor.atEnd_eq_false_of_is hrune) hlexeme
  exact ⟨by rw [htoken]; rfl, by rw [gap, hhead, hgap]⟩

/-- The gap before a parenthesis comes next, and then the parenthesis. -/
theorem Placed.ahead_of_opens (h : s.Placed Vocabulary.standard)
    (hkind : s.scan.1.kind = .ofChar '(') : ∃ rest, s.cursor.ahead = s.gap ++ 0x28 :: rest := by
  have hlone : '(' ∈ Vocabulary.lone := by decide
  obtain ⟨s', s'', hstep⟩ := h.step_head (by rw [hkind]; decide)
  have hrune := rune_of_stepAt s.config s' hlone hstep hkind
  obtain ⟨rest, hrest⟩ := List.head?_eq_some_iff.mp ((Cursor.rune_is_iff (by decide)).mp hrune)
  exact ⟨rest, by rw [h.crosses_head.reaches.ahead_eq, hrest]; rfl⟩

/-- A parenthesis lies ahead, behind blanks where the mode ignores them, exactly if the next token
opens a call and no vertical tab stands before it. -/
theorem Placed.followedByParenthesis_iff (h : s.Placed Vocabulary.standard) :
    s.followedByParenthesis = true ↔ s.OpensCall ∧ 0x0B ∉ s.gap := by
  rw [followedByParenthesis, beq_iff_eq]
  constructor
  · intro hhead
    split at hhead
    · rename_i hignore
      obtain ⟨rest, hrest⟩ := List.head?_eq_some_iff.mp hhead
      have hblanks : ∀ b ∈ s.cursor.ahead.takeWhile isFunctionBlank,
          Rune.onByte Rune.isSpace b = true ∧ b ≠ 0x0B := fun b hb =>
        (isFunctionBlank_iff b).mp (List.all_eq_true.mp List.all_takeWhile b hb)
      have hahead : s.cursor.ahead = s.cursor.ahead.takeWhile isFunctionBlank ++ 0x28 :: rest := by
        rw [← hrest, List.takeWhile_append_dropWhile]
      obtain ⟨hkind, hgap⟩ := h.opens_of_ahead (fun b hb => (hblanks b hb).1) hahead
      rw [← hgap] at hblanks
      exact ⟨⟨hkind, .inr ⟨hignore, fun b hb => (hblanks b hb).1⟩⟩,
        fun htab => (hblanks _ htab).2 rfl⟩
    · obtain ⟨rest, hrest⟩ := List.head?_eq_some_iff.mp hhead
      have hnone : ∀ b ∈ ([] : Bytes), Rune.onByte Rune.isSpace b = true := List.forall_mem_nil _
      obtain ⟨hkind, hgap⟩ := h.opens_of_ahead hnone hrest
      exact ⟨⟨hkind, .inl hgap⟩, by rw [hgap]; exact List.not_mem_nil⟩
  · rintro ⟨⟨hkind, hgap⟩, htab⟩
    obtain ⟨rest, hahead⟩ := h.ahead_of_opens hkind
    have hstays : (0x28 :: rest).dropWhile isFunctionBlank = 0x28 :: rest :=
      List.dropWhile_cons_of_neg (by decide)
    rw [hahead]
    rcases hgap with hnil | ⟨hignore, hblanks⟩
    · rw [hnil, List.nil_append, hstays, ite_self, List.head?_cons]
    · have hskipped : ∀ b ∈ s.gap, isFunctionBlank b = true := fun b hb =>
        (isFunctionBlank_iff b).mpr ⟨hblanks b hb, fun hsame => htab (hsame ▸ hb)⟩
      rw [if_pos hignore, List.dropWhile_append_of_pos hskipped, hstays, List.head?_cons]

/-! ## What becomes of the name -/

/-- Functions are known by the parenthesis behind them. Behind every run of calls under the standard
table, a raw name that spells a built-in function, with no point at either side, takes the kind of
the function if the next token opens a call and there is no vertical tab in the gap before it, and
otherwise stays as it is. Position and text are those of the name either way. -/
theorem run_functions (config : Config) (source : Bytes) (ops : List Op) (s : Scanner)
    (hs : s = (start .standard config source).run ops) (hname : s.scan.1.kind = .identifier)
    (e : Entry) (he : e ∈ Vocabulary.standard) (hrole : e.role = .builtinFunction)
    (hspelled : e.SpelledBy s.scan.1.text) (hbefore : s.scan.2.byteBefore? s.scan.1 ≠ some 0x2E)
    (hbehind : s.scan.2.cursor.ahead.head? ≠ some 0x2E) :
    (s.lex.2.OpensCall ∧ 0x0B ∉ s.lex.2.gap → s.lex.1 = { s.scan.1 with kind := e.kind }) ∧
      (¬(s.lex.2.OpensCall ∧ 0x0B ∉ s.lex.2.gap) → s.lex.1 = s.scan.1) := by
  have hplaced : s.Placed Vocabulary.standard := by
    rw [hs]
    exact run_placed ops (start_placed Vocabulary.standard config source)
  have hresolved : s.lex.1 = s.scan.2.resolve s.scan.1 := rfl
  have happlies : s.scan.2.applies e.keyword = s.lex.2.followedByParenthesis := by
    rw [applies, Entry.keyword, hrole]
    rfl
  have hkind : s.scan.2.kindOf e.keyword = e.kind :=
    if_neg fun hnot => Vocabulary.standard_functions e he hrole hnot.1
  rw [hresolved, resolve_of_word hplaced.scan.table_eq hname he hspelled
    (isQualified_eq_false hbefore hbehind), happlies, hkind]
  have hcall := hplaced.lex.followedByParenthesis_iff
  exact ⟨fun h => if_pos (hcall.mpr h), fun h => if_neg fun hahead => h (hcall.mp hahead)⟩

/-- Where the mode ignores blanks, `count` is a function in front of a parenthesis behind one. -/
theorem run_functions_blank : ∃ s,
    s = start .standard { mode := .ofFlag .ignoreSpace }
      [0x63, 0x6F, 0x75, 0x6E, 0x74, 0x20, 0x28] ∧
      s.lex.2.OpensCall ∧ s.lex.1 = { s.scan.1 with kind := ⟨57555⟩ } := by
  obtain ⟨s, hs⟩ : ∃ s, s = start .standard { mode := .ofFlag .ignoreSpace }
      [0x63, 0x6F, 0x75, 0x6E, 0x74, 0x20, 0x28] := ⟨_, rfl⟩
  obtain ⟨hname, hspelled, hbefore, hbehind, hkind, hignore, hgap⟩ :
      s.scan.1.kind = .identifier ∧
      (⟨"COUNT", ⟨57555⟩, .builtinFunction⟩ : Entry).SpelledBy s.scan.1.text ∧
      s.scan.2.byteBefore? s.scan.1 ≠ some 0x2E ∧ s.scan.2.cursor.ahead.head? ≠ some 0x2E ∧
      s.lex.2.scan.1.kind = .ofChar '(' ∧ s.lex.2.config.has .ignoreSpace = true ∧
      s.lex.2.gap = [0x20] := by
    rw [hs]
    decide +kernel
  have hblank : ∀ b ∈ s.lex.2.gap, Rune.onByte Rune.isSpace b = true := by
    rw [hgap]
    exact List.forall_mem_singleton.mpr (by decide)
  have hcall : s.lex.2.OpensCall := ⟨hkind, .inr ⟨hignore, hblank⟩⟩
  have hrun := run_functions _ _ [] s hs hname ⟨"COUNT", ⟨57555⟩, .builtinFunction⟩
    (by decide +kernel) rfl hspelled hbefore hbehind
  exact ⟨s, hs, hcall, hrun.1 ⟨hcall, by rw [hgap]; decide⟩⟩

/-- Behind a vertical tab the parenthesis is the next token, too, with nothing but a blank before
it, but `count` stays a name. -/
theorem run_functions_tab : ∃ s,
    s = start .standard { mode := .ofFlag .ignoreSpace }
      [0x63, 0x6F, 0x75, 0x6E, 0x74, 0x0B, 0x28] ∧
      (⟨"COUNT", ⟨57555⟩, .builtinFunction⟩ : Entry) ∈ Vocabulary.standard ∧
      (⟨"COUNT", ⟨57555⟩, .builtinFunction⟩ : Entry).SpelledBy s.scan.1.text ∧
      s.scan.1.kind = .identifier ∧ s.scan.2.byteBefore? s.scan.1 ≠ some 0x2E ∧
      s.scan.2.cursor.ahead.head? ≠ some 0x2E ∧ s.lex.2.OpensCall ∧
      s.lex.1.kind = .identifier := by
  obtain ⟨s, hs⟩ : ∃ s, s = start .standard { mode := .ofFlag .ignoreSpace }
      [0x63, 0x6F, 0x75, 0x6E, 0x74, 0x0B, 0x28] := ⟨_, rfl⟩
  obtain ⟨hspelled, hname, hbefore, hbehind, hkind, hignore, hgap, hstays⟩ :
      (⟨"COUNT", ⟨57555⟩, .builtinFunction⟩ : Entry).SpelledBy s.scan.1.text ∧
      s.scan.1.kind = .identifier ∧ s.scan.2.byteBefore? s.scan.1 ≠ some 0x2E ∧
      s.scan.2.cursor.ahead.head? ≠ some 0x2E ∧ s.lex.2.scan.1.kind = .ofChar '(' ∧
      s.lex.2.config.has .ignoreSpace = true ∧ s.lex.2.gap = [0x0B] ∧
      s.lex.1.kind = .identifier := by
    rw [hs]
    decide +kernel
  have hblank : ∀ b ∈ s.lex.2.gap, Rune.onByte Rune.isSpace b = true := by
    rw [hgap]
    exact List.forall_mem_singleton.mpr (by decide)
  have hcall : s.lex.2.OpensCall := ⟨hkind, .inr ⟨hignore, hblank⟩⟩
  exact ⟨s, hs, by decide +kernel, hspelled, hname, hbefore, hbehind, hcall, hstays⟩

end Scanner

end SqlTokens
