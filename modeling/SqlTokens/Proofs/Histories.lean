import SqlTokens.Proofs.Traces

/-!
# Raw and resolved tokens side by side

Resolved tokens are the raw ones under other labels. Two scanners that read the same source in step,
one by raw tokens and one by resolved ones, differ in nothing but the history of keywords, since
resolution touches nothing else. The history in turn is asked for in one place only, at a comment
that starts with `/*+`. A step in a source without these bytes is therefore the same under every
history (`step_recall`), so is every search for a token (`nextToken_recall`), and the two scanners
stay in step (`lockstep`).
-/

namespace SqlTokens

/-! ## Other histories -/

/-- The state with another history. -/
def State.recall (s : State) (recent : Recent) : State := { s with recent }

/-- The flag of the vendor comment is no part of the history. -/
@[simp] theorem State.recall_inVendorBlock (s : State) (recent : Recent) :
    (s.recall recent).inVendorBlock = s.inVendorBlock := rfl

/-- The outcome with another history in its state. -/
def Outcome.recall (recent : Recent) : Outcome → Outcome
  | .token t next s => .token t next (s.recall recent)
  | .trivia next s => .trivia next (s.recall recent)

/-- The bytes that open a comment for the optimizer. -/
def Comment.hintMark : Bytes := [0x2F, 0x2A, 0x2B]

namespace Comment

variable (s : State) (recent : Recent) (c : Cursor)

/-- A slash, a star and a plus open a comment for the optimizer. -/
theorem hintMark_isPrefix {c : Cursor} (hslash : c.ahead.head? = some 0x2F)
    (hstar : c.advance.rune.is '*' = true) (hplus : c.advance.advance.rune.is '+' = true) :
    hintMark <+: c.ahead := by
  have hone := (Cursor.upTo_advance_of_head? (by decide) hslash).2
  have htwo := (Cursor.upTo_advance_of_is (by decide) hstar).2
  have hthree := (Cursor.upTo_advance_of_is (by decide) hplus).2
  refine ⟨c.advance.advance.advance.ahead, ?_⟩
  rw [hone, htwo, hthree]
  rfl

/-- A comment is the same under every history. -/
theorem block_recall (inside : Cursor) :
    block (s.recall recent) c inside = (block s c inside).recall recent := by
  unfold block
  cases closing? inside with
  | some stop => rfl
  | none => rfl

/-- A feature comment is the same under every history. -/
theorem gated_recall (mark : Cursor) :
    gated (s.recall recent) c mark = (gated s c mark).recall recent := by
  unfold gated
  split
  · split
    · rfl
    · exact block_recall s recent c _
  · rfl

/-- What starts with a slash is the same under every history, unless it is a comment for the
optimizer. -/
theorem slash_recall (hslash : c.ahead.head? = some 0x2F) (hplain : ¬hintMark <+: c.ahead) :
    slash (s.recall recent) c = (slash s c).recall recent := by
  -- Behind the slash and a star no plus can follow.
  have hnoplus (hstar : c.advance.rune.is '*' = true) :
      c.advance.advance.rune.is '+' = false :=
    Bool.eq_false_iff.mpr fun hplus => hplain (hintMark_isPrefix hslash hstar hplus)
  unfold slash
  simp only
  split
  · rfl
  · rename_i hstar
    split
    · rfl
    · split
      · exact gated_recall s recent c _
      · have hstar' : c.advance.rune.is '*' = true := by simpa using hstar
        rw [hnoplus hstar', Bool.false_and, Bool.false_and, if_neg Bool.false_ne_true,
          if_neg Bool.false_ne_true]
        exact block_recall s recent c _

/-- What starts with a star is the same under every history. -/
theorem star_recall : star (s.recall recent) c = (star s c).recall recent := by
  unfold star
  rcases hclose : s.inVendorBlock && c.advance.rune.is '/' with _ | _
  · simp only [State.recall_inVendorBlock, hclose, Bool.false_eq_true, if_false]
    rfl
  · simp only [State.recall_inVendorBlock, hclose, if_true]
    rfl

/-- What starts with a dash is the same under every history. -/
theorem dash_recall : dash (s.recall recent) c = (dash s c).recall recent := by
  unfold dash
  simp only
  repeat' split
  all_goals rfl

end Comment

/-- The form that a byte opens is the same under every history, unless it is a comment for the
optimizer. -/
theorem Starter.outcome_recall {starter : Starter} {c : Cursor} {b : UInt8}
    (hb : c.ahead.head? = some b) (hopens : ofByte? b = some starter)
    (hplain : ¬Comment.hintMark <+: c.ahead) (config : Config) (s : State) (recent : Recent) :
    starter.outcome config (s.recall recent) c = (starter.outcome config s c).recall recent := by
  cases starter with
  | slash =>
    have hmark : (0x2F : UInt8) = b := (opens_of_ofByte? hopens).2.2
    exact Comment.slash_recall s recent c (by rw [hb, hmark]) hplain
  | star => exact Comment.star_recall s recent c
  | dash => exact Comment.dash_recall s recent c
  | _ => rfl

section steps

variable (entries : List Entry) (config : Config) (s : State) (recent : Recent) {c : Cursor}

/-- What a source without comments for the optimizer has ahead is no such comment. -/
theorem Cursor.not_hintMark (h : ¬Comment.hintMark <:+: c.source) :
    ¬Comment.hintMark <+: c.ahead := by
  rw [c.ahead_eq]
  intro hmark
  exact h (List.IsInfix.trans (List.IsPrefix.isInfix hmark) (List.drop_suffix _ _).isInfix)

/-- A step from a cursor behind blanks is the same under every history. -/
theorem stepAt_recall (h : ¬Comment.hintMark <:+: c.source) :
    stepAt (.ofEntries entries) config (s.recall recent) c =
      (stepAt (.ofEntries entries) config s c).recall recent := by
  refine stepAt_cases entries config c
    (P := fun o => o (s.recall recent) = (o s).recall recent) rfl (fun _ => rfl) ?_
  -- Only a form of variable length may look at the history.
  intro starter b hb hopens
  exact Starter.outcome_recall hb hopens (Cursor.not_hintMark h) config s recent

/-- A step is the same under every history. -/
theorem step_recall (h : ¬Comment.hintMark <:+: c.source) :
    step (.ofEntries entries) config (s.recall recent) c =
      (step (.ofEntries entries) config s c).recall recent := by
  have hsource : (c.skipWhile Rune.isSpace).source = c.source :=
    ((Cursor.Reaches.refl c).skipWhile _).source_eq
  unfold step
  simp only
  split
  · rfl
  · exact stepAt_recall entries config s recent (by rwa [hsource])

/-- A search for a token is the same under every history. -/
theorem nextToken_recall (hc : c.offset ≤ c.source.length) (h : ¬Comment.hintMark <:+: c.source) :
    nextToken (.ofEntries entries) config (s.recall recent) c =
      ((nextToken (.ofEntries entries) config s c).1,
        (nextToken (.ofEntries entries) config s c).2.1,
        (nextToken (.ofEntries entries) config s c).2.2.recall recent) := by
  fun_induction nextToken (.ofEntries entries) config s c with
  | case1 s c t next s' hstep =>
    have hrecall := step_recall entries config s recent h
    rw [hstep] at hrecall
    exact nextToken_of_token hrecall
  | case2 s c next s' hstep ih =>
    have hrecall := step_recall entries config s recent h
    rw [hstep] at hrecall
    have hreach := step_reaches entries config s hc
    rw [hstep] at hreach
    rw [nextToken_of_trivia hrecall]
    -- Behind the comment the search goes on in the same source, with the other history still.
    have hsource : next.source = c.source := hreach.source_eq
    exact ih (hreach.le_length hc) (by rwa [hsource])

end steps

/-- The scanner with another history. -/
def Scanner.recall (s : Scanner) (recent : Recent) : Scanner :=
  { s with state := s.state.recall recent }

namespace Scanner

variable {entries : List Entry} {s : Scanner}

/-- A scan reads the same token under every history, and leaves the same scanner up to its history.
-/
theorem Placed.scan_recall (hs : s.Placed entries) (h : ¬Comment.hintMark <:+: s.cursor.source)
    (recent : Recent) : (s.recall recent).scan =
      (s.scan.1, s.scan.2.recall (recent.push (keywordKind s.table s.scan.1))) := by
  have hsame := nextToken_recall entries s.config s.state recent hs.canonical.le_length h
  rw [← hs.table_eq] at hsame
  unfold Scanner.scan Scanner.recall
  simp only [hsame]
  rfl

/-! ## Labels -/

/-- What resolution may make of a raw token. -/
inductive Relabels (table : Table) : Token → Token → Prop where
  /-- A token that is no name in backticks may stay what it is. -/
  | same {raw : Token} : raw.kind ≠ .quotedIdentifier → Relabels table raw raw
  /-- A name that spells a word may take the kind of the word, and a negation the kind of one that
  binds tightly. -/
  | word {raw : Token} {word : Keyword} {kind : TokenKind} : raw.kind = .identifier →
      table.keyword? raw.text = some word →
      (kind = word.kind ∨ word.kind = .notWord ∧ kind = .tightNot) →
      Relabels table raw { raw with kind }
  /-- A name behind an underscore may introduce a character set, whose canonical name is the text
  then. -/
  | introducer {raw : Token} {name : Bytes} {charset : String} : raw.kind = .identifier →
      raw.text = 0x5F :: name → Vocabulary.charset? name = some charset →
      Relabels table raw
        { raw with kind := .charsetIntroducer, text := Bytes.ofString charset }
  /-- A name in backticks is a name. -/
  | backticks {raw : Token} : raw.kind = .quotedIdentifier →
      Relabels table raw { raw with kind := .identifier }
  /-- A string may be a name in quotation marks. -/
  | quotationMarks {raw : Token} : raw.kind = .stringLiteral →
      Relabels table raw { raw with kind := .identifier }
  /-- Two bars may be a disjunction. -/
  | bars {raw : Token} : raw.kind = .pipes → Relabels table raw { raw with kind := .pipesAsOr }

/-- The name behind the underscore of an introducer is that of a character set. -/
theorem introduced?_eq_some {text : Bytes} {charset : String}
    (h : introduced? text = some charset) :
    ∃ name, text = 0x5F :: name ∧ Vocabulary.charset? name = some charset := by
  unfold introduced? at h
  split at h
  · exact ⟨_, rfl, h⟩
  · cases h

/-- Resolution of a name relabels it. -/
theorem resolveName_relabels (s : Scanner) {t : Token} (ht : t.kind = .identifier) :
    Relabels s.table t (s.resolveName t) := by
  have hsame : Relabels s.table t t := .same (by rw [ht]; decide)
  unfold resolveName
  split
  · rename_i charset hcharset
    obtain ⟨name, htext, hname⟩ := introduced?_eq_some hcharset
    exact .introducer ht htext hname
  · split
    · exact hsame
    · split
      · rename_i word hword
        split
        · refine .word ht hword ?_
          unfold kindOf
          split
          · rename_i hnot
            exact .inr ⟨hnot.1, rfl⟩
          · exact .inl rfl
        · exact hsame
      · exact hsame

/-- Resolution of a token relabels it. -/
theorem resolve_relabels (s : Scanner) (t : Token) : Relabels s.table t (s.resolve t) := by
  unfold resolve
  split
  · exact resolveName_relabels s ‹_›
  · split
    · exact .backticks ‹_›
    · rename_i hquoted
      split
      · rename_i hstring
        exact .quotationMarks hstring.1
      · split
        · rename_i hpipes
          exact .bars hpipes.1
        · exact .same hquoted

/-! ## In step -/

/-- The scanner behind a number of readings of resolved tokens. -/
def lexes (s : Scanner) : Nat → Scanner
  | 0 => s
  | n + 1 => (s.lexes n).lex.2

/-- A resolved token read under another history is the raw token resolved, and the scanner behind it
is the one behind the raw token, up to its history. -/
theorem Placed.lex_recall (hs : s.Placed entries) (h : ¬Comment.hintMark <:+: s.cursor.source)
    (recent : Recent) : ∃ later,
      (s.recall recent).lex = (s.scan.2.resolve s.scan.1, s.scan.2.recall later) := by
  unfold Scanner.lex
  rw [hs.scan_recall h recent]
  exact ⟨_, rfl⟩

/-- Two scanners in step stay in step. -/
theorem Placed.lexes_recall (hs : s.Placed entries) (h : ¬Comment.hintMark <:+: s.cursor.source)
    (n : Nat) : ∃ recent, s.lexes n = (s.scans n).recall recent := by
  induction n with
  | zero => exact ⟨s.state.recent, rfl⟩
  | succ n ih =>
    obtain ⟨recent, hn⟩ := ih
    obtain ⟨hplaced, hsource, -⟩ := hs.scans n
    obtain ⟨later, hlater⟩ := hplaced.lex_recall (by rwa [hsource]) recent
    refine ⟨later, ?_⟩
    rw [lexes, hn, hlater]
    rfl

/-- Resolution only relabels the raw tokens. In a source without comments for the optimizer two
scanners read in step, one by raw tokens and one by resolved ones. After any number of readings they
are equal up to the history of keywords, and the tokens that come next start at one place, the
resolved one as a relabelling of the raw one. -/
theorem lexes_relabel (entries : List Entry) (config : Config) (source : Bytes)
    (h : ¬Comment.hintMark <:+: source) (s : Scanner)
    (hs : s = start (.ofEntries entries) config source) (n : Nat) :
    s.lexes n = (s.scans n).recall (s.lexes n).state.recent ∧
      (s.lexes n).lex.1.pos = (s.scans n).scan.1.pos ∧
      Relabels s.table (s.scans n).scan.1 (s.lexes n).lex.1 := by
  have hplaced : s.Placed entries := by
    rw [hs]
    exact start_placed entries config source
  have hsource : s.cursor.source = source := by rw [hs]; rfl
  rw [← hsource] at h
  -- The next reading starts from scanners that are equal up to their histories.
  obtain ⟨recent, hn⟩ := hplaced.lexes_recall h n
  obtain ⟨hplaced', hsource', -⟩ := hplaced.scans n
  obtain ⟨later, hlater⟩ := hplaced'.lex_recall (by rwa [hsource']) recent
  rw [hn, hlater]
  refine ⟨rfl, resolve_pos _ _, ?_⟩
  have htable : (s.scans n).scan.2.table = s.table := by
    rw [hplaced'.scan.table_eq, hplaced.table_eq]
  rw [← htable]
  exact resolve_relabels _ _

/-- A function without its parenthesis is a keyword to the one scanner and a name to the other, and
both go on to the name behind it. -/
theorem lexes_relabel_function :
    ¬Comment.hintMark <:+: [0x61, 0x20, 0x62] ∧
      ∃ s, s = start (.ofEntries [⟨"a", .selectWord, .builtinFunction⟩]) {} [0x61, 0x20, 0x62] ∧
        (s.scans 1).state.recent.latest = .selectWord ∧ (s.lexes 1).state.recent.latest = .eof ∧
        s.lexes 1 = (s.scans 1).recall (s.lexes 1).state.recent ∧
        Relabels s.table ⟨.identifier, ⟨1, 3, 2⟩, [0x62]⟩ (s.lexes 1).lex.1 := by
  have hplain : ¬Comment.hintMark <:+: [0x61, 0x20, 0x62] := by decide
  obtain ⟨hsame, -, hlabel⟩ := lexes_relabel [⟨"a", .selectWord, .builtinFunction⟩] {}
    [0x61, 0x20, 0x62] hplain _ rfl 1
  have hraw : ((start (.ofEntries [⟨"a", .selectWord, .builtinFunction⟩]) {}
      [0x61, 0x20, 0x62]).scans 1).scan.1 = ⟨.identifier, ⟨1, 3, 2⟩, [0x62]⟩ := by
    decide +kernel
  rw [hraw] at hlabel
  refine ⟨hplain, _, rfl, ?_, ?_, hsame, hlabel⟩
  · decide +kernel
  · decide +kernel

end Scanner

end SqlTokens
