import SqlTokens.Proofs.ContinuedSearches

/-!
# Readings of a text that goes on

A text is read as the beginning of each of its continuations: the tokens of the text come first, and
then those that a scanner finds which comes to the end of the text with what it has noted there
(`Scanner.Placed.lexAll_continued`). Nothing is assumed if the source ends where the text does;
otherwise the tokens of the text must be well formed, and no comment may be left open by its end.
-/

namespace SqlTokens

namespace Continuation

variable {x : Continuation} {s : Scanner} {t : Token}

/-- The scanner of the source that stands where a scanner of the text does. -/
def scanner (x : Continuation) (s : Scanner) : Scanner := { s with cursor := x.cursor s.cursor }

/-! ## Resolution -/

/-- The source has the bytes of the text. -/
theorem getElem?_source {i : Nat} (hbase : x.base ≤ i) (hlt : i < x.part.length) :
    x.source[i]? = x.part[i]? := by
  have hskip : x.base + (i - x.base) = i := Nat.add_sub_cancel' hbase
  calc x.source[i]?
      = (x.source.drop x.base)[i - x.base]? := by rw [List.getElem?_drop, hskip]
    _ = (x.part.drop x.base)[i - x.base]? := by
        rw [x.drop_eq, List.getElem?_append_left]
        rw [List.length_drop]
        omega
    _ = x.part[i]? := by rw [List.getElem?_drop, hskip]

/-- A parenthesis comes next in both or in neither. -/
theorem followedByParenthesis_scanner (h : x.Sees s.cursor) :
    (x.scanner s).followedByParenthesis = s.followedByParenthesis := by
  have hconfig : (x.scanner s).config = s.config := rfl
  have hahead : (x.scanner s).cursor.ahead = s.cursor.ahead ++ x.tail := h.ahead_cursor
  -- Behind the end of the text, and behind blanks there, no parenthesis comes.
  have hplain : (x.tail.head? == some 0x28) = false := by
    rcases x.tail_eq with hnone | ⟨rest, htail⟩
    · rw [hnone]
      rfl
    · rw [htail]
      rfl
  have hskipped : ((x.tail.dropWhile Scanner.isFunctionBlank).head? == some 0x28) = false := by
    rcases x.blank with hnone | ⟨b, rest, htail, hblank, hb⟩
    · rw [hnone]
      rfl
    · have hspace : Scanner.isFunctionBlank 0x20 = true := rfl
      rw [htail, List.dropWhile_cons_of_pos hspace,
        List.dropWhile_cons_of_neg (by rw [hblank]; decide), List.head?_cons]
      simpa using hb
  have hhead (bytes rest : Bytes) (hrest : (rest.head? == some 0x28) = false) :
      ((bytes ++ rest).head? == some 0x28) = (bytes.head? == some 0x28) := by
    rcases bytes with _ | ⟨b, bytes⟩
    · exact hrest
    · rfl
  unfold Scanner.followedByParenthesis
  rw [hconfig, hahead]
  rcases hspace : s.config.has .ignoreSpace with _ | _
  · simp only [Bool.false_eq_true, if_false]
    exact hhead _ _ hplain
  · simp only [if_true]
    rw [List.dropWhile_append]
    rcases hdrop : s.cursor.ahead.dropWhile Scanner.isFunctionBlank with _ | ⟨b, rest⟩
    · simp only [List.isEmpty_nil, if_true]
      exact hskipped
    · rfl

/-- A name has a dot at either side in both or in neither. -/
theorem isQualified_scanner (h : x.Sees s.cursor) (hbase : x.base ≤ t.pos.offset)
    (hlt : t.pos.offset < x.part.length) : (x.scanner s).isQualified t = s.isQualified t := by
  have hrune : (x.scanner s).cursor.rune.is '.' = s.cursor.rune.is '.' := h.is_cursor '.' rfl
  have hsource : (x.scanner s).cursor.source = x.source := rfl
  have hbyte : ((x.scanner s).byteBefore? t == some 0x2E) = (s.byteBefore? t == some 0x2E) := by
    unfold Scanner.byteBefore?
    rw [hsource, h.source_eq]
    rcases Nat.eq_zero_or_pos t.pos.offset with hzero | hpos
    · rw [if_pos hzero, if_pos hzero]
    · rw [if_neg (Nat.pos_iff_ne_zero.mp hpos), if_neg (Nat.pos_iff_ne_zero.mp hpos)]
      rcases Nat.lt_or_eq_of_le hbase with hbehind | hhere
      · rw [getElem?_source (by omega) (by omega)]
      · -- The byte right before the place from which both agree.
        rw [Bool.eq_iff_iff, beq_iff_eq, beq_iff_eq, ← hhere]
        exact x.before.resolve_left (by omega)
  unfold Scanner.isQualified
  rw [hrune, hbyte]

/-- A token of the text is resolved as in the source. -/
theorem resolve_scanner (h : x.Sees s.cursor) (hbase : x.base ≤ t.pos.offset)
    (hlt : t.pos.offset < x.part.length) : (x.scanner s).resolve t = s.resolve t := by
  have happlies (word : Keyword) : (x.scanner s).applies word = s.applies word := by
    unfold Scanner.applies
    rw [followedByParenthesis_scanner h]
    rfl
  have hname : (x.scanner s).resolveName t = s.resolveName t := by
    have htable : (x.scanner s).table = s.table := rfl
    unfold Scanner.resolveName
    simp only [isQualified_scanner h hbase hlt, htable, happlies]
    rfl
  have hquoted : (x.scanner s).isDoubleQuoted t = s.isDoubleQuoted t := by
    have hbyte : (x.scanner s).cursor.source[t.pos.offset]? = s.cursor.source[t.pos.offset]? := by
      rw [h.source_eq]
      exact getElem?_source hbase hlt
    unfold Scanner.isDoubleQuoted
    rw [hbyte]
  unfold Scanner.resolve
  rw [hname, hquoted]
  rfl

end Continuation

namespace Scanner

variable {x : Continuation} {s : Scanner}

/-! ## The next token -/

/-- A scan of a scanner whose search is known. -/
theorem scan_of_nextToken {t : Token} {next : Cursor} {state : State}
    (h : nextToken s.table s.config s.state s.cursor = (t, next, state)) :
    s.scan = (t, { s with
      cursor := next
      state := settle s.table t next state
      lastStart := t.pos.offset }) := by
  unfold scan
  rw [h]

/-- Scanners whose searches find the same are the same behind a scan. -/
theorem scan_congr {s s' : Scanner} (htable : s.table = s'.table) (hconfig : s.config = s'.config)
    (h : nextToken s.table s.config s.state s.cursor =
      nextToken s'.table s'.config s'.state s'.cursor) : s.scan = s'.scan := by
  rcases hfound : nextToken s'.table s'.config s'.state s'.cursor with ⟨t, next, state⟩
  rw [scan_of_nextToken (h.trans hfound), scan_of_nextToken hfound, htable, hconfig]

/-- So they are behind a reading. -/
theorem lex_congr {s s' : Scanner} (htable : s.table = s'.table) (hconfig : s.config = s'.config)
    (h : nextToken s.table s.config s.state s.cursor =
      nextToken s'.table s'.config s'.state s'.cursor) : s.lex = s'.lex := by
  unfold lex
  rw [scan_congr htable hconfig h]

/-- What is noted about a token of the text is what is noted in the source. -/
theorem settle_continued {next : Cursor} (h : x.Sees next) (table : Table) (t : Token)
    (state : State) : settle table t (x.cursor next) state = settle table t next state := by
  unfold settle nameDot
  rw [h.is_cursor '.' rfl]

/-- The scanner at the end of its search, with what it has noted on the way. -/
def searched (s : Scanner) : Scanner :=
  { s with
    cursor := (nextToken s.table s.config s.state s.cursor).2.1
    state := (nextToken s.table s.config s.state s.cursor).2.2 }

/-- A resolved token ends the stream if the raw one does, and not otherwise. -/
theorem Placed.isEnd_lex (hs : s.Placed Vocabulary.standard) : s.lex.1.isEnd = s.scan.1.isEnd := by
  rw [Bool.eq_iff_iff]
  constructor
  · intro hend
    exact beq_of_eq (Reading.resolved.kind_scan hs (.inr rfl) (eq_of_beq hend))
  · exact Scanner.isEnd_lex

/-- What a search for the next token of the text comes to in the source, if the token is well formed
and no comment is left open before it. -/
theorem Placed.finds_continued (hs : s.Placed Vocabulary.standard) (h : x.Sees s.cursor)
    (hsound : x.tail = [] ∨ s.lex.1.kind ≠ .invalid)
    (hlines : x.tail = [] ∨ ∀ c ∈ s.places, ¬c.OpensLine) :
    x.Finds s.config s.state s.cursor s.scan.1 s.searched.cursor s.searched.state := by
  have hraw : x.tail = [] ∨ s.scan.1.kind ≠ .invalid := by
    refine hsound.imp_right fun hkind hinvalid => hkind ?_
    show (s.scan.2.resolve s.scan.1).kind = _
    rw [resolve_invalid hinvalid, hinvalid]
  rw [scan_token, hs.table_eq] at hraw
  rw [Scanner.places, hs.table_eq] at hlines
  rw [scan_token, searched, hs.table_eq]
  exact nextToken_continued s.state s.config h hraw hlines

/-- A token of the text is read in the source too, if it is well formed and no comment is left open
before it. -/
theorem Placed.lex_continued (hs : s.Placed Vocabulary.standard) (h : x.Sees s.cursor)
    (hend : s.lex.1.isEnd = false) (hsound : x.tail = [] ∨ s.lex.1.kind ≠ .invalid)
    (hlines : x.tail = [] ∨ ∀ c ∈ s.places, ¬c.OpensLine) :
    (x.scanner s).lex = (s.lex.1, x.scanner s.lex.2) := by
  rw [hs.isEnd_lex] at hend
  have htable : s.table = .standard := hs.table_eq
  have hprogress := hs.scan_progresses
  have hfinds := hs.finds_continued h hsound hlines
  rcases hfound : nextToken s.table s.config s.state s.cursor with ⟨t, next, state⟩
  rw [searched, hfound] at hfinds
  have hscan := scan_of_nextToken hfound
  rw [hscan] at hprogress hend hfinds
  rcases hfinds with ⟨-, hsource⟩ | ⟨htoken, -, -⟩
  · have hnext : x.Sees next := h.reaches hprogress.1
    -- The token lies in the text, where the source has the same bytes.
    obtain ⟨hbase, hlt⟩ : x.base ≤ t.pos.offset ∧ t.pos.offset < x.part.length := by
      rcases hprogress.2 with ⟨-, htoken⟩ | ⟨hfirst, hbehind⟩
      · change t = _ at htoken
        rw [htoken] at hend
        cases hend
      · exact ⟨Nat.le_trans h.base_le hfirst, Nat.lt_of_lt_of_le hbehind hnext.le_length⟩
    rw [← htable] at hsource
    have hscan' : (x.scanner s).scan = (t, x.scanner s.scan.2) := by
      rw [scan_of_nextToken (show nextToken (x.scanner s).table _ _ _ = _ from hsource), hscan,
        ← settle_continued hnext]
      rfl
    have hresolve : (x.scanner s.scan.2).resolve t = s.scan.2.resolve t := by
      refine Continuation.resolve_scanner ?_ hbase hlt
      rw [hscan]
      exact hnext
    have htoken : s.scan.1 = t := by rw [hscan]
    unfold Scanner.lex
    rw [hscan']
    simp only [hresolve, htoken]
    rfl
  · change t = _ at htoken
    rw [htoken] at hend
    cases hend

/-- Where the text ends, the source is read on. -/
theorem Placed.lex_of_isEnd (hs : s.Placed Vocabulary.standard) (h : x.Sees s.cursor)
    (hend : s.lex.1.isEnd = true) (hsound : x.tail = [] ∨ s.lex.1.kind ≠ .invalid)
    (hlines : x.tail = [] ∨ ∀ c ∈ s.places, ¬c.OpensLine) :
    (x.scanner s).lex = (x.scanner s.searched).lex := by
  rw [hs.isEnd_lex] at hend
  rcases hs.finds_continued h hsound hlines with ⟨hnot, -⟩ | ⟨-, -, hfound⟩
  · rw [hend] at hnot
    cases hnot
  · have htable : s.table = .standard := hs.table_eq
    rw [← htable] at hfound
    exact lex_congr rfl rfl hfound

/-- A token that ends the stream stands for the end of the source. -/
theorem Placed.searched_of_isEnd (hs : s.Placed Vocabulary.standard)
    (hend : s.lex.1.isEnd = true) :
    s.lex.1 = .endAt s.searched.cursor.pos ∧ s.searched.cursor.atEnd = true := by
  rw [hs.isEnd_lex] at hend
  have hresolved : s.lex.1 = s.scan.2.resolve s.scan.1 := rfl
  obtain ⟨first, s', -, -, -, -, ⟨hlast, hfound⟩ | ⟨t, next, s'', hstep, hfound⟩⟩ :=
    nextToken_last Vocabulary.standard s.config s.state hs.canonical.le_length
  · rw [hresolved, scan_token, searched, hs.table_eq, hfound]
    exact ⟨resolve_endAt _ _, hlast⟩
  · rw [scan_token, hs.table_eq, hfound] at hend
    exact absurd (eq_of_beq hend) (ne_eof_of_stepAt _ _ hstep)

/-! ## All tokens -/

/-- The places where a scanner takes its steps up to the end of its source. -/
def visited (s : Scanner) : List Cursor :=
  match _h : s.lex with
  | (t, next) => if t.isEnd then s.places else s.places ++ visited next
termination_by s.remaining
decreasing_by
  have := @remaining_lex_lt s
  simp_all

/-- A scanner takes its steps where the next reading does, and then those of the scanner behind it.
-/
theorem visited_unfold (s : Scanner) :
    s.visited = if s.lex.1.isEnd then s.places else s.places ++ s.lex.2.visited := by
  rw [visited]

/-- The stream of tokens starts with the next one, and goes on if that is not the end. -/
theorem lexAll_unfold (s : Scanner) :
    s.lexAll.1 = if s.lex.1.isEnd then [s.lex.1] else s.lex.1 :: s.lex.2.lexAll.1 := by
  have hall : s.lexAll = if s.lex.1.isEnd then ([s.lex.1], s.lex.2)
      else (s.lex.1 :: s.lex.2.lexAll.1, s.lex.2.lexAll.2) := Reading.resolved.readAll_unfold s
  rw [hall, apply_ite Prod.fst]

/-- Scanners that come to the same reading read the same stream. -/
theorem lexAll_congr {s s' : Scanner} (h : s.lex = s'.lex) : s.lexAll.1 = s'.lexAll.1 := by
  rw [lexAll_unfold s, lexAll_unfold s', h]

/-- Whether the tokens of a scanner are well formed and no comment is left open at the end of its
source. -/
structure Whole (s : Scanner) : Prop where
  /-- The tokens are well formed. -/
  sound : ∀ t ∈ s.lexAll.1, t.kind ≠ .invalid
  /-- No comment is left open. -/
  closed : ∀ c ∈ s.visited, ¬c.OpensLine

instance (s : Scanner) : Decidable s.Whole :=
  decidable_of_iff ((∀ t ∈ s.lexAll.1, t.kind ≠ .invalid) ∧ ∀ c ∈ s.visited, ¬c.OpensLine)
    ⟨fun h => ⟨h.1, h.2⟩, fun h => ⟨h.sound, h.closed⟩⟩

/-- The scanner behind the first token reads the rest. -/
theorem Whole.next (h : s.Whole) (hend : s.lex.1.isEnd = false) : s.lex.2.Whole := by
  obtain ⟨hsound, hclosed⟩ := h
  rw [lexAll_unfold, hend] at hsound
  rw [visited_unfold, hend] at hclosed
  exact ⟨fun t ht => hsound t (List.mem_cons_of_mem _ ht),
    fun c hc => hclosed c (List.mem_append_right _ hc)⟩

/-- The first token is well formed. -/
theorem Whole.kind (h : s.Whole) : s.lex.1.kind ≠ .invalid := by
  refine h.sound _ ?_
  rw [lexAll_unfold]
  split
  · exact List.mem_singleton_self _
  · exact List.mem_cons_self ..

/-- No comment is left open before the first token. -/
theorem Whole.places (h : s.Whole) : ∀ c ∈ s.places, ¬c.OpensLine := by
  refine fun c hc => h.closed c ?_
  rw [visited_unfold]
  split
  · exact hc
  · exact List.mem_append_left _ hc

/-- A text is read as the beginning of each of its continuations. The tokens before its end come
first; then those come that a scanner reads on from its end, with what has been noted up to there.
-/
theorem Placed.lexAll_continued (hs : s.Placed Vocabulary.standard) :
    ∃ ts e, e.Placed Vocabulary.standard ∧ e.config = s.config ∧ e.cursor.atEnd = true ∧
      s.cursor.Reaches e.cursor ∧ s.lexAll.1 = ts ++ [.endAt e.cursor.pos] ∧
      (∀ t ∈ ts, t.pos.offset < e.cursor.offset) ∧
      ∀ x : Continuation, x.Sees s.cursor → x.tail = [] ∨ s.Whole →
        (x.scanner s).lexAll.1 = ts ++ (x.scanner e).lexAll.1 := by
  generalize hn : s.remaining = n
  induction n using Nat.strong_induction_on generalizing s with
  | _ n ih =>
    rcases hend : s.lex.1.isEnd with _ | _
    · obtain ⟨ts, e, he, hconfig, hlast, hreach, hall, hbefore, hcontinued⟩ :=
        ih s.lex.2.remaining (hn ▸ remaining_lex_lt hend) hs.lex rfl
      have hfirst := hs.lex_progresses
      refine ⟨s.lex.1 :: ts, e, he, hconfig, hlast, hfirst.1.trans hreach, ?_, ?_, ?_⟩
      · rw [lexAll_unfold, hend, if_neg Bool.false_ne_true, hall]
        rfl
      · intro t ht
        rcases List.mem_cons.mp ht with rfl | ht
        · rcases hfirst.2 with ⟨-, htoken⟩ | ⟨-, hlt⟩
          · rw [htoken] at hend
            cases hend
          · exact Nat.lt_of_lt_of_le hlt hreach.offset_le
        · exact hbefore t ht
      · intro x hx hwhole
        have hread := hs.lex_continued hx hend (hwhole.imp_right Whole.kind)
          (hwhole.imp_right Whole.places)
        have hrest := hcontinued x (hx.reaches hfirst.1)
          (hwhole.imp_right fun hwhole => hwhole.next hend)
        rw [lexAll_unfold, hread, hend, if_neg Bool.false_ne_true, hrest]
        rfl
    · -- The search comes to the end of the text, whatever continues it.
      obtain ⟨htoken, hlast⟩ := hs.searched_of_isEnd hend
      have hreach : s.cursor.Reaches s.searched.cursor := hs.scan_progresses.1
      refine ⟨[], s.searched, ⟨hs.table_eq, hreach.canonical hs.canonical⟩, rfl, hlast, hreach, ?_,
        fun t ht => absurd ht List.not_mem_nil, fun x hx hwhole => ?_⟩
      · rw [lexAll_unfold, hend, if_pos rfl, htoken]
        rfl
      · exact lexAll_congr (hs.lex_of_isEnd hx hend (hwhole.imp_right Whole.kind)
          (hwhole.imp_right Whole.places))

/-- Where the source ends, only the end is read. -/
theorem lexAll_of_atEnd (h : s.cursor.atEnd = true) : s.lexAll.1 = [.endAt s.cursor.pos] := by
  have htoken : s.lex.1 = .endAt s.cursor.pos := by
    change s.scan.2.resolve s.scan.1 = _
    rw [(scan_of_atEnd h).1]
    exact resolve_endAt _ _
  rw [lexAll_unfold, htoken]
  rfl

/-- A source is read on as the text is that it is the same as from there on. -/
theorem Placed.lexAll_scanner (hs : s.Placed Vocabulary.standard) (hx : x.Sees s.cursor)
    (htail : x.tail = []) : (x.scanner s).lexAll.1 = s.lexAll.1 := by
  obtain ⟨ts, e, -, -, hlast, hreach, hall, -, hcontinued⟩ := hs.lexAll_continued
  have hend : (x.scanner e).cursor.atEnd = true :=
    ((hx.reaches hreach).atEnd_cursor (.inl htail)).trans hlast
  rw [hcontinued x hx (.inl htail), lexAll_of_atEnd hend, hall]
  rfl

end Scanner

end SqlTokens
