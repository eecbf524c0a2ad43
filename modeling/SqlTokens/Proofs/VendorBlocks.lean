import SqlTokens.Proofs.NamePoints

/-!
# The content of vendor comments

What stands in a vendor comment is read as code. The flag that one is open matters at one mark only,
the one that closes it: two steps that differ in the flag alone hand it on or open a vendor comment,
unless that mark stands where they start (`stepAt_transparent`). Two searches for a token that
differ in the flag therefore find the same token, or open a vendor comment and are one search from
there, or come to the mark (`nextToken_forked`). There the one with the flag goes on behind the mark
without the flag, and the other yields a star. `Scanner.scans_vendor` says this of whole runs.
-/

namespace SqlTokens

/-! ## Steps -/

/-- The state with another flag of whether a vendor comment is open. -/
def State.vendor (s : State) (flag : Bool) : State := { s with inVendorBlock := flag }

/-- The outcome with another flag in its state. -/
def Outcome.vendor (flag : Bool) : Outcome → Outcome
  | .token t next s => .token t next (s.vendor flag)
  | .trivia next s => .trivia next (s.vendor flag)

/-- A family of outcomes, one for each flag, that the flag makes no other difference to. -/
inductive Outcome.Transparent (o : Bool → Outcome) : Prop where
  /-- The outcomes differ in the flag that they hand on. -/
  | handed (base : Outcome) : (∀ flag, o flag = base.vendor flag) → Transparent o
  /-- The outcomes open one and the same vendor comment. -/
  | opened (next : Cursor) (s : State) : s.inVendorBlock = true →
      (∀ flag, o flag = .trivia next s) → Transparent o

namespace Comment

/-- The bytes that close a vendor comment. -/
def closingMark : Bytes := [0x2A, 0x2F]

variable (s : State) (c : Cursor)

/-- A comment is the same with every flag. -/
theorem block_vendor (inside : Cursor) (flag : Bool) :
    block (s.vendor flag) c inside = (block s c inside).vendor flag := by
  unfold block
  cases closing? inside with
  | some stop => rfl
  | none => rfl

/-- A feature comment is the same with every flag, or it is a vendor comment that is opened. -/
theorem gated_transparent (mark : Cursor) :
    Outcome.Transparent fun flag => gated (s.vendor flag) c mark := by
  unfold gated
  split
  · split
    · exact .opened _ s.openVendorBlock rfl fun _ => rfl
    · exact .handed _ (block_vendor s c _)
  · exact .opened _ s.openVendorBlock rfl fun _ => rfl

/-- A comment for the optimizer is the same with every flag. -/
theorem hint_vendor (inside : Cursor) (flag : Bool) :
    hint (s.vendor flag) c inside = (hint s c inside).vendor flag := by
  have hrecent : (s.vendor flag).recent = s.recent := rfl
  unfold hint
  rw [hrecent]
  split
  · cases closing? inside with
    | some stop => rfl
    | none => rfl
  · exact block_vendor (s.warn .ignoredOptimizerHint c.pos) c inside flag

/-- What starts with a slash is the same with every flag, or it is a vendor comment that is opened.
-/
theorem slash_transparent : Outcome.Transparent fun flag => slash (s.vendor flag) c := by
  have hrecent (flag : Bool) : (s.vendor flag).recent = s.recent := rfl
  unfold slash
  simp only [hrecent]
  split
  · exact .handed (.ofLexeme c s _) fun _ => rfl
  · split
    · exact .opened _ s.openVendorBlock rfl fun _ => rfl
    · split
      · exact gated_transparent s c _
      · split
        · exact .handed _ (hint_vendor s c _)
        · exact .handed _ (block_vendor s c _)

/-- What starts with a dash is the same with every flag. -/
theorem dash_vendor (flag : Bool) : dash (s.vendor flag) c = (dash s c).vendor flag := by
  unfold dash
  simp only
  repeat' split
  all_goals rfl

variable {c}

/-- Behind a star a slash makes the closing mark. -/
theorem closingMark_isPrefix_iff (hstar : c.ahead.head? = some 0x2A) :
    closingMark <+: c.ahead ↔ c.advance.rune.is '/' = true := by
  obtain ⟨-, hahead⟩ := Cursor.upTo_advance_of_head? (by decide) hstar
  rw [Cursor.rune_is_iff (by decide), hahead, closingMark, List.cons_prefix_cons,
    and_iff_right rfl]
  constructor
  · rintro ⟨rest, hrest⟩
    rw [← hrest]
    rfl
  · intro hhead
    obtain ⟨rest, hrest⟩ := List.head?_eq_some_iff.mp hhead
    exact ⟨rest, hrest.symm⟩

/-- A star that closes nothing is the same with every flag. -/
theorem star_vendor (hstar : c.ahead.head? = some 0x2A) (h : ¬closingMark <+: c.ahead)
    (flag : Bool) : star (s.vendor flag) c = (star s c).vendor flag := by
  have hslash : c.advance.rune.is '/' = false := by
    rwa [closingMark_isPrefix_iff hstar, Bool.not_eq_true] at h
  unfold star
  simp only [hslash, Bool.and_false]
  rfl

end Comment

section steps

variable (entries : List Entry) (config : Config) (s : State) {c : Cursor}

/-- A step from a cursor behind blanks makes no difference of the flag, unless the closing mark of a
vendor comment stands there. -/
theorem stepAt_transparent (h : ¬Comment.closingMark <+: c.ahead) :
    Outcome.Transparent fun flag => stepAt (.ofEntries entries) config (s.vendor flag) c := by
  refine stepAt_cases entries config c
    (P := fun o => Outcome.Transparent fun flag => o (s.vendor flag)) ?_ ?_ ?_
  · exact .handed (.trivia c.advance s) fun _ => rfl
  · exact fun l => .handed (.ofLexeme c s l) fun _ => rfl
  · intro starter b hb hopens
    have hhanded (ho : ∀ flag, starter.outcome config (s.vendor flag) c =
        (starter.outcome config s c).vendor flag) :
        Outcome.Transparent fun flag => starter.outcome config (s.vendor flag) c := .handed _ ho
    cases starter with
    | slash => exact Comment.slash_transparent s c
    | star =>
      have hstar : (0x2A : UInt8) = b := (Starter.opens_of_ofByte? hopens).2.2
      exact hhanded (Comment.star_vendor s (by rw [hb, hstar]) h)
    | dash => exact hhanded (Comment.dash_vendor s c)
    | _ => exact hhanded fun _ => rfl

/-- A step makes no difference of the flag, unless the closing mark of a vendor comment comes next
behind blanks. -/
theorem step_transparent (h : ¬Comment.closingMark <+: (c.skipWhile Rune.isSpace).ahead) :
    Outcome.Transparent fun flag => step (.ofEntries entries) config (s.vendor flag) c := by
  unfold step
  simp only
  split
  · exact .handed (.token (.endAt (c.skipWhile Rune.isSpace).pos) _ s) fun _ => rfl
  · exact stepAt_transparent entries config s h

/-- Where the closing mark stands, it is read in silence and takes the flag away. Without the flag
its star is a token. -/
theorem stepAt_of_closingMark (h : Comment.closingMark <+: c.ahead) :
    c.upTo c.advance.advance = Comment.closingMark ∧
      stepAt (.ofEntries entries) config (s.vendor true) c =
        .trivia c.advance.advance (s.vendor false) ∧
      ∃ s', stepAt (.ofEntries entries) config (s.vendor false) c =
        .token ⟨.ofChar '*', c.pos, [0x2A]⟩ c.advance s' := by
  have hstar : c.ahead.head? = some 0x2A := by
    obtain ⟨rest, hrest⟩ := h
    rw [← hrest]
    rfl
  have hslash := (Comment.closingMark_isPrefix_iff hstar).mp h
  have hone := (Cursor.upTo_advance_of_head? (by decide) hstar).1
  have htwo := (Cursor.upTo_advance_of_is (by decide : Rune.IsByte '/') hslash).1
  have hopens : Starter.ofByte? 0x2A = some .star := by decide
  have hstep (s : State) : stepAt (.ofEntries entries) config s c = Comment.star s c :=
    stepAt_of_starter entries config s hstar hopens
  refine ⟨?_, ?_, ?_⟩
  · rw [(Cursor.Reaches.next c).upTo_trans (.next _), hone, htwo]
    rfl
  · rw [hstep, Comment.star]
    simp only [hslash]
    rfl
  · rw [hstep, Comment.star]
    simp only [State.vendor, Bool.false_and, Bool.false_eq_true, if_false]
    rw [Lexeme.whole, hone]
    exact ⟨_, rfl⟩

/-- So is the mark behind blanks. -/
theorem step_of_closingMark (h : Comment.closingMark <+: (c.skipWhile Rune.isSpace).ahead)
    (s : State) : step (.ofEntries entries) config s c =
      stepAt (.ofEntries entries) config s (c.skipWhile Rune.isSpace) := by
  refine step_of_open config s (Bool.eq_false_iff.mpr fun hend => ?_)
  rw [Cursor.atEnd_iff_ahead.mp hend] at h
  exact absurd h (by decide)

/-- A step without the flag that yields no token yields none with the flag either: both hand the
flag on, or both open a vendor comment. -/
theorem step_of_trivia {next : Cursor} {s' : State}
    (h : step (.ofEntries entries) config (s.vendor false) c = .trivia next s') :
    (∃ base : State, s' = base.vendor false ∧
        step (.ofEntries entries) config (s.vendor true) c = .trivia next (base.vendor true)) ∨
      (s'.inVendorBlock = true ∧
        step (.ofEntries entries) config (s.vendor true) c = .trivia next s') := by
  by_cases hmark : Comment.closingMark <+: (c.skipWhile Rune.isSpace).ahead
  · obtain ⟨-, -, s'', hstar⟩ := stepAt_of_closingMark entries config s hmark
    rw [step_of_closingMark entries config hmark, hstar] at h
    cases h
  · rcases step_transparent entries config s hmark with ⟨base, hall⟩ | ⟨next', s'', hopen, hall⟩
    · rw [hall] at h ⊢
      cases base with
      | token => cases h
      | trivia next' base =>
        cases h
        exact .inl ⟨base, rfl, rfl⟩
    · rw [hall] at h ⊢
      cases h
      exact .inr ⟨hopen, rfl⟩

end steps

/-! ## Searches -/

/-- Whether a search for the next token comes to a place with a state, behind blanks and behind
steps that yield no token. -/
inductive ComesTo (table : Table) (config : Config) : State → Cursor → State → Cursor → Prop where
  /-- The search starts behind blanks. -/
  | here (s : State) (c : Cursor) : ComesTo table config s c s (c.skipWhile Rune.isSpace)
  /-- Behind a step that yields no token the search goes on. -/
  | skip {s s' st : State} {c next place : Cursor} : step table config s c = .trivia next s' →
      ComesTo table config s' next st place → ComesTo table config s c st place

namespace ComesTo

variable {table : Table} {config : Config} {s st : State} {c place : Cursor}

/-- No blanks come next at a place that a search comes to. -/
theorem skipWhile_eq (h : ComesTo table config s c st place) :
    place.skipWhile Rune.isSpace = place := by
  induction h with
  | here s c => exact Cursor.skipWhile_self (Cursor.skipWhile_stops Rune.isSpace c)
  | skip _ _ ih => exact ih

/-- A search finds what it finds from each place that it comes to. -/
theorem nextToken_eq (h : ComesTo table config s c st place) :
    nextToken table config s c = nextToken table config st place := by
  induction h with
  | here s c =>
    refine nextToken_congr ?_
    have hstart : ComesTo table config s c s (c.skipWhile Rune.isSpace) := .here s c
    unfold step
    rw [hstart.skipWhile_eq]
  | skip hstep _ ih => rw [nextToken_of_trivia hstep, ih]

/-- A search that finds its token at once comes to no place but the one behind the blanks. -/
theorem eq_of_token (h : ComesTo table config s c st place) {t : Token} {next : Cursor} {s' : State}
    (hstep : step table config s c = .token t next s') : place = c.skipWhile Rune.isSpace := by
  cases h with
  | here => rfl
  | skip hskip _ =>
    rw [hstep] at hskip
    cases hskip

end ComesTo

section searches

variable {entries : List Entry} {config : Config} {s st : State} {c place : Cursor}

/-- A search without the flag that comes to the inside of a vendor comment has opened it, and so has
the search with the flag. -/
theorem ComesTo.of_opened (h : ComesTo (.ofEntries entries) config (s.vendor false) c st place)
    (hst : st.inVendorBlock = true) :
    ComesTo (.ofEntries entries) config (s.vendor true) c st place := by
  generalize hplain : s.vendor false = plain at h
  induction h generalizing s with
  | here =>
    rw [← hplain] at hst
    cases hst
  | skip hstep hrest ih =>
    rw [← hplain] at hstep
    rcases step_of_trivia entries config s hstep with ⟨base, hbase, hflagged⟩ | ⟨-, hflagged⟩
    · exact .skip hflagged (ih hst hbase.symm)
    · exact .skip hflagged hrest

/-- Where the closing mark stands, a search with the flag goes on behind it without the flag, and a
search without the flag finds the star. -/
theorem nextToken_of_closingMark (entries : List Entry) (config : Config) (st : State)
    (hmark : Comment.closingMark <+: place.ahead)
    (hblanks : place.skipWhile Rune.isSpace = place) :
    step (.ofEntries entries) config (st.vendor true) place =
        .trivia place.advance.advance (st.vendor false) ∧
      ∃ s', nextToken (.ofEntries entries) config (st.vendor false) place =
        (⟨.ofChar '*', place.pos, [0x2A]⟩, place.advance, s') := by
  obtain ⟨-, hclose, s', hstar⟩ := stepAt_of_closingMark entries config st hmark
  have hstep (s : State) : step (.ofEntries entries) config s place =
      stepAt (.ofEntries entries) config s place := by
    rw [← hblanks] at hmark
    rw [step_of_closingMark entries config hmark, hblanks]
  exact ⟨(hstep _).trans hclose, s', nextToken_of_token ((hstep _).trans hstar)⟩

/-- What two searches come to that differ in the flag alone. -/
inductive VendorForks (entries : List Entry) (config : Config) (s : State) (c : Cursor) : Prop where
  /-- They find the same token and hand the flag on. -/
  | same (t : Token) (next : Cursor) (s' : State) :
      (∀ flag, nextToken (.ofEntries entries) config (s.vendor flag) c =
        (t, next, s'.vendor flag)) → VendorForks entries config s c
  /-- They open a vendor comment and find the same. -/
  | opened : nextToken (.ofEntries entries) config (s.vendor true) c =
      nextToken (.ofEntries entries) config (s.vendor false) c → VendorForks entries config s c
  /-- They come to the closing mark of a vendor comment, each with its flag. -/
  | closing (st : State) (place : Cursor) :
      (∀ flag, ComesTo (.ofEntries entries) config (s.vendor flag) c (st.vendor flag) place) →
      Comment.closingMark <+: place.ahead → VendorForks entries config s c

/-- Searches that differ in the flag alone find the same token, open a vendor comment, or come to
the mark that closes one. -/
theorem nextToken_forked (entries : List Entry) (config : Config) (s : State) (c : Cursor) :
    VendorForks entries config s c := by
  generalize hn : c.remaining = n
  induction n using Nat.strong_induction_on generalizing s c with
  | _ n ih =>
    by_cases hmark : Comment.closingMark <+: (c.skipWhile Rune.isSpace).ahead
    · exact .closing s _ (fun _ => .here _ c) hmark
    · rcases step_transparent entries config s hmark with ⟨base, hall⟩ | ⟨next, s', -, hall⟩
      · cases base with
        | token t next s' => exact .same t next s' fun flag => nextToken_of_token (hall flag)
        | trivia next s' =>
          -- Both skip the same, and go on with the flags they had.
          have hlt := step_reads_of_trivia (hall false)
          have hskip (flag : Bool) := nextToken_of_trivia (hall flag)
          rcases ih next.remaining (hn ▸ hlt) s' next rfl with
            ⟨t, last, s'', hsame⟩ | hopened | ⟨st, place, hcomes, hclosing⟩
          · exact .same t last s'' fun flag => (hskip flag).trans (hsame flag)
          · exact .opened ((hskip true).trans (hopened.trans (hskip false).symm))
          · exact .closing st place (fun flag => .skip (hall flag) (hcomes flag)) hclosing
      · exact .opened
          ((nextToken_of_trivia (hall true)).trans (nextToken_of_trivia (hall false)).symm)

end searches

namespace Scanner

/-! ## Runs -/

/-- The scanner with another flag of whether a vendor comment is open. -/
def vendor (s : Scanner) (flag : Bool) : Scanner := { s with state := s.state.vendor flag }

/-- Whether a scanner comes to a place with a state while it looks for its next token. -/
def ComesTo (s : Scanner) (st : State) (place : Cursor) : Prop :=
  SqlTokens.ComesTo s.table s.config s.state s.cursor st place

/-- Whether two scanners that look for their next tokens come to the closing mark of a vendor
comment at one place, the one inside such a comment and the other not, and otherwise with one state.
-/
structure Part (one two : Scanner) (st : State) (place : Cursor) : Prop where
  /-- The one scanner is inside a vendor comment. -/
  inside : one.ComesTo (st.vendor true) place
  /-- The other scanner is not. -/
  outside : two.ComesTo (st.vendor false) place
  /-- The closing mark comes next. -/
  mark : Comment.closingMark <+: place.ahead

variable {entries : List Entry} {s one two : Scanner}

/-- A scanner comes to the place behind the blanks where it stands. -/
theorem ComesTo.of_here {st : State} {place : Cursor} (hst : st = s.state)
    (hplace : place = s.cursor.skipWhile Rune.isSpace) : s.ComesTo st place := by
  rw [hst, hplace]
  exact .here _ _

/-- A scanner finds what it finds from each place that it comes to. -/
theorem ComesTo.scan_eq {st : State} {place : Cursor} (h : s.ComesTo st place) :
    s.scan = ({ s with cursor := place, state := st } : Scanner).scan :=
  scan_congr rfl rfl h.nextToken_eq

/-- Scans of scanners that differ in the flag alone find the same token and hand the flag on, or are
one and the same, unless the scanners part. -/
theorem scan_forked (hs : s.table = .ofEntries entries)
    (h : ∀ st place, ¬Part (s.vendor true) (s.vendor false) st place) :
    (∃ (t : Token) (v : Scanner), ∀ flag, (s.vendor flag).scan = (t, v.vendor flag)) ∨
      (s.vendor true).scan = (s.vendor false).scan := by
  rcases nextToken_forked entries s.config s.state s.cursor with
    ⟨t, next, s', hsame⟩ | hopened | ⟨st, place, hcomes, hclosing⟩
  · rw [← hs] at hsame
    refine .inl ⟨t, { s with
      cursor := next
      state := settle s.table t next s'
      lastStart := t.pos.offset }, fun flag => ?_⟩
    rw [scan_of_nextToken (s := s.vendor flag) (hsame flag)]
    rfl
  · rw [← hs] at hopened
    exact .inr (scan_congr rfl rfl hopened)
  · rw [← hs] at hcomes
    exact absurd ⟨hcomes true, hcomes false, hclosing⟩ (h st place)

/-- Whether two scanners are the same, but that the one may be inside a vendor comment where the
other is not. -/
def Alike (one two : Scanner) : Prop :=
  one = two ∨ ∃ v : Scanner, one = v.vendor true ∧ two = v.vendor false

/-- Such scanners have one vocabulary and one set of settings. -/
theorem Alike.read_by (h : Alike one two) : one.table = two.table ∧ one.config = two.config := by
  rcases h with rfl | ⟨v, rfl, rfl⟩
  · exact ⟨rfl, rfl⟩
  · exact ⟨rfl, rfl⟩

/-- A scan of scanners that are alike finds the same token and leaves them alike, unless they part.
-/
theorem Alike.scan (halike : Alike one two) (htable : two.table = .ofEntries entries)
    (h : ∀ st place, ¬Part one two st place) :
    one.scan.1 = two.scan.1 ∧ Alike one.scan.2 two.scan.2 := by
  rcases halike with rfl | ⟨v, rfl, rfl⟩
  · exact ⟨rfl, .inl rfl⟩
  · rcases scan_forked (s := v) htable h with ⟨t, next, hsame⟩ | hopened
    · rw [hsame, hsame]
      exact ⟨rfl, .inr ⟨next, rfl, rfl⟩⟩
    · rw [hopened]
      exact ⟨rfl, .inl rfl⟩

/-- Scans keep the vocabulary. -/
theorem scans_table (s : Scanner) (n : Nat) : (s.scans n).table = s.table := by
  induction n with
  | zero => rfl
  | succ n ih => exact ih

/-- Scanners that are alike stay so, as long as they do not part. -/
theorem Alike.scans (halike : Alike one two) (htable : two.table = .ofEntries entries) {n : Nat}
    (h : ∀ k < n, ∀ st place, ¬Part (one.scans k) (two.scans k) st place) :
    Alike (one.scans n) (two.scans n) := by
  induction n with
  | zero => exact halike
  | succ n ih =>
    have hn := ih fun k hk => h k (Nat.lt_succ_of_lt hk)
    exact (hn.scan ((scans_table two n).trans htable) (h n n.lt_succ_self)).2

/-- If the scanner that is not inside a vendor comment opens one, the other opens it too, and they
are the same from there. -/
theorem Alike.of_opened (halike : Alike one two) (htable : two.table = .ofEntries entries)
    {st : State} {place : Cursor} (hcomes : two.ComesTo st place) (hst : st.inVendorBlock = true) :
    one.ComesTo st place ∧ one.scan = two.scan := by
  have hone : one.ComesTo st place := by
    rcases halike with rfl | ⟨v, rfl, rfl⟩
    · exact hcomes
    · unfold ComesTo at hcomes ⊢
      rw [htable] at hcomes
      rw [show (v.vendor true).table = .ofEntries entries from htable]
      exact SqlTokens.ComesTo.of_opened hcomes hst
  refine ⟨hone, ?_⟩
  rw [hone.scan_eq, hcomes.scan_eq]
  exact scan_congr halike.read_by.1 halike.read_by.2 (by rw [halike.read_by.1, halike.read_by.2])

/-- How scanners part that come to the closing mark of a vendor comment. -/
structure Parting (one two : Scanner) (st : State) (place behind : Cursor) : Prop where
  /-- The one reads on. -/
  reaches : place.Reaches behind
  /-- What it reads is the mark. -/
  upTo_eq : place.upTo behind = Comment.closingMark
  /-- It does so in silence, and takes nothing away but the flag. -/
  step_eq : step one.table one.config (st.vendor true) place = .trivia behind (st.vendor false)
  /-- It goes on as the other would behind the mark. -/
  scan_eq : one.scan = ({ two with cursor := behind, state := st.vendor false } : Scanner).scan
  /-- The other finds a star. -/
  token_eq : two.scan.1 = ⟨.ofChar '*', place.pos, [0x2A]⟩
  /-- It stops behind the star. -/
  cursor_eq : two.scan.2.cursor = place.advance

/-- Scanners that are alike do so. -/
theorem Part.parting {st : State} {place : Cursor} (h : Part one two st place)
    (halike : Alike one two) (htable : two.table = .ofEntries entries) :
    Parting one two st place place.advance.advance := by
  obtain ⟨hinside, houtside, hmark⟩ := h
  obtain ⟨hsame, hconfig⟩ := halike.read_by
  obtain ⟨hclose, s', hstar⟩ :=
    nextToken_of_closingMark entries two.config st hmark hinside.skipWhile_eq
  have hupTo := (stepAt_of_closingMark entries two.config st hmark).1
  rw [← htable] at hclose hstar
  rw [← hsame, ← hconfig] at hclose
  have hscan := houtside.scan_eq
  rw [scan_of_nextToken (s := { two with cursor := place, state := st.vendor false }) hstar]
    at hscan
  refine ⟨(Cursor.Reaches.next _).trans (.next _), hupTo, hclose, ?_, ?_, ?_⟩
  · refine hinside.scan_eq.trans (scan_congr hsame hconfig ?_)
    rw [nextToken_of_trivia hclose, hsame, hconfig]
  · rw [hscan]
  · rw [hscan]

/-- What vendor comments hold is read as code. Take a scanner inside a vendor comment and one that
is not, otherwise the same. As long as they have not come to a closing mark, the one inside and the
other not, they find the same tokens and stay the same but for the flag. Once the latter has opened
a vendor comment they are one and the same. If they do come to a closing mark so, the one reads it
in silence and goes on as the other would behind it, and the other finds a star. -/
theorem scans_vendor (entries : List Entry) (s : Scanner) (hs : s.table = .ofEntries entries)
    (n : Nat) (one two : Scanner) (hone : one = (s.vendor true).scans n)
    (htwo : two = (s.vendor false).scans n)
    (h : ∀ k < n, ∀ st place,
      ¬Part ((s.vendor true).scans k) ((s.vendor false).scans k) st place) :
    Alike one two ∧
      ((∀ st place, ¬Part one two st place) →
        one.scan.1 = two.scan.1 ∧ Alike one.scan.2 two.scan.2) ∧
      (∀ st place, two.ComesTo st place → st.inVendorBlock = true →
        one.ComesTo st place ∧ one.scan = two.scan) ∧
      ∀ st place, Part one two st place → ∃ behind, Parting one two st place behind := by
  have htable : two.table = .ofEntries entries := by
    rw [htwo, scans_table]
    exact hs
  have halike : Alike one two := by
    rw [hone, htwo]
    exact Alike.scans (.inr ⟨s, rfl, rfl⟩) hs h
  refine ⟨halike, ?_, ?_, ?_⟩
  · exact halike.scan htable
  · exact fun st place hcomes hst => halike.of_opened htable hcomes hst
  · exact fun st place hpart => ⟨_, hpart.parting halike htable⟩

/-- A closing mark in a string closes nothing. Behind the string it takes the one scanner out of its
vendor comment, and the other finds a star. -/
theorem scans_vendor_string : ∃ s one two : Scanner,
    s = start (.ofEntries []) {} [0x27, 0x2A, 0x2F, 0x27, 0x2A, 0x2F, 0x62] ∧
      one = (s.vendor true).scans 1 ∧ two = (s.vendor false).scans 1 ∧ two.cursor.offset = 4 ∧
      (∃ behind, Parting one two two.state two.cursor behind) ∧
      one.scan.1 = ⟨.identifier, ⟨1, 7, 6⟩, [0x62]⟩ ∧
      two.scan.1 = ⟨.ofChar '*', ⟨1, 5, 4⟩, [0x2A]⟩ := by
  have htogether : ∀ k < 1, ∀ st place, ¬Part
      (((start (.ofEntries []) {} [0x27, 0x2A, 0x2F, 0x27, 0x2A, 0x2F, 0x62]).vendor true).scans k)
      (((start (.ofEntries []) {} [0x27, 0x2A, 0x2F, 0x27, 0x2A, 0x2F, 0x62]).vendor false).scans k)
      st place := by
    intro k hk st place hpart
    obtain rfl := Nat.lt_one_iff.mp hk
    -- The first scan finds the string at once.
    have hstring : step (.ofEntries []) {} (({} : State).vendor true)
        (.start [0x27, 0x2A, 0x2F, 0x27, 0x2A, 0x2F, 0x62]) =
        .token ⟨.stringLiteral, .start, [0x2A, 0x2F]⟩
          (.place [0x27, 0x2A, 0x2F, 0x27, 0x2A, 0x2F, 0x62] ⟨1, 5, 4⟩)
          (({} : State).vendor true) := by
      decide +kernel
    have hplace := hpart.inside.eq_of_token hstring
    have hmark := hpart.mark
    rw [hplace] at hmark
    revert hmark
    decide +kernel
  obtain ⟨-, -, -, hpart⟩ := scans_vendor [] (start (.ofEntries []) {}
    [0x27, 0x2A, 0x2F, 0x27, 0x2A, 0x2F, 0x62]) rfl 1 _ _ rfl rfl htogether
  refine ⟨_, _, _, rfl, rfl, rfl, by decide +kernel, hpart _ _ ?_, by decide +kernel,
    by decide +kernel⟩
  exact ⟨.of_here (by decide +kernel) (by decide +kernel),
    .of_here (by decide +kernel) (by decide +kernel), by decide +kernel⟩

end Scanner

end SqlTokens
