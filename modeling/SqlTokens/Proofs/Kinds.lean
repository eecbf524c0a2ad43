import SqlTokens.Proofs.Steps

/-!
# The kinds of tokens

The forms of variable length give tokens of kinds of their own (`Starter.kinds`), and every other
token has the kind of an operator of the vocabulary, spelled as its entry says
(`stepAt_kind`). In the standard vocabulary no entry ends the input, and some operators of one byte
stand alone: no other operator starts with their byte, and no other entry has their kind. A token of
such a kind is exactly that byte (`rune_of_stepAt`), and that byte is always such a token
(`stepAt_of_lone`).
-/

namespace SqlTokens

/-- The kinds that the forms of variable length give. -/
def Starter.kinds : List TokenKind :=
  [.identifier, .quotedIdentifier, .stringLiteral, .intLiteral, .decimalLiteral, .floatLiteral,
    .hexLiteral, .bitLiteral, .charsetIntroducer, .optimizerHint, .userVariable, .systemVariable,
    .jsonExtract, .jsonUnquoteExtract, .ofChar '/', .ofChar '*', .ofChar '-', .ofChar '.', .invalid]

namespace Lexeme

/-! ## Forms of variable length -/

/-- The kinds that the forms give which are no comments and start with no operator. The point alone
has one more kind. -/
def kinds : List TokenKind :=
  [.identifier, .quotedIdentifier, .stringLiteral, .intLiteral, .decimalLiteral, .floatLiteral,
    .hexLiteral, .bitLiteral, .charsetIntroducer, .userVariable, .systemVariable, .invalid]

/-- These kinds are among those of the forms of variable length. -/
theorem kinds_subset : kinds ⊆ Starter.kinds := by decide

/-- The kind of a name or introducer. -/
theorem national_kind (c : Cursor) : (national c).kind ∈ kinds := by
  unfold national
  simp only
  split
  · exact (by decide : TokenKind.charsetIntroducer ∈ kinds)
  · exact (by decide : TokenKind.identifier ∈ kinds)

/-- The kind of a name. -/
theorem word_kind (c : Cursor) : (word c).kind ∈ kinds :=
  (by decide : TokenKind.identifier ∈ kinds)

/-- The kind of a literal with a leading zero, or of a name. -/
theorem radix_kind {kind : TokenKind} (hkind : kind ∈ kinds) (digit : Rune → Bool)
    (c : Cursor) : (radix kind digit c).kind ∈ kinds := by
  unfold radix
  simp only
  split
  · exact hkind
  · exact word_kind c

/-- The kind of either reading of a form that may be a number. -/
theorem getD_scaled?_kind {c digits : Cursor} {l : Lexeme} (hl : l.kind ∈ kinds) :
    ((scaled? c digits).getD l).kind ∈ kinds := by
  unfold scaled?
  split
  · rcases exponent? digits with _ | stop
    · exact hl
    · exact (by decide : TokenKind.floatLiteral ∈ kinds)
  · exact (by decide : TokenKind.decimalLiteral ∈ kinds)

/-- The kind of a form that starts with a digit. -/
theorem number_kind (afterNameDot : Bool) (c : Cursor) :
    (number afterNameDot c).kind ∈ kinds := by
  unfold number
  simp only
  repeat' split
  · exact word_kind c
  · exact radix_kind (by decide) _ c
  · exact radix_kind (by decide) _ c
  · exact getD_scaled?_kind (word_kind c)
  · exact getD_scaled?_kind (word_kind c)
  · exact word_kind c
  · exact (by decide : TokenKind.intLiteral ∈ kinds)

/-- The kind of a form that starts with a point. -/
theorem dot_kind (afterNameDot : Bool) (c : Cursor) :
    (dot afterNameDot c).kind = .ofChar '.' ∨ (dot afterNameDot c).kind ∈ kinds := by
  unfold dot
  simp only
  split
  · exact .inl rfl
  · exact .inr (getD_scaled?_kind (by decide : TokenKind.invalid ∈ kinds))

/-- The kind of a literal in quotes, or of a name. -/
theorem quotedDigits_kind {kind : TokenKind} (hkind : kind ∈ kinds) (error : ScanErrorKind)
    (digit : Rune → Bool) (c : Cursor) :
    (quotedDigits kind error digit c).kind ∈ kinds := by
  unfold quotedDigits
  simp only
  repeat' split
  · exact word_kind c
  · exact hkind
  · exact (by decide : TokenKind.invalid ∈ kinds)

/-- The kind of a quoted form. -/
theorem quoted_kind {kind : TokenKind} (hkind : kind ∈ kinds) (error : ScanErrorKind)
    (escapes : Bool) (c : Cursor) : (quoted kind error escapes c).kind ∈ kinds := by
  obtain ⟨stop, -, ⟨text, h⟩ | h⟩ := quoted_cases kind error escapes c
  · rw [h]
    exact hkind
  · rw [h]
    exact (by decide : TokenKind.invalid ∈ kinds)

/-- The kinds of what starts as a variable does. -/
def variableKinds : List TokenKind := [.userVariable, .systemVariable, .invalid]

/-- These kinds are among those of the other forms. -/
theorem variableKinds_subset : variableKinds ⊆ kinds := by decide

/-- The kind of a variable with a name. -/
theorem named_kind {kind : TokenKind} (hkind : kind ∈ variableKinds) (c : Cursor) (front : Bytes)
    (name : Lexeme) : (named kind c front name).kind ∈ variableKinds := by
  unfold named
  split
  · exact (by decide : TokenKind.invalid ∈ variableKinds)
  · exact hkind

/-- The kind of a variable. -/
theorem anyVariable_kind (escapes : Bool) (c : Cursor) :
    (anyVariable escapes c).kind ∈ variableKinds := by
  unfold anyVariable
  simp only
  split
  · exact named_kind (by decide) _ _ _
  · split
    · unfold systemVariable
      simp only
      split
      · exact named_kind (by decide) _ _ _
      · exact (by decide : TokenKind.invalid ∈ variableKinds)
    · split
      · exact (by decide : TokenKind.invalid ∈ variableKinds)
      · exact (by decide : TokenKind.userVariable ∈ variableKinds)

end Lexeme

/-- Whether the token of an outcome, if there is one, has a kind with the given property. -/
def Outcome.Kinded (P : TokenKind → Prop) : Outcome → Prop
  | .token t _ _ => P t.kind
  | .trivia _ _ => True

/-- What every kind with one property has is a property of the token of an outcome too. -/
theorem Outcome.Kinded.mono {P Q : TokenKind → Prop} {o : Outcome} (h : o.Kinded P)
    (hPQ : ∀ kind, P kind → Q kind) : o.Kinded Q := by
  cases o with
  | token t next s => exact hPQ _ h
  | trivia next s => trivial

namespace Comment

/-- The kinds of what starts as a comment does. -/
def kinds : List TokenKind :=
  [.optimizerHint, .jsonExtract, .jsonUnquoteExtract, .ofChar '/', .ofChar '*', .ofChar '-',
    .invalid]

/-- These kinds are among those of the forms of variable length. -/
theorem kinds_subset : kinds ⊆ Starter.kinds := by decide

variable (s : State) (c : Cursor)

/-- The kind of a comment that is not closed. -/
theorem block_kind (inside : Cursor) : (block s c inside).Kinded (· ∈ kinds) := by
  unfold block
  split
  · trivial
  · exact (by decide : TokenKind.invalid ∈ kinds)

/-- The kind of what starts with a slash. -/
theorem slash_kind : (slash s c).Kinded (· ∈ kinds) := by
  unfold slash
  simp only
  repeat' split
  · exact (by decide : TokenKind.ofChar '/' ∈ kinds)
  · trivial
  · unfold gated
    repeat' split
    · trivial
    · exact block_kind _ _ _
    · trivial
  · unfold hint
    repeat' split
    · exact (by decide : TokenKind.optimizerHint ∈ kinds)
    · exact (by decide : TokenKind.invalid ∈ kinds)
    · exact block_kind _ _ _
  · exact block_kind _ _ _

/-- The kind of what starts with a star. -/
theorem star_kind : (star s c).Kinded (· ∈ kinds) := by
  unfold star
  simp only
  split
  · trivial
  · exact (by decide : TokenKind.ofChar '*' ∈ kinds)

/-- The kind of what starts with a dash. -/
theorem dash_kind : (dash s c).Kinded (· ∈ kinds) := by
  unfold dash
  simp only
  repeat' split
  · trivial
  · exact (by decide : TokenKind.jsonUnquoteExtract ∈ kinds)
  · exact (by decide : TokenKind.jsonExtract ∈ kinds)
  · exact (by decide : TokenKind.ofChar '-' ∈ kinds)

end Comment

/-- The form of a starter other than the point gives a token of a kind of its own, if it gives one.
-/
theorem Starter.outcome_kind_of_ne {starter : Starter} (hne : starter ≠ .dot) (config : Config)
    (s : State) (c : Cursor) :
    (starter.outcome config s c).Kinded fun kind => kind ∈ Comment.kinds ∨ kind ∈ Lexeme.kinds := by
  cases starter with
  | slash => exact (Comment.slash_kind s c).mono fun _ => .inl
  | star => exact (Comment.star_kind s c).mono fun _ => .inl
  | sharp => trivial
  | dash => exact (Comment.dash_kind s c).mono fun _ => .inl
  | «at» => exact .inr (Lexeme.variableKinds_subset (Lexeme.anyVariable_kind _ c))
  | dot => exact absurd rfl hne
  | number => exact .inr (Lexeme.number_kind _ c)
  | string => exact .inr (Lexeme.quoted_kind (by decide) _ _ c)
  | quotedIdentifier => exact .inr (Lexeme.quoted_kind (by decide) _ _ c)
  | hexMark => exact .inr (Lexeme.quotedDigits_kind (by decide) _ _ c)
  | bitMark => exact .inr (Lexeme.quotedDigits_kind (by decide) _ _ c)
  | nationalMark => exact .inr (Lexeme.national_kind c)
  | identifier => exact .inr (Lexeme.word_kind c)

/-- The form of a starter gives a token of one of its kinds, if it gives one. -/
theorem Starter.outcome_kind (starter : Starter) (config : Config) (s : State) (c : Cursor) :
    (starter.outcome config s c).Kinded (· ∈ kinds) := by
  by_cases hdot : starter = .dot
  · rw [hdot]
    rcases Lexeme.dot_kind s.afterNameDot c with hpoint | hkind
    · show (Lexeme.dot s.afterNameDot c).kind ∈ kinds
      rw [hpoint]
      decide
    · exact Lexeme.kinds_subset hkind
  · exact (outcome_kind_of_ne hdot config s c).mono fun _ hkind =>
      hkind.elim (fun h => Comment.kinds_subset h) fun h => Lexeme.kinds_subset h

/-! ## Entries of a vocabulary -/

namespace Table

/-- Whether the operators and words of a table are entries of a vocabulary. -/
structure Lists (entries : List Entry) (t : Table) : Prop where
  /-- An operator is spelled as its entry says. -/
  operators : ∀ text kind, t.forms.find? text = some (.operator kind) →
    ∃ e ∈ entries, e.role = .operator ∧ e.bytes = text ∧ e.kind = kind
  /-- A word has the kind of its entry. -/
  words : ∀ name word, t.words.find? name = some word →
    ∃ e ∈ entries, e.role ≠ .operator ∧ e.kind = word.kind

/-- The table of the empty vocabulary has neither operators nor words. -/
theorem starters_lists (entries : List Entry) : Lists entries starters := by
  -- Binding a starter puts no operator anywhere.
  have hnone (bytes : List UInt8) (forms : Trie Form)
      (h : ∀ text kind, forms.find? text ≠ some (.operator kind)) :
      ∀ text kind, (bytes.foldl bindStarter forms).find? text ≠ some (.operator kind) := by
    induction bytes generalizing forms with
    | nil => exact h
    | cons b bytes ih =>
      refine ih _ fun text kind => ?_
      rw [bindStarter]
      rcases Starter.ofByte? b with _ | s
      · exact h text kind
      · rw [Trie.find?_insert (List.cons_ne_nil b [])]
        split
        · simp
        · exact h text kind
  constructor
  · intro text kind hfind
    rw [starters_forms] at hfind
    exact absurd hfind (hnone _ _ (by simp) text kind)
  · intro name word hfind
    rw [show starters.words = .empty from rfl, Trie.find?_empty] at hfind
    cases hfind

/-- An entry of the vocabulary may be added. -/
theorem Lists.add {entries : List Entry} {t : Table} (h : Lists entries t) {e : Entry}
    (he : e ∈ entries) : Lists entries (t.add e) := by
  unfold Table.add
  split
  · -- An operator takes its place unless a starter is there.
    rename_i hrole
    refine ⟨fun text kind hfind => ?_, h.words⟩
    simp only at hfind
    by_cases hempty : e.bytes = []
    · rw [hempty] at hfind
      exact h.operators text kind hfind
    · rw [Trie.find?_alter _ hempty] at hfind
      split at hfind
      · rename_i htext
        unfold placeOperator at hfind
        split at hfind
        · cases hfind
        · simp only [Option.some.injEq, Form.operator.injEq] at hfind
          exact ⟨e, he, hrole, htext.symm, hfind⟩
      · exact h.operators text kind hfind
  · rename_i hrole
    refine ⟨h.operators, fun name word hfind => ?_⟩
    simp only at hfind
    by_cases hempty : Bytes.toUpper e.bytes = []
    · rw [hempty] at hfind
      exact h.words name word hfind
    · rw [Trie.find?_insert hempty] at hfind
      split at hfind
      · obtain rfl := Option.some.inj hfind
        exact ⟨e, he, hrole, rfl⟩
      · exact h.words name word hfind

/-- The table of a vocabulary has no other operators and words. -/
theorem ofEntries_lists (entries : List Entry) : Lists entries (ofEntries entries) := by
  have hfold (added : List Entry) (hadded : added ⊆ entries) (t : Table) (h : Lists entries t) :
      Lists entries (added.foldl add t) := by
    induction added generalizing t with
    | nil => exact h
    | cons e added ih =>
      obtain ⟨he, hrest⟩ := List.cons_subset.mp hadded
      exact ih hrest _ (h.add he)
  exact hfold entries (List.Subset.refl _) _ (starters_lists entries)

/-- An operator ends where no byte leads on. -/
theorem descend_of_none {value : Option Form} {below : Trie Form} {c : Cursor}
    (h : follow? below c = none) : descend value below c = (kindOf value, c) := by
  unfold descend
  split
  · rfl
  · rename_i hfound
    rw [h] at hfound
    cases hfound

/-- An operator goes on where a byte leads on. -/
theorem descend_of_some {value value' : Option Form} {below below' : Trie Form} {c : Cursor}
    (h : follow? below c = some (value', below')) :
    descend value below c = descend value' below' c.advance := by
  conv => lhs; unfold descend
  split
  · rename_i hfound
    rw [h] at hfound
    cases hfound
  · rename_i hfound
    rw [h] at hfound
    cases hfound
    rfl

/-- The byte that leads on in a trie is the first of those that are read. -/
theorem upTo_of_follow? {forms : Trie Form} {c stop : Cursor} {place : Option Form × Trie Form}
    (h : follow? forms c = some place) (hreach : c.advance.Reaches stop) :
    ∃ b, forms.child? b = some place ∧ c.upTo stop = b :: c.advance.upTo stop := by
  obtain ⟨b, hb, hchild⟩ := Option.bind_eq_some_iff.mp h
  obtain ⟨-, hlt, hhead⟩ := ascii?_rune_iff.mp hb
  exact ⟨b, hchild, hreach.upTo_eq_cons (Cursor.upTo_advance_of_head? hlt hhead).1⟩

/-- What has been read on from a place of the trie has the kind of the place where its bytes lead
to. -/
theorem kind_descend (value : Option Form) (below : Trie Form) (c : Cursor) :
    (descend value below c).1 = kindOf (if c.upTo (descend value below c).2 = [] then value
      else below.find? (c.upTo (descend value below c).2)) := by
  -- Each byte that is read leads one place down in the trie, where the rest of the text leads on.
  fun_induction descend value below c with
  | case1 value below c hfollow => rw [if_pos (Cursor.upTo_self c)]
  | case2 value below c value' below' hfollow ih =>
    obtain ⟨b, hchild, hup⟩ := upTo_of_follow? hfollow (descend_reaches value' below' c.advance)
    rw [ih, hup, if_neg (List.cons_ne_nil _ _), Trie.find?, hchild]

/-- An operator that has been read on from a place of the trie stands where its bytes lead to. -/
theorem find?_of_descend {value : Option Form} {below : Trie Form} {c stop : Cursor}
    {kind : TokenKind} (h : descend value below c = (kind, stop)) (hkind : kind ≠ .invalid) :
    (if c.upTo stop = [] then value else below.find? (c.upTo stop)) = some (.operator kind) := by
  have hplace (form : Option Form) (h : kindOf form = kind) : form = some (.operator kind) := by
    unfold kindOf at h
    split at h
    · rw [h]
    · exact absurd h.symm hkind
  have hread := kind_descend value below c
  rw [h] at hread
  exact hplace _ hread.symm

/-- An operator that has been read is an entry of the vocabulary, spelled as it is written. -/
theorem entry_of_walk {entries : List Entry} {c stop : Cursor} {kind : TokenKind}
    (h : (ofEntries entries).walk c = (.fixed kind, stop)) (hkind : kind ≠ .invalid) :
    ∃ e ∈ entries, e.role = .operator ∧ e.bytes = c.upTo stop ∧ e.kind = kind := by
  refine (ofEntries_lists entries).operators (c.upTo stop) kind ?_
  unfold walk at h
  split at h
  · cases h
  · cases h
  · rename_i value below hnot hfollow
    rcases hd : descend value below c.advance with ⟨kind', stop'⟩
    rw [hd] at h
    simp only [Prod.mk.injEq, Walk.fixed.injEq] at h
    obtain ⟨rfl, rfl⟩ := h
    have hreach := descend_reaches value below c.advance
    rw [hd] at hreach
    obtain ⟨b, hchild, hup⟩ := upTo_of_follow? hfollow hreach
    rw [hup, Trie.find?, hchild]
    exact find?_of_descend hd hkind

end Table

/-- What a step finds is of a kind of the forms of variable length, or it is an operator of the
vocabulary, spelled as its entry says. -/
theorem stepAt_kind (entries : List Entry) (config : Config) (s : State) (c : Cursor) :
    (stepAt (.ofEntries entries) config s c).Kinded fun kind => kind ∈ Starter.kinds ∨
      ∃ e ∈ entries, e.role = .operator ∧ e.bytes <+: c.ahead ∧ e.kind = kind := by
  have hinvalid : TokenKind.invalid ∈ Starter.kinds := by decide
  unfold stepAt
  simp only
  split
  · trivial
  · split
    · exact .inl (Lexeme.kinds_subset (Lexeme.word_kind c))
    · split
      · exact .inl hinvalid
      · split
        · rename_i starter next hwalk
          exact (Starter.outcome_kind starter config s c).mono fun _ hkind => .inl hkind
        · rename_i kind stop hwalk
          unfold Lexeme.operator
          split
          · exact .inl hinvalid
          · rename_i hkind
            obtain ⟨e, he, hrole, hbytes, hentry⟩ := Table.entry_of_walk hwalk hkind
            refine .inr ⟨e, he, hrole, ?_, hentry⟩
            rw [hbytes]
            exact List.take_prefix _ _
        · exact .inl hinvalid

/-- The token that a step finds is of a kind of the forms of variable length, or it is an operator
of the vocabulary. -/
theorem kind_of_stepAt (entries : List Entry) {config : Config} {s s' : State} {c next : Cursor}
    {t : Token} (h : stepAt (.ofEntries entries) config s c = .token t next s') :
    t.kind ∈ Starter.kinds ∨
      ∃ e ∈ entries, e.role = .operator ∧ e.bytes <+: c.ahead ∧ e.kind = t.kind := by
  have hkind := stepAt_kind entries config s c
  rwa [h] at hkind

/-! ## The standard vocabulary -/

namespace Vocabulary

/-- No entry ends the input, is a comment for the optimizer, a point or a name. -/
theorem standard_ne {kind : TokenKind}
    (h : kind ∈ [.eof, .optimizerHint, .ofChar '.', .identifier]) :
    ∀ e ∈ standard, e.kind ≠ kind := by
  have hall : ∀ kind ∈ [TokenKind.eof, .optimizerHint, .ofChar '.', .identifier],
      ∀ e ∈ standard, e.kind ≠ kind := by
    decide +kernel
  exact hall kind h

/-- The operators of one byte that no other operator starts with. -/
def lone : List Char := "=();,%^~?\x7b\x7d[]+".toList

/-- Such an operator is one byte, with a kind that no form of variable length gives. -/
theorem isByte_of_lone : ∀ ch ∈ lone, Rune.IsByte ch ∧ TokenKind.ofChar ch ∉ Starter.kinds :=
  forall_mem_of_all (by decide)

/-- Such an operator has an entry to itself. -/
theorem standard_lone : ∀ ch ∈ lone, ∀ e ∈ standard, e.kind = .ofChar ch →
    e.role = .operator ∧ e.bytes = [UInt8.ofNat ch.toNat] :=
  forall_mem_of_all (by decide +kernel)

end Vocabulary

/-- Nothing starts with the byte of such an operator but the operator. -/
theorem Table.standard_child? : ∀ ch ∈ Vocabulary.lone,
    standard.forms.child? (UInt8.ofNat ch.toNat) =
      some (some (.operator (.ofChar ch)), .empty) :=
  forall_mem_of_all (by decide +kernel)

variable (config : Config) (s : State) {c : Cursor} {ch : Char}

/-- An operator that stands alone is a token by itself. -/
theorem stepAt_of_lone (hch : ch ∈ Vocabulary.lone) (h : c.rune.is ch = true) :
    stepAt .standard config s c = .ofLexeme c s (.whole (.ofChar ch) c c.advance) := by
  have hrune : c.rune = .ofChar ch := Rune.is_iff.mp h
  have hclass : ∀ ch ∈ Vocabulary.lone, (Rune.ofChar ch).ascii? = some (UInt8.ofNat ch.toNat) ∧
      (Rune.ofChar ch).isBom = false ∧ (Rune.ofChar ch).isExtended = false ∧
      (Rune.ofChar ch).isInvalid = false ∧ TokenKind.ofChar ch ≠ .invalid :=
    forall_mem_of_all (by decide)
  obtain ⟨hbyte, hbom, hextended, hinvalid, hkind⟩ := hclass ch hch
  -- Below its byte the trie is empty, so what stands behind it is not looked at.
  have hwalk : Table.standard.walk c = (.fixed (.ofChar ch), c.advance) := by
    have hfollow : Table.follow? Table.standard.forms c =
        some (some (.operator (.ofChar ch)), .empty) := by
      rw [Table.follow?, hrune, hbyte, Option.bind_some]
      exact Table.standard_child? ch hch
    have hstop : Table.follow? .empty c.advance = none := by
      rw [Table.follow?]
      rcases c.advance.rune.ascii? with _ | b
      · rfl
      · rfl
    unfold Table.walk
    rw [hfollow]
    simp only [Table.descend_of_none hstop]
    rfl
  unfold stepAt
  simp only [hrune, hbom, hextended, hinvalid, hwalk, Bool.false_eq_true, if_false]
  rw [Lexeme.operator, if_neg hkind]

/-- No other token has the kind of an operator that stands alone. -/
theorem rune_of_stepAt {t : Token} {next : Cursor} {s' : State} (hch : ch ∈ Vocabulary.lone)
    (h : stepAt .standard config s c = .token t next s') (ht : t.kind = .ofChar ch) :
    c.rune.is ch = true := by
  obtain ⟨hbyte, hforms⟩ := Vocabulary.isByte_of_lone ch hch
  have hkind := kind_of_stepAt Vocabulary.standard h
  rw [ht] at hkind
  rcases hkind with hkind | ⟨e, he, -, hahead, hkind⟩
  · exact absurd hkind hforms
  · rw [(Vocabulary.standard_lone ch hch e he hkind).2] at hahead
    obtain ⟨rest, hrest⟩ := hahead
    rw [Cursor.rune_is_iff hbyte, ← hrest]
    rfl

/-- A token of the kind of the point starts with one. -/
theorem head?_of_stepAt {t : Token} {next : Cursor} {s' : State}
    (h : stepAt .standard config s c = .token t next s') (ht : t.kind = .ofChar '.') :
    c.ahead.head? = some 0x2E := by
  have hcomment : TokenKind.ofChar '.' ∉ Comment.kinds := by decide
  have hlexeme : TokenKind.ofChar '.' ∉ Lexeme.kinds := by decide
  have hinvalid : TokenKind.ofChar '.' ≠ .invalid := by decide
  have hkind {o : Outcome} {P : TokenKind → Prop} (ho : o = .token t next s') (hP : o.Kinded P) :
      P (.ofChar '.') := by
    rw [ho] at hP
    rwa [← ht]
  by_contra hhead
  unfold stepAt at h
  simp only at h
  split at h
  · cases h
  · split at h
    · exact hlexeme (hkind h (show (Outcome.ofLexeme c s (.word c)).Kinded (· ∈ Lexeme.kinds) from
        Lexeme.word_kind c))
    · split at h
      · exact hinvalid (hkind h (P := (· = .invalid)) rfl)
      · split at h
        · rename_i starter stop hwalk
          obtain ⟨b, hb, hopens⟩ := Table.opens_of_walk hwalk
          have hne : starter ≠ .dot := by
            rintro rfl
            exact hhead (hb.trans (congrArg some (Starter.opens_of_ofByte? hopens).2.2.symm))
          exact (hkind h (Starter.outcome_kind_of_ne hne config s c)).elim hcomment hlexeme
        · rename_i kind stop hwalk
          unfold Lexeme.operator at h
          split at h
          · exact hinvalid (hkind h (P := (· = .invalid)) rfl)
          · rename_i hvalid
            obtain ⟨e, he, -, -, hentry⟩ := Table.entry_of_walk hwalk hvalid
            have hpoint := hkind h (P := (· = kind)) rfl
            exact Vocabulary.standard_ne (by decide) e he (hentry.trans hpoint.symm)
        · exact hinvalid (hkind h (P := (· = .invalid)) rfl)

/-- No token before the end has the kind of the end. -/
theorem ne_eof_of_stepAt {t : Token} {next : Cursor} {s' : State}
    (h : stepAt .standard config s c = .token t next s') : t.kind ≠ .eof := by
  intro ht
  have hkind := kind_of_stepAt Vocabulary.standard h
  rw [ht] at hkind
  rcases hkind with hkind | ⟨e, he, -, -, hkind⟩
  · exact absurd hkind (by decide)
  · exact Vocabulary.standard_ne (by decide) e he hkind

end SqlTokens
