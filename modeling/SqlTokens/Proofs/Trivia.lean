import SqlTokens.Proofs.Features

/-!
# What stands between tokens

The grammar of the bytes that no token has. An item is a blank, the byte-order mark at the start of
the source, a comment, or one of the marks that bracket a vendor comment (`Trivia.Item`); between
two tokens stand any number of them (`Trivia`). An item may depend on what follows it: a comment
behind `--` needs a blank, a line comment ends where its line does, and a vendor comment takes a
version number or a list of features with it if one follows. Whether a vendor comment is open is
threaded through, since `*/` is an item only behind one.

`Cursor.Crosses` says that the bytes between two cursors are of this grammar. Crossings compose
(`Crosses.trans`), and each reader of comments crosses what it skips.
-/

namespace SqlTokens

namespace Trivia

/-- Whether a text can stand between `/*` and `*/`: the `*/` behind it is the first. -/
def IsInside (body : Bytes) : Prop := ¬[0x2A, 0x2F] <:+: body ++ [0x2A]

/-- Whether a text is the version number behind `/*!`. -/
def IsVersion (digits : Bytes) : Prop :=
  digits.length = 5 ∧ ∀ b ∈ digits, Rune.onByte Rune.isDigit b = true

/-- Whether a comment with this text is no vendor comment: it is not marked as one, or it starts
with a list of features not all of which are known. -/
def IsPlain (body : Bytes) : Prop :=
  body.head? ≠ some 0x21 ∧ ∀ inside, body = 0x54 :: 0x21 :: inside →
    ∃ names list more, Comment.NameList names list ∧ names.all Vocabulary.isFeature = false ∧
      inside = 0x5B :: list ++ more

/-- Whether a text goes on exactly to the end of its line. -/
def IsLineRest (text rest : Bytes) : Prop :=
  0x0A ∉ text ∧ (rest = [] ∨ rest.head? = some 0x0A)

/-- The texts that stand alone between tokens, with the offset of each, whether a vendor comment is
open before it, what follows it, and whether a vendor comment is open behind it. -/
inductive Item : Nat → Bool → Bytes → Bytes → Bool → Prop where
  /-- A blank. -/
  | blank {offset : Nat} {vendor : Bool} {b : UInt8} {rest : Bytes} :
      Rune.onByte Rune.isSpace b = true → Item offset vendor [b] rest vendor
  /-- The byte-order mark at the start. -/
  | mark {vendor : Bool} {rest : Bytes} : Item 0 vendor [0xEF, 0xBB, 0xBF] rest vendor
  /-- A comment behind a sharp sign. -/
  | sharp {offset : Nat} {vendor : Bool} {text rest : Bytes} :
      IsLineRest text rest → Item offset vendor (0x23 :: text) rest vendor
  /-- A comment behind two dashes, behind which a blank or the end of the source stands. -/
  | dashes {offset : Nat} {vendor : Bool} {text rest : Bytes} :
      (∀ b ∈ (text ++ rest).head?, Rune.onByte Rune.isSpace b = true) → IsLineRest text rest →
      Item offset vendor (0x2D :: 0x2D :: text) rest vendor
  /-- A closed comment that is no vendor comment. -/
  | comment {offset : Nat} {vendor : Bool} {body rest : Bytes} :
      IsInside body → IsPlain body →
      Item offset vendor (0x2F :: 0x2A :: body ++ [0x2A, 0x2F]) rest vendor
  /-- The opening of a vendor comment with its version number. -/
  | version {offset : Nat} {vendor : Bool} {digits rest : Bytes} :
      IsVersion digits → Item offset vendor (0x2F :: 0x2A :: 0x21 :: digits) rest true
  /-- The opening of a vendor comment without version number. -/
  | opening {offset : Nat} {vendor : Bool} {rest : Bytes} :
      (∀ digits, IsVersion digits → ¬digits <+: rest) →
      Item offset vendor [0x2F, 0x2A, 0x21] rest true
  /-- The opening of a feature comment with its list, all features of which are known. -/
  | features {offset : Nat} {vendor : Bool} {names : List Bytes} {list rest : Bytes} :
      Comment.NameList names list → names.all Vocabulary.isFeature = true →
      Item offset vendor (0x2F :: 0x2A :: 0x54 :: 0x21 :: 0x5B :: list) rest true
  /-- The opening of a feature comment without list. -/
  | unlisted {offset : Nat} {vendor : Bool} {rest : Bytes} :
      (∀ names list, Comment.NameList names list → ¬0x5B :: list <+: rest) →
      Item offset vendor [0x2F, 0x2A, 0x54, 0x21] rest true
  /-- The end of a vendor comment. -/
  | close {offset : Nat} {rest : Bytes} : Item offset true [0x2A, 0x2F] rest false

end Trivia

/-- The texts between two tokens: any number of items, one after another. -/
inductive Trivia : Nat → Bool → Bytes → Bytes → Bool → Prop where
  /-- Nothing stands between the tokens. -/
  | nil {offset : Nat} {vendor : Bool} {rest : Bytes} : Trivia offset vendor [] rest vendor
  /-- One more item stands before the others. -/
  | cons {offset : Nat} {vendor vendor' vendor'' : Bool} {text more rest : Bytes} :
      Trivia.Item offset vendor text (more ++ rest) vendor' →
      Trivia (offset + text.length) vendor' more rest vendor'' →
      Trivia offset vendor (text ++ more) rest vendor''

namespace Trivia

/-- A single item stands between tokens. -/
theorem single {offset : Nat} {vendor vendor' : Bool} {text rest : Bytes}
    (h : Item offset vendor text rest vendor') : Trivia offset vendor text rest vendor' := by
  have hcons : Trivia offset vendor (text ++ []) rest vendor' := .cons h .nil
  rwa [List.append_nil] at hcons

/-- Two texts between tokens make one. -/
theorem append {offset : Nat} {vendor vendor' vendor'' : Bool} {text more rest : Bytes}
    (h : Trivia offset vendor text (more ++ rest) vendor')
    (h' : Trivia (offset + text.length) vendor' more rest vendor'') :
    Trivia offset vendor (text ++ more) rest vendor'' := by
  generalize htail : more ++ rest = tail at h
  induction h with
  | nil => exact h'
  | @cons offset _ _ _ first text tail hitem _ ih =>
    -- What follows the first item is the rest of the first text and then the second.
    subst htail
    rw [List.append_assoc]
    refine .cons (by rwa [List.append_assoc]) (ih ?_ rfl)
    rwa [Nat.add_assoc, ← List.length_append]

/-- Any number of blanks stand between tokens. -/
theorem blanks {offset : Nat} {vendor : Bool} {text rest : Bytes}
    (h : ∀ b ∈ text, Rune.onByte Rune.isSpace b = true) :
    Trivia offset vendor text rest vendor := by
  induction text generalizing offset with
  | nil => exact .nil
  | cons b text ih =>
    obtain ⟨hb, htext⟩ := List.forall_mem_cons.mp h
    have hblank : Trivia offset vendor ([b] ++ text) rest vendor := .cons (.blank hb) (ih htext)
    exact hblank

/-! ## The inside of a comment -/

/-- Between `/*` and `*/` may stand nothing. -/
theorem isInside_nil : IsInside [] := by
  rw [IsInside]
  decide

/-- A text without star before another one has no end of a comment that the other has not. -/
theorem not_infix_append {front text : Bytes} (hfront : 0x2A ∉ front)
    (h : ¬[0x2A, 0x2F] <:+: text) : ¬[0x2A, 0x2F] <:+: front ++ text := by
  induction front with
  | nil => exact h
  | cons b front ih =>
    -- A `*/` that starts with the first byte would start with a star.
    rw [List.mem_cons, not_or] at hfront
    rw [List.cons_append, List.infix_cons_iff, not_or]
    exact ⟨fun hprefix => hfront.1 (List.cons_prefix_cons.mp hprefix).1, ih hfront.2⟩

/-- What has no star may stand before the rest of a comment. -/
theorem IsInside.append {front body : Bytes} (h : IsInside body) (hfront : 0x2A ∉ front) :
    IsInside (front ++ body) := by
  rw [IsInside, List.append_assoc]
  exact not_infix_append hfront h

/-- A star may stand before the rest of a comment if that does not start with a slash. -/
theorem IsInside.star {body : Bytes} (h : IsInside body)
    (hhead : (body ++ [0x2A]).head? ≠ some 0x2F) : IsInside (0x2A :: body) := by
  rw [IsInside, List.cons_append, List.infix_cons_iff, not_or]
  refine ⟨fun hprefix => ?_, h⟩
  obtain ⟨-, rest, hrest⟩ := List.cons_prefix_cons.mp hprefix
  rw [← hrest] at hhead
  exact hhead rfl

end Trivia

/-! ## Crossings -/

namespace Cursor

/-- Whether what lies between two cursors is no token: moving on leads from one to the other, and
the bytes between them are of the grammar. -/
structure Crosses (c : Cursor) (vendor : Bool) (d : Cursor) (vendor' : Bool) : Prop where
  /-- Moving on leads to the second cursor. -/
  reaches : c.Reaches d
  /-- The bytes between the cursors stand between tokens. -/
  trivia : Trivia c.offset vendor (c.upTo d) d.ahead vendor'

namespace Crosses

variable {c d e : Cursor} {vendor vendor' vendor'' : Bool}

/-- Crossing in two parts is crossing. -/
theorem trans (h : c.Crosses vendor d vendor') (h' : d.Crosses vendor' e vendor'')
    (hc : c.offset ≤ c.source.length) : c.Crosses vendor e vendor'' := by
  refine ⟨h.reaches.trans h'.reaches, ?_⟩
  have hle := h.reaches.offset_le
  have hlen := h.reaches.length_upTo (h.reaches.le_length hc)
  -- What follows the first crossing is the second and what follows that.
  have hfirst : Trivia c.offset vendor (c.upTo d) (d.upTo e ++ e.ahead) vendor' := by
    rw [← h'.reaches.ahead_eq]
    exact h.trivia
  have hsecond : Trivia (c.offset + (c.upTo d).length) vendor' (d.upTo e) e.ahead vendor'' := by
    rw [hlen, Nat.add_sub_cancel' hle]
    exact h'.trivia
  rw [h.reaches.upTo_trans h'.reaches]
  exact hfirst.append hsecond

end Crosses

/-- Blanks are crossed. -/
theorem crosses_blanks (c : Cursor) (vendor : Bool) :
    c.Crosses vendor (c.skipWhile Rune.isSpace) vendor := by
  refine ⟨(Reaches.refl c).skipWhile _, .blanks fun b hb => ?_⟩
  rw [upTo_skipWhile Rune.isAscii_isSpace] at hb
  exact List.all_eq_true.mp List.all_takeWhile b hb

/-- The byte-order mark is crossed where it is read as such. -/
theorem crosses_mark {c : Cursor} (h : c.rune.isBom = true) (vendor : Bool) :
    c.Crosses vendor c.advance vendor := by
  have hrune : (Rune.decodeFrom c.offset c.ahead).1 = .bom := eq_of_beq h
  -- Behind the start the mark would be read as malformed.
  have hboth : (Rune.decode c.ahead).1 = .bom ∧ c.offset = 0 := by
    unfold Rune.decodeFrom at hrune
    rcases hd : Rune.decode c.ahead with ⟨r, width⟩
    simp only [hd] at hrune
    split at hrune
    · exact absurd (show Rune.invalid = Rune.bom from hrune) (by decide)
    · rename_i hnot
      refine ⟨hrune, ?_⟩
      by_contra hne
      exact hnot ⟨beq_iff_eq.mpr hrune, Nat.pos_of_ne_zero hne⟩
  refine ⟨.next c, .single ?_⟩
  rw [upTo_advance, width_eq, Rune.take_of_decode_bom hboth.1, hboth.2]
  exact .mark

end Cursor

namespace Comment

/-! ## Readers of comments -/

/-- The rest of a line goes on to the end of the line. -/
theorem isLineRest (c : Cursor) : Trivia.IsLineRest (c.upTo (lineEnd c)) (lineEnd c).ahead :=
  ⟨Cursor.not_mem_upTo_skipWhile '\n' (by decide) c,
    Cursor.skipWhile_stops_at '\n' (by decide) c⟩

/-- The search for a star stops in front of the first one, unless it comes to the end. -/
theorem first_star {c star : Cursor} (hstar : star = c.skipWhile fun r => !r.is '*')
    (hend : ¬star.atEnd = true) :
    c.Reaches star ∧ 0x2A ∉ c.upTo star ∧ star.upTo star.advance = [0x2A] := by
  have hnot := Cursor.not_mem_upTo_skipWhile '*' (by decide) c
  have hstop := Cursor.skipWhile_stops_at '*' (by decide) c
  rw [← hstar] at hnot hstop
  refine ⟨by rw [hstar]; exact (Cursor.Reaches.refl c).skipWhile _, hnot, ?_⟩
  rcases hstop with h | h
  · exact absurd (Cursor.atEnd_iff_ahead.mpr h) hend
  · exact (Cursor.upTo_advance_of_head? (by decide) h).1

/-- The first `*/` ends what may stand inside a comment. -/
theorem closing?_sound {c stop : Cursor} (h : closing? c = some stop) :
    c.Reaches stop ∧ ∃ body, Trivia.IsInside body ∧ c.upTo stop = body ++ [0x2A, 0x2F] := by
  fun_induction closing? c with
  | case1 => cases h
  | case2 c star hend hslash =>
    cases h
    -- The first star closes, and the comment has none before it.
    obtain ⟨hreach, hnot, hone⟩ := first_star rfl hend
    refine ⟨hreach.advance.advance, c.upTo star, ?_, ?_⟩
    · have happ := Trivia.isInside_nil.append hnot
      rwa [List.append_nil] at happ
    · rw [hreach.advance.upTo_trans (.next star.advance), hreach.upTo_trans (.next star), hone,
        (Cursor.upTo_advance_of_is (by decide) hslash).1, List.append_assoc]
      rfl
  | case3 c star hend hslash ih =>
    obtain ⟨hreach, hnot, hone⟩ := first_star rfl hend
    obtain ⟨hrest, body, hbody, hup⟩ := ih h
    refine ⟨hreach.advance.trans hrest, c.upTo star ++ 0x2A :: body, ?_, ?_⟩
    · -- This star does not close, since no slash stands behind it.
      refine (hbody.star fun hhead => hslash ?_).append hnot
      rw [Cursor.rune_is_iff (by decide), hrest.ahead_eq, hup]
      rcases body with _ | ⟨b, body⟩
      · cases hhead
      · exact hhead
    · rw [hreach.advance.upTo_trans hrest, hreach.upTo_trans (.next star), hone, hup,
        List.append_assoc, List.append_assoc]
      rfl

/-- Without an end ahead a comment is not closed. -/
theorem closing?_complete {c : Cursor} (h : closing? c = none) : ¬[0x2A, 0x2F] <:+: c.ahead := by
  fun_induction closing? c with
  | case1 c star hend =>
    have hreach : c.Reaches star := (Cursor.Reaches.refl c).skipWhile _
    rw [hreach.ahead_eq]
    refine Trivia.not_infix_append (Cursor.not_mem_upTo_skipWhile '*' (by decide) c) ?_
    rw [Cursor.atEnd_iff_ahead.mp hend]
    decide
  | case2 => cases h
  | case3 c star hend hslash ih =>
    obtain ⟨hreach, hnot, hone⟩ := first_star rfl hend
    rw [hreach.ahead_eq]
    refine Trivia.not_infix_append hnot ?_
    rw [(Cursor.Reaches.next star).ahead_eq, hone, List.singleton_append, List.infix_cons_iff,
      not_or]
    refine ⟨fun hprefix => hslash ?_, ih h⟩
    -- The slash would stand right behind this star.
    obtain ⟨-, rest, hrest⟩ := List.cons_prefix_cons.mp hprefix
    rw [Cursor.rune_is_iff (by decide), ← hrest]
    rfl

end Comment

end SqlTokens
