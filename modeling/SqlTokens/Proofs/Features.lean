import SqlTokens.Scanner.Comment
import SqlTokens.Proofs.Runs

/-!
# Lists of features

The grammar of the list in a feature comment, and its reader. A list is names with commas between
them and a closing bracket behind them (`NameList`), and a name is a run of name characters
(`NameRun`). The reader accepts the texts of the grammar and no others: `bracketed?_sound` says what
has been read when it succeeds, and `bracketed?_complete` that nothing of this shape lies ahead when
it fails. No text of the grammar has a star, so none of them hides the end of a comment.
-/

namespace SqlTokens

namespace Rune

/-- The characters of names are none of the marks. -/
theorem isPlain_isNameChar : IsPlain isNameChar :=
  ⟨by decide, by decide, by decide⟩

end Rune

namespace Comment

/-! ## Names -/

/-- The texts all of whose runes are name characters. -/
inductive NameRun : Bytes → Prop where
  /-- The empty text has no rune. -/
  | nil : NameRun []
  /-- The first rune is a name character, and so are those behind it. -/
  | cons {text : Bytes} : (Rune.decode text).1.isNameChar = true →
      NameRun (text.drop (Rune.decode text).2) → NameRun text

/-- The rune at a cursor is a name character exactly if the one at the start of what lies ahead
is. -/
theorem isNameChar_rune (c : Cursor) :
    c.rune.isNameChar = (Rune.decode c.ahead).1.isNameChar :=
  Cursor.class_rune Rune.isPlain_isNameChar c

/-- A name is a run of name characters. -/
theorem nameRun_iff {text : Bytes} : NameRun text ↔ Rune.RunOf Rune.isNameChar text := by
  constructor
  · intro h
    induction h with
    | nil => exact .nil
    | cons hr _ ih => exact .cons hr ih
  · intro h
    induction h with
    | nil => exact .nil
    | cons hr _ ih => exact .cons hr ih

/-- No name has a star. -/
theorem NameRun.star_not_mem {text : Bytes} (h : NameRun text) : (0x2A : UInt8) ∉ text := by
  induction h with
  | nil => exact List.not_mem_nil
  | @cons text hr _ ih =>
    intro hmem
    rw [← List.take_append_drop (Rune.decode text).2 text, List.mem_append] at hmem
    rcases hmem with hmem | hmem
    · -- The star would be all of its rune.
      obtain ⟨hhead, -⟩ := Rune.eq_head_of_mem_take (by decide) hmem
      obtain ⟨rest, rfl⟩ := List.head?_eq_some_iff.mp hhead
      rw [Rune.decode_ascii (by decide) (by decide)] at hr
      exact absurd hr (by decide)
    · exact ih hmem

/-- Bytes of an ASCII class of name characters are a name. -/
theorem nameRun_of_ascii {p : Rune → Bool} (hp : Rune.IsAscii p)
    (hname : ∀ r, p r = true → r.isNameChar = true) {text : Bytes}
    (h : ∀ b ∈ text, Rune.onByte p b = true) : NameRun text := by
  induction text with
  | nil => exact .nil
  | cons b text ih =>
    obtain ⟨hb, htext⟩ := List.forall_mem_cons.mp h
    obtain ⟨h0, hascii⟩ := hp.byte hb
    refine .cons ?_ ?_
    · rw [Rune.decode_ascii h0 hascii, hname _ hb]
    · rw [Rune.decode_ascii h0 hascii]
      exact ih htext

/-- The bytes of a run of name characters are a name. -/
theorem nameRun_upTo (c : Cursor) : NameRun (c.upTo (c.skipWhile Rune.isNameChar)) :=
  nameRun_iff.mpr (Cursor.runOf_upTo Rune.isPlain_isNameChar c)

/-- Where a name character stands, there is something to read. -/
theorem atEnd_eq_false_of_isNameChar {c : Cursor} (h : c.rune.isNameChar = true) :
    c.atEnd = false :=
  Cursor.atEnd_eq_false_of_class Rune.isPlain_isNameChar h

/-- A run of name characters goes on behind a name that lies ahead. -/
theorem skipWhile_behind {name rest : Bytes} (hname : NameRun name) {c : Cursor}
    (ha : c.ahead = name ++ rest) :
    ∃ behind, c.Reaches behind ∧ c.upTo behind = name ∧ behind.ahead = rest ∧
      c.skipWhile Rune.isNameChar = behind.skipWhile Rune.isNameChar :=
  Cursor.skipWhile_behind Rune.isPlain_isNameChar (nameRun_iff.mp hname) ha

/-- A run of name characters ends where no name goes on. -/
theorem skipWhile_ends (c : Cursor) :
    (Rune.decode (c.skipWhile Rune.isNameChar).ahead).1.isNameChar = false :=
  Cursor.skipWhile_ends Rune.isPlain_isNameChar c

/-- A run of name characters is the longest name that lies ahead. -/
theorem skipWhile_of_nameRun {name rest : Bytes} (hname : NameRun name)
    (hends : (Rune.decode rest).1.isNameChar = false) {c : Cursor} (ha : c.ahead = name ++ rest) :
    c.upTo (c.skipWhile Rune.isNameChar) = name ∧
      (c.skipWhile Rune.isNameChar).ahead = rest :=
  Cursor.skipWhile_of_runOf Rune.isPlain_isNameChar (nameRun_iff.mp hname) hends ha

/-- A name before a mark that belongs to no name is read as it stands. -/
theorem name_ahead {name rest : Bytes} (mark : UInt8) (hne : name ≠ []) (hname : NameRun name)
    (h0 : mark ≠ 0) (hmark : mark < 0x80) (hnot : (Rune.ofByte mark).isNameChar = false)
    {c : Cursor} (ha : c.ahead = name ++ mark :: rest) :
    c.rune.isNameChar = true ∧ c.upTo (c.skipWhile Rune.isNameChar) = name ∧
      (c.skipWhile Rune.isNameChar).ahead = mark :: rest :=
  ⟨Cursor.rune_of_runOf Rune.isPlain_isNameChar (nameRun_iff.mp hname) hne ha,
    skipWhile_of_nameRun hname (by rw [Rune.decode_ascii h0 hmark, hnot]) ha⟩

/-! ## Lists of names -/

/-- The texts of lists: names with commas between them, and a closing bracket. -/
inductive NameList : List Bytes → Bytes → Prop where
  /-- Behind the last name the list is closed. -/
  | last {name : Bytes} : name ≠ [] → NameRun name → NameList [name] (name ++ [0x5D])
  /-- A comma stands before the rest of the list. -/
  | more {name : Bytes} {names : List Bytes} {text : Bytes} : name ≠ [] → NameRun name →
      NameList names text → NameList (name :: names) (name ++ 0x2C :: text)

/-- No list has a star. -/
theorem NameList.star_not_mem {names : List Bytes} {text : Bytes} (h : NameList names text) :
    (0x2A : UInt8) ∉ text := by
  induction h with
  | last _ hname =>
    rw [List.mem_append, not_or]
    exact ⟨hname.star_not_mem, by decide⟩
  | more _ hname _ ih =>
    rw [List.mem_append, List.mem_cons, not_or, not_or]
    exact ⟨hname.star_not_mem, by decide, ih⟩

/-- The names of a list determine its text. -/
theorem NameList.text_unique {names : List Bytes} {text text' : Bytes} (h : NameList names text)
    (h' : NameList names text') : text = text' := by
  induction h generalizing text' with
  | last _ _ =>
    rcases h' with _ | ⟨_, _, hrest⟩
    · rfl
    · -- There is no list without names.
      cases hrest
  | more _ _ hlist ih =>
    rcases h' with _ | ⟨_, _, hrest⟩
    · cases hlist
    · rw [ih hrest]

/-- A run that starts with a rune of its class is not empty. -/
theorem upTo_skipWhile_ne_nil {p : Rune → Bool} {c : Cursor} (hend : c.atEnd = false)
    (hr : p c.rune = true) : c.upTo (c.skipWhile p) ≠ [] := by
  rw [Cursor.skipWhile, if_neg (by rw [hend]; decide), if_pos hr,
    Cursor.Reaches.upTo_trans (.next c) ((Cursor.Reaches.refl _).skipWhile _)]
  exact List.append_ne_nil_of_left_ne_nil (Cursor.upTo_advance_ne_nil hend) _

/-- What has been read as a list is one. -/
theorem names?_sound {c behind : Cursor} {names : List Bytes}
    (h : names? c = some (names, behind)) :
    c.Reaches behind ∧ NameList names (c.upTo behind) := by
  fun_induction names? c generalizing names with
  | case1 => cases h
  | case2 c stop hr =>
    rename_i hclose
    cases h
    have hstop : c.Reaches stop := (Cursor.Reaches.refl c).skipWhile _
    have hname : c.rune.isNameChar = true := by simpa using hr
    refine ⟨hstop.advance, ?_⟩
    rw [hstop.upTo_trans (.next stop),
      (Cursor.upTo_advance_of_is (by decide) hclose).1]
    exact .last (upTo_skipWhile_ne_nil (atEnd_eq_false_of_isNameChar hname) hname) (nameRun_upTo c)
  | case3 c stop hr =>
    rename_i hcomma names' behind' hn ih
    cases h
    obtain ⟨hreach, hlist⟩ := ih hn
    have hstop : c.Reaches stop := (Cursor.Reaches.refl c).skipWhile _
    have hname : c.rune.isNameChar = true := by simpa using hr
    refine ⟨hstop.advance.trans hreach, ?_⟩
    rw [hstop.upTo_trans ((Cursor.Reaches.next stop).trans hreach),
      (Cursor.Reaches.next stop).upTo_trans hreach,
      (Cursor.upTo_advance_of_is (by decide) hcomma).1]
    exact .more (upTo_skipWhile_ne_nil (atEnd_eq_false_of_isNameChar hname) hname) (nameRun_upTo c)
      hlist
  | case4 => cases h
  | case5 => cases h

/-- Every list that lies ahead is read. -/
theorem names?_complete {names : List Bytes} {text rest : Bytes} (h : NameList names text)
    {c : Cursor} (ha : c.ahead = text ++ rest) : ∃ behind, names? c = some (names, behind) := by
  induction h generalizing c with
  | @last name hne hname =>
    -- The run stops at the bracket, which closes the list.
    rw [List.append_assoc] at ha
    obtain ⟨hr, hup, hahead⟩ := name_ahead 0x5D hne hname (by decide) (by decide) (by decide) ha
    have hclose : (c.skipWhile Rune.isNameChar).rune.is ']' = true := by
      rw [Cursor.rune_is_iff (by decide), hahead]
      rfl
    rw [names?]
    simp only [hr, Bool.not_true, Bool.false_eq_true, if_false, hclose, if_true, hup]
    exact ⟨_, rfl⟩
  | @more name names text hne hname _ ih =>
    -- The run stops at the comma, and the rest of the list lies behind it.
    rw [List.append_assoc, List.cons_append] at ha
    obtain ⟨hr, hup, hahead⟩ := name_ahead 0x2C hne hname (by decide) (by decide) (by decide) ha
    have hhead : (c.skipWhile Rune.isNameChar).ahead.head? = some 0x2C := by
      rw [hahead, List.head?_cons]
    have hcomma : (c.skipWhile Rune.isNameChar).rune.is ',' = true :=
      (Cursor.rune_is_iff (by decide)).mpr hhead
    have hclose : (c.skipWhile Rune.isNameChar).rune.is ']' = false := by
      rw [Bool.eq_false_iff, Ne, Cursor.rune_is_iff (by decide), hhead]
      decide
    obtain ⟨behind, hn⟩ := ih (Cursor.advance_of_ahead (by decide) hahead).2
    rw [names?]
    simp only [hr, Bool.not_true, Bool.false_eq_true, if_false, hclose, hcomma, if_true, hn, hup]
    exact ⟨_, rfl⟩

/-- What has been read as a list in brackets is one. -/
theorem bracketed?_sound {c behind : Cursor} {names : List Bytes}
    (h : bracketed? c = some (names, behind)) :
    c.Reaches behind ∧ ∃ text, NameList names text ∧ c.upTo behind = 0x5B :: text := by
  unfold bracketed? at h
  split at h
  · rename_i hopen
    obtain ⟨hreach, hlist⟩ := names?_sound h
    exact ⟨(Cursor.Reaches.next c).trans hreach, _, hlist,
      hreach.upTo_eq_cons (Cursor.upTo_advance_of_is (by decide) hopen).1⟩
  · cases h

/-- A list in brackets that lies ahead is read as it stands. -/
theorem bracketed?_of_list {c : Cursor} {names : List Bytes} {text rest : Bytes}
    (hlist : NameList names text) (ha : c.ahead = 0x5B :: text ++ rest) :
    ∃ behind, bracketed? c = some (names, behind) ∧ c.Reaches behind ∧
      c.upTo behind = 0x5B :: text ∧ behind.ahead = rest := by
  have hopen : c.rune.is '[' = true := by
    rw [Cursor.rune_is_iff (by decide), ha]
    rfl
  have hinside : c.advance.ahead = text ++ rest := (Cursor.advance_of_ahead (by decide) ha).2
  obtain ⟨behind, hn⟩ := names?_complete hlist hinside
  have hread : bracketed? c = some (names, behind) := by rw [bracketed?, if_pos hopen, hn]
  obtain ⟨hreach, text', hlist', hup⟩ := bracketed?_sound hread
  obtain rfl := hlist.text_unique hlist'
  exact ⟨behind, hread, hreach, hup, hreach.ahead_of_upTo hup ha⟩

/-- If no list in brackets has been read, none lies ahead. -/
theorem bracketed?_complete {c : Cursor} (h : bracketed? c = none) {names : List Bytes}
    {text : Bytes} (hlist : NameList names text) : ¬0x5B :: text <+: c.ahead := by
  rintro ⟨rest, ha⟩
  obtain ⟨behind, hn, -⟩ := bracketed?_of_list hlist ha.symm
  rw [hn] at h
  cases h

end Comment

end SqlTokens
