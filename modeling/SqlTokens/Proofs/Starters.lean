import SqlTokens.Table
import SqlTokens.Proofs.Cursors

/-!
# Starters of a table

Whatever the vocabulary of a table, the forms of variable length start where the starters say
(`form?_starter_iff`): operators are placed around them and never on them. A walk from a cursor
therefore finds a starter exactly if the next byte opens its form (`walk_starter_iff`).
-/

namespace SqlTokens

/-- What each of the bytes has, all have. -/
theorem Bytes.forall_byte {P : UInt8 → Prop} (h : ∀ n : Fin 256, P (.ofNat n)) (b : UInt8) :
    P b := by
  have hb := h ⟨b.toNat, b.toNat_lt⟩
  rwa [UInt8.ofNat_toNat] at hb

/-- What a test finds of each member of a list, all have. Instances for a finite type would test
everything in it. -/
theorem forall_mem_of_all {α : Type} {P : α → Prop} [DecidablePred P] {l : List α}
    (h : (l.all fun a => decide (P a)) = true) : ∀ a ∈ l, P a := fun a ha =>
  of_decide_eq_true (List.all_eq_true.mp h a ha)

namespace Starter

/-- The byte of a starter that has only one. -/
def mark? : Starter → Option UInt8
  | slash => some 0x2F
  | star => some 0x2A
  | «at» => some 0x40
  | sharp => some 0x23
  | dash => some 0x2D
  | dot => some 0x2E
  | quotedIdentifier => some 0x60
  | _ => none

/-- What every byte that opens a form keeps to: it is ASCII and not NUL, and the mark of the form if
there is one. -/
def Opens (s : Starter) (b : UInt8) : Prop :=
  b ≠ 0 ∧ b < 0x80 ∧ s.mark?.getD b = b

instance (s : Starter) (b : UInt8) : Decidable (s.Opens b) :=
  inferInstanceAs (Decidable (_ ∧ _ ∧ _))

/-- The byte that opens a form keeps to it. -/
theorem opens_of_ofByte? {b : UInt8} {s : Starter} (h : ofByte? b = some s) : s.Opens b := by
  have hall : ∀ s ∈ ofByte? b, s.Opens b :=
    Bytes.forall_byte (P := fun b => ∀ s ∈ ofByte? b, s.Opens b) (by decide +kernel) b
  exact hall s h

/-- A string is opened by the quotes, and a number by the digits. -/
theorem opens_class : ∀ b : UInt8,
    (ofByte? b = some .string ↔ (Rune.ofByte b).isQuote = true) ∧
      (ofByte? b = some .number ↔ (Rune.ofByte b).isDigit = true) :=
  Bytes.forall_byte (by decide +kernel)

end Starter

/-- The text that is inserted has the new value, and every other text keeps its own. -/
theorem Trie.find?_insert {α : Type} {p : Bytes} (hp : p ≠ []) (value : α) (t : Trie α)
    (q : Bytes) : (t.insert p value).find? q = if q = p then some value else t.find? q :=
  find?_alter (fun _ => some value) hp t q

namespace Table

/-- What stands at the place of a single byte is the value of its child. -/
theorem find?_singleton (forms : Trie Form) (b : UInt8) :
    forms.find? [b] = (forms.child? b).bind Prod.fst := by
  rw [Trie.find?]
  rcases forms.child? b with _ | ⟨value, below⟩
  · rfl
  · rfl

/-- Whether the starters of a trie stand at the bytes that open their forms. -/
def OwnsStarters (forms : Trie Form) : Prop :=
  ∀ b s, forms.find? [b] = some (.starter s) ↔ Starter.ofByte? b = some s

/-- The forms with the one that a byte opens, if it opens any. -/
def bindStarter (forms : Trie Form) (b : UInt8) : Trie Form :=
  match Starter.ofByte? b with
  | some s => forms.insert [b] (.starter s)
  | none => forms

/-- The starters of a table are bound one byte after another. -/
theorem starters_forms :
    starters.forms = ((List.range 256).map UInt8.ofNat).foldl bindStarter .empty := by
  rw [starters]
  simp only
  congr 1

/-- Binding the form of a byte leaves the other bytes as they are. -/
theorem find?_bindStarter (forms : Trie Form) (b c : UInt8) :
    (bindStarter forms c).find? [b] =
      if b = c then (Starter.ofByte? b).elim (forms.find? [b]) fun s => some (Form.starter s)
      else forms.find? [b] := by
  rw [bindStarter]
  by_cases hc : b = c
  · subst hc
    rcases Starter.ofByte? b with _ | s
    · simp
    · simp [Trie.find?_insert]
  · rw [if_neg hc]
    rcases Starter.ofByte? c with _ | s
    · rfl
    · rw [Trie.find?_insert (by simp), if_neg (by simpa using hc)]

/-- Binding the forms of some bytes, one after another, leaves the other bytes as they are. -/
theorem find?_foldl (bytes : List UInt8) (forms : Trie Form) (b : UInt8) :
    (bytes.foldl bindStarter forms).find? [b] =
      if b ∈ bytes then (Starter.ofByte? b).elim (forms.find? [b]) fun s => some (Form.starter s)
      else forms.find? [b] := by
  induction bytes generalizing forms with
  | nil => rfl
  | cons c bytes ih =>
    -- A byte that comes twice is bound to the same form both times.
    rw [List.foldl_cons, ih, find?_bindStarter]
    rcases Starter.ofByte? b with _ | s
    · simp
    · by_cases hc : b = c <;> simp [hc]

/-- The table of the empty vocabulary owns its starters. -/
theorem starters_owns : OwnsStarters starters.forms := by
  intro b s
  have hmem : b ∈ (List.range 256).map UInt8.ofNat := by
    rw [List.mem_map]
    exact ⟨b.toNat, List.mem_range.mpr b.toNat_lt, UInt8.ofNat_toNat⟩
  rw [starters_forms, find?_foldl, if_pos hmem, Trie.find?_empty]
  rcases Starter.ofByte? b with _ | s'
  · simp
  · simp

/-- An operator takes no place from a starter. -/
theorem OwnsStarters.alter {forms : Trie Form} (h : OwnsStarters forms) (kind : TokenKind)
    (text : Bytes) : OwnsStarters (forms.alter (placeOperator kind) text) := by
  intro b s
  rw [← h b s]
  rcases text with _ | ⟨c, text⟩
  · rfl
  · rw [Trie.find?_alter _ (List.cons_ne_nil c text)]
    split
    · -- At its own text the operator gives way to a starter, and is none itself.
      rename_i hb
      rw [hb]
      rcases forms.find? (c :: text) with _ | ⟨s' | kind'⟩ <;> simp [placeOperator]
    · rfl

/-- Every vocabulary leaves the starters where they are. -/
theorem ofEntries_owns (entries : List Entry) : OwnsStarters (ofEntries entries).forms := by
  -- The entries are added one after another, and an entry that is no operator adds no form.
  have key : ∀ t : Table, OwnsStarters t.forms → OwnsStarters (entries.foldl add t).forms := by
    induction entries with
    | nil => exact fun _ ht => ht
    | cons e entries ih =>
      intro t ht
      apply ih
      rw [add]
      split
      · exact ht.alter _ _
      · exact ht
  exact key starters starters_owns

/-- In the table of every vocabulary a single byte stands for a form exactly if it opens it. -/
theorem form?_starter_iff (entries : List Entry) (b : UInt8) (s : Starter) :
    (ofEntries entries).form? [b] = some (.starter s) ↔ Starter.ofByte? b = some s :=
  ofEntries_owns entries b s

/-- The ASCII code of the rune at a cursor is the next byte, which is not NUL. -/
theorem ascii?_rune_iff {c : Cursor} {b : UInt8} :
    c.rune.ascii? = some b ↔ b ≠ 0 ∧ b < 0x80 ∧ c.ahead.head? = some b := by
  -- The byte of a rune is its code, if that is a byte; what remains is about codes.
  have hvalue : c.rune.ascii? = some b ↔ b < 0x80 ∧ c.rune.value = b.toNat := by
    have hlt := b.toNat_lt
    have hascii : b < 0x80 ↔ b.toNat < 128 := UInt8.lt_iff_toNat_lt
    rw [Rune.ascii?, Rune.byte?, Option.filter_eq_some_iff, decide_eq_true_iff, hascii]
    split
    · rw [Option.some_inj, ← UInt8.toNat_inj, UInt8.toNat_ofNat']
      omega
    · simp only [reduceCtorEq, false_and, false_iff, not_and]
      omega
  rw [hvalue]
  by_cases hb : b < 0x80
  · rw [Cursor.rune, Cursor.reading, Rune.decodeFrom_value_iff (UInt8.lt_iff_toNat_lt.mp hb),
      UInt8.ofNat_toNat, Ne, Ne, ← UInt8.toNat_inj, UInt8.toNat_zero]
    exact ⟨fun h => ⟨h.2.1, h.1, h.2.2⟩, fun h => ⟨h.2.1, h.1, h.2.2⟩⟩
  · exact ⟨fun h => absurd h.1 hb, fun h => absurd h.2.1 hb⟩

/-- A walk finds a starter exactly if the next byte opens its form. -/
theorem walk_starter_iff (entries : List Entry) (c : Cursor) (s : Starter) :
    ((ofEntries entries).walk c).1 = .starter s ↔
      ∃ b, c.ahead.head? = some b ∧ Starter.ofByte? b = some s := by
  have hform (b : UInt8) := form?_starter_iff entries b s
  simp only [form?, find?_singleton] at hform
  -- A walk that finds a starter finds it at the first byte, since nothing is longer than that.
  have hwalk : ((ofEntries entries).walk c).1 = .starter s ↔
      (follow? (ofEntries entries).forms c).bind Prod.fst = some (.starter s) := by
    rw [walk]
    rcases follow? (ofEntries entries).forms c with _ | ⟨_ | ⟨s' | kind⟩, below⟩ <;> simp
  rw [hwalk, follow?]
  constructor
  · intro h
    rcases ha : c.rune.ascii? with _ | b
    · rw [ha] at h
      cases h
    · have hhead := (ascii?_rune_iff.mp ha).2.2
      rw [ha] at h
      exact ⟨b, hhead, (hform b).mp h⟩
  · rintro ⟨b, hb, hs⟩
    obtain ⟨h0, hlt, -⟩ := Starter.opens_of_ofByte? hs
    rw [ascii?_rune_iff.mpr ⟨h0, hlt, hb⟩]
    exact (hform b).mpr hs

/-- The byte where a walk has found a starter opens its form. -/
theorem opens_of_walk {entries : List Entry} {c next : Cursor} {s : Starter}
    (h : (ofEntries entries).walk c = (.starter s, next)) :
    ∃ b, c.ahead.head? = some b ∧ Starter.ofByte? b = some s := by
  rw [← walk_starter_iff entries, h]

end Table

end SqlTokens
