import Mathlib.Data.Finset.Card
import Mathlib.Data.Finset.Dedup
import Mathlib.Data.List.Infix
import SqlTokens.Proofs.Starters

/-!
# Tries as lists of texts

A table is built entry after entry, and its trie keeps common beginnings once. What it answers and
how many places it has can be said without the trie: look-ups go by the starters and the last
operator with the text (`form?_eq`), and there is a place for every beginning of a starter or an
operator (`card_places`). The places of a trie are counted along its paths, which are distinct as
long as no two children of a node share their byte (`Trie.Distinct`), and no change brings a second
child for a byte.
-/

namespace SqlTokens

namespace Trie

variable {α : Type}

/-! ## Places -/

/-- Whether a text leads to a place of the trie; the empty text leads to the root. -/
def Leads (t : Trie α) : Bytes → Prop
  | [] => True
  | b :: rest =>
    match t.child? b with
    | none => False
    | some (_, below) => below.Leads rest

/-- The texts that lead to the places of the trie, the root apart. -/
def paths : Trie α → List Bytes
  | empty => []
  | node byte _ below beside => [byte] :: (below.paths.map (byte :: ·) ++ beside.paths)

/-- Whether no two children of a node share their byte. -/
def Distinct : Trie α → Prop
  | empty => True
  | node byte _ below beside => beside.child? byte = none ∧ below.Distinct ∧ beside.Distinct

/-- A trie without nodes has no two children. -/
theorem distinct_empty : (empty : Trie α).Distinct := True.intro

/-- There is one path to each place. -/
@[simp] theorem length_paths (t : Trie α) : t.paths.length = t.size := by
  induction t with
  | empty => rfl
  | node byte value below beside ihbelow ihbeside =>
    rw [paths, size, List.length_cons, List.length_append, List.length_map, ihbelow, ihbeside]

/-- A text leads somewhere in a trie without nodes only if it is empty. -/
theorem leads_empty (p : Bytes) : (empty : Trie α).Leads p ↔ p = [] := by
  rcases p with _ | ⟨b, rest⟩
  · exact iff_of_true trivial rfl
  · exact iff_of_false id (List.cons_ne_nil b rest)

/-- The paths are the texts that lead to a place, the empty text apart. -/
theorem mem_paths {t : Trie α} (ht : t.Distinct) {p : Bytes} :
    p ∈ t.paths ↔ p ≠ [] ∧ t.Leads p := by
  induction t generalizing p with
  | empty =>
    rw [leads_empty]
    simp [paths]
  | node byte value below beside ihbelow ihbeside =>
    obtain ⟨hfresh, hbelow, hbeside⟩ := ht
    rcases p with _ | ⟨b, rest⟩
    · simp [paths, ihbeside hbeside]
    · simp only [paths, List.mem_cons, List.mem_append, List.mem_map, ihbelow hbelow,
        ihbeside hbeside, Leads, child?]
      by_cases hb : b = byte
      · -- The children beside this one do not share its byte.
        subst hb
        by_cases hr : rest = []
        · simp [hr, Leads]
        · simp [hr, hfresh]
      · simp [hb, Ne.symm hb]

/-- No path is met twice. -/
theorem nodup_paths {t : Trie α} (ht : t.Distinct) : t.paths.Nodup := by
  induction t with
  | empty => exact List.nodup_nil
  | node byte value below beside ihbelow ihbeside =>
    obtain ⟨hfresh, hbelow, hbeside⟩ := ht
    -- A path below starts with the byte of this child, and no path beside does.
    have hbeside' (rest : Bytes) : byte :: rest ∉ beside.paths := by
      rw [mem_paths hbeside, Leads, hfresh]
      exact fun h => h.2
    rw [paths, List.nodup_cons, List.nodup_append]
    refine ⟨?_, (ihbelow hbelow).map (List.cons_injective), ihbeside hbeside, ?_⟩
    · simp [mem_paths hbelow, hbeside']
    · rintro _ hp q hq rfl
      obtain ⟨rest, -, rfl⟩ := List.mem_map.mp hp
      exact hbeside' rest hq

/-! ## Changes -/

/-- A change of one child brings no second child for a byte. -/
theorem Distinct.alterChild {t : Trie α} (ht : t.Distinct) (b : UInt8)
    {f : Option α × Trie α → Option α × Trie α}
    (hf : ∀ new, new.2.Distinct → (f new).2.Distinct) : (t.alterChild b f).Distinct := by
  induction t with
  | empty => exact ⟨rfl, hf (none, empty) trivial, trivial⟩
  | node byte value below beside _ ih =>
    obtain ⟨hfresh, hbelow, hbeside⟩ := ht
    rw [Trie.alterChild]
    split
    · exact ⟨hfresh, hf (value, below) hbelow, hbeside⟩
    · rename_i hb
      refine ⟨?_, hbelow, ih hbeside⟩
      rw [child?_alterChild, if_neg (Ne.symm hb), hfresh]

/-- A change of a value brings no second child for a byte. -/
theorem Distinct.alter {t : Trie α} (ht : t.Distinct) (f : Option α → Option α) (p : Bytes) :
    (t.alter f p).Distinct := by
  induction p generalizing t with
  | nil => exact ht
  | cons b rest ih =>
    refine ht.alterChild b ?_
    rintro ⟨value, below⟩ hbelow
    simp only
    split
    · exact hbelow
    · exact ih hbelow

/-- A change of a value adds the places on the way to it. -/
theorem leads_alter (f : Option α → Option α) (p : Bytes) (t : Trie α) (q : Bytes) :
    (t.alter f p).Leads q ↔ t.Leads q ∨ q <+: p := by
  induction p generalizing t q with
  | nil =>
    rw [alter, List.prefix_nil]
    refine ⟨Or.inl, ?_⟩
    rintro (h | rfl)
    · exact h
    · trivial
  | cons b rest ih =>
    rcases q with _ | ⟨c, q⟩
    · simp [Leads]
    · rw [alter, Leads, Leads, child?_alterChild, List.cons_prefix_cons]
      by_cases hc : c = b
      · subst hc
        by_cases hr : rest = []
        · -- The last byte has a place now, and below it nothing changes.
          subst hr
          rcases t.child? c with _ | ⟨value, below⟩
          · simp [leads_empty]
          · simp
            rintro rfl
            trivial
        · rcases t.child? c with _ | ⟨value, below⟩
          · simp [hr, ih, leads_empty]
            rintro rfl
            exact List.nil_prefix
          · simp [hr, ih]
      · simp [hc]

end Trie

namespace Table

/-! ## Tables as lists -/

/-- The starter of a text, which is a single byte that opens a form. -/
def starter? : Bytes → Option Starter
  | [b] => Starter.ofByte? b
  | _ => none

/-- The entries of a vocabulary that are read wherever they come next. -/
def operators (entries : List Entry) : List Entry :=
  entries.filter (·.role = .operator)

/-- The last operator of a vocabulary with the given text. -/
def operator? (entries : List Entry) (p : Bytes) : Option Entry :=
  ((operators entries).filter (·.bytes = p)).getLast?

/-- The texts of the starters and of the operators of a vocabulary. -/
def texts (entries : List Entry) : List Bytes :=
  (((List.range 256).map UInt8.ofNat).filter fun b => (Starter.ofByte? b).isSome).map ([·]) ++
    (operators entries).map Entry.bytes

/-- The beginnings of the texts of a vocabulary, the empty one apart. -/
def places (entries : List Entry) : Finset Bytes :=
  (((texts entries).flatMap List.inits).filter (· ≠ [])).toFinset

/-- The forms with one more operator. -/
def placeEntry (forms : Trie Form) (e : Entry) : Trie Form :=
  forms.alter (placeOperator e.kind) e.bytes

/-- Every byte is met when the starters are bound. -/
theorem mem_range_map (b : UInt8) : b ∈ (List.range 256).map UInt8.ofNat :=
  List.mem_map.mpr ⟨b.toNat, List.mem_range.mpr b.toNat_lt, UInt8.ofNat_toNat⟩

/-- The places of a vocabulary are the beginnings of its starters and operators. -/
theorem mem_places {entries : List Entry} {p : Bytes} :
    p ∈ places entries ↔ p ≠ [] ∧ ((∃ b, (Starter.ofByte? b).isSome = true ∧ p <+: [b]) ∨
      ∃ e ∈ operators entries, p <+: e.bytes) := by
  simp only [places, texts, List.mem_toFinset, List.mem_filter, List.mem_flatMap, List.mem_append,
    List.mem_map, List.mem_inits, decide_eq_true_eq]
  constructor
  · rintro ⟨⟨text, ⟨b, ⟨-, hb⟩, rfl⟩ | ⟨e, he, rfl⟩, hp⟩, hne⟩
    · exact ⟨hne, .inl ⟨b, hb, hp⟩⟩
    · exact ⟨hne, .inr ⟨e, he, hp⟩⟩
  · rintro ⟨hne, ⟨b, hb, hp⟩ | ⟨e, he, hp⟩⟩
    · exact ⟨⟨[b], .inl ⟨b, ⟨List.mem_map.mp (mem_range_map b), hb⟩, rfl⟩, hp⟩, hne⟩
    · exact ⟨⟨e.bytes, .inr ⟨e, he, rfl⟩, hp⟩, hne⟩

/-- The forms of a table are its starters with the operators placed one after another; no other
entry changes them. -/
theorem forms_ofEntries (entries : List Entry) :
    (ofEntries entries).forms = (operators entries).foldl placeEntry starters.forms := by
  have key (t : Table) :
      (entries.foldl add t).forms = (operators entries).foldl placeEntry t.forms := by
    induction entries generalizing t with
    | nil => rfl
    | cons e entries ih =>
      rw [List.foldl_cons, ih, operators, operators, List.filter_cons, add]
      split
      · rename_i he
        rw [if_pos (by simpa using he), List.foldl_cons, placeEntry]
      · rename_i role he
        rw [if_neg (by simpa using he)]
  exact key starters

/-- The starters of the empty vocabulary are found at their bytes and nothing elsewhere. -/
theorem find?_starters (p : Bytes) :
    starters.forms.find? p = (starter? p).map Form.starter := by
  -- Binding a byte does not touch longer texts.
  have long (bytes : List UInt8) (forms : Trie Form) (b c : UInt8) (rest : Bytes) :
      (bytes.foldl bindStarter forms).find? (b :: c :: rest) = forms.find? (b :: c :: rest) := by
    induction bytes generalizing forms with
    | nil => rfl
    | cons d bytes ih =>
      rw [List.foldl_cons, ih, bindStarter]
      rcases Starter.ofByte? d with _ | s
      · rfl
      · rw [Trie.find?_insert (by simp), if_neg (by simp)]
  rw [starters_forms]
  rcases p with _ | ⟨b, _ | ⟨c, rest⟩⟩
  · rfl
  · rw [find?_foldl, if_pos (mem_range_map b), Trie.find?_empty, starter?]
    rcases Starter.ofByte? b with _ | s
    · rfl
    · rfl
  · rw [long, Trie.find?_empty]
    rfl

/-- What stands at a text goes by the operators with that text, one after another. -/
theorem find?_foldl_placeEntry (ops : List Entry) (forms : Trie Form) {p : Bytes} (hp : p ≠ []) :
    (ops.foldl placeEntry forms).find? p =
      (ops.filter (·.bytes = p)).foldl (fun value e => placeOperator e.kind value)
        (forms.find? p) := by
  induction ops generalizing forms with
  | nil => rfl
  | cons e ops ih =>
    rw [List.foldl_cons, ih, placeEntry, List.filter_cons]
    by_cases he : e.bytes = p
    · rw [if_pos (by simpa using he), List.foldl_cons, he, Trie.find?_alter _ hp, if_pos rfl]
    · rw [if_neg (by simpa using he)]
      by_cases hempty : e.bytes = []
      · rw [hempty, Trie.alter]
      · rw [Trie.find?_alter _ hempty, if_neg (Ne.symm he)]

/-- A starter keeps its place from all operators. -/
theorem foldl_placeOperator_starter (ops : List Entry) (s : Starter) :
    ops.foldl (fun value e => placeOperator e.kind value) (some (.starter s)) =
      some (.starter s) := by
  induction ops with
  | nil => rfl
  | cons e ops ih => rw [List.foldl_cons, placeOperator, ih]

/-- Where no starter is, the last operator stays. -/
theorem foldl_placeOperator_none (ops : List Entry) :
    ops.foldl (fun value e => placeOperator e.kind value) none =
      ops.getLast?.map fun e => .operator e.kind := by
  induction ops using List.reverseRecOn with
  | nil => rfl
  | append_singleton ops e ih =>
    rw [List.foldl_append, ih, List.foldl_cons, List.foldl_nil, List.getLast?_concat]
    rcases ops.getLast? with _ | e'
    · rfl
    · rfl

/-- A look-up goes by the starters, and behind them by the last operator with the text. -/
theorem form?_eq (entries : List Entry) (p : Bytes) :
    (ofEntries entries).form? p =
      match starter? p with
      | some s => some (.starter s)
      | none => if p = [] then none else (operator? entries p).map fun e => .operator e.kind := by
  rw [form?, forms_ofEntries]
  by_cases hp : p = []
  · rw [hp]
    rfl
  · rw [find?_foldl_placeEntry _ _ hp, find?_starters, if_neg hp]
    rcases starter? p with _ | s
    · exact foldl_placeOperator_none _
    · exact foldl_placeOperator_starter _ s

/-! ## Counting places -/

/-- Placing operators keeps the children of every node apart. -/
theorem distinct_foldl (ops : List Entry) {forms : Trie Form} (h : forms.Distinct) :
    (ops.foldl placeEntry forms).Distinct := by
  induction ops generalizing forms with
  | nil => exact h
  | cons e ops ih => exact ih (h.alter _ _)

/-- Binding starters keeps the children of every node apart. -/
theorem distinct_bind (bytes : List UInt8) {forms : Trie Form} (h : forms.Distinct) :
    (bytes.foldl bindStarter forms).Distinct := by
  induction bytes generalizing forms with
  | nil => exact h
  | cons b bytes ih =>
    refine ih ?_
    rw [bindStarter]
    split
    · exact h.alter _ _
    · exact h

/-- Placing operators adds the places on the way to them. -/
theorem leads_foldl (ops : List Entry) (forms : Trie Form) (p : Bytes) :
    (ops.foldl placeEntry forms).Leads p ↔ forms.Leads p ∨ ∃ e ∈ ops, p <+: e.bytes := by
  induction ops generalizing forms with
  | nil => simp
  | cons e ops ih =>
    rw [List.foldl_cons, ih, placeEntry, Trie.leads_alter, List.exists_mem_cons_iff, or_assoc]

/-- Binding starters adds their places. -/
theorem leads_bind (bytes : List UInt8) (forms : Trie Form) (p : Bytes) :
    (bytes.foldl bindStarter forms).Leads p ↔
      forms.Leads p ∨ ∃ b ∈ bytes, (Starter.ofByte? b).isSome = true ∧ p <+: [b] := by
  induction bytes generalizing forms with
  | nil => simp
  | cons b bytes ih =>
    rw [List.foldl_cons, ih, bindStarter, List.exists_mem_cons_iff]
    rcases Starter.ofByte? b with _ | s
    · simp
    · simp only [Trie.insert, Trie.leads_alter, Option.isSome_some, true_and, or_assoc]

/-- The texts that lead somewhere in a table are the empty one and the places of its vocabulary. -/
theorem leads_ofEntries (entries : List Entry) {p : Bytes} (hp : p ≠ []) :
    (ofEntries entries).forms.Leads p ↔ p ∈ places entries := by
  rw [mem_places, and_iff_right hp, forms_ofEntries, leads_foldl, starters_forms, leads_bind,
    Trie.leads_empty, or_iff_right hp]
  refine or_congr_left ?_
  exact ⟨fun ⟨b, _, h⟩ => ⟨b, h⟩, fun ⟨b, h⟩ => ⟨b, mem_range_map b, h⟩⟩

/-- The places of a table are the beginnings of its starters and operators. -/
theorem card_places (entries : List Entry) :
    (ofEntries entries).nodeCount = (places entries).card + 1 := by
  have hdistinct : (ofEntries entries).forms.Distinct := by
    rw [forms_ofEntries, starters_forms]
    -- Which bytes are bound does not matter.
    generalize (List.range 256).map UInt8.ofNat = bytes
    exact distinct_foldl _ (distinct_bind bytes Trie.distinct_empty)
  have hplaces : (ofEntries entries).forms.paths.toFinset = places entries := by
    ext p
    rw [List.mem_toFinset, Trie.mem_paths hdistinct]
    constructor
    · rintro ⟨hp, hleads⟩
      exact (leads_ofEntries entries hp).mp hleads
    · intro hp
      have hne := (mem_places.mp hp).1
      exact ⟨hne, (leads_ofEntries entries hne).mpr hp⟩
  rw [nodeCount, ← Trie.length_paths, ← hplaces,
    List.toFinset_card_of_nodup (Trie.nodup_paths hdistinct)]

/-- The table of every vocabulary is a list of texts: a look-up gives the starter of a single byte
that opens a form and else the last operator with the text, if it is not empty; words leave the trie
as it is; and its places are the root and the beginnings of the starters and operators, each
once. -/
theorem ofEntries_exact (entries : List Entry) :
    (∀ p, (ofEntries entries).form? p =
      match starter? p with
      | some s => some (.starter s)
      | none => if p = [] then none else (operator? entries p).map fun e => .operator e.kind) ∧
    (ofEntries entries).forms = (ofEntries (operators entries)).forms ∧
    (ofEntries entries).nodeCount = (places entries).card + 1 := by
  refine ⟨form?_eq entries, ?_, card_places entries⟩
  simp only [forms_ofEntries, operators, List.filter_filter, Bool.and_self]

end Table

end SqlTokens
