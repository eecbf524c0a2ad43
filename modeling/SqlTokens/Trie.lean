import SqlTokens.Bytes

/-!
# Tries over bytes

A trie is a finite map from texts that are not empty, stored by their common beginnings. It is kept
as a list of children, each with a byte, perhaps a value, and the trie below it. The root has no
value. `find?_alter` says what the one change there is does to every look-up: the text that is
altered has the new value, and no other text notices.
-/

namespace SqlTokens

/-- The children of a node, one after another. -/
inductive Trie (α : Type) where
  /-- No child is left. -/
  | empty
  /-- A child for a byte, with its value, what lies below it, and the children beside it. -/
  | node (byte : UInt8) (value : Option α) (below beside : Trie α)
  deriving DecidableEq, Repr

namespace Trie

variable {α : Type}

/-- The child for a byte: its value and what lies below it. -/
def child? (b : UInt8) : Trie α → Option (Option α × Trie α)
  | empty => none
  | node byte value below beside => if b = byte then some (value, below) else child? b beside

/-- The value of a text. -/
def find? (t : Trie α) : Bytes → Option α
  | [] => none
  | b :: rest =>
    match t.child? b with
    | none => none
    | some (value, below) => if rest = [] then value else below.find? rest

/-- The trie with the child for a byte changed; a child that is not there starts out with no value
and nothing below it. -/
def alterChild (b : UInt8) (f : Option α × Trie α → Option α × Trie α) : Trie α → Trie α
  | empty =>
    let new := f (none, empty)
    node b new.1 new.2 empty
  | node byte value below beside =>
    if b = byte then
      let new := f (value, below)
      node byte new.1 new.2 beside
    else node byte value below (alterChild b f beside)

/-- The trie with the value of a text changed. -/
def alter (f : Option α → Option α) : Bytes → Trie α → Trie α
  | [], t => t
  | b :: rest, t =>
    t.alterChild b fun (value, below) =>
      if rest = [] then (f value, below) else (value, alter f rest below)

/-- The trie in which a text has the given value. -/
def insert (text : Bytes) (value : α) (t : Trie α) : Trie α :=
  t.alter (fun _ => some value) text

/-- The number of nodes, the root apart. -/
def size : Trie α → Nat
  | empty => 0
  | node _ _ below beside => below.size + beside.size + 1

/-- The number of texts that have a value. -/
def count : Trie α → Nat
  | empty => 0
  | node _ value below beside => below.count + beside.count + value.toList.length

/-! ## Look-ups after a change -/

/-- Changing one child leaves the others as they are. -/
theorem child?_alterChild (b c : UInt8) (f : Option α × Trie α → Option α × Trie α) (t : Trie α) :
    (t.alterChild b f).child? c =
      if c = b then some (f ((t.child? b).getD (none, empty))) else t.child? c := by
  induction t with
  | empty => simp [alterChild, child?]
  | node byte value below beside _ ih =>
    by_cases hb : b = byte
    · subst hb
      by_cases hc : c = b <;> simp [alterChild, child?, hc]
    · by_cases hc : c = byte
      · subst hc
        have hcb : ¬c = b := fun h => hb h.symm
        simp [alterChild, child?, hb, hcb]
      · simp [alterChild, child?, hb, hc, ih]

/-- The trie without nodes has no values. -/
@[simp] theorem find?_empty (p : Bytes) : (empty : Trie α).find? p = none := by
  cases p <;> rfl

/-- The text that is altered has the new value, and every other text keeps its own. -/
theorem find?_alter (f : Option α → Option α) {p : Bytes} (hp : p ≠ []) (t : Trie α) (q : Bytes) :
    (t.alter f p).find? q = if q = p then f (t.find? p) else t.find? q := by
  induction p generalizing t q with
  | nil => exact absurd rfl hp
  | cons b rest ih =>
    cases q with
    | nil => simp [find?]
    | cons c q =>
      simp only [alter, find?, child?_alterChild]
      by_cases hc : c = b
      · subst hc
        by_cases hr : rest = []
        · subst hr
          by_cases hq : q = []
          · subst hq
            cases h : t.child? c <;> simp
          · cases h : t.child? c <;> simp [hq]
        · by_cases hq : q = []
          · subst hq
            have hn : ¬[] = rest := fun h => hr h.symm
            cases h : t.child? c <;> simp [hr, hn]
          · cases h : t.child? c with
            | none => simp [hr, hq, ih hr]
            | some pair => simp [hr, hq, ih hr]
      · simp [hc]

end Trie

end SqlTokens
