import Mathlib.Data.List.Induction
import SqlTokens.Proofs.Calls
import SqlTokens.Proofs.Records

/-!
# The tokens of a run

A run of calls over one source reads tokens, one after another, and `Scanner.trace` lists them. A
property of the tokens so far and of the scanner behind them holds of every run if it holds at the
start and every single reading keeps it (`trace_induct`): a stream of tokens is a number of scans,
and nothing else reads any. What a reading records is the same for raw and for resolved tokens
(`Placed.scan_records`, `Placed.lex_records`), since resolution leaves a malformed token malformed
and every token in its place. A run that changes its source is a run over the last of them
(`run_over_one`).
-/

namespace SqlTokens

namespace Scanner

/-! ## Traces -/

/-- The tokens that a call reads, the one that ends a stream included. -/
def Op.reads : Op → Scanner → List Token
  | scan, s => [s.scan.1]
  | lex, s => [s.lex.1]
  | tokens, s => s.scanAll.1
  | setMode _, _ => []
  | skipVersion _ _, _ => []
  | restart _, _ => []

/-- Whether a call stays in its source. -/
def Op.Stays : Op → Prop
  | restart _ => False
  | _ => True

/-- The tokens that some calls read, in order. -/
def trace : List Op → Scanner → List Token
  | [], _ => []
  | op :: ops, s => op.reads s ++ trace ops (op.apply s)

/-- What holds of the tokens so far and the scanner behind them, and is kept by every single
reading, by every change of the mode and by every version number, holds of every run. -/
theorem trace_induct {P : List Token → Scanner → Prop} {ops : List Op}
    (hops : ∀ op ∈ ops, op.Stays) {s : Scanner} (hstart : P [] s)
    (hscan : ∀ ts s, P ts s → P (ts ++ [s.scan.1]) s.scan.2)
    (hlex : ∀ ts s, P ts s → P (ts ++ [s.lex.1]) s.lex.2)
    (hmode : ∀ ts s mode, P ts s → P ts (s.setMode mode))
    (hversion : ∀ ts s least most, P ts s → P ts (s.skipVersion least most)) :
    P (s.trace ops) (s.run ops) := by
  -- A stream is one scan after another, so it keeps what a scan keeps.
  have hall (ts : List Token) (s : Scanner) : P ts s → P (ts ++ s.scanAll.1) s.scanAll.2 := by
    fun_induction scanAll s generalizing ts with
    | case1 s t next hs _ =>
      intro h
      have hone := hscan ts s h
      rwa [hs] at hone
    | case2 s t next hs _ rest ih =>
      intro h
      have hone := hscan ts s h
      rw [hs] at hone
      have hrest := ih _ hone
      rwa [List.append_assoc] at hrest
  -- The induction is on the calls, for whatever has been read before them.
  have hrun (ts : List Token) (s : Scanner) (h : P ts s) :
      P (ts ++ s.trace ops) (s.run ops) := by
    clear hstart
    induction ops generalizing s ts with
    | nil =>
      rw [trace, List.append_nil]
      exact h
    | cons op ops ih =>
      obtain ⟨hop, hrest⟩ := List.forall_mem_cons.mp hops
      have hstep : P (ts ++ op.reads s) (op.apply s) := by
        cases op with
        | scan => exact hscan ts s h
        | lex => exact hlex ts s h
        | tokens => exact hall ts s h
        | setMode mode =>
          rw [Op.reads, List.append_nil]
          exact hmode ts s mode h
        | skipVersion least most =>
          rw [Op.reads, List.append_nil]
          exact hversion ts s least most h
        | restart source => exact hop.elim
      have htail := ih hrest _ _ hstep
      rwa [List.append_assoc] at htail
  exact hrun [] s hstart

/-- A run is a run over one source, the one that it was last set to. -/
theorem run_over_one (entries : List Entry) (config : Config) (source : Bytes) (ops : List Op) :
    ∃ config' source' ops', (∀ op ∈ ops', op.Stays) ∧
      (start (.ofEntries entries) config source).run ops =
        (start (.ofEntries entries) config' source').run ops' := by
  induction ops using List.reverseRecOn with
  | nil => exact ⟨config, source, [], by simp, rfl⟩
  | append_singleton ops op ih =>
    obtain ⟨config', source', ops', hops', hrun⟩ := ih
    have happend (s : Scanner) (ops : List Op) : s.run (ops ++ [op]) = op.apply (s.run ops) := by
      rw [run, List.foldl_append]
      rfl
    rw [happend]
    by_cases hop : op.Stays
    · refine ⟨config', source', ops' ++ [op], fun op' hmem => ?_, by rw [happend, hrun]⟩
      rcases List.mem_append.mp hmem with hmem | hmem
      · exact hops' op' hmem
      · rwa [List.mem_singleton.mp hmem]
    · cases op with
      | restart last =>
        have htable := (run_placed ops (start_placed entries config source)).table_eq
        refine ⟨((start (.ofEntries entries) config source).run ops).config, last, [], by simp, ?_⟩
        rw [Op.apply, restart, htable]
        rfl
      | _ => exact absurd trivial hop

/-! ## What a reading records -/

variable {entries : List Entry} {s : Scanner}

/-- A scan records what its search for a token does. -/
theorem Placed.scan_records (h : s.Placed entries) :
    Recorded s.state s.cursor s.scan.1 s.scan.2.cursor s.scan.2.state := by
  have hrecords := nextToken_records entries s.config s.state s.cursor h.canonical.le_length
  rw [← h.table_eq] at hrecords
  rw [scan_token, scan_cursor, scan_state]
  refine hrecords.settled ?_ ?_ ?_
  · rfl
  · rfl
  · rfl

/-- Resolution leaves a malformed token malformed. -/
theorem resolve_invalid {t : Token} (h : t.kind = .invalid) : s.resolve t = t := by
  refine resolve_of_kind ?_
  rw [h]
  decide

/-- A reading of a resolved token records what the scan does. -/
theorem Placed.lex_records (h : s.Placed entries) :
    Recorded s.state s.cursor s.lex.1 s.lex.2.cursor s.lex.2.state := by
  obtain ⟨htoken, herrors, hwarnings, hhint⟩ := h.scan_records
  have hpos : s.lex.1.pos = s.scan.1.pos := resolve_pos _ _
  refine ⟨by rwa [hpos], herrors.imp_right ?_, hwarnings, hhint⟩
  -- An error makes the raw token malformed, and such a token is not relabelled.
  rintro ⟨error, heq, hkind, hrest⟩
  refine ⟨error, heq, ?_, by rwa [hpos]⟩
  show (s.scan.2.resolve s.scan.1).kind = _
  rw [resolve_invalid hkind]
  exact hkind

/-- Reading a resolved token keeps a scanner in its place. -/
theorem Placed.lex (h : s.Placed entries) : s.lex.2.Placed entries :=
  Op.apply_placed .lex h

end Scanner

end SqlTokens
