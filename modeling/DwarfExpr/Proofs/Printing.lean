/-
  DwarfExpr/Proofs/Printing.lean
  ==============================
  **Reading is the inverse of writing.** Calls are written one to a line.  The lines are cut into
  the tokens of the calls (`Proofs/Lexing.lean`), and the tokens are read as the calls
  (`Proofs/Grammar.lean`); only the spans are those of the new text.

  Two things cannot be written: an operation that is not in the table, and a negative number in
  hexadecimal.  No source has them (`writable_of_parse`), so that reading is the inverse of writing
  for the other calls and for no more (`text_read_back_iff`).  What the operation makes of its
  literals does not matter: there may be too many or too few, and they may be of any size.
-/
import DwarfExpr.Proofs.Grammar
import DwarfExpr.Proofs.Lexeme

namespace DwarfExpr

/-! ### Calls of a source can be written -/

/-- A hexadecimal number of a source has no sign. -/
theorem Token.Reads.nonneg_of_hexadecimal {start : Nat} {ps : List Piece}
    {tokens : List (Spanned Token)} (h : Token.Reads start ps tokens) {v : Value}
    (hv : Token.number .hexadecimal v ∈ tokens.map (·.value)) : 0 ≤ v.toInt := by
  induction h with
  | nil start => simp at hv
  | skip hp htail ih => exact ih hv
  | @token start p ps token tokens hp htail ih =>
    rw [List.map_cons, List.mem_cons] at hv
    rcases hv with rfl | hv
    · rw [hp.2]
      exact Int.natCast_nonneg _
    · exact ih hv

theorem Literal.token_mem_tokens {l : Literal} {ls : List Literal} (h : l ∈ ls) :
    l.token ∈ Literal.tokens ls := by
  induction ls with
  | nil => simp at h
  | cons m ls ih =>
    cases ls with
    | nil =>
      obtain rfl : l = m := by simpa using h
      simp [Literal.tokens]
    | cons n ls =>
      rw [Literal.tokens]
      rcases List.mem_cons.1 h with rfl | h
      · exact List.mem_cons_self
      · exact List.mem_cons_of_mem _ (List.mem_cons_of_mem _ (ih h))

namespace Call

theorem token_mem_tokens {c : Call} {a : Arguments} (ha : c.arguments = some a) {l : Literal}
    (h : l ∈ a.operands) : l.token ∈ c.tokens := by
  have hlist := Literal.token_mem_tokens h
  simp [Call.tokens, ha, Arguments.tokens, hlist]

/-- Whether a call can be written is not a matter of its spans. -/
theorem writable_iff (c : Call) :
    c.Writable ↔ c.written.1 ∈ Operation.all ∧
      ∀ literals, c.written.2 = some literals → ∀ l ∈ literals, l.1 = .hexadecimal →
        0 ≤ l.2.toInt := by
  constructor
  · rintro ⟨hknown, hliterals⟩
    refine ⟨hknown, ?_⟩
    intro literals h l hl
    obtain ⟨a, ha, rfl⟩ := Option.map_eq_some_iff.1 h
    obtain ⟨m, hm, rfl⟩ := List.mem_map.1 hl
    exact hliterals a ha m hm
  · rintro ⟨hknown, hliterals⟩
    refine ⟨hknown, ?_⟩
    intro a ha l hl
    exact hliterals (a.operands.map Literal.written) (by simp [written, ha]) l.written
      (List.mem_map_of_mem hl)

end Call

theorem known_of_parse {source : String} {length : Nat} {tokens : List (Spanned Token)}
    {calls : List Call} (htokens : tokenize source = .ok tokens)
    (hcalls : parse length tokens = .ok calls) : ∀ c ∈ calls, c.operation ∈ Operation.all := by
  intro c hc
  apply known_of_tokenize htokens
  rw [tokens_of_parse hcalls]
  exact List.mem_flatMap.2 ⟨c, hc, List.mem_cons_self⟩

/-- **The calls of a source can be written.** -/
theorem writable_of_parse {source : String} {length : Nat} {tokens : List (Spanned Token)}
    {calls : List Call} (htokens : tokenize source = .ok tokens)
    (hcalls : parse length tokens = .ok calls) : ∀ c ∈ calls, c.Writable := by
  intro c hc
  refine ⟨known_of_parse htokens hcalls c hc, ?_⟩
  intro a ha l hl hradix
  obtain ⟨ps, -, -, hreads⟩ := tokenize_eq_ok_iff.1 htokens
  apply hreads.nonneg_of_hexadecimal
  rw [tokens_of_parse hcalls, ← hradix]
  exact List.mem_flatMap.2 ⟨c, hc, Call.token_mem_tokens ha hl⟩

/-! ### The law -/

/-- **Reading is the inverse of writing**, for calls whose operations are in the table and whose
    hexadecimal literals are not negative, and for no others: their lines have tokens, and these
    are read as calls with the same operations, with lists where they had lists, and with the same
    literals in the same radixes. -/
theorem text_read_back_iff (calls : List Call) :
    (∃ tokens calls', tokenize ("\n".intercalate (calls.map Call.text)) = .ok tokens ∧
      parse ("\n".intercalate (calls.map Call.text)).utf8ByteSize tokens = .ok calls' ∧
      calls'.map Call.written = calls.map Call.written) ↔
    ∀ c ∈ calls, c.Writable := by
  constructor
  · rintro ⟨tokens, calls', htokens, hcalls', hwritten⟩ c hc
    obtain ⟨c', hc', hsame⟩ : ∃ c' ∈ calls', c'.written = c.written := by
      have hmem : c.written ∈ calls'.map Call.written := hwritten ▸ List.mem_map_of_mem hc
      exact List.mem_map.1 hmem
    have hwritable := writable_of_parse htokens hcalls' c' hc'
    rwa [Call.writable_iff, hsame, ← Call.writable_iff] at hwritable
  · intro h
    obtain ⟨tokens, htokens, hspelled⟩ := tokenize_source h
    obtain ⟨calls', hcalls', hwritten⟩ := parse_of_tokens _ hspelled
    exact ⟨tokens, calls', htokens, hcalls', hwritten⟩

end DwarfExpr
