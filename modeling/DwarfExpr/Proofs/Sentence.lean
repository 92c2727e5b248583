/-
  DwarfExpr/Proofs/Sentence.lean
  ==============================
  **The grammar and its trees.** `Sentence` is the grammar of expressions, rule by rule:

      expression := call*
      call       := NAME [ '(' [ literal (',' literal)* ] ')' ]

  It speaks of tokens alone.  Calls are its trees: tokens are a sentence exactly if they are those
  of some calls (`sentence_iff_exists_calls`).  Two trees over the same tokens differ at most in
  their spans, and a call keeps every span but those of the commas, so the tokens and their places
  fix the tree (`Spells.unique`).  The parser thus accepts the sentences and nothing else, and the
  calls that it gives are the only ones which, written out, are the tokens (`parse_exact`).
-/
import DwarfExpr.Proofs.Grammar

namespace DwarfExpr

/-! ### The grammar -/

/-- `literal (',' literal)*` -/
inductive Literals : List Token → Prop
  | last (radix : Radix) (value : Value) : Literals [.number radix value]
  | more (radix : Radix) (value : Value) {rest : List Token} (hrest : Literals rest) :
      Literals (.number radix value :: .comma :: rest)

/-- `NAME [ '(' [ literal (',' literal)* ] ')' ]` -/
inductive Phrase : List Token → Prop
  | name (op : Operation) : Phrase [.operation op]
  | emptyList (op : Operation) : Phrase [.operation op, .leftParen, .rightParen]
  | list (op : Operation) {ls : List Token} (hls : Literals ls) :
      Phrase (.operation op :: .leftParen :: (ls ++ [.rightParen]))

/-- `call*` -/
inductive Sentence : List Token → Prop
  | nil : Sentence []
  | call {phrase rest : List Token} (hphrase : Phrase phrase) (hrest : Sentence rest) :
      Sentence (phrase ++ rest)

/-! ### Calls are the trees of the grammar -/

theorem Literals.exists_literals {tokens : List Token} (h : Literals tokens) :
    ∃ l ls, Literal.tokens (l :: ls) = tokens := by
  induction h with
  | last radix value => exact ⟨⟨radix, value, ⟨0, 0⟩⟩, [], rfl⟩
  | more radix value hrest ih =>
    obtain ⟨l, ls, rfl⟩ := ih
    exact ⟨⟨radix, value, ⟨0, 0⟩⟩, l :: ls, rfl⟩

theorem literals_tokens (l : Literal) (ls : List Literal) :
    Literals (Literal.tokens (l :: ls)) := by
  induction ls generalizing l with
  | nil => exact .last l.radix l.value
  | cons m ls ih => exact .more l.radix l.value (ih m)

theorem Phrase.exists_call {tokens : List Token} (h : Phrase tokens) :
    ∃ c : Call, c.tokens = tokens := by
  cases h with
  | name op => exact ⟨⟨op, ⟨0, 0⟩, none⟩, rfl⟩
  | emptyList op => exact ⟨⟨op, ⟨0, 0⟩, some ⟨⟨0, 0⟩, [], ⟨0, 0⟩⟩⟩, rfl⟩
  | list op hls =>
    obtain ⟨l, ls, rfl⟩ := hls.exists_literals
    exact ⟨⟨op, ⟨0, 0⟩, some ⟨⟨0, 0⟩, l :: ls, ⟨0, 0⟩⟩⟩, rfl⟩

theorem phrase_tokens (c : Call) : Phrase c.tokens := by
  obtain ⟨op, span, arguments⟩ := c
  cases arguments with
  | none => exact .name op
  | some a =>
    obtain ⟨opening, ls, closing⟩ := a
    cases ls with
    | nil => exact .emptyList op
    | cons l ls => exact .list op (literals_tokens l ls)

/-- **Calls are the trees of the grammar.** -/
theorem sentence_iff_exists_calls {tokens : List Token} :
    Sentence tokens ↔ ∃ calls : List Call, tokens = calls.flatMap Call.tokens := by
  constructor
  · intro h
    induction h with
    | nil => exact ⟨[], rfl⟩
    | call hphrase _ ih =>
      obtain ⟨c, rfl⟩ := hphrase.exists_call
      obtain ⟨calls, rfl⟩ := ih
      exact ⟨c :: calls, rfl⟩
  · rintro ⟨calls, rfl⟩
    induction calls with
    | nil => exact .nil
    | cons c calls ih => exact .call (phrase_tokens c) ih

/-! ### A tree is fixed by its tokens and their places -/

theorem Literal.placed_injective : Function.Injective Literal.placed := by
  rintro ⟨radix, value, span⟩ ⟨radix', value', span'⟩ h
  simp only [Literal.placed, Literal.token, Prod.mk.injEq, Token.number.injEq,
    Option.some.injEq] at h
  obtain ⟨⟨rfl, rfl⟩, rfl⟩ := h
  rfl

theorem Literal.eq_of_layout_append_eq {ls ms : List Literal}
    {rest rest' : List (Token × Option Span)} (hlength : ls.length = ms.length)
    (h : Literal.layout ls ++ rest = Literal.layout ms ++ rest') : ls = ms ∧ rest = rest' := by
  induction ls generalizing ms with
  | nil =>
    obtain rfl : ms = [] := List.length_eq_zero_iff.1 hlength.symm
    exact ⟨rfl, h⟩
  | cons l ls ih =>
    cases ms with
    | nil => simp at hlength
    | cons m ms =>
      rw [List.length_cons, List.length_cons, Nat.add_right_cancel_iff] at hlength
      -- a literal is followed by a comma in both lists, or in neither
      cases ls with
      | nil =>
        obtain rfl : ms = [] := List.length_eq_zero_iff.1 hlength.symm
        obtain ⟨hplaced, hrest⟩ := List.cons.inj h
        exact ⟨by rw [Literal.placed_injective hplaced], hrest⟩
      | cons l' ls =>
        cases ms with
        | nil => simp at hlength
        | cons m' ms =>
          obtain ⟨hplaced, htail⟩ := List.cons.inj h
          obtain ⟨hls, hrest⟩ := ih hlength (List.cons.inj htail).2
          exact ⟨by rw [Literal.placed_injective hplaced, hls], hrest⟩

theorem Call.eq_of_layout_append_eq {c d : Call} {rest rest' : List (Token × Option Span)}
    (hwritten : c.written = d.written) (h : c.layout ++ rest = d.layout ++ rest') :
    c = d ∧ rest = rest' := by
  obtain ⟨op, span, arguments⟩ := c
  obtain ⟨op', span', arguments'⟩ := d
  obtain ⟨rfl, hlists⟩ := Prod.mk.inj hwritten
  simp only [Call.layout, List.cons_append, List.cons.injEq, Prod.mk.injEq, Option.some.injEq,
    true_and] at h
  obtain ⟨rfl, htail⟩ := h
  cases arguments with
  | none =>
    cases arguments' with
    | none => exact ⟨rfl, htail⟩
    | some a' => simp at hlists
  | some a =>
    cases arguments' with
    | none => simp at hlists
    | some a' =>
      obtain ⟨opening, ls, closing⟩ := a
      obtain ⟨opening', ms, closing'⟩ := a'
      have hlength : ls.length = ms.length := by
        simpa using congrArg (fun w => (w.getD []).length) hlists
      simp only [Arguments.layout, List.cons_append, List.append_assoc, List.nil_append,
        List.cons.injEq, Prod.mk.injEq, Option.some.injEq, true_and] at htail
      obtain ⟨rfl, hlist⟩ := htail
      obtain ⟨rfl, hclosing⟩ := Literal.eq_of_layout_append_eq hlength hlist
      simp only [List.cons.injEq, Prod.mk.injEq, Option.some.injEq, true_and] at hclosing
      obtain ⟨rfl, hrest⟩ := hclosing
      exact ⟨rfl, hrest⟩

theorem Call.eq_of_flatMap_layout_eq {cs ds : List Call}
    (hwritten : cs.map Call.written = ds.map Call.written)
    (h : cs.flatMap Call.layout = ds.flatMap Call.layout) : cs = ds := by
  induction cs generalizing ds with
  | nil => exact (List.map_eq_nil_iff.1 hwritten.symm).symm
  | cons c cs ih =>
    cases ds with
    | nil => simp at hwritten
    | cons d ds =>
      rw [List.map_cons, List.map_cons, List.cons.injEq] at hwritten
      rw [List.flatMap_cons, List.flatMap_cons] at h
      obtain ⟨rfl, hrest⟩ := Call.eq_of_layout_append_eq hwritten.1 h
      rw [ih hwritten.2 hrest]

/-! ### The parser -/

/-- **Tokens are parsed into the calls that they spell.** -/
theorem parse_of_spells {tokens : List (Spanned Token)} {calls : List Call} (length : Nat)
    (h : Spells tokens calls) : parse length tokens = .ok calls := by
  obtain ⟨calls', hparse, hwritten⟩ := parse_of_tokens length h.tokens_eq
  have hlayout : calls'.flatMap Call.layout = calls.flatMap Call.layout :=
    (spells_of_parse hparse).symm.trans h
  rw [hparse, Call.eq_of_flatMap_layout_eq hwritten hlayout]

theorem Spells.unique {tokens : List (Spanned Token)} {calls calls' : List Call}
    (h : Spells tokens calls) (h' : Spells tokens calls') : calls = calls' :=
  Except.ok.inj ((parse_of_spells 0 h).symm.trans (parse_of_spells 0 h'))

theorem exists_parse_iff_sentence {length : Nat} {tokens : List (Spanned Token)} :
    (∃ calls, parse length tokens = .ok calls) ↔ Sentence (tokens.map (·.value)) := by
  rw [sentence_iff_exists_calls]
  constructor
  · rintro ⟨calls, h⟩
    exact ⟨calls, tokens_of_parse h⟩
  · rintro ⟨calls, h⟩
    obtain ⟨calls', hparse, -⟩ := parse_of_tokens length h
    exact ⟨calls', hparse⟩

theorem run_eq_none_iff_sentence {tokens : List (Spanned Token)} :
    (State.between.run tokens).2 = none ↔ Sentence (tokens.map (·.value)) := by
  rw [← @exists_parse_iff_sentence 0]
  simp only [parse_eq_ok_iff]
  constructor
  · intro h
    exact ⟨_, Prod.ext rfl h⟩
  · rintro ⟨calls, h⟩
    rw [h]

/-- Reading decides the grammar; the places of the tokens do not matter. -/
instance : DecidablePred Sentence := fun tokens =>
  decidable_of_iff ((State.between.run (tokens.map (⟨·, ⟨0, 0⟩⟩))).2 = none) <| by
    have hvalues : (tokens.map fun token => (⟨token, ⟨0, 0⟩⟩ : Spanned Token)).map (·.value) =
        tokens := by simp [Function.comp_def]
    rw [run_eq_none_iff_sentence, hvalues]

/-- **The parser accepts exactly its grammar, and its tree is faithful.** Tokens are parsed exactly
    if they are a sentence.  They are parsed into the calls that spell them, with the radix, the
    value and the spans that the calls keep, and there are no other calls that do so. -/
theorem parse_exact (length : Nat) (tokens : List (Spanned Token)) :
    ((∃ calls, parse length tokens = .ok calls) ↔ Sentence (tokens.map (·.value))) ∧
    (∀ calls, parse length tokens = .ok calls ↔ Spells tokens calls) ∧
    (Sentence (tokens.map (·.value)) ↔ ∃! calls, Spells tokens calls) := by
  refine ⟨exists_parse_iff_sentence, fun calls => ⟨spells_of_parse, parse_of_spells length⟩, ?_⟩
  constructor
  · intro h
    obtain ⟨calls, hparse⟩ := (@exists_parse_iff_sentence length _).2 h
    exact ⟨calls, spells_of_parse hparse, fun calls' h' => h'.unique (spells_of_parse hparse)⟩
  · rintro ⟨calls, hspells, -⟩
    exact exists_parse_iff_sentence.1 ⟨calls, parse_of_spells length hspells⟩

end DwarfExpr
