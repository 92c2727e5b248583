/-
  DwarfExpr/Proofs/SyntaxError.lean
  =================================
  **Where an expression breaks off, and what is left of it.** Tokens are viable if some expression
  begins with them.  Tokens that are no expression break off (`BreaksAt`) at the first one with
  which they stop being viable, or at the end of the input if they are viable to the last.

    * reading goes on exactly as long as the tokens are viable (`viable_iff_reaches`), and what a
      state expects is what can follow the tokens before it (`State.Reaches.viable_append_iff`).  So
      an error is reported where the tokens break off, and names exactly what could have come there
      (`parse_error_at_break`);
    * the tokens before the break are those of the calls that are kept, or there is an open list
      behind these, which is kept as well (`recovery_accounts_for_tokens`).
-/
import DwarfExpr.Assembly
import DwarfExpr.Proofs.Lexeme
import DwarfExpr.Proofs.Sentence
import Mathlib.Order.Bounds.Basic

namespace DwarfExpr

/-! ### Viable tokens -/

/-- Some expression begins with the tokens. -/
def Viable (tokens : List Token) : Prop := ∃ rest, Sentence (tokens ++ rest)

theorem Viable.of_append {xs ys : List Token} (h : Viable (xs ++ ys)) : Viable xs := by
  obtain ⟨rest, hrest⟩ := h
  exact ⟨ys ++ rest, by rwa [← List.append_assoc]⟩

/-- The tokens break off at the index `k`: it is the least one such that the tokens up to it are not
    viable, or the end of viable tokens that are no expression. -/
def BreaksAt (tokens : List Token) (k : Nat) : Prop :=
  IsLeast {i | i < tokens.length ∧ ¬ Viable (tokens.take (i + 1))} k ∨
    k = tokens.length ∧ Viable tokens ∧ ¬ Sentence tokens

theorem breaksAt_length {before after : List Token} (hviable : Viable before)
    (hhead : ∀ x ∈ after.head?, ¬ Viable (before ++ [x]))
    (hend : after = [] → ¬ Sentence before) : BreaksAt (before ++ after) before.length := by
  cases after with
  | nil =>
    rw [List.append_nil]
    exact .inr ⟨rfl, hviable, hend rfl⟩
  | cons x after =>
    refine .inl ⟨⟨by simp, ?_⟩, ?_⟩
    · rw [List.take_length_add_append]
      exact hhead x rfl
    · rintro i ⟨-, hi⟩
      by_contra hlt
      have hle : i + 1 ≤ before.length := by omega
      rw [List.take_append_of_le_length hle] at hi
      rw [← List.take_append_drop (i + 1) before] at hviable
      exact hi hviable.of_append

/-! ### What a state expects -/

namespace State

/-- An expression can be brought to an end from every state. -/
theorem exists_run_eq_none (s : State) : ∃ rest calls, s.run rest = (calls, none) := by
  let closing : Spanned Token := ⟨.rightParen, ⟨0, 0⟩⟩
  cases s with
  | between => exact ⟨[], [], rfl⟩
  | named op span => exact ⟨[], _, rfl⟩
  | opened call => exact ⟨[closing], _, rfl⟩
  | valued call => exact ⟨[closing], _, rfl⟩
  | separated call => exact ⟨[⟨.number .decimal .zero, ⟨0, 0⟩⟩, closing], _, rfl⟩

end State

/-- **Reading goes on exactly as long as the tokens are viable.** -/
theorem viable_iff_reaches {tokens : List (Spanned Token)} :
    Viable (tokens.map (·.value)) ↔ ∃ complete s, State.Reaches .between tokens complete s := by
  constructor
  · rintro ⟨rest, hrest⟩
    -- the places of what might follow do not matter
    let tail : List (Spanned Token) := rest.map fun token => ⟨token, ⟨0, 0⟩⟩
    have htail : (tokens ++ tail).map (·.value) = tokens.map (·.value) ++ rest := by
      simp [tail, Function.comp_def]
    rw [← htail] at hrest
    obtain ⟨calls, hparse⟩ := (@exists_parse_iff_sentence 0 _).2 hrest
    obtain ⟨_, _, hreaches, -⟩ := State.exists_reaches_of_run_eq_none (parse_eq_ok_iff.1 hparse)
    obtain ⟨complete, _, s, hbefore, -⟩ := hreaches.of_append
    exact ⟨complete, s, hbefore⟩
  · rintro ⟨complete, s, hreaches⟩
    obtain ⟨rest, calls, hrun⟩ := s.exists_run_eq_none
    have hparse : parse 0 (tokens ++ rest) = .ok (complete ++ calls) := by
      rw [parse_eq_ok_iff, hreaches.run_append, hrun]
    refine ⟨rest.map (·.value), ?_⟩
    rw [← List.map_append]
    exact exists_parse_iff_sentence.1 ⟨_, hparse⟩

namespace State.Reaches

variable {tokens : List (Spanned Token)} {complete : List Call} {s : State}

/-- **What a state expects is what can follow.** -/
theorem viable_append_iff (h : Reaches .between tokens complete s) (token : Token) :
    Viable (tokens.map (·.value) ++ [token]) ↔ token.expectation ∈ s.expected := by
  let x : Spanned Token := ⟨token, ⟨0, 0⟩⟩
  have hx : tokens.map (·.value) ++ [token] = (tokens ++ [x]).map (·.value) := by simp [x]
  rw [hx, viable_iff_reaches]
  constructor
  · rintro ⟨calls, s'', hreaches⟩
    obtain ⟨_, _, s', hbefore, hnext⟩ := hreaches.of_append
    obtain rfl := h.unique hbefore
    cases hnext with
    | next hx _ =>
      by_contra hnot
      rw [next_eq_none_iff (x := x).2 hnot] at hx
      simp at hx
  · intro hmem
    cases hnext : s.next x with
    | none => exact absurd hmem (next_eq_none_iff.1 hnext)
    | some step =>
      obtain ⟨calls, s'⟩ := step
      exact ⟨_, s', h.append (.next hnext (.refl s'))⟩

theorem sentence_iff (h : Reaches .between tokens complete s) :
    Sentence (tokens.map (·.value)) ↔ Expected.endOfInput ∈ s.expected := by
  rw [← @exists_parse_iff_sentence 0]
  simp only [parse_eq_ok_iff]
  have hrun := h.run_append []
  rw [List.append_nil, run_of_stuck (s := s) (by simp)] at hrun
  rw [hrun, endOfInput_mem_expected_iff]
  simp

end State.Reaches

/-! ### The error -/

/-- **The parser stops where the tokens break off.** -/
theorem exists_break_of_parse_eq_error {length : Nat} {tokens : List (Spanned Token)}
    {e : SyntaxError} (h : parse length tokens = .error e) :
    ∃ before after complete place, tokens = before ++ after ∧
      State.Reaches .between before complete place.state ∧
      State.between.run tokens = (e.calls, some place) ∧
      e.calls = complete ++ place.state.finished ∧ place.found = after.head? ∧
      (after = [] → place.state.openCall? ≠ none) ∧
      e = place.recovered e.calls tokens (endOfInput length tokens) ∧
      BreaksAt (tokens.map (·.value)) before.length := by
  obtain ⟨place, hrun, he⟩ := parse_eq_error_iff.1 h
  obtain ⟨before, after, complete, rfl, hreaches, hcalls, hfound, hstuck, hopen⟩ :=
    State.exists_reaches_of_run_eq_some hrun
  refine ⟨before, after, complete, place, rfl, hreaches, hrun, hcalls, hfound, hopen, he, ?_⟩
  have hhead : ∀ token ∈ (after.map (·.value)).head?,
      ¬ Viable (before.map (·.value) ++ [token]) := by
    intro token htoken
    rw [List.head?_map] at htoken
    obtain ⟨x, hx, rfl⟩ := Option.map_eq_some_iff.1 htoken
    rw [hreaches.viable_append_iff]
    exact State.next_eq_none_iff.1 (hstuck x hx)
  have hend : after.map (·.value) = [] → ¬ Sentence (before.map (·.value)) := by
    intro hnil
    rw [hreaches.sentence_iff, State.endOfInput_mem_expected_iff]
    exact hopen (List.map_eq_nil_iff.1 hnil)
  have hbreak := breaksAt_length (viable_iff_reaches.2 ⟨complete, _, hreaches⟩) hhead hend
  rwa [List.length_map, ← List.map_append] at hbreak

theorem Break.span_eq (ending : Span) (b : Break) :
    b.span ending = (b.found.map (·.span)).getD ending := by
  cases h : b.found <;> simp [span, h]

theorem syntaxError_mem_log [Host] {t : Target} {source : String} {tokens : List (Spanned Token)}
    {e : SyntaxError} (htokens : tokenize source = .ok tokens)
    (h : parse source.utf8ByteSize tokens = .error e) :
    .syntaxError e.fault ∈ (assembly t source).log := by
  simp [assembly, Assembly.ofSource, htokens, h, Assembly.ofBreak]

/-- The end of the input has its documented span if the source ends with its last token. -/
theorem endOfInput_eq_iff {length : Nat} {tokens : List (Spanned Token)} :
    endOfInput length tokens = ⟨length, length⟩ ↔
      ∀ last ∈ tokens.getLast?, last.span.stop = length := by
  unfold endOfInput
  cases tokens.getLast? <;> simp

theorem getElem?_length_append {α : Type} (xs ys : List α) :
    (xs ++ ys)[xs.length]? = ys.head? := by
  rw [List.getElem?_append_right le_rfl, Nat.sub_self, List.head?_eq_getElem?]

/-- **An error is where the tokens break off, and names exactly what could follow.** Tokens that are
    no expression are refused at the token where they break off, or at the end of the input.  The
    error says what was found there, and expects exactly what can follow the tokens before it: the
    tokens with which they stay viable, and the end of the input if they are an expression.

    The end of the input goes by the span from the end of the source to the end of the last token,
    which is the empty span at the end of the source only if the last token ends there. -/
theorem parse_error_at_break (length : Nat) (tokens : List (Spanned Token))
    (h : ¬ Sentence (tokens.map (·.value))) :
    ∃ e k, parse length tokens = .error e ∧ BreaksAt (tokens.map (·.value)) k ∧
      e.fault.value.found = tokens[k]?.map (·.value) ∧
      (∀ token, token.expectation ∈ e.fault.value.expected ↔
        Viable ((tokens.map (·.value)).take k ++ [token])) ∧
      (.endOfInput ∈ e.fault.value.expected ↔ Sentence ((tokens.map (·.value)).take k)) ∧
      e.fault.span = (tokens[k]?.map (·.span)).getD (endOfInput length tokens) ∧
      (e.fault.span = (tokens[k]?.map (·.span)).getD ⟨length, length⟩ ↔
        k < tokens.length ∨ ∀ last ∈ tokens.getLast?, last.span.stop = length) ∧
      ∀ [Host] (t : Target) (source : String), tokenize source = .ok tokens →
        source.utf8ByteSize = length → .syntaxError e.fault ∈ (assembly t source).log := by
  cases hparse : parse length tokens with
  | ok calls => exact absurd (exists_parse_iff_sentence.1 ⟨calls, hparse⟩) h
  | error e =>
    obtain ⟨before, after, complete, place, rfl, hreaches, -, -, hfound, -, he, hbreak⟩ :=
      exists_break_of_parse_eq_error hparse
    have hfault : e.fault = place.syntaxFault (endOfInput length (before ++ after)) :=
      congrArg SyntaxError.fault he
    have htoken := getElem?_length_append before after
    have hbefore : ((before ++ after).map (·.value)).take before.length =
        before.map (·.value) := by simp
    have hspan : e.fault.span =
        (after.head?.map (·.span)).getD (endOfInput length (before ++ after)) := by
      rw [hfault, ← hfound, ← Break.span_eq]
      rfl
    refine ⟨e, before.length, rfl, hbreak, ?_, ?_, ?_, ?_, ?_, ?_⟩
    · rw [htoken, ← hfound, hfault]
      rfl
    · intro token
      rw [hbefore, hreaches.viable_append_iff, hfault]
      rfl
    · rw [hbefore, hreaches.sentence_iff, hfault]
      rfl
    · rw [htoken, hspan]
    · rw [htoken, hspan]
      cases after with
      | nil => simp [endOfInput_eq_iff]
      | cons x after => simp
    · intro _ t source htokens hlength
      rw [← hlength] at hparse
      exact syntaxError_mem_log htokens hparse

/-- Behind a comma only a literal can follow. -/
theorem parse_error_at_break_behind_comma :
    ∃ tokens, tokenize "DW_OP_bregx(1,)" = .ok tokens ∧ ¬ Sentence (tokens.map (·.value)) ∧
      ∃ e k, parse 15 tokens = .error e ∧
        e.fault = ⟨⟨[.literal], some .rightParen⟩, ⟨14, 15⟩⟩ ∧
        BreaksAt (tokens.map (·.value)) k ∧
        ∀ token : Token, token.expectation ∈ [Expected.literal] ↔
          Viable ((tokens.map (·.value)).take k ++ [token]) := by
  let tokens : List (Spanned Token) :=
    [⟨.operation ⟨"DW_OP_bregx", 0x92, [.uleb128, .sleb128]⟩, ⟨0, 11⟩⟩, ⟨.leftParen, ⟨11, 12⟩⟩,
      ⟨.number .decimal (.ofNat 1), ⟨12, 13⟩⟩, ⟨.comma, ⟨13, 14⟩⟩, ⟨.rightParen, ⟨14, 15⟩⟩]
  have htokens : tokenize "DW_OP_bregx(1,)" = .ok tokens := by decide +kernel
  have hnot : ¬ Sentence (tokens.map (·.value)) := by decide
  obtain ⟨e, k, hparse, hbreak, -, hexpected, -⟩ := parse_error_at_break 15 tokens hnot
  have hfault : e.fault = ⟨⟨[.literal], some .rightParen⟩, ⟨14, 15⟩⟩ := by
    obtain ⟨place, hrun, he⟩ := parse_eq_error_iff.1 hparse
    obtain ⟨-, hplace⟩ := Prod.mk.inj hrun
    rw [he, ← Option.some.inj hplace]
    rfl
  rw [hfault] at hexpected
  exact ⟨tokens, htokens, hnot, e, k, hparse, hfault, hbreak, hexpected⟩

/-- Behind the last token there is a blank: the span of the end of the input runs backwards. -/
theorem parse_error_backwards_span :
    ∃ tokens e, tokenize "DW_OP_const1u( " = .ok tokens ∧ parse 15 tokens = .error e ∧
      Viable (tokens.map (·.value)) ∧ ¬ Sentence (tokens.map (·.value)) ∧
      .syntaxError e.fault ∈ (assembly {} "DW_OP_const1u( ").log ∧
      e.fault.span = ⟨15, 14⟩ ∧ endOfSource "DW_OP_const1u( " = ⟨15, 15⟩ := by
  have htokens : tokenize "DW_OP_const1u( " =
      .ok [⟨.operation ⟨"DW_OP_const1u", 0x08, [.unsigned .bits8]⟩, ⟨0, 13⟩⟩,
        ⟨.leftParen, ⟨13, 14⟩⟩] := by
    decide +kernel
  have hparse : parse 15 [⟨.operation ⟨"DW_OP_const1u", 0x08, [.unsigned .bits8]⟩, ⟨0, 13⟩⟩,
        ⟨.leftParen, ⟨13, 14⟩⟩] =
      .error ⟨[], ⟨0, 13⟩,
        some ⟨⟨"DW_OP_const1u", 0x08, [.unsigned .bits8]⟩, ⟨0, 13⟩, ⟨13, 14⟩, []⟩,
        none, ⟨⟨[.rightParen, .literal], none⟩, ⟨15, 14⟩⟩⟩ := by
    decide +kernel
  exact ⟨_, _, htokens, hparse, ⟨[.rightParen], by decide⟩, by decide,
    syntaxError_mem_log htokens hparse, rfl, rfl⟩

/-! ### What is left of an expression -/

/-- The tokens spell the calls and then an open call, perhaps with a comma behind its last
    literal. -/
def SpellsOpen (tokens : List (Spanned Token)) (calls : List Call) (c : OpenCall) : Prop :=
  tokens.map Spanned.placed = calls.flatMap Call.layout ++ c.layout ∨
    c.operands ≠ [] ∧
      tokens.map Spanned.placed = calls.flatMap Call.layout ++ (c.layout ++ [(.comma, none)])

/-- By how much a token changes the number of open parentheses. -/
def Token.opens : Token → Int
  | leftParen => 1
  | rightParen => -1
  | operation _ | number .. | comma => 0

/-- Parentheses that are opened less those that are closed. -/
def surplus : List (Token × Option Span) → Int
  | [] => 0
  | (token, _) :: rest => token.opens + surplus rest

theorem surplus_append (l m : List (Token × Option Span)) :
    surplus (l ++ m) = surplus l + surplus m := by
  induction l with
  | nil => simp [surplus]
  | cons p l ih => rw [List.cons_append, surplus, surplus, ih, Int.add_assoc]

theorem Literal.surplus_layout (ls : List Literal) : surplus (Literal.layout ls) = 0 := by
  induction ls with
  | nil => rfl
  | cons l ls ih =>
    cases ls with
    | nil => rfl
    | cons m ls =>
      simpa [Literal.layout, surplus, Literal.placed, Literal.token, Token.opens] using ih

theorem OpenCall.surplus_layout (c : OpenCall) : surplus c.layout = 1 := by
  simp [OpenCall.layout, surplus, Token.opens, Literal.surplus_layout]

theorem surplus_layout_calls (calls : List Call) : surplus (calls.flatMap Call.layout) = 0 := by
  induction calls with
  | nil => rfl
  | cons c calls ih =>
    obtain ⟨op, span, arguments⟩ := c
    rw [List.flatMap_cons, surplus_append, ih, Int.add_zero]
    cases arguments with
    | none => rfl
    | some a =>
      simp [Call.layout, Arguments.layout, surplus, surplus_append, Token.opens,
        Literal.surplus_layout]

/-- Tokens with an open list do not spell complete calls: a parenthesis is not closed. -/
theorem SpellsOpen.not_spells {tokens : List (Spanned Token)} {calls calls' : List Call}
    {c : OpenCall} (h : SpellsOpen tokens calls c) : ¬ Spells tokens calls' := by
  intro hspells
  have hclosed : surplus (tokens.map Spanned.placed) = 0 := by
    rw [hspells]
    exact surplus_layout_calls calls'
  have hopen : surplus (tokens.map Spanned.placed) = 1 := by
    rcases h with h | ⟨-, h⟩ <;>
      rw [h, surplus_append, surplus_layout_calls]
    · rw [c.surplus_layout, Int.zero_add]
    · rw [surplus_append, c.surplus_layout]
      rfl
  omega

namespace SyntaxError

/-- The tokens before the error spell the calls that are kept, and these stop at the token where the
    error is. -/
structure BehindCalls (e : SyntaxError) (before : List (Spanned Token))
    (found : Option (Spanned Token)) : Prop where
  spells : Spells before e.calls
  incomplete : e.incomplete = none
  stop : ∃ x, found = some x ∧ e.stop = x.span
  diagnostic : ∀ source, e.diagnostic source =
    .ofSource source (.grammar e.fault.value) e.fault.span

/-- The tokens before the error spell the calls that are kept and then an open call.  The calls stop
    at its name.  If the operation takes no operands, the open call is dropped and its parenthesis
    is what is wrong.  Else it is kept, and its literals are found if no two tokens have the same
    span. -/
structure InList (e : SyntaxError) (tokens before : List (Spanned Token)) (c : OpenCall) :
    Prop where
  spells : SpellsOpen before e.calls c
  stop : e.stop = c.span
  dropped : c.operation.operands = [] → e.incomplete = none ∧
    ∀ source, (e.diagnostic source).kind = .parse ∧
      (e.diagnostic source).text = "no parentheses for zero-operand operations" ∧
      (e.diagnostic source).span = c.opening
  kept : c.operation.operands ≠ [] →
    (∃ operands, e.incomplete = some { c with operands := operands }) ∧
    ∀ source, e.diagnostic source = .ofSource source (.grammar e.fault.value) e.fault.span
  literals : c.operation.operands ≠ [] → (tokens.map (·.span)).Nodup → e.incomplete = some c

variable {e : SyntaxError} {tokens before after : List (Spanned Token)} {complete : List Call}
  {place : Break} {ending : Span}

theorem behindCalls (h : State.Reaches .between before complete place.state)
    (hcalls : e.calls = complete ++ place.state.finished) (hfound : place.found = after.head?)
    (hafter : after ≠ []) (hnone : place.state.openCall? = none)
    (he : e = place.recovered e.calls tokens ending) : e.BehindCalls before after.head? := by
  obtain ⟨-, hlayout⟩ := h.layout trivial
  obtain ⟨x, after, rfl⟩ := List.exists_cons_of_ne_nil hafter
  have hneedless : e.needless = none := by
    rw [he]
    simp [Break.recovered, Break.error, Break.needless, hnone]
  constructor
  · rwa [State.pending_of_openCall_eq_none hnone, ← List.flatMap_append, ← hcalls] at hlayout
  · rw [he]
    simp [Break.recovered, Break.incomplete, hnone]
  · refine ⟨x, rfl, ?_⟩
    rw [he]
    simp [Break.recovered, Break.error, Break.stop, hnone, Break.span, hfound]
  · intro source
    rw [diagnostic, hneedless]

theorem inList (h : State.Reaches .between before complete place.state)
    (hrun : State.between.run tokens = (e.calls, some place))
    (hcalls : e.calls = complete ++ place.state.finished) {c : OpenCall}
    (hopen : place.state.openCall? = some c) (he : e = place.recovered e.calls tokens ending) :
    e.InList tokens before c := by
  obtain ⟨hsound, hlayout⟩ := h.layout trivial
  rw [State.finished_of_openCall hopen, List.append_nil] at hcalls
  have hneedless : e.needless = if c.operation.operands.isEmpty then some c.opening else none := by
    rw [he, Break.recovered, Break.error, Break.needless_of_openCall hopen]
    cases c.operation.operands.isEmpty <;> rfl
  have hincomplete : e.incomplete = if c.operation.operands.isEmpty then none
      else some { c with operands := Grammar.literalsAt c.opening tokens } := by
    rw [he, Break.recovered, Break.error, Break.incomplete_of_openCall hopen]
    cases c.operation.operands.isEmpty <;> rfl
  constructor
  · rw [hcalls]
    rcases State.pending_of_openCall hsound hopen with hpending | ⟨hne, hpending⟩
    · exact .inl (hpending ▸ hlayout)
    · exact .inr ⟨hne, hpending ▸ hlayout⟩
  · rw [he]
    simp [Break.recovered, Break.error, Break.stop, hopen]
  · intro hempty
    simp only [hempty, List.isEmpty_nil, if_true] at hneedless hincomplete
    refine ⟨hincomplete, fun source => ?_⟩
    rw [diagnostic, hneedless]
    exact ⟨rfl, rfl, rfl⟩
  · intro hne
    rw [if_neg (by simpa using hne)] at hneedless hincomplete
    refine ⟨⟨_, hincomplete⟩, fun source => ?_⟩
    rw [diagnostic, hneedless]
  · intro hne hspans
    rw [if_neg (by simpa using hne), literalsAt_eq hrun hopen hspans] at hincomplete
    exact hincomplete

end SyntaxError

/-- **Recovery accounts for every token before the error.** The tokens before the break spell the
    calls that are kept, or they spell these and then an open call; and no tokens are of both kinds.
    Behind complete calls there is always a token at the break, for there the input may end.  The
    literals of the open call are looked for by a span, and no two tokens of a source have the same
    one. -/
theorem recovery_accounts_for_tokens {length : Nat} {tokens : List (Spanned Token)}
    {e : SyntaxError} (h : parse length tokens = .error e) :
    (∃ k, BreaksAt (tokens.map (·.value)) k ∧
      (e.BehindCalls (tokens.take k) tokens[k]? ∨ ∃ c, e.InList tokens (tokens.take k) c) ∧
      ¬ ((∃ calls, Spells (tokens.take k) calls) ∧
        ∃ calls c, SpellsOpen (tokens.take k) calls c)) ∧
    ∀ source, tokenize source = .ok tokens → (tokens.map (·.span)).Nodup := by
  obtain ⟨before, after, complete, place, rfl, hreaches, hrun, hcalls, hfound, hafter, he,
    hbreak⟩ := exists_break_of_parse_eq_error h
  refine ⟨⟨before.length, hbreak, ?_, ?_⟩, fun source => nodup_spans⟩
  · rw [List.take_left, getElem?_length_append]
    cases hopen : place.state.openCall? with
    | none =>
      have hne : after ≠ [] := fun hnil => hafter hnil hopen
      exact .inl (SyntaxError.behindCalls hreaches hcalls hfound hne hopen he)
    | some c => exact .inr ⟨c, SyntaxError.inList hreaches hrun hcalls hopen he⟩
  · rintro ⟨⟨calls, hspells⟩, calls', c, hspellsOpen⟩
    exact hspellsOpen.not_spells hspells

/-- An open list that ends with a comma, behind a complete call. -/
theorem recovery_accounts_for_tokens_open_list :
    ∃ tokens e, tokenize "DW_OP_lit1 DW_OP_bregx(7," = .ok tokens ∧
      parse 25 tokens = .error e ∧
      ∃ k c, BreaksAt (tokens.map (·.value)) k ∧ e.InList tokens (tokens.take k) c ∧
        e.incomplete = some c ∧ c.operands = [⟨.decimal, .ofNat 7, ⟨23, 24⟩⟩] := by
  let tokens : List (Spanned Token) :=
    [⟨.operation ⟨"DW_OP_lit1", 0x31, []⟩, ⟨0, 10⟩⟩,
      ⟨.operation ⟨"DW_OP_bregx", 0x92, [.uleb128, .sleb128]⟩, ⟨11, 22⟩⟩, ⟨.leftParen, ⟨22, 23⟩⟩,
      ⟨.number .decimal (.ofNat 7), ⟨23, 24⟩⟩, ⟨.comma, ⟨24, 25⟩⟩]
  have htokens : tokenize "DW_OP_lit1 DW_OP_bregx(7," = .ok tokens := by decide +kernel
  let e : SyntaxError :=
    ⟨[⟨⟨"DW_OP_lit1", 0x31, []⟩, ⟨0, 10⟩, none⟩], ⟨11, 22⟩,
      some ⟨⟨"DW_OP_bregx", 0x92, [.uleb128, .sleb128]⟩, ⟨11, 22⟩, ⟨22, 23⟩,
        [⟨.decimal, .ofNat 7, ⟨23, 24⟩⟩]⟩, none, ⟨⟨[.literal], none⟩, ⟨25, 25⟩⟩⟩
  have hparse : parse 25 tokens = .error e := by decide +kernel
  obtain ⟨⟨k, hbreak, hcases, -⟩, hspans⟩ := recovery_accounts_for_tokens hparse
  refine ⟨tokens, e, htokens, hparse, ?_⟩
  rcases hcases with hbehind | ⟨c, hlist⟩
  · cases hbehind.incomplete
  · by_cases hempty : c.operation.operands = []
    · cases (hlist.dropped hempty).1
    · have hkept := hlist.literals hempty (hspans _ htokens)
      refine ⟨k, c, hbreak, hlist, hkept, ?_⟩
      rw [← Option.some.inj hkept]

/-- Where a parenthesis shares its span with the name before it, the literals are not found. -/
example : (parse 0 [⟨.operation ⟨"DW_OP_const1u", 0x08, [.unsigned .bits8]⟩, ⟨0, 0⟩⟩,
      ⟨.leftParen, ⟨0, 0⟩⟩, ⟨.number .decimal (.ofNat 1), ⟨0, 0⟩⟩]) =
    .error ⟨[], ⟨0, 0⟩, some ⟨⟨"DW_OP_const1u", 0x08, [.unsigned .bits8]⟩, ⟨0, 0⟩, ⟨0, 0⟩, []⟩,
      none, ⟨⟨[.rightParen, .comma], none⟩, ⟨0, 0⟩⟩⟩ := by
  decide +kernel

end DwarfExpr
