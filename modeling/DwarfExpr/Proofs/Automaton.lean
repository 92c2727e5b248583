/-
  DwarfExpr/Proofs/Automaton.lean
  ===============================
  **Reading token by token.** No rule of the grammar nests, so one token at a time and a small state
  are enough to read an expression.  `State.next` says which token may follow and where it leads,
  `State.expected` lists what may follow, and `State.run` goes over all tokens.  It stops at the
  first token that may not follow; the calls complete by then are kept, and so is a call whose list
  was begun and not closed.

  `State.Reaches` is reading up to some token, and `State.run` is reading as far as possible
  (`State.exists_reaches_of_run_eq_none`, `State.exists_reaches_of_run_eq_some`).
-/
import DwarfExpr.Grammar
import Mathlib.Tactic.Common

namespace DwarfExpr

namespace OpenCall

def push (c : OpenCall) (l : Literal) : OpenCall := { c with operands := c.operands ++ [l] }

/-- The list with more literals behind it. -/
def extend (c : OpenCall) (more : List Literal) : OpenCall :=
  { c with operands := c.operands ++ more }

def close (c : OpenCall) (closing : Span) : Call :=
  ⟨c.operation, c.span, some ⟨c.opening, c.operands, closing⟩⟩

theorem extend_nil (c : OpenCall) : c.extend [] = c := by simp [extend]

theorem extend_push (c : OpenCall) (l : Literal) (more : List Literal) :
    (c.push l).extend more = c.extend (l :: more) := by
  simp [extend, push]

end OpenCall

/-- What a token is called in a message. -/
def Token.expectation : Token → Expected
  | operation _ => .operation
  | number .. => .literal
  | leftParen => .leftParen
  | rightParen => .rightParen
  | comma => .comma

/-! ### States -/

/-- What was read last. -/
inductive State where
  /-- Nothing, or a closed list. -/
  | between
  /-- The name of an operation. -/
  | named (operation : Operation) (span : Span)
  /-- A left parenthesis. -/
  | opened (call : OpenCall)
  /-- A literal of a list. -/
  | valued (call : OpenCall)
  /-- A comma of a list. -/
  | separated (call : OpenCall)
  deriving DecidableEq, Repr

namespace State

/-- What may follow, in the order in which messages name it. -/
def expected : State → List Expected
  | between => [.endOfInput, .operation]
  | named .. => [.leftParen, .endOfInput, .operation]
  | opened _ => [.rightParen, .literal]
  | valued _ => [.rightParen, .comma]
  | separated _ => [.literal]

/-- The call that is complete if reading ends here: a name without a list. -/
def finished : State → List Call
  | named operation span => [⟨operation, span, none⟩]
  | between | opened _ | valued _ | separated _ => []

/-- The call whose list is being read. -/
def openCall? : State → Option OpenCall
  | between | named .. => none
  | opened call | valued call | separated call => some call

/-- The calls that a token completes and the state that it leads to, if it may follow. -/
def next (s : State) (t : Spanned Token) : Option (List Call × State) :=
  match s, t.value with
  | between, .operation op => some ([], named op t.span)
  | named op span, .operation op' => some ([⟨op, span, none⟩], named op' t.span)
  | named op span, .leftParen => some ([], opened ⟨op, span, t.span, []⟩)
  | opened call, .number radix value => some ([], valued (call.push ⟨radix, value, t.span⟩))
  | opened call, .rightParen => some ([call.close t.span], between)
  | valued call, .comma => some ([], separated call)
  | valued call, .rightParen => some ([call.close t.span], between)
  | separated call, .number radix value => some ([], valued (call.push ⟨radix, value, t.span⟩))
  | _, _ => none

end State

/-- Where reading broke off: the state, and the token that may not follow it, or none at the end of
    the input. -/
structure Break where
  state : State
  found : Option (Spanned Token)
  deriving DecidableEq, Repr

/-- Reads tokens from a state on: the complete calls, and where reading broke off, if it did. -/
def State.run (s : State) : List (Spanned Token) → List Call × Option Break
  | [] => (s.finished, if s.expected.contains .endOfInput then none else some ⟨s, none⟩)
  | t :: ts =>
    match s.next t with
    | some (complete, s') =>
      let (calls, broken) := s'.run ts
      (complete ++ calls, broken)
    | none => (s.finished, some ⟨s, some t⟩)

namespace Break

/-- The span of the token that may not follow, or of the end of the input. -/
def span (ending : Span) (b : Break) : Span :=
  match b.found with
  | some token => token.span
  | none => ending

/-- What the grammar has to say. -/
def syntaxFault (ending : Span) (b : Break) : Spanned SyntaxFault :=
  ⟨⟨b.state.expected, b.found.map (·.value)⟩, b.span ending⟩

/-- Where the complete calls stop: at the name of a call whose list is open, else at the error. -/
def stop (ending : Span) (b : Break) : Span :=
  match b.state.openCall? with
  | some call => call.span
  | none => b.span ending

/-- A call with an open list although its operation takes no operands. -/
def needless (b : Break) : Option OpenCall :=
  b.state.openCall?.filter (·.operation.operands.isEmpty)

/-- A call with an open list whose operation takes operands. -/
def incomplete (b : Break) : Option OpenCall :=
  b.state.openCall?.filter (!·.operation.operands.isEmpty)

/-- What is left of an expression that breaks off behind complete calls. -/
def error (calls : List Call) (ending : Span) (b : Break) : SyntaxError :=
  ⟨calls, b.stop ending, b.incomplete, b.needless.map (·.opening), b.syntaxFault ending⟩

theorem needless_of_openCall {b : Break} {c : OpenCall} (h : b.state.openCall? = some c) :
    b.needless = if c.operation.operands.isEmpty then some c else none := by
  rw [needless, h, Option.filter]

theorem incomplete_of_openCall {b : Break} {c : OpenCall} (h : b.state.openCall? = some c) :
    b.incomplete = if c.operation.operands.isEmpty then none else some c := by
  rw [incomplete, h, Option.filter]
  cases c.operation.operands.isEmpty <;> rfl

end Break

/-! ### Reading up to a token -/

namespace State

/-- What a token does to a state: it names the next call, opens a list, or goes on with it. -/
inductive Move : State → Spanned Token → List Call → State → Prop
  | name {s : State} {op : Operation} {place : Span} (h : s.openCall? = none) :
      Move s ⟨.operation op, place⟩ s.finished (named op place)
  | opening {op : Operation} {span place : Span} :
      Move (named op span) ⟨.leftParen, place⟩ [] (opened ⟨op, span, place, []⟩)
  | literal {s s' : State} {c : OpenCall} {radix : Radix} {value : Value} {place : Span}
      (h : s.openCall? = some c) (h' : s'.openCall? = some (c.push ⟨radix, value, place⟩)) :
      Move s ⟨.number radix value, place⟩ [] s'
  | comma {s s' : State} {c : OpenCall} {place : Span} (h : s.openCall? = some c)
      (h' : s'.openCall? = some c) : Move s ⟨.comma, place⟩ [] s'
  | closing {s : State} {c : OpenCall} {place : Span} (h : s.openCall? = some c) :
      Move s ⟨.rightParen, place⟩ [c.close place] between

theorem move_of_next {s s' : State} {x : Spanned Token} {complete : List Call}
    (h : s.next x = some (complete, s')) : Move s x complete s' := by
  obtain ⟨token, place⟩ := x
  cases s <;> cases token <;>
    simp only [next, reduceCtorEq, Option.some.injEq, Prod.mk.injEq] at h
  case between.operation op =>
    obtain ⟨rfl, rfl⟩ := h
    exact .name rfl
  case named.operation op span op' =>
    obtain ⟨rfl, rfl⟩ := h
    exact .name rfl
  case named.leftParen op span =>
    obtain ⟨rfl, rfl⟩ := h
    exact .opening
  case opened.number c radix value =>
    obtain ⟨rfl, rfl⟩ := h
    exact .literal rfl rfl
  case opened.rightParen c =>
    obtain ⟨rfl, rfl⟩ := h
    exact .closing rfl
  case valued.rightParen c =>
    obtain ⟨rfl, rfl⟩ := h
    exact .closing rfl
  case valued.comma c =>
    obtain ⟨rfl, rfl⟩ := h
    exact .comma rfl rfl
  case separated.number c radix value =>
    obtain ⟨rfl, rfl⟩ := h
    exact .literal rfl rfl

theorem run_of_next {s s' : State} {t : Spanned Token} {ts : List (Spanned Token)}
    {complete calls : List Call} {broken : Option Break} (hnext : s.next t = some (complete, s'))
    (hrun : s'.run ts = (calls, broken)) : s.run (t :: ts) = (complete ++ calls, broken) := by
  rw [run, hnext]
  simp [hrun]

/-- Reading the tokens leads from one state to another and completes calls on the way. -/
inductive Reaches : State → List (Spanned Token) → List Call → State → Prop
  | refl (s : State) : Reaches s [] [] s
  | next {s s' s'' : State} {x : Spanned Token} {xs : List (Spanned Token)}
      {complete calls : List Call} (hx : s.next x = some (complete, s'))
      (hxs : Reaches s' xs calls s'') : Reaches s (x :: xs) (complete ++ calls) s''

/-- A token that completes no call. -/
theorem Reaches.quiet {s s' s'' : State} {x : Spanned Token} {xs : List (Spanned Token)}
    {calls : List Call} (hx : s.next x = some ([], s')) (hxs : Reaches s' xs calls s'') :
    Reaches s (x :: xs) calls s'' :=
  .next hx hxs

theorem Reaches.unique {s s₁ s₂ : State} {xs : List (Spanned Token)} {calls calls' : List Call}
    (h : Reaches s xs calls s₁) (h' : Reaches s xs calls' s₂) : s₁ = s₂ := by
  induction h generalizing calls' with
  | refl s =>
    cases h'
    rfl
  | next hx hxs ih =>
    cases h' with
    | next hx' hxs' =>
      obtain ⟨-, rfl⟩ : _ ∧ _ := by simpa [hx] using hx'
      exact ih hxs'

theorem Reaches.append {s s' s'' : State} {xs ys : List (Spanned Token)}
    {calls calls' : List Call} (h : Reaches s xs calls s') (h' : Reaches s' ys calls' s'') :
    Reaches s (xs ++ ys) (calls ++ calls') s'' := by
  induction h with
  | refl s => exact h'
  | next hx hxs ih =>
    rw [List.append_assoc]
    exact .next hx (ih h')

theorem Reaches.of_append {s s'' : State} {xs ys : List (Spanned Token)} {calls : List Call}
    (h : Reaches s (xs ++ ys) calls s'') :
    ∃ complete rest s', Reaches s xs complete s' ∧ Reaches s' ys rest s'' := by
  induction xs generalizing s calls with
  | nil => exact ⟨[], calls, s, .refl s, h⟩
  | cons x xs ih =>
    cases h with
    | next hx hxs =>
      obtain ⟨complete, rest, s', hbefore, hafter⟩ := ih hxs
      exact ⟨_, rest, s', .next hx hbefore, hafter⟩

theorem next_eq_none_iff {s : State} {x : Spanned Token} :
    s.next x = none ↔ x.value.expectation ∉ s.expected := by
  obtain ⟨token, place⟩ := x
  cases s <;> cases token <;> simp [next, expected, Token.expectation]

theorem finished_of_openCall {s : State} {c : OpenCall} (h : s.openCall? = some c) :
    s.finished = [] := by
  cases s with
  | named op span => simp [openCall?] at h
  | _ => rfl

theorem Reaches.run_append {s s' : State} {xs : List (Spanned Token)} {calls : List Call}
    (h : Reaches s xs calls s') (rest : List (Spanned Token)) :
    s.run (xs ++ rest) = (calls ++ (s'.run rest).1, (s'.run rest).2) := by
  induction h with
  | refl s => rfl
  | next hx hxs ih => rw [List.cons_append, run_of_next hx ih, List.append_assoc]

/-- The input may end exactly where no list is open. -/
theorem endOfInput_mem_expected_iff {s : State} :
    Expected.endOfInput ∈ s.expected ↔ s.openCall? = none := by
  cases s <;> simp [expected, openCall?]

/-- **Reading goes as far as it can**: to the end of the tokens, or to one that may not follow. -/
theorem exists_reaches (s : State) (tokens : List (Spanned Token)) :
    ∃ before after complete s', tokens = before ++ after ∧ Reaches s before complete s' ∧
      ∀ x ∈ after.head?, s'.next x = none := by
  induction tokens generalizing s with
  | nil => exact ⟨[], [], [], s, rfl, .refl s, by simp⟩
  | cons x tokens ih =>
    cases hnext : s.next x with
    | none => exact ⟨[], x :: tokens, [], s, rfl, .refl s, by simpa using hnext⟩
    | some step =>
      obtain ⟨complete, s'⟩ := step
      obtain ⟨before, after, calls, s'', rfl, hreaches, hstuck⟩ := ih s'
      exact ⟨x :: before, after, complete ++ calls, s'', rfl, .next hnext hreaches, hstuck⟩

/-- What a run gives is told by where it gets stuck. -/
theorem run_of_stuck {s : State} {after : List (Spanned Token)}
    (h : ∀ x ∈ after.head?, s.next x = none) :
    s.run after = (s.finished,
      if after = [] ∧ s.openCall? = none then none else some ⟨s, after.head?⟩) := by
  cases after with
  | nil => simp [run, endOfInput_mem_expected_iff]
  | cons x after =>
    have hnext : s.next x = none := h x rfl
    simp [run, hnext]

/-- A run to the end of the tokens completes the calls on its way and a name at the end. -/
theorem exists_reaches_of_run_eq_none {s : State} {tokens : List (Spanned Token)}
    {calls : List Call} (h : s.run tokens = (calls, none)) :
    ∃ complete s', Reaches s tokens complete s' ∧ s'.openCall? = none ∧
      calls = complete ++ s'.finished := by
  obtain ⟨before, after, complete, s', rfl, hreaches, hstuck⟩ := exists_reaches s tokens
  rw [hreaches.run_append, run_of_stuck hstuck, Prod.mk.injEq] at h
  obtain ⟨rfl, hnone⟩ := h
  obtain ⟨rfl, hclosed⟩ : after = [] ∧ s'.openCall? = none := by
    by_contra hnot
    simp [if_neg hnot] at hnone
  rw [List.append_nil]
  exact ⟨complete, s', hreaches, hclosed, rfl⟩

/-- A run that breaks off reads the tokens up to the one that may not follow, or all of them. -/
theorem exists_reaches_of_run_eq_some {s : State} {tokens : List (Spanned Token)}
    {calls : List Call} {place : Break} (h : s.run tokens = (calls, some place)) :
    ∃ before after complete, tokens = before ++ after ∧
      Reaches s before complete place.state ∧ calls = complete ++ place.state.finished ∧
      place.found = after.head? ∧ (∀ x ∈ after.head?, place.state.next x = none) ∧
      (after = [] → place.state.openCall? ≠ none) := by
  obtain ⟨before, after, complete, s', rfl, hreaches, hstuck⟩ := exists_reaches s tokens
  rw [hreaches.run_append, run_of_stuck hstuck, Prod.mk.injEq] at h
  obtain ⟨rfl, hsome⟩ := h
  by_cases hdone : after = [] ∧ s'.openCall? = none
  · simp [if_pos hdone] at hsome
  · rw [if_neg hdone, Option.some.injEq] at hsome
    subst hsome
    exact ⟨before, after, complete, rfl, hreaches, rfl, rfl, hstuck, fun hnil hclosed =>
      hdone ⟨hnil, hclosed⟩⟩

end State

end DwarfExpr
