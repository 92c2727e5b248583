/-
  DwarfExpr/Proofs/Recovery.lean
  ==============================
  **What is left of an expression that breaks off.** An expression fails where the automaton breaks
  off, and its error says what the automaton says (`parse_of_run_eq_none`, `parse_of_run_eq_some`).
  Reading the tokens again, recovery finds the calls that the automaton has completed, and the call
  whose list it is in.

  Only the literals of that list are looked for by the place of a token.  They are the right ones if
  no other token stands there (`literalsAt_eq`), and in a source none does (`nodup_spans`).
-/
import DwarfExpr.Proofs.Parser
import Mathlib.Data.List.Nodup

namespace DwarfExpr

open Grammar

/-! ### The error -/

theorem Grammar.Blocks.fault_eq {s : State} {o : Obstacle} (h : Blocks s o) (ending : Span) :
    o.fault ending = Break.syntaxFault ending ⟨s, o.rest.head?⟩ := by
  obtain ⟨rest, expected⟩ := o
  have hsorted : Expected.sorted expected = s.expected := by
    rw [Expected.sorted_eq h.expected, s.sorted_expected]
  cases rest <;> simp [Obstacle.fault, Break.syntaxFault, Break.span, hsorted]

theorem run_of_blocks {tokens before : List (Spanned Token)} {complete : List Call} {s : State}
    {o : Obstacle} (hsplit : tokens = before ++ o.rest)
    (hreaches : State.Reaches .between before complete s) (h : Blocks s o) :
    State.between.run tokens = (complete ++ s.finished,
      if o.rest = [] ∧ s.openCall? = none then none else some ⟨s, o.rest.head?⟩) := by
  rw [hsplit, hreaches.run_append, State.run_of_stuck h.stuck]

/-! ### Recovery -/

/-- What recovery leaves of an expression that breaks off behind complete calls: all that the
    automaton has, but for the literals of an open list, which are looked for. -/
def Break.recovered (calls : List Call) (tokens : List (Spanned Token)) (ending : Span)
    (b : Break) : SyntaxError :=
  { b.error calls ending with
    incomplete := b.incomplete.map fun c =>
      { c with operands := literalsAt c.opening tokens } }

/-- Between two calls, the last one has a list. -/
theorem State.Reaches.arguments_of_between {s s' : State} {xs : List (Spanned Token)}
    {calls : List Call} (h : Reaches s xs calls s') (hs' : s' = .between) (hxs : xs ≠ []) :
    ∃ c, calls.getLast? = some c ∧ c.arguments.isSome := by
  induction h with
  | refl s => exact absurd rfl hxs
  | @next s mid s'' x xs complete calls hx hmid ih =>
    by_cases hnil : xs = []
    · subst hnil
      cases hmid
      cases State.move_of_next hx with
      | closing => exact ⟨_, rfl, rfl⟩
      | name => cases hs'
      | opening => cases hs'
      | literal _ hopen => simp [hs', openCall?] at hopen
      | comma _ hopen => simp [hs', openCall?] at hopen
    · obtain ⟨c, hlast, hlist⟩ := ih hs' hnil
      exact ⟨c, by simp [List.getLast?_append, hlast], hlist⟩

/-- Behind complete calls, recovery stops at the token that may not follow. -/
theorem recover_of_closed {eos : Span} {tokens before left : List (Spanned Token)}
    {t : Spanned Token} {fault : Spanned SyntaxFault} {complete : List Call} {s : State}
    {o : Obstacle}
    (h : call.repeated tokens = .success (complete ++ s.finished) (t :: left) (some o))
    (hreaches : State.Reaches .between before complete s) (hclosed : s.openCall? = none)
    (hstuck : s.next t = none) :
    recover eos tokens fault = ⟨complete ++ s.finished, t.span, none, none, fault⟩ := by
  obtain ⟨token, place⟩ := t
  simp only [recover, expressionPrefix_parse h, Except.toOption, Option.getD_some, List.head?_cons]
  cases token with
  | leftParen =>
    -- a parenthesis may follow a name, so the last call has a list
    cases s with
    | between =>
      by_cases hnil : before = []
      · subst hnil
        cases hreaches
        rfl
      · obtain ⟨⟨op, span, arguments⟩, hlast, hlist⟩ := hreaches.arguments_of_between rfl hnil
        obtain ⟨a, rfl⟩ := Option.isSome_iff_exists.1 hlist
        simp [State.finished, hlast]
    | named op span => simp [State.next] at hstuck
    | _ => simp [State.openCall?] at hclosed
  | _ => simp

/-- A call whose list breaks off is taken off the complete calls. -/
theorem recover_of_broken {eos : Span} {tokens list : List (Spanned Token)}
    {fault : Spanned SyntaxFault} {complete : List Call} {c : OpenCall} {o : Obstacle}
    (h : call.repeated tokens =
      .success (complete ++ [c.bare]) (⟨.leftParen, c.opening⟩ :: list) (some o)) :
    recover eos tokens fault =
      if c.operation.operands.isEmpty then ⟨complete, c.span, none, some c.opening, fault⟩
      else
        ⟨complete, c.span, some { c with operands := literalsAt c.opening tokens }, none,
          fault⟩ := by
  simp [recover, expressionPrefix_parse h, Except.toOption, OpenCall.bare]

theorem dropWhile_span_ne {front list : List (Spanned Token)} {x : Spanned Token}
    (h : ((front ++ x :: list).map (·.span)).Nodup) :
    (front ++ x :: list).dropWhile (·.span ≠ x.span) = x :: list := by
  have hfront : ∀ y ∈ front, decide (y.span ≠ x.span) = true := by
    intro y hy
    rw [List.map_append, List.nodup_append] at h
    exact decide_eq_true (h.2.2 y.span (List.mem_map_of_mem hy) x.span (by simp))
  rw [List.dropWhile_append_of_pos hfront, List.dropWhile_cons_of_neg (by simp)]

/-! ### The parser and the automaton -/

section Parse

variable {tokens : List (Spanned Token)} {calls : List Call}

/-- What the parser makes of tokens, by what as many calls as there are leave. -/
theorem parse_of_leaves {left : List (Spanned Token)} {o : Obstacle} (length : Nat)
    (hleaves : Leaves tokens calls left o)
    (h : call.repeated tokens = .success calls left (some o)) :
    State.between.run tokens = (calls, none) ∧ parse length tokens = .ok calls ∨
      ∃ place complete, State.between.run tokens = (complete, some place) ∧
        parse length tokens = .error (place.recovered complete tokens (endOfInput length tokens)) ∧
        ∀ c, place.state.openCall? = some c → (tokens.map (·.span)).Nodup →
          literalsAt c.opening tokens = c.operands := by
  cases hleaves with
  | @closed before _ complete s es hsplit hreaches hclosed hblocks =>
    have hrun := run_of_blocks hsplit hreaches hblocks
    cases left with
    | nil =>
      left
      rw [if_pos ⟨rfl, hclosed⟩] at hrun
      exact ⟨hrun, by rw [parse, expression_of_nil h]⟩
    | cons t left =>
      right
      rw [if_neg (by simp)] at hrun
      refine ⟨_, _, hrun, ?_, by simp [hclosed]⟩
      have hstuck : s.next t = none := hblocks.stuck t rfl
      rw [parse, expression_of_cons h, Obstacle.further_same]
      simp only
      rw [hblocks.fault_eq, recover_of_closed h hreaches hclosed hstuck]
      simp [Break.recovered, Break.error, Break.stop, Break.span, Break.incomplete,
        Break.needless, hclosed]
  | @broken front list before complete s c _ hparen hliterals hfar hsplit hreaches hopen hblocks =>
    right
    have hrun := run_of_blocks hsplit hreaches hblocks
    rw [State.finished_of_openCall hopen, List.append_nil, if_neg (by simp [hopen])] at hrun
    refine ⟨_, _, hrun, ?_, ?_⟩
    · rw [parse, expression_of_cons h, Obstacle.further_of_lt (Nat.lt_succ_of_le hfar)]
      simp only
      rw [hblocks.fault_eq, recover_of_broken h]
      have hplace : (Break.mk s o.rest.head?).state.openCall? = some c := hopen
      simp only [Break.recovered, Break.error, Break.stop, hopen,
        Break.needless_of_openCall hplace, Break.incomplete_of_openCall hplace]
      cases c.operation.operands.isEmpty <;> rfl
    · intro c' hc' hspans
      obtain rfl : c = c' := by simpa [hopen] using hc'
      obtain ⟨left, met, hliterals⟩ := hliterals
      rw [hparen] at hspans
      refine literalsAt_of_literals hliterals ?_
      rw [hparen]
      exact dropWhile_span_ne hspans

theorem parse_of_run_eq_none (length : Nat) (h : State.between.run tokens = (calls, none)) :
    parse length tokens = .ok calls := by
  obtain ⟨_, _, _, hleaves, hcalls⟩ := exists_leaves tokens
  rcases parse_of_leaves length hleaves hcalls with ⟨hrun, hparse⟩ | ⟨place, complete, hrun, -⟩
  · rw [h, Prod.mk.injEq] at hrun
    rw [hparse, hrun.1]
  · rw [h] at hrun
    simp at hrun

/-- **Where the automaton breaks off, the expression fails**, and recovery keeps what the automaton
    has; it looks for the literals of an open list once more, and finds them if no two tokens have
    the same span. -/
theorem recovers_of_run_eq_some {place : Break} (length : Nat)
    (h : State.between.run tokens = (calls, some place)) :
    parse length tokens = .error (place.recovered calls tokens (endOfInput length tokens)) ∧
      ∀ c, place.state.openCall? = some c → (tokens.map (·.span)).Nodup →
        literalsAt c.opening tokens = c.operands := by
  obtain ⟨_, _, _, hleaves, hcalls⟩ := exists_leaves tokens
  rcases parse_of_leaves length hleaves hcalls with ⟨hrun, -⟩ | ⟨place', complete, hrun, hparse⟩
  · rw [h] at hrun
    simp at hrun
  · obtain ⟨rfl, rfl⟩ : calls = complete ∧ place = place' := by simpa [h] using hrun
    exact hparse

theorem parse_of_run_eq_some {place : Break} (length : Nat)
    (h : State.between.run tokens = (calls, some place)) :
    parse length tokens = .error (place.recovered calls tokens (endOfInput length tokens)) :=
  (recovers_of_run_eq_some length h).1

theorem literalsAt_eq {place : Break} {c : OpenCall}
    (h : State.between.run tokens = (calls, some place)) (hopen : place.state.openCall? = some c)
    (hspans : (tokens.map (·.span)).Nodup) : literalsAt c.opening tokens = c.operands :=
  (recovers_of_run_eq_some 0 h).2 c hopen hspans

theorem recovered_of_nodup {place : Break} {ending : Span}
    (h : State.between.run tokens = (calls, some place)) (hspans : (tokens.map (·.span)).Nodup) :
    place.recovered calls tokens ending = place.error calls ending := by
  have hsame : (place.incomplete.map fun c =>
      { c with operands := literalsAt c.opening tokens }) = place.incomplete := by
    cases hopen : place.state.openCall? with
    | none => simp [Break.incomplete, hopen]
    | some c =>
      rw [Break.incomplete_of_openCall hopen]
      cases c.operation.operands.isEmpty with
      | true => rfl
      | false => simp [literalsAt_eq h hopen hspans]
  rw [Break.recovered, hsame]
  rfl

/-- **The parser accepts what the automaton accepts.** -/
theorem parse_eq_ok_iff {length : Nat} :
    parse length tokens = .ok calls ↔ State.between.run tokens = (calls, none) := by
  constructor
  · intro h
    cases hrun : State.between.run tokens with
    | mk calls' broken =>
      cases broken with
      | none =>
        rw [parse_of_run_eq_none length hrun, Except.ok.injEq] at h
        rw [h]
      | some place =>
        rw [parse_of_run_eq_some length hrun] at h
        cases h
  · exact parse_of_run_eq_none length

/-- **The parser fails where the automaton breaks off.** -/
theorem parse_eq_error_iff {length : Nat} {e : SyntaxError} :
    parse length tokens = .error e ↔
      ∃ place, State.between.run tokens = (e.calls, some place) ∧
        e = place.recovered e.calls tokens (endOfInput length tokens) := by
  constructor
  · intro h
    cases hrun : State.between.run tokens with
    | mk calls broken =>
      cases broken with
      | none =>
        rw [parse_of_run_eq_none length hrun] at h
        cases h
      | some place =>
        rw [parse_of_run_eq_some length hrun, Except.error.injEq] at h
        subst h
        exact ⟨place, rfl, rfl⟩
  · rintro ⟨place, hrun, he⟩
    rw [parse_of_run_eq_some length hrun, ← he]

/-- **Recovery is exact where tokens are known by their spans.** -/
theorem parse_eq_error_iff_of_nodup {length : Nat} {e : SyntaxError}
    (hspans : (tokens.map (·.span)).Nodup) :
    parse length tokens = .error e ↔
      ∃ place, State.between.run tokens = (e.calls, some place) ∧
        e = place.error e.calls (endOfInput length tokens) := by
  rw [parse_eq_error_iff]
  refine exists_congr fun place => and_congr_right fun hrun => ?_
  rw [recovered_of_nodup hrun hspans]

end Parse

end DwarfExpr
