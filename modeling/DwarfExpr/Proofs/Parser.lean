/-
  DwarfExpr/Proofs/Parser.lean
  ============================
  **The grammar reads token by token.** The parsers of the grammar try, fail and go back; the
  automaton of `State.run` does not.  Both come to the same end.

    * The literals of a list are the same with and without a comma at the end, and where they stop
      decides what is expected there (`Listed`, `exists_listed`).
    * As many calls as there are leave the automaton in a state without an open list, or all but the
      last one leave it in the list behind that call (`Leaves`, `exists_leaves`).  The furthest
      obstacle is then at the token that may not follow, and with the end of the input it has
      exactly what the state expects.
    * So an expression is read if no token is left, and else it fails at that obstacle
      (`expression_of_nil`, `expression_of_cons`).
-/
import DwarfExpr.Proofs.Automaton

namespace DwarfExpr

/-! ### Obstacles -/

namespace Obstacle

theorem further_of_lt {a b : Obstacle} (h : a.rest.length < b.rest.length) : a.further b = a :=
  if_pos h

theorem further_of_gt {a b : Obstacle} (h : b.rest.length < a.rest.length) : a.further b = b := by
  rw [further, if_neg (Nat.lt_asymm h), if_pos h]

theorem further_same (rest : List (Spanned Token)) (xs ys : List Expected) :
    further ⟨rest, xs⟩ ⟨rest, ys⟩ = ⟨rest, xs ++ ys⟩ := by
  simp [further]

end Obstacle

/-- Messages list what is expected by the order of the texts, each once. -/
theorem Expected.pairwise_text_all : (all.map text).Pairwise (· < ·) := by decide +kernel

theorem Expected.sorted_eq {es fs : List Expected} (h : ∀ e, e ∈ es ↔ e ∈ fs) :
    sorted es = sorted fs := by
  refine List.filter_congr fun e _ => ?_
  rw [Bool.eq_iff_iff, List.contains_iff_mem, List.contains_iff_mem, h]

theorem State.sorted_expected (s : State) : Expected.sorted s.expected = s.expected := by
  cases s <;> rfl

/-! ### The next token -/

namespace Token

theorem expectation_eq_operation {token : Token} :
    token.expectation = .operation ↔ ∃ op, token = .operation op := by
  cases token <;> simp [expectation]

theorem expectation_eq_literal {token : Token} :
    token.expectation = .literal ↔ ∃ radix value, token = .number radix value := by
  cases token <;> simp [expectation]

theorem expectation_eq_leftParen {token : Token} :
    token.expectation = .leftParen ↔ token = .leftParen := by
  cases token <;> simp [expectation]

theorem expectation_eq_rightParen {token : Token} :
    token.expectation = .rightParen ↔ token = .rightParen := by
  cases token <;> simp [expectation]

theorem expectation_eq_comma {token : Token} : token.expectation = .comma ↔ token = .comma := by
  cases token <;> simp [expectation]

end Token

theorem head_cases (e : Expected) (ts : List (Spanned Token)) :
    (∃ t ts', ts = t :: ts' ∧ t.value.expectation = e) ∨
      ∀ t ∈ ts.head?, t.value.expectation ≠ e := by
  cases ts with
  | nil => simp
  | cons t ts =>
    by_cases h : t.value.expectation = e
    · exact .inl ⟨t, ts, rfl, h⟩
    · exact .inr (by simpa using h)

/-! ### Combinators -/

namespace Parser

variable {α β : Type} {p : Parser α} {q : Parser β} {input rest : List (Spanned Token)} {x : α}
  {met : Option Obstacle} {o : Obstacle}

theorem token_of_none {expected : List Expected} {accept : Spanned Token → Option α}
    (h : ∀ t ∈ input.head?, accept t = none) :
    token expected accept input = .failure ⟨input, expected⟩ := by
  cases input with
  | nil => rfl
  | cons t rest =>
    have ht : accept t = none := h t rfl
    simp [token, ht]

theorem andThen_of_success (h : p input = .success x rest met) (q : Parser β) :
    p.andThen q input = ((q rest).map (x, ·)).after met := by
  rw [andThen, h]

theorem andThen_of_failure (h : p input = .failure o) (q : Parser β) :
    p.andThen q input = .failure o := by
  rw [andThen, h]

theorem repeated_of_success (h : p input = .success x rest met)
    (hrest : rest.length < input.length) :
    p.repeated input = ((p.repeated rest).map (x :: ·)).after met := by
  rw [repeated, h]
  exact if_pos hrest

theorem repeated_of_failure (h : p input = .failure o) :
    p.repeated input = .success [] input (some o) := by
  rw [repeated, h]

theorem parse_of_success (h : p input = .success x [] met) : p.parse input = .ok x := by
  rw [parse, thenIgnore, map, andThen_of_success h]
  rfl

theorem parse_of_failure (h : p input = .failure o) : p.parse input = .error o := by
  rw [parse, thenIgnore, map, andThen_of_failure h]
  rfl

theorem repeated_any (tokens : List (Spanned Token)) :
    any.repeated tokens = .success tokens [] (some ⟨[], []⟩) := by
  induction tokens with
  | nil => exact repeated_of_failure rfl
  | cons t tokens ih =>
    rw [repeated_of_success (rfl : any (t :: tokens) = .success t tokens none) (by simp), ih]
    rfl

end Parser

namespace Grammar

open DwarfExpr.Parser

/-! ### The literals of a list -/

theorem literal_of_ne {ts : List (Spanned Token)}
    (h : ∀ t ∈ ts.head?, t.value.expectation ≠ .literal) :
    literal ts = .failure ⟨ts, [.literal]⟩ := by
  apply token_of_none
  intro t ht
  have hne := h t ht
  cases hvalue : t.value <;> simp_all [Token.expectation]

theorem name_of_ne {ts : List (Spanned Token)}
    (h : ∀ t ∈ ts.head?, t.value.expectation ≠ .operation) :
    name ts = .failure ⟨ts, [.operation]⟩ := by
  apply token_of_none
  intro t ht
  have hne := h t ht
  cases hvalue : t.value <;> simp_all [Token.expectation]

theorem mark_of_ne (e : Expected) (token : Token) (htoken : token.expectation = e)
    {ts : List (Spanned Token)} (h : ∀ t ∈ ts.head?, t.value.expectation ≠ e) :
    mark e token ts = .failure ⟨ts, [e]⟩ := by
  apply token_of_none
  intro t ht
  have hne : t.value ≠ token := by
    rintro rfl
    exact h t ht htoken
  exact if_neg hne

/-- Behind a literal: more literals, what is left, and what is in the way there.  A comma that no
    literal follows is left. -/
inductive Continued :
    List (Spanned Token) → List Literal → List (Spanned Token) → Obstacle → Prop
  | done {ts : List (Spanned Token)} (h : ∀ t ∈ ts.head?, t.value.expectation ≠ .comma) :
      Continued ts [] ts ⟨ts, [.comma]⟩
  | dangling {span : Span} {ts : List (Spanned Token)}
      (h : ∀ t ∈ ts.head?, t.value.expectation ≠ .literal) :
      Continued (⟨.comma, span⟩ :: ts) [] (⟨.comma, span⟩ :: ts) ⟨ts, [.literal]⟩
  | more {span span' : Span} {radix : Radix} {value : Value} {ts left : List (Spanned Token)}
      {ls : List Literal} {o : Obstacle} (h : Continued ts ls left o) :
      Continued (⟨.comma, span⟩ :: ⟨.number radix value, span'⟩ :: ts)
        (⟨radix, value, span'⟩ :: ls) left o

/-- The same behind a parenthesis. -/
inductive Listed :
    List (Spanned Token) → List Literal → List (Spanned Token) → Obstacle → Prop
  | empty {ts : List (Spanned Token)} (h : ∀ t ∈ ts.head?, t.value.expectation ≠ .literal) :
      Listed ts [] ts ⟨ts, [.literal]⟩
  | literals {span : Span} {radix : Radix} {value : Value} {ts left : List (Spanned Token)}
      {ls : List Literal} {o : Obstacle} (h : Continued ts ls left o) :
      Listed (⟨.number radix value, span⟩ :: ts) (⟨radix, value, span⟩ :: ls) left o

theorem exists_continued (ts : List (Spanned Token)) :
    ∃ ls left o, Continued ts ls left o ∧
      (comma.ignoreThen literal).repeated ts = .success ls left (some o) := by
  -- two tokens are taken at a time
  induction hlength : ts.length using Nat.strongRecOn generalizing ts with
  | ind length ih =>
    rcases head_cases .comma ts with ⟨⟨token, span⟩, ts, rfl, htoken⟩ | hne
    · obtain rfl := Token.expectation_eq_comma.1 htoken
      rcases head_cases .literal ts with ⟨⟨token, span'⟩, ts, rfl, htoken⟩ | hne
      · obtain ⟨radix, value, rfl⟩ := Token.expectation_eq_literal.1 htoken
        obtain ⟨ls, left, o, hcontinued, hrest⟩ := ih ts.length (by simp at hlength; omega) ts rfl
        refine ⟨_, left, o, .more hcontinued, ?_⟩
        have hitem : (comma.ignoreThen literal)
            (⟨.comma, span⟩ :: ⟨.number radix value, span'⟩ :: ts) =
              .success ⟨radix, value, span'⟩ ts none := rfl
        have hshorter : ts.length <
            (⟨.comma, span⟩ :: ⟨.number radix value, span'⟩ :: ts :
              List (Spanned Token)).length := by
          rw [List.length_cons, List.length_cons]
          omega
        rw [repeated_of_success hitem hshorter, hrest]
        rfl
      · refine ⟨[], _, _, .dangling hne, repeated_of_failure ?_⟩
        have hcomma : comma (⟨.comma, span⟩ :: ts) = .success span ts none := rfl
        rw [ignoreThen, map, andThen_of_success hcomma, literal_of_ne hne]
        rfl
    · refine ⟨[], ts, _, .done hne, repeated_of_failure ?_⟩
      have hcomma : comma ts = .failure ⟨ts, [.comma]⟩ := mark_of_ne .comma .comma rfl hne
      rw [ignoreThen, map, andThen_of_failure hcomma]
      rfl

/-- **The literals of a list** are the same whether or not a comma may stand behind them. -/
theorem exists_listed (ts : List (Spanned Token)) :
    ∃ ls left o, Listed ts ls left o ∧
      literal.separatedBy comma false ts = .success ls left (some o) ∧
      ∃ left' met, literal.separatedBy comma true ts = .success ls left' met := by
  rcases head_cases .literal ts with ⟨⟨token, span⟩, ts, rfl, htoken⟩ | hne
  · obtain ⟨radix, value, rfl⟩ := Token.expectation_eq_literal.1 htoken
    obtain ⟨ls, left, o, hcontinued, hrest⟩ := exists_continued ts
    have hitems : (literal.andThen (comma.ignoreThen literal).repeated)
        (⟨.number radix value, span⟩ :: ts) =
          .success (⟨radix, value, span⟩, ls) left (some o) := by
      rw [andThen_of_success (rfl : literal _ = .success ⟨radix, value, span⟩ ts none), hrest]
      rfl
    refine ⟨_, left, o, .literals hcontinued, ?_, ?_⟩
    · simp [separatedBy, Parser.map, orNot, hitems, Attempt.map]
    · obtain ⟨found, left', met, hcomma⟩ : ∃ found left' met,
          comma.orNot left = .success found left' met := by
        cases h : comma left <;> exact ⟨_, _, _, by rw [orNot, h]⟩
      have hlist : ((literal.andThen (comma.ignoreThen literal).repeated).thenIgnore comma.orNot)
          (⟨.number radix value, span⟩ :: ts) =
            .success (⟨radix, value, span⟩, ls) left'
              (Option.merge Obstacle.further (some o) met) := by
        rw [thenIgnore, Parser.map, andThen_of_success hitems, hcomma]
        rfl
      simp [separatedBy, Parser.map, orNot, hlist, Attempt.map]
  · have hliteral := literal_of_ne hne
    refine ⟨[], ts, _, .empty hne, ?_, ?_⟩
    · simp [separatedBy, Parser.map, orNot, andThen, hliteral, Attempt.map]
    · simp [separatedBy, Parser.map, orNot, thenIgnore, andThen, hliteral, Attempt.map]

/-! ### A list and the states in it -/

/-- What is in the way of literals that stop: something else than what may go on the list, or what
    comes behind a comma. -/
inductive Continued.Stops (e : Expected) (left : List (Spanned Token)) : Obstacle → Prop
  | here (h : ∀ t ∈ left.head?, t.value.expectation ≠ e) : Stops e left ⟨left, [e]⟩
  | behindComma {span : Span} {ts : List (Spanned Token)} (hleft : left = ⟨.comma, span⟩ :: ts)
      (he : e = .comma) (h : ∀ t ∈ ts.head?, t.value.expectation ≠ .literal) :
      Stops e left ⟨ts, [.literal]⟩

theorem Continued.reaches {ts left : List (Spanned Token)} {ls : List Literal} {o : Obstacle}
    (h : Continued ts ls left o) (c : OpenCall) :
    Stops .comma left o ∧
      ∃ before, ts = before ++ left ∧
        State.Reaches (.valued c) before [] (.valued (c.extend ls)) := by
  induction h generalizing c with
  | done hne => exact ⟨.here hne, [], rfl, by rw [c.extend_nil]; exact .refl _⟩
  | dangling hne => exact ⟨.behindComma rfl rfl hne, [], rfl, by rw [c.extend_nil]; exact .refl _⟩
  | more h ih =>
    obtain ⟨hstops, before, rfl, hreaches⟩ := ih (c.push _)
    rw [c.extend_push] at hreaches
    exact ⟨hstops, _ :: _ :: before, rfl, .quiet rfl (.quiet rfl hreaches)⟩

/-- **Where a list stops**: the state is that of its last literal. -/
theorem Listed.reaches {ts left : List (Spanned Token)} {ls : List Literal} {o : Obstacle}
    (h : Listed ts ls left o) (c : OpenCall) :
    ∃ before s e, ts = before ++ left ∧ State.Reaches (.opened c) before [] s ∧
      s.openCall? = some (c.extend ls) ∧ s.expected = [.rightParen, e] ∧
      Continued.Stops e left o ∧ (e = .comma → s = .valued (c.extend ls)) := by
  cases h with
  | empty hne =>
    refine ⟨[], .opened c, .literal, rfl, .refl _, ?_, rfl, .here hne, by simp⟩
    rw [c.extend_nil]
    rfl
  | literals h =>
    obtain ⟨hstops, before, rfl, hreaches⟩ := h.reaches (c.push _)
    rw [c.extend_push] at hreaches
    exact ⟨_ :: before, _, .comma, rfl, .quiet rfl hreaches, rfl, rfl, hstops, fun _ => rfl⟩

/-- The obstacle is what stops the automaton in a state. -/
structure Blocks (s : State) (o : Obstacle) : Prop where
  stuck : ∀ t ∈ o.rest.head?, s.next t = none
  expected : ∀ e, e ∈ o.expected ↔ e ∈ s.expected

theorem blocks_of_forall {s : State} {o : Obstacle}
    (hrest : ∀ t ∈ o.rest.head?, ∀ e ∈ s.expected, t.value.expectation ≠ e)
    (hexpected : ∀ e, e ∈ o.expected ↔ e ∈ s.expected) : Blocks s o :=
  ⟨fun t ht => State.next_eq_none_iff.2 fun hmem => hrest t ht _ hmem rfl, hexpected⟩

/-- A list that is not closed breaks off in one of its states. -/
theorem Listed.breaks {ts left : List (Spanned Token)} {ls : List Literal} {o : Obstacle}
    (h : Listed ts ls left o) (hleft : ∀ t ∈ left.head?, t.value.expectation ≠ .rightParen)
    (c : OpenCall) :
    ∃ before s, ts = before ++ (o.further ⟨left, [.rightParen]⟩).rest ∧
      State.Reaches (.opened c) before [] s ∧ s.openCall? = some (c.extend ls) ∧
      Blocks s (o.further ⟨left, [.rightParen]⟩) := by
  obtain ⟨before, s, e, rfl, hreaches, hopen, hexpected, hstops, hvalued⟩ := h.reaches c
  cases hstops with
  | here hne =>
    rw [Obstacle.further_same]
    refine ⟨before, s, rfl, hreaches, hopen, blocks_of_forall ?_ ?_⟩
    · simp only [hexpected]
      grind
    · grind
  | @behindComma span ts hcomma he hne =>
    have hlt : ts.length < left.length := by simp [hcomma]
    rw [Obstacle.further_of_lt hlt]
    obtain rfl := hvalued he
    refine ⟨before ++ [⟨.comma, span⟩], .separated (c.extend ls), by simp [hcomma], ?_, rfl, ?_⟩
    · exact hreaches.append (.quiet rfl (.refl _))
    · exact blocks_of_forall (by simpa [State.expected] using hne) (by simp [State.expected])

/-- A list that is closed is a call. -/
theorem Listed.closes {ts rest : List (Spanned Token)} {ls : List Literal} {o : Obstacle}
    {closing : Span} (h : Listed ts ls (⟨.rightParen, closing⟩ :: rest) o) (c : OpenCall) :
    rest.length < o.rest.length ∧
      ∃ before, ts = before ++ ⟨.rightParen, closing⟩ :: rest ∧
        State.Reaches (.opened c) (before ++ [⟨.rightParen, closing⟩])
          [(c.extend ls).close closing] .between := by
  obtain ⟨before, s, e, rfl, hreaches, hopen, hexpected, hstops, -⟩ := h.reaches c
  have hlength : rest.length < o.rest.length := by
    cases hstops with
    | here hne => simp
    | behindComma hcomma => simp at hcomma
  refine ⟨hlength, before, rfl, ?_⟩
  have hclose : s.next ⟨.rightParen, closing⟩ = some ([(c.extend ls).close closing], .between) := by
    cases s <;> simp_all [State.openCall?, State.expected, State.next]
  exact hreaches.append (.next hclose (.refl _))

theorem arguments_of_ne {ts : List (Spanned Token)}
    (h : ∀ t ∈ ts.head?, t.value.expectation ≠ .leftParen) :
    arguments ts = .failure ⟨ts, [.leftParen]⟩ := by
  have hparen : leftParen ts = .failure ⟨ts, [.leftParen]⟩ := mark_of_ne .leftParen .leftParen rfl h
  rw [arguments, Parser.map, andThen_of_failure (andThen_of_failure hparen _)]
  rfl

theorem arguments_of_listed {opening : Span} {ts left : List (Spanned Token)} {ls : List Literal}
    {o : Obstacle} (h : literal.separatedBy comma false ts = .success ls left (some o)) :
    arguments (⟨.leftParen, opening⟩ :: ts) =
      ((rightParen left).map fun closing => ⟨opening, ls, closing⟩).after (some o) := by
  have hopened : (leftParen.andThen (literal.separatedBy comma false))
      (⟨.leftParen, opening⟩ :: ts) = .success (opening, ls) left (some o) := by
    rw [andThen_of_success (rfl : leftParen _ = .success opening ts none), h]
    rfl
  rw [arguments, Parser.map, andThen_of_success hopened]
  cases rightParen left <;> rfl

/-! ### Calls -/

/-- What as many calls as there are leave: tokens, and an obstacle.  The automaton is in no list,
    and the obstacle lacks only the end of the input; or the last call is the name of a list that
    breaks off. -/
inductive Leaves (tokens : List (Spanned Token)) :
    List Call → List (Spanned Token) → Obstacle → Prop
  | closed {before left : List (Spanned Token)} {complete : List Call} {s : State}
      {es : List Expected} (hsplit : tokens = before ++ left)
      (hreaches : State.Reaches .between before complete s) (hclosed : s.openCall? = none)
      (hblocks : Blocks s ⟨left, es ++ [.endOfInput]⟩) :
      Leaves tokens (complete ++ s.finished) left ⟨left, es⟩
  | broken {front list before : List (Spanned Token)} {complete : List Call} {s : State}
      {c : OpenCall} {o : Obstacle} (hfront : tokens = front ++ ⟨.leftParen, c.opening⟩ :: list)
      (hliterals : ∃ left met, literal.separatedBy comma true list = .success c.operands left met)
      (hfar : o.rest.length ≤ list.length)
      (hsplit : tokens = before ++ o.rest) (hreaches : State.Reaches .between before complete s)
      (hopen : s.openCall? = some c) (hblocks : Blocks s o) :
      Leaves tokens (complete ++ [c.bare]) (⟨.leftParen, c.opening⟩ :: list) o

theorem Leaves.length_le {tokens left : List (Spanned Token)} {calls : List Call} {o : Obstacle}
    (h : Leaves tokens calls left o) : o.rest.length ≤ tokens.length := by
  cases h with
  | closed hsplit => simp [hsplit]
  | broken _ _ _ hsplit => simp [hsplit]

/-- A call before others. -/
theorem Leaves.cons_call {front rest left : List (Spanned Token)} {c : Call} {calls : List Call}
    {o : Obstacle} (hfront : State.Reaches .between front [c] .between)
    (h : Leaves rest calls left o) : Leaves (front ++ rest) (c :: calls) left o := by
  cases h with
  | closed hsplit hreaches hclosed hblocks =>
    exact .closed (by rw [hsplit, List.append_assoc]) (hfront.append hreaches) hclosed hblocks
  | broken hparen hliterals hfar hsplit hreaches hopen hblocks =>
    exact .broken (by rw [hparen, List.append_assoc]) hliterals hfar
      (by rw [hsplit, List.append_assoc]) (hfront.append hreaches) hopen hblocks

/-- Behind a name, other calls are read as at the beginning. -/
theorem reaches_named {before : List (Spanned Token)} {complete : List Call} {s : State}
    (h : State.Reaches .between before complete s) (hne : before ≠ []) (op : Operation)
    (span : Span) :
    State.Reaches .between (⟨.operation op, span⟩ :: before) (⟨op, span, none⟩ :: complete) s := by
  cases h with
  | refl => exact absurd rfl hne
  | @next _ s' _ x xs calls calls' hx hxs =>
    obtain ⟨token, place⟩ := x
    cases token with
    | operation op' =>
      simp only [State.next, Option.some.injEq, Prod.mk.injEq] at hx
      obtain ⟨rfl, rfl⟩ := hx
      have hname : State.between.next ⟨.operation op, span⟩ = some ([], .named op span) := rfl
      have hnext : (State.named op span).next ⟨.operation op', place⟩ =
          some ([⟨op, span, none⟩], .named op' place) := rfl
      exact .quiet hname (.next hnext hxs)
    | _ => simp [State.next] at hx

/-- A name without a list before other calls. -/
theorem Leaves.cons_name {rest left : List (Spanned Token)} {calls : List Call} {o : Obstacle}
    (hrest : ∀ t ∈ rest.head?, t.value.expectation ≠ .leftParen) (h : Leaves rest calls left o)
    (op : Operation) (span : Span) :
    Leaves (⟨.operation op, span⟩ :: rest) (⟨op, span, none⟩ :: calls) left
      (Obstacle.further ⟨rest, [.leftParen]⟩ o) := by
  cases h with
  | @closed before _ complete s es hsplit hreaches hclosed hblocks =>
    by_cases hne : before = []
    · -- nothing else was read, so the parenthesis is expected, too
      subst hne
      cases hreaches
      obtain rfl : rest = left := hsplit
      rw [Obstacle.further_same]
      have hnamed : Blocks (.named op span) ⟨rest, [.leftParen] ++ es ++ [.endOfInput]⟩ := by
        apply blocks_of_forall
        · intro t ht e he
          have hbetween := State.next_eq_none_iff.1 (hblocks.stuck t ht)
          have hparen := hrest t ht
          simp only [State.expected, List.mem_cons, List.not_mem_nil, or_false] at he hbetween
          grind
        · intro e
          have hbetween := hblocks.expected e
          simp only [State.expected] at hbetween ⊢
          grind
      have hname : State.between.next ⟨.operation op, span⟩ = some ([], .named op span) := rfl
      exact .closed rfl (.quiet hname (.refl _)) rfl hnamed
    · have hlt : left.length < rest.length := by
        have hpos := List.length_pos_iff.2 hne
        simp only [hsplit, List.length_append]
        omega
      rw [Obstacle.further_of_gt hlt]
      exact .closed (by rw [hsplit, List.cons_append]) (reaches_named hreaches hne op span) hclosed
        hblocks
  | @broken front list before complete s c o hparen hliterals hfar hsplit hreaches hopen hblocks =>
    have hne : before ≠ [] := by
      rintro rfl
      cases hreaches
      simp [State.openCall?] at hopen
    have hlt : o.rest.length < rest.length := by
      simp only [hparen, List.length_append, List.length_cons]
      omega
    rw [Obstacle.further_of_gt hlt]
    exact .broken (by rw [hparen, List.cons_append]) hliterals hfar
      (by rw [hsplit, List.cons_append]) (reaches_named hreaches hne op span) hopen hblocks

theorem call_of_ne {tokens : List (Spanned Token)}
    (h : ∀ t ∈ tokens.head?, t.value.expectation ≠ .operation) :
    call tokens = .failure ⟨tokens, [.operation]⟩ := by
  rw [call, Parser.map, andThen_of_failure (name_of_ne h)]
  rfl

theorem call_of_arguments {op : Operation} {span : Span} {ts : List (Spanned Token)} :
    call (⟨.operation op, span⟩ :: ts) =
      (arguments.orNot ts).map fun arguments => ⟨op, span, arguments⟩ := by
  rw [call, Parser.map, andThen_of_success (rfl : name _ = .success (op, span) ts none)]
  cases arguments.orNot ts with
  | success found rest met => cases met <;> rfl
  | failure met => rfl

/-- A call whose list is closed. -/
theorem leaves_of_closed {op : Operation} {span opening closing : Span}
    {ts rest left : List (Spanned Token)} {ls : List Literal} {calls : List Call} {o o' : Obstacle}
    (hlisted : Listed ts ls (⟨.rightParen, closing⟩ :: rest) o)
    (hliterals : literal.separatedBy comma false ts =
      .success ls (⟨.rightParen, closing⟩ :: rest) (some o))
    (hleaves : Leaves rest calls left o')
    (hcalls : call.repeated rest = .success calls left (some o')) :
    Leaves (⟨.operation op, span⟩ :: ⟨.leftParen, opening⟩ :: ts)
        (⟨op, span, some ⟨opening, ls, closing⟩⟩ :: calls) left o' ∧
      call.repeated (⟨.operation op, span⟩ :: ⟨.leftParen, opening⟩ :: ts) =
        .success (⟨op, span, some ⟨opening, ls, closing⟩⟩ :: calls) left (some o') := by
  obtain ⟨hshorter, before, rfl, hreaches⟩ := hlisted.closes ⟨op, span, opening, []⟩
  constructor
  · have hfront : State.Reaches .between
        (⟨.operation op, span⟩ :: ⟨.leftParen, opening⟩ :: (before ++ [⟨.rightParen, closing⟩]))
        [⟨op, span, some ⟨opening, ls, closing⟩⟩] .between := .quiet rfl (.quiet rfl hreaches)
    simpa using hleaves.cons_call hfront
  · have hcall : call (⟨.operation op, span⟩ :: ⟨.leftParen, opening⟩ ::
        (before ++ ⟨.rightParen, closing⟩ :: rest)) =
          .success ⟨op, span, some ⟨opening, ls, closing⟩⟩ rest (some o) := by
      rw [call_of_arguments, orNot, arguments_of_listed hliterals]
      rfl
    have hfar := Nat.lt_of_le_of_lt hleaves.length_le hshorter
    rw [repeated_of_success hcall (by simp; omega), hcalls]
    simp [Attempt.map, Attempt.after, Obstacle.further_of_gt hfar]

/-- A name whose list breaks off: the name is read again as a call without a list, and its
    parenthesis stops the calls. -/
theorem leaves_of_broken {op : Operation} {span opening : Span} {ts left : List (Spanned Token)}
    {ls : List Literal} {o : Obstacle} (hlisted : Listed ts ls left o)
    (hliterals : literal.separatedBy comma false ts = .success ls left (some o))
    (htrailing : ∃ left met, literal.separatedBy comma true ts = .success ls left met)
    (hleft : ∀ t ∈ left.head?, t.value.expectation ≠ .rightParen) :
    ∃ o', Leaves (⟨.operation op, span⟩ :: ⟨.leftParen, opening⟩ :: ts) [⟨op, span, none⟩]
        (⟨.leftParen, opening⟩ :: ts) o' ∧
      call.repeated (⟨.operation op, span⟩ :: ⟨.leftParen, opening⟩ :: ts) =
        .success [⟨op, span, none⟩] (⟨.leftParen, opening⟩ :: ts) (some o') := by
  obtain ⟨before, s, hsplit, hreaches, hopen, hblocks⟩ :=
    hlisted.breaks hleft ⟨op, span, opening, []⟩
  have hfar : (o.further ⟨left, [.rightParen]⟩).rest.length ≤ ts.length := by
    have hlength := congrArg List.length hsplit
    simp only [List.length_append] at hlength
    omega
  refine ⟨o.further ⟨left, [.rightParen]⟩, ?_, ?_⟩
  · have hreaches' : State.Reaches .between
        (⟨.operation op, span⟩ :: ⟨.leftParen, opening⟩ :: before) [] s :=
      .quiet rfl (.quiet rfl hreaches)
    have hfront : ⟨.operation op, span⟩ :: ⟨.leftParen, opening⟩ :: ts =
        [⟨.operation op, span⟩] ++ ⟨.leftParen, opening⟩ :: ts := rfl
    have hsplit' := congrArg (⟨.operation op, span⟩ :: ⟨.leftParen, opening⟩ :: ·) hsplit
    exact .broken hfront htrailing hfar hsplit' hreaches' hopen hblocks
  · have hclosing : rightParen left = .failure ⟨left, [.rightParen]⟩ :=
      mark_of_ne .rightParen .rightParen rfl hleft
    have hcall : call (⟨.operation op, span⟩ :: ⟨.leftParen, opening⟩ :: ts) =
        .success ⟨op, span, none⟩ (⟨.leftParen, opening⟩ :: ts)
          (some (o.further ⟨left, [.rightParen]⟩)) := by
      rw [call_of_arguments, orNot, arguments_of_listed hliterals, hclosing]
      rfl
    have hnot : call (⟨.leftParen, opening⟩ :: ts) =
        .failure ⟨⟨.leftParen, opening⟩ :: ts, [.operation]⟩ :=
      call_of_ne (by simp [Token.expectation])
    rw [repeated_of_success hcall (by simp), repeated_of_failure hnot]
    simp only [Attempt.map, Attempt.after, Option.merge_some_some]
    rw [Obstacle.further_of_lt]
    exact Nat.lt_succ_of_le hfar

/-- A name without a list. -/
theorem leaves_of_name {op : Operation} {span : Span} {rest left : List (Spanned Token)}
    {calls : List Call} {o : Obstacle}
    (hrest : ∀ t ∈ rest.head?, t.value.expectation ≠ .leftParen)
    (hleaves : Leaves rest calls left o)
    (hcalls : call.repeated rest = .success calls left (some o)) :
    ∃ o', Leaves (⟨.operation op, span⟩ :: rest) (⟨op, span, none⟩ :: calls) left o' ∧
      call.repeated (⟨.operation op, span⟩ :: rest) =
        .success (⟨op, span, none⟩ :: calls) left (some o') := by
  refine ⟨_, hleaves.cons_name hrest op span, ?_⟩
  have hcall : call (⟨.operation op, span⟩ :: rest) =
      .success ⟨op, span, none⟩ rest (some ⟨rest, [.leftParen]⟩) := by
    rw [call_of_arguments, orNot, arguments_of_ne hrest]
    rfl
  rw [repeated_of_success hcall (by simp), hcalls]
  rfl

/-- Something else than a name. -/
theorem leaves_of_ne {tokens : List (Spanned Token)}
    (h : ∀ t ∈ tokens.head?, t.value.expectation ≠ .operation) :
    Leaves tokens [] tokens ⟨tokens, [.operation]⟩ := by
  have hblocks : Blocks .between ⟨tokens, [.operation] ++ [.endOfInput]⟩ := by
    apply blocks_of_forall
    · intro t ht e he
      have hnot := h t ht
      cases hvalue : t.value <;> simp_all [State.expected, Token.expectation] <;> grind
    · simp [State.expected, or_comm]
  exact .closed rfl (.refl _) rfl hblocks

/-- **As many calls as there are**, and what they leave. -/
theorem exists_leaves (tokens : List (Spanned Token)) :
    ∃ calls left o, Leaves tokens calls left o ∧
      call.repeated tokens = .success calls left (some o) := by
  induction hlength : tokens.length using Nat.strongRecOn generalizing tokens with
  | ind length ih =>
    rcases head_cases .operation tokens with ⟨⟨token, span⟩, rest, rfl, htoken⟩ | hne
    · obtain ⟨op, rfl⟩ := Token.expectation_eq_operation.1 htoken
      rw [List.length_cons] at hlength
      rcases head_cases .leftParen rest with ⟨⟨token, opening⟩, ts, rfl, htoken⟩ | hne
      · obtain rfl := Token.expectation_eq_leftParen.1 htoken
        obtain ⟨ls, left, o, hlisted, hliterals, htrailing⟩ := exists_listed ts
        rcases head_cases .rightParen left with ⟨⟨token, closing⟩, rest, rfl, htoken⟩ | hne
        · obtain rfl := Token.expectation_eq_rightParen.1 htoken
          obtain ⟨-, before, rfl, -⟩ := hlisted.closes ⟨op, span, opening, []⟩
          obtain ⟨calls, left, o', hleaves, hcalls⟩ := ih rest.length (by simp at hlength; omega)
            rest rfl
          exact ⟨_, left, o', leaves_of_closed hlisted hliterals hleaves hcalls⟩
        · exact ⟨_, _, leaves_of_broken hlisted hliterals htrailing hne⟩
      · obtain ⟨calls, left, o, hleaves, hcalls⟩ := ih rest.length (by omega) rest rfl
        exact ⟨_, left, leaves_of_name hne hleaves hcalls⟩
    · exact ⟨_, _, _, leaves_of_ne hne, repeated_of_failure (call_of_ne hne)⟩

/-! ### Expressions -/

theorem expression_of_nil {tokens : List (Spanned Token)} {calls : List Call} {o : Obstacle}
    (h : call.repeated tokens = .success calls [] (some o)) :
    expression.parse tokens = .ok calls := by
  have hend : expression tokens = .success calls [] (some o) := by
    rw [expression, thenIgnore, Parser.map, andThen_of_success h]
    rfl
  exact parse_of_success hend

theorem expression_of_cons {tokens left : List (Spanned Token)} {t : Spanned Token}
    {calls : List Call} {o : Obstacle}
    (h : call.repeated tokens = .success calls (t :: left) (some o)) :
    expression.parse tokens = .error (o.further ⟨t :: left, [.endOfInput]⟩) := by
  apply parse_of_failure
  rw [expression, thenIgnore, Parser.map, andThen_of_success h]
  rfl

theorem expressionPrefix_parse {tokens left : List (Spanned Token)} {calls : List Call}
    {o : Obstacle} (h : call.repeated tokens = .success calls left (some o)) :
    expressionPrefix.parse tokens = .ok (calls, left.head?) := by
  cases left with
  | nil =>
    have hnext : (call.repeated.andThen any.orNot) tokens =
        .success (calls, none) [] (some (o.further ⟨[], []⟩)) := by
      rw [andThen_of_success h]
      rfl
    apply parse_of_success
    rw [expressionPrefix, thenIgnore, Parser.map, andThen_of_success hnext, repeated_any]
    rfl
  | cons t left =>
    have hnext : (call.repeated.andThen any.orNot) tokens =
        .success (calls, some t) left (some o) := by
      rw [andThen_of_success h]
      rfl
    apply parse_of_success
    rw [expressionPrefix, thenIgnore, Parser.map, andThen_of_success hnext, repeated_any]
    rfl

theorem literalsAt_of_literals {opening : Span} {tokens list left : List (Spanned Token)}
    {ls : List Literal} {met : Option Obstacle}
    (h : literal.separatedBy comma true list = .success ls left met)
    (hfound : tokens.dropWhile (·.span ≠ opening) = ⟨.leftParen, opening⟩ :: list) :
    literalsAt opening tokens = ls := by
  have hlist : (leftParen.ignoreThen (literal.separatedBy comma true))
      (⟨.leftParen, opening⟩ :: list) = .success ls left met := by
    rw [ignoreThen, Parser.map,
      andThen_of_success (rfl : leftParen _ = .success opening list none), h]
    cases met <;> rfl
  have hparse : partialArguments.parse (⟨.leftParen, opening⟩ :: list) = .ok ls := by
    apply parse_of_success
    rw [partialArguments, thenIgnore, Parser.map, andThen_of_success hlist, repeated_any]
    rfl
  rw [literalsAt, hfound, hparse]
  rfl

end Grammar

end DwarfExpr
