/-
  DwarfExpr/Proofs/Grammar.lean
  =============================
  **Calls and their tokens determine each other.** Reading tokens one by one keeps an account of
  them, down to their spans: the tokens read so far are those of the complete calls and those that
  the state has pending (`State.next_layout`, `State.Reaches.layout`).  So a parsed expression is
  spelled by exactly its tokens (`spells_of_parse`, `tokens_of_parse`).  In the other direction,
  tokens that spell calls are parsed into the same calls (`parse_of_tokens`); only the spans are
  those of the tokens.
-/
import DwarfExpr.Proofs.Recovery

namespace DwarfExpr

/-! ### Calls without spans -/

/-- A literal without its span. -/
def Literal.written (l : Literal) : Radix × Value := (l.radix, l.value)

/-- A call without its spans. -/
def Call.written (c : Call) : Operation × Option (List (Radix × Value)) :=
  (c.operation, c.arguments.map fun a => a.operands.map Literal.written)

/-! ### Calls as they stand in a source -/

/-- A token with the span where it stands, as far as calls keep it: they drop those of commas. -/
def Spanned.placed (x : Spanned Token) : Token × Option Span :=
  match x.value with
  | .comma => (.comma, none)
  | token => (token, some x.span)

theorem Spanned.fst_placed (x : Spanned Token) : x.placed.1 = x.value := by
  obtain ⟨token, span⟩ := x
  cases token <;> rfl

def Literal.placed (l : Literal) : Token × Option Span := (l.token, some l.span)

/-- Literals where they stand, with commas between them. -/
def Literal.layout : List Literal → List (Token × Option Span)
  | [] => []
  | [l] => [l.placed]
  | l :: m :: ls => l.placed :: (.comma, none) :: Literal.layout (m :: ls)

def Arguments.layout (a : Arguments) : List (Token × Option Span) :=
  (.leftParen, some a.opening) :: Literal.layout a.operands ++ [(.rightParen, some a.closing)]

/-- The tokens that a call is read from, where they stand. -/
def Call.layout (c : Call) : List (Token × Option Span) :=
  (.operation c.operation, some c.span) ::
    match c.arguments with
    | none => []
    | some a => a.layout

/-- The tokens that an open call was read from so far, where they stand; there may be a comma behind
    them. -/
def OpenCall.layout (c : OpenCall) : List (Token × Option Span) :=
  (.operation c.operation, some c.span) :: (.leftParen, some c.opening) ::
    Literal.layout c.operands

/-- The tokens spell the calls, and stand where the calls say. -/
def Spells (tokens : List (Spanned Token)) (calls : List Call) : Prop :=
  tokens.map Spanned.placed = calls.flatMap Call.layout

theorem Literal.map_fst_layout (ls : List Literal) :
    (Literal.layout ls).map Prod.fst = Literal.tokens ls := by
  induction ls with
  | nil => rfl
  | cons l ls ih =>
    cases ls with
    | nil => rfl
    | cons m ls =>
      rw [Literal.layout, List.map_cons, List.map_cons, ih]
      rfl

theorem Call.map_fst_layout (c : Call) : c.layout.map Prod.fst = c.tokens := by
  obtain ⟨op, span, arguments⟩ := c
  cases arguments with
  | none => rfl
  | some a => simp [Call.layout, Arguments.layout, Literal.map_fst_layout, Call.tokens,
      Arguments.tokens]

theorem Spells.tokens_eq {tokens : List (Spanned Token)} {calls : List Call}
    (h : Spells tokens calls) : tokens.map (·.value) = calls.flatMap Call.tokens := by
  have hfst := congrArg (List.map Prod.fst) h
  simpa only [List.map_map, List.map_flatMap, Function.comp_def, Spanned.fst_placed,
    Call.map_fst_layout] using hfst

/-- Literals have one token each, and a comma before each but the first. -/
theorem Literal.layout_append_singleton {ls : List Literal} (l : Literal) (h : ls ≠ []) :
    Literal.layout (ls ++ [l]) = Literal.layout ls ++ [(.comma, none), l.placed] := by
  induction ls with
  | nil => exact absurd rfl h
  | cons m ls ih =>
    cases ls with
    | nil => rfl
    | cons n ls =>
      have htail := ih (by simp)
      simp only [List.cons_append, Literal.layout] at htail ⊢
      rw [htail]

namespace OpenCall

theorem layout_push_of_nil {c : OpenCall} (h : c.operands = []) (l : Literal) :
    (c.push l).layout = c.layout ++ [l.placed] := by
  simp [layout, push, h, Literal.layout]

theorem layout_push_of_ne_nil {c : OpenCall} (h : c.operands ≠ []) (l : Literal) :
    (c.push l).layout = c.layout ++ [(.comma, none), l.placed] := by
  simp [layout, push, Literal.layout_append_singleton l h]

theorem layout_close (c : OpenCall) (closing : Span) :
    (c.close closing).layout = c.layout ++ [(.rightParen, some closing)] := by
  simp [layout, close, Call.layout, Arguments.layout]

end OpenCall

/-! ### From calls to tokens -/

namespace State

/-- The tokens of the call that is being read. -/
def pending : State → List (Token × Option Span)
  | between => []
  | named op span => [(.operation op, some span)]
  | opened call | valued call => call.layout
  | separated call => call.layout ++ [(.comma, none)]

/-- A list that was just opened has no literals, and every other list has some. -/
def Sound : State → Prop
  | between | named .. => True
  | opened call => call.operands = []
  | valued call | separated call => call.operands ≠ []

/-- **One token is accounted for**: it goes to the complete calls or stays pending. -/
theorem next_layout {s s' : State} {x : Spanned Token} {complete : List Call} (hs : s.Sound)
    (h : s.next x = some (complete, s')) :
    s'.Sound ∧ s.pending ++ [x.placed] = complete.flatMap Call.layout ++ s'.pending := by
  obtain ⟨token, place⟩ := x
  cases s with
  | between =>
    cases token with
    | operation op =>
      simp only [next, Option.some.injEq, Prod.mk.injEq] at h
      obtain ⟨rfl, rfl⟩ := h
      exact ⟨trivial, rfl⟩
    | _ => simp [next] at h
  | named op span =>
    cases token with
    | operation op' =>
      simp only [next, Option.some.injEq, Prod.mk.injEq] at h
      obtain ⟨rfl, rfl⟩ := h
      exact ⟨trivial, rfl⟩
    | leftParen =>
      simp only [next, Option.some.injEq, Prod.mk.injEq] at h
      obtain ⟨rfl, rfl⟩ := h
      exact ⟨rfl, rfl⟩
    | _ => simp [next] at h
  | opened call =>
    have hnil : call.operands = [] := hs
    cases token with
    | number radix value =>
      simp only [next, Option.some.injEq, Prod.mk.injEq] at h
      obtain ⟨rfl, rfl⟩ := h
      refine ⟨by simp [Sound, OpenCall.push], ?_⟩
      simp [pending, Spanned.placed, OpenCall.layout_push_of_nil hnil, Literal.placed,
        Literal.token]
    | rightParen =>
      simp only [next, Option.some.injEq, Prod.mk.injEq] at h
      obtain ⟨rfl, rfl⟩ := h
      refine ⟨trivial, ?_⟩
      simp [pending, Spanned.placed, OpenCall.layout_close]
    | _ => simp [next] at h
  | valued call =>
    cases token with
    | comma =>
      simp only [next, Option.some.injEq, Prod.mk.injEq] at h
      obtain ⟨rfl, rfl⟩ := h
      exact ⟨hs, rfl⟩
    | rightParen =>
      simp only [next, Option.some.injEq, Prod.mk.injEq] at h
      obtain ⟨rfl, rfl⟩ := h
      refine ⟨trivial, ?_⟩
      simp [pending, Spanned.placed, OpenCall.layout_close]
    | _ => simp [next] at h
  | separated call =>
    have hne : call.operands ≠ [] := hs
    cases token with
    | number radix value =>
      simp only [next, Option.some.injEq, Prod.mk.injEq] at h
      obtain ⟨rfl, rfl⟩ := h
      refine ⟨by simp [Sound, OpenCall.push], ?_⟩
      simp [pending, Spanned.placed, OpenCall.layout_push_of_ne_nil hne, Literal.placed,
        Literal.token]
    | _ => simp [next] at h

/-- A state without an open list has at most a name pending, and that is a call. -/
theorem pending_of_openCall_eq_none {s : State} (h : s.openCall? = none) :
    s.pending = s.finished.flatMap Call.layout := by
  cases s with
  | between => rfl
  | named op span => rfl
  | opened call => simp [openCall?] at h
  | valued call => simp [openCall?] at h
  | separated call => simp [openCall?] at h

/-- A state with an open list has that list pending, perhaps with a comma behind a literal. -/
theorem pending_of_openCall {s : State} {c : OpenCall} (hs : s.Sound)
    (h : s.openCall? = some c) :
    s.pending = c.layout ∨ c.operands ≠ [] ∧ s.pending = c.layout ++ [(.comma, none)] := by
  cases s with
  | between => simp [openCall?] at h
  | named op span => simp [openCall?] at h
  | opened call =>
    obtain rfl : call = c := Option.some.inj h
    exact .inl rfl
  | valued call =>
    obtain rfl : call = c := Option.some.inj h
    exact .inl rfl
  | separated call =>
    obtain rfl : call = c := Option.some.inj h
    exact .inr ⟨hs, rfl⟩

/-- **All tokens read so far are accounted for.** -/
theorem Reaches.layout {s s' : State} {xs : List (Spanned Token)} {calls : List Call}
    (h : Reaches s xs calls s') (hs : s.Sound) :
    s'.Sound ∧
      s.pending ++ xs.map Spanned.placed = calls.flatMap Call.layout ++ s'.pending := by
  induction h with
  | refl s => exact ⟨hs, by simp⟩
  | @next s s' s'' x xs complete calls hx hxs ih =>
    obtain ⟨hs', hstep⟩ := next_layout hs hx
    obtain ⟨hs'', hrest⟩ := ih hs'
    refine ⟨hs'', ?_⟩
    calc s.pending ++ (x :: xs).map Spanned.placed
        = (s.pending ++ [x.placed]) ++ xs.map Spanned.placed := by simp
      _ = complete.flatMap Call.layout ++ (s'.pending ++ xs.map Spanned.placed) := by
          rw [hstep, List.append_assoc]
      _ = (complete ++ calls).flatMap Call.layout ++ s''.pending := by
          rw [hrest, List.flatMap_append, List.append_assoc]

end State

/-- **A parsed expression is spelled by exactly its tokens**, where they stand. -/
theorem spells_of_parse {length : Nat} {tokens : List (Spanned Token)} {calls : List Call}
    (h : parse length tokens = .ok calls) : Spells tokens calls := by
  obtain ⟨complete, s, hreaches, hclosed, rfl⟩ :=
    State.exists_reaches_of_run_eq_none (parse_eq_ok_iff.1 h)
  obtain ⟨-, hlayout⟩ := hreaches.layout trivial
  rwa [State.pending_of_openCall_eq_none hclosed, ← List.flatMap_append] at hlayout

theorem tokens_of_parse {length : Nat} {tokens : List (Spanned Token)} {calls : List Call}
    (h : parse length tokens = .ok calls) :
    tokens.map (·.value) = calls.flatMap Call.tokens :=
  (spells_of_parse h).tokens_eq

/-! ### From tokens to calls -/

namespace State

/-- A state that waits for a literal of a call. -/
def Awaits (s : State) (call : OpenCall) : Prop := s = opened call ∨ s = separated call

theorem Awaits.next_number {s : State} {call : OpenCall} (h : s.Awaits call) {t : Spanned Token}
    {radix : Radix} {value : Value} (ht : t.value = .number radix value) :
    s.next t = some ([], valued (call.push ⟨radix, value, t.span⟩)) := by
  rcases h with rfl | rfl <;> simp [next, ht]

/-- Literals are pushed one by one until the list is closed. -/
theorem Awaits.run_literals {ls : List Literal} (hne : ls ≠ []) {s : State} {call : OpenCall}
    (hs : s.Awaits call) {ts : List (Spanned Token)} {rest : List Token}
    (hts : ts.map (·.value) = Literal.tokens ls ++ .rightParen :: rest) :
    ∃ (closed : Call) (ts' : List (Spanned Token)), ts'.map (·.value) = rest ∧
      closed.written =
        (call.operation, some ((call.operands ++ ls).map Literal.written)) ∧
      ∀ calls broken, between.run ts' = (calls, broken) → s.run ts = (closed :: calls, broken) := by
  induction ls generalizing s call ts with
  | nil => exact absurd rfl hne
  | cons l ls ih =>
    cases ls with
    | nil =>
      simp only [Literal.tokens, List.cons_append, List.nil_append, List.map_eq_cons_iff] at hts
      obtain ⟨t, _, rfl, ht, t₁, ts', rfl, ht₁, hrest⟩ := hts
      refine ⟨(call.push ⟨l.radix, l.value, t.span⟩).close t₁.span, ts', hrest, ?_, ?_⟩
      · simp [Call.written, OpenCall.close, OpenCall.push, Literal.written]
      · intro calls broken hrun
        have hclose : (valued (call.push ⟨l.radix, l.value, t.span⟩)).next t₁ =
            some ([(call.push ⟨l.radix, l.value, t.span⟩).close t₁.span], between) := by
          simp [next, ht₁]
        exact run_of_next (hs.next_number ht) (run_of_next hclose hrun)
    | cons m ls =>
      simp only [Literal.tokens, List.cons_append, List.map_eq_cons_iff] at hts
      obtain ⟨t, _, rfl, ht, t₁, ts₁, rfl, ht₁, hrest⟩ := hts
      obtain ⟨closed, ts', hts', hclosed, hrun⟩ := ih (by simp)
        (s := separated (call.push ⟨l.radix, l.value, t.span⟩)) (Or.inr rfl) hrest
      refine ⟨closed, ts', hts', ?_, ?_⟩
      · simp [hclosed, OpenCall.push, Literal.written]
      · intro calls broken hafter
        have hcomma : (valued (call.push ⟨l.radix, l.value, t.span⟩)).next t₁ =
            some ([], separated (call.push ⟨l.radix, l.value, t.span⟩)) := by
          simp [next, ht₁]
        exact run_of_next (hs.next_number ht) (run_of_next hcomma (hrun calls broken hafter))

/-- A list of literals, which may be empty, after its left parenthesis. -/
theorem run_list {ls : List Literal} {call : OpenCall} (hcall : call.operands = [])
    {ts : List (Spanned Token)} {rest : List Token}
    (hts : ts.map (·.value) = Literal.tokens ls ++ .rightParen :: rest) :
    ∃ (closed : Call) (ts' : List (Spanned Token)), ts'.map (·.value) = rest ∧
      closed.written = (call.operation, some (ls.map Literal.written)) ∧
      ∀ calls broken, between.run ts' = (calls, broken) →
        (opened call).run ts = (closed :: calls, broken) := by
  by_cases hls : ls = []
  · subst hls
    simp only [Literal.tokens, List.nil_append, List.map_eq_cons_iff] at hts
    obtain ⟨t, ts', rfl, ht, hrest⟩ := hts
    refine ⟨call.close t.span, ts', hrest, ?_, ?_⟩
    · simp [Call.written, OpenCall.close, hcall]
    · intro calls broken hrun
      have hclose : (opened call).next t = some ([call.close t.span], between) := by
        simp [next, ht]
      exact run_of_next hclose hrun
  · obtain ⟨closed, ts', hts', hclosed, hrun⟩ :=
      Awaits.run_literals hls (s := opened call) (Or.inl rfl) hts
    exact ⟨closed, ts', hts', by simpa [hcall] using hclosed, hrun⟩

/-- **Tokens that spell calls are read as these calls**, after a call that is complete. -/
theorem run_calls {calls : List Call} {s : State} (hs : s.openCall? = none)
    {ts : List (Spanned Token)} (hts : ts.map (·.value) = calls.flatMap Call.tokens) :
    ∃ calls', s.run ts = (s.finished ++ calls', none) ∧
      calls'.map Call.written = calls.map Call.written := by
  induction calls generalizing s ts with
  | nil =>
    obtain rfl : ts = [] := by simpa using hts
    refine ⟨[], ?_, rfl⟩
    cases s with
    | between => rfl
    | named op span => rfl
    | opened call => simp [openCall?] at hs
    | valued call => simp [openCall?] at hs
    | separated call => simp [openCall?] at hs
  | cons c calls ih =>
    simp only [List.flatMap_cons, Call.tokens, List.cons_append, List.map_eq_cons_iff] at hts
    obtain ⟨t, ts, rfl, ht, hts⟩ := hts
    -- the name ends a call before it that has no list
    have hname : s.next t = some (s.finished, named c.operation t.span) := by
      cases s with
      | between => simp [next, ht, finished]
      | named op span => simp [next, ht, finished]
      | opened call => simp [openCall?] at hs
      | valued call => simp [openCall?] at hs
      | separated call => simp [openCall?] at hs
    cases ha : c.arguments with
    | none =>
      rw [ha] at hts
      obtain ⟨calls', hrun, hwritten⟩ := ih (s := named c.operation t.span) rfl hts
      refine ⟨⟨c.operation, t.span, none⟩ :: calls', run_of_next hname hrun, ?_⟩
      simp [Call.written, ha, hwritten]
    | some a =>
      rw [ha] at hts
      simp only [Arguments.tokens, List.cons_append, List.append_assoc, List.nil_append,
        List.map_eq_cons_iff] at hts
      obtain ⟨t₁, ts₁, rfl, ht₁, hts⟩ := hts
      have hempty : (⟨c.operation, t.span, t₁.span, []⟩ : OpenCall).operands = [] := rfl
      obtain ⟨closed, ts', hts', hclosed, hlist⟩ := run_list hempty hts
      obtain ⟨calls', hrun, hwritten⟩ := ih (s := between) rfl hts'
      have hopen : (named c.operation t.span).next t₁ =
          some ([], opened ⟨c.operation, t.span, t₁.span, []⟩) := by
        simp [next, ht₁]
      refine ⟨closed :: calls', run_of_next hname (run_of_next hopen (hlist _ _ hrun)), ?_⟩
      have hwritten' : c.written = (c.operation, some (a.operands.map Literal.written)) := by
        simp [Call.written, ha]
      rw [List.map_cons, List.map_cons, hclosed, hwritten, hwritten']

end State

/-- **Tokens that spell calls are parsed into these calls**, up to the spans. -/
theorem parse_of_tokens {calls : List Call} {tokens : List (Spanned Token)} (length : Nat)
    (h : tokens.map (·.value) = calls.flatMap Call.tokens) :
    ∃ calls', parse length tokens = .ok calls' ∧
      calls'.map Call.written = calls.map Call.written := by
  obtain ⟨calls', hrun, hwritten⟩ := State.run_calls (s := .between) rfl h
  exact ⟨calls', parse_eq_ok_iff.2 hrun, hwritten⟩

end DwarfExpr
