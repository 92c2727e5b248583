/-
  DwarfExpr/Proofs/Spelling.lean
  ==============================
  **Layout, comments and the spelling of numbers do not matter.** Two sources may place the same
  tokens differently, and write a number in decimal or in hexadecimal, with or without leading
  zeros.  Both are assembled into the same bytecode, or both are refused at the same token
  (`assemble_spelling`).

  The two runs are followed side by side.  Everything that is built from tokens is alike if it has
  the same operations and values, and spans that stand in a relation `P`; nothing is assumed of the
  relation.  So no step may look at a span or at a radix to decide what to do:

    * alike tokens lead from alike states to alike states (`State.Alike.next`) and are read as alike
      calls (`State.Alike.run`);
    * alike calls are encoded into the same bytes, or have faults at related spans
      (`Call.Alike.encode`);
    * the first faults are at related spans (`ReadAlike.located_firstFault`).

  In the end two spans are related if they are those of tokens with the same index, or if both are
  at the end of their sources (`SamePlace`).
-/
import DwarfExpr.Proofs.Relocation

namespace DwarfExpr

/-! ### Likeness -/

/-- The same token, or the same number, which may be spelled differently. -/
inductive Token.Alike : Token → Token → Prop
  | same (token : Token) : Alike token token
  | number (radix radix' : Radix) (value : Value) :
      Alike (.number radix value) (.number radix' value)

variable (P : Span → Span → Prop)

structure Spanned.Alike (x y : Spanned Token) : Prop where
  value : x.value.Alike y.value
  span : P x.span y.span

structure Literal.Alike (l m : Literal) : Prop where
  value : l.value = m.value
  span : P l.span m.span

structure Arguments.Alike (a b : Arguments) : Prop where
  opening : P a.opening b.opening
  operands : List.Forall₂ (Literal.Alike P) a.operands b.operands
  closing : P a.closing b.closing

structure Call.Alike (c d : Call) : Prop where
  operation : c.operation = d.operation
  span : P c.span d.span
  arguments : Option.Rel (Arguments.Alike P) c.arguments d.arguments

structure OpenCall.Alike (c d : OpenCall) : Prop where
  operation : c.operation = d.operation
  span : P c.span d.span
  opening : P c.opening d.opening
  operands : List.Forall₂ (Literal.Alike P) c.operands d.operands

inductive State.Alike : State → State → Prop
  | between : Alike between between
  | named {op : Operation} {span span' : Span} (h : P span span') :
      Alike (named op span) (named op span')
  | opened {c d : OpenCall} (h : c.Alike P d) : Alike (opened c) (opened d)
  | valued {c d : OpenCall} (h : c.Alike P d) : Alike (valued c) (valued d)
  | separated {c d : OpenCall} (h : c.Alike P d) : Alike (separated c) (separated d)

structure StepAlike (step step' : List Call × State) : Prop where
  calls : List.Forall₂ (Call.Alike P) step.1 step'.1
  state : step.2.Alike P step'.2

structure Break.Alike (a b : Break) : Prop where
  state : a.state.Alike P b.state
  found : Option.Rel (Spanned.Alike P) a.found b.found

structure ReadAlike (read read' : List Call × Option Break) : Prop where
  calls : List.Forall₂ (Call.Alike P) read.1 read'.1
  broken : Option.Rel (Break.Alike P) read.2 read'.2

variable {P}

/-! ### Reading -/

theorem OpenCall.Alike.push {c d : OpenCall} (h : c.Alike P d) {l m : Literal} (hl : l.Alike P m) :
    (c.push l).Alike P (d.push m) where
  operation := h.operation
  span := h.span
  opening := h.opening
  operands := List.rel_append h.operands (.cons hl .nil)

theorem OpenCall.Alike.close {c d : OpenCall} (h : c.Alike P d) {closing closing' : Span}
    (hclosing : P closing closing') : (c.close closing).Alike P (d.close closing') where
  operation := h.operation
  span := h.span
  arguments := .some ⟨h.opening, h.operands, hclosing⟩

namespace State.Alike

variable {s s' : State}

theorem expected_eq (h : s.Alike P s') : s.expected = s'.expected := by
  cases h <;> rfl

theorem finished (h : s.Alike P s') :
    List.Forall₂ (Call.Alike P) s.finished s'.finished := by
  cases h with
  | named hspan => exact .cons ⟨rfl, hspan, .none⟩ .nil
  | _ => exact .nil

theorem openCall (h : s.Alike P s') :
    Option.Rel (OpenCall.Alike P) s.openCall? s'.openCall? := by
  cases h with
  | between => exact .none
  | named hspan => exact .none
  | opened hc => exact .some hc
  | valued hc => exact .some hc
  | separated hc => exact .some hc

theorem next_number (h : s.Alike P s') (radix radix' : Radix) (value : Value) {place place' : Span}
    (hplace : P place place') :
    Option.Rel (StepAlike P) (s.next ⟨.number radix value, place⟩)
      (s'.next ⟨.number radix' value, place'⟩) := by
  cases h with
  | between => exact .none
  | named hspan => exact .none
  | valued hc => exact .none
  | opened hc => exact .some ⟨.nil, .valued (hc.push ⟨rfl, hplace⟩)⟩
  | separated hc => exact .some ⟨.nil, .valued (hc.push ⟨rfl, hplace⟩)⟩

/-- **One step**: alike tokens are both refused, or lead on alike. -/
theorem next (h : s.Alike P s') {x y : Spanned Token} (hxy : x.Alike P y) :
    Option.Rel (StepAlike P) (s.next x) (s'.next y) := by
  obtain ⟨token, place⟩ := x
  obtain ⟨token', place'⟩ := y
  obtain ⟨hvalue, hplace : P place place'⟩ := hxy
  dsimp only at hvalue
  cases hvalue with
  | number radix radix' value => exact h.next_number radix radix' value hplace
  | same =>
    cases token with
    | number radix value => exact h.next_number radix radix value hplace
    | operation op =>
      cases h with
      | between => exact .some ⟨.nil, .named hplace⟩
      | named hspan => exact .some ⟨.cons ⟨rfl, hspan, .none⟩ .nil, .named hplace⟩
      | _ => exact .none
    | leftParen =>
      cases h with
      | named hspan => exact .some ⟨.nil, .opened ⟨rfl, hspan, hplace, .nil⟩⟩
      | _ => exact .none
    | rightParen =>
      cases h with
      | opened hc => exact .some ⟨.cons (hc.close hplace) .nil, .between⟩
      | valued hc => exact .some ⟨.cons (hc.close hplace) .nil, .between⟩
      | _ => exact .none
    | comma =>
      cases h with
      | valued hc => exact .some ⟨.nil, .separated hc⟩
      | _ => exact .none

/-- **A whole run**: alike tokens are read as alike calls, and break off alike. -/
theorem run (h : s.Alike P s') {tokens tokens' : List (Spanned Token)}
    (htokens : List.Forall₂ (Spanned.Alike P) tokens tokens') :
    ReadAlike P (s.run tokens) (s'.run tokens') := by
  induction htokens generalizing s s' with
  | nil =>
    rw [State.run, State.run, h.expected_eq]
    refine ⟨h.finished, ?_⟩
    dsimp only
    split
    · exact .none
    · exact .some ⟨h, .none⟩
  | @cons x y tokens tokens' hxy _ ih =>
    have hstep := h.next hxy
    rw [State.run, State.run]
    generalize s.next x = step at hstep
    generalize s'.next y = step' at hstep
    cases hstep with
    | none => exact ⟨h.finished, .some ⟨h, .some hxy⟩⟩
    | some hstep =>
      have hrest := ih hstep.state
      exact ⟨List.rel_append hstep.calls hrest.calls, hrest.broken⟩

end State.Alike

/-! ### What comes behind -/

theorem Break.Alike.span {a b : Break} (h : a.Alike P b) {ending ending' : Span}
    (hending : P ending ending') :
    P (a.span ending) (b.span ending') := by
  obtain ⟨s, found⟩ := a
  obtain ⟨s', found'⟩ := b
  obtain ⟨-, hfound⟩ := h
  cases hfound with
  | none => exact hending
  | some hx => exact hx.span

theorem Break.Alike.stop {a b : Break} (h : a.Alike P b) {ending ending' : Span}
    (hending : P ending ending') :
    P (a.stop ending) (b.stop ending') := by
  have hopen := h.state.openCall
  have hspan := h.span hending
  simp only [Break.stop]
  generalize a.state.openCall? = c at hopen
  generalize b.state.openCall? = d at hopen
  cases hopen with
  | none => exact hspan
  | some hc => exact hc.span

theorem ReadAlike.span_following {read read' : List Call × Option Break}
    (h : ReadAlike P read read') {eos eos' ending ending' : Span} (heos : P eos eos')
    (hending : P ending ending') :
    P (following eos ending read) (following eos' ending' read') := by
  obtain ⟨calls, broken⟩ := read
  obtain ⟨calls', broken'⟩ := read'
  obtain ⟨hcalls, hbroken⟩ := h
  cases hcalls with
  | cons hc _ => exact hc.span
  | nil =>
    cases hbroken with
    | none => exact heos
    | some hplace => exact hplace.stop hending

/-! ### Encoding -/

/-- Two faults at related spans. -/
def Located (P : Span → Span → Prop) {ε : Type} (e e' : Spanned ε) : Prop := P e.span e'.span

/-- The same result twice, or two faults at related spans. -/
inductive Agree (P : Span → Span → Prop) {ε α : Type} :
    Except (Spanned ε) α → Except (Spanned ε) α → Prop
  | ok (a : α) : Agree P (.ok a) (.ok a)
  | error {e e' : Spanned ε} (h : Located P e e') : Agree P (.error e) (.error e')

theorem Agree.map {ε α β : Type} {x y : Except (Spanned ε) α} (h : Agree P x y) (f : α → β) :
    Agree P (x.map f) (y.map f) := by
  cases h with
  | ok a => exact .ok (f a)
  | error hspan => exact .error hspan

section Encoding

variable [Host] (t : Target)

/-- Whether a literal is encoded, and into what, does not depend on its radix. -/
theorem Literal.encode_of_value_eq {l m : Literal} (h : l.value = m.value) (size : Nat)
    (kind : OperandKind) :
    (∃ bytes, l.encode t size kind = .ok bytes ∧ m.encode t size kind = .ok bytes) ∨
      ∃ e e', l.encode t size kind = .error e ∧ m.encode t size kind = .error e' := by
  have hsame (bytes : List UInt8) :
      l.encode t size kind = .ok bytes ↔ m.encode t size kind = .ok bytes := by
    rw [Literal.encode_eq_ok_iff, Literal.encode_eq_ok_iff, h]
  cases hl : l.encode t size kind with
  | ok bytes => exact .inl ⟨bytes, rfl, (hsame bytes).1 hl⟩
  | error e =>
    cases hm : m.encode t size kind with
    | ok bytes =>
      rw [(hsame bytes).2 hm] at hl
      cases hl
    | error e' => exact .inr ⟨e, e', rfl, rfl⟩

theorem encodeOperands_alike {ls ms : List Literal} (h : List.Forall₂ (Literal.Alike P) ls ms)
    (size : Nat) (kinds : List OperandKind) :
    Agree P (encodeOperands t size kinds ls) (encodeOperands t size kinds ms) := by
  induction kinds generalizing size ls ms with
  | nil => cases h <;> exact .ok []
  | cons kind kinds ih =>
    cases h with
    | nil => exact .ok []
    | @cons l m ls ms hl hls =>
      have hrest := ih hls l.value.toInt.toNat
      rw [encodeOperands, encodeOperands, ← hl.value]
      rcases Literal.encode_of_value_eq t hl.value size kind with
        ⟨bytes, hok, hok'⟩ | ⟨e, e', he, he'⟩
      · rw [hok, hok']
        exact hrest.map (bytes ++ ·)
      · rw [he, he']
        exact .error hl.span

/-- **Alike calls are encoded alike.** -/
theorem Call.Alike.encode {c d : Call} (h : c.Alike P d) {following following' : Span}
    (hfollowing : P following following') :
    Agree P (c.encode t following) (d.encode t following') := by
  obtain ⟨⟨name, code, kinds⟩, span, arguments⟩ := c
  obtain ⟨op, span', arguments'⟩ := d
  obtain ⟨rfl, -, harguments⟩ := h
  cases harguments with
  | none =>
    cases kinds with
    | nil => exact .ok [code]
    | cons kind kinds => exact .error hfollowing
  | @some a b hab =>
    cases kinds with
    | nil => exact .error hab.opening
    | cons kind kinds =>
      have hoperands := encodeOperands_alike t hab.operands 0 (kind :: kinds)
      have hextra := List.forall₂_drop (kinds.length + 1) hab.operands
      simp only [Call.encode, hab.operands.length_eq]
      generalize encodeOperands t 0 (kind :: kinds) a.operands = result at hoperands
      generalize encodeOperands t 0 (kind :: kinds) b.operands = result' at hoperands
      generalize a.operands.drop (kinds.length + 1) = extra at hextra
      generalize b.operands.drop (kinds.length + 1) = extra' at hextra
      cases hoperands with
      | error hspan => exact .error hspan
      | ok bytes =>
        dsimp only
        split
        · exact .error hab.closing
        · cases hextra with
          | nil => exact .ok _
          | cons hl _ => exact .error hl.span

theorem OpenCall.Alike.check {c d : OpenCall} (h : c.Alike P d) :
    Agree P (c.check t) (d.check t) := by
  have hoperands := encodeOperands_alike t h.operands 0 c.operation.operands
  have hextra := List.forall₂_drop c.operation.operands.length h.operands
  simp only [OpenCall.check, ← h.operation]
  generalize encodeOperands t 0 c.operation.operands c.operands = result at hoperands
  generalize encodeOperands t 0 c.operation.operands d.operands = result' at hoperands
  generalize c.operands.drop c.operation.operands.length = extra at hextra
  generalize d.operands.drop c.operation.operands.length = extra' at hextra
  cases hoperands with
  | error hspan => exact .error hspan
  | ok bytes =>
    cases hextra with
    | nil => exact .ok ()
    | cons hl _ => exact .error hl.span

theorem OpenCall.Alike.fault {c d : OpenCall} (h : c.Alike P d) :
    Option.Rel (Located P) (c.fault t) (d.fault t) := by
  have hcheck := h.check t
  rw [OpenCall.fault, OpenCall.fault, ← h.operation]
  split
  · exact .some h.opening
  · generalize c.check t = result at hcheck
    generalize d.check t = result' at hcheck
    cases hcheck with
    | ok u => exact .none
    | error hspan => exact .some hspan

/-! ### The first fault -/

theorem Break.Alike.fault {a b : Break} (h : a.Alike P b) {ending ending' : Span}
    (hending : P ending ending') : Located P (a.fault t ending) (b.fault t ending') := by
  have hopen : Option.Rel (Located P) (a.state.openCall?.bind (OpenCall.fault t))
      (b.state.openCall?.bind (OpenCall.fault t)) := by
    have hcalls := h.state.openCall
    generalize a.state.openCall? = c at hcalls
    generalize b.state.openCall? = d at hcalls
    cases hcalls with
    | none => exact .none
    | some hc => exact hc.fault t
  rw [Break.fault, Break.fault]
  generalize a.state.openCall?.bind (OpenCall.fault t) = fault at hopen
  generalize b.state.openCall?.bind (OpenCall.fault t) = fault' at hopen
  cases hopen with
  | none => exact h.span hending
  | some hspan => exact hspan

/-- **What is read alike has its first fault at related spans**, or has none. -/
theorem ReadAlike.located_firstFault {read read' : List Call × Option Break}
    (h : ReadAlike P read read') {eos eos' ending ending' : Span} (heos : P eos eos')
    (hending : P ending ending') :
    Option.Rel (Located P) (firstFault t eos ending read) (firstFault t eos' ending' read') := by
  obtain ⟨calls, broken⟩ := read
  obtain ⟨calls', broken'⟩ := read'
  obtain ⟨hcalls, hbroken⟩ := h
  dsimp only at hcalls hbroken
  induction hcalls with
  | nil =>
    cases hbroken with
    | none => exact .none
    | some hplace => exact .some (hplace.fault t hending)
  | @cons c d calls calls' hc hcalls ih =>
    have hread : ReadAlike P (calls, broken) (calls', broken') := ⟨hcalls, hbroken⟩
    have hencode := hc.encode t (hread.span_following heos hending)
    generalize hresult : c.encode t (following eos ending (calls, broken)) = result at hencode
    generalize hresult' : d.encode t (following eos' ending' (calls', broken')) = result' at hencode
    cases hencode with
    | error hspan =>
      rw [firstFault_cons_of_error hresult, firstFault_cons_of_error hresult']
      exact .some hspan
    | ok bytes =>
      rw [firstFault_cons_of_admitted (Call.encode_eq_ok_iff.1 hresult).1,
        firstFault_cons_of_admitted (Call.encode_eq_ok_iff.1 hresult').1]
      exact ih

end Encoding

/-! ### Bytes -/

theorem Call.Alike.bytes_eq {c d : Call} (h : c.Alike P d) (t : Target) :
    c.bytes t = d.bytes t := by
  obtain ⟨op, span, arguments⟩ := c
  obtain ⟨op', span', arguments'⟩ := d
  obtain ⟨rfl, -, harguments⟩ := h
  cases harguments with
  | none => rfl
  | @some a b hab =>
    have hvalues : a.operands.map (·.value) = b.operands.map (·.value) := by
      have hsame : List.Forall₂ (fun l m : Literal => l.value = m.value) a.operands b.operands :=
        hab.operands.imp fun _ _ hl => hl.value
      rw [← List.forall₂_eq_eq_eq, List.forall₂_map_left_iff, List.forall₂_map_right_iff]
      exact hsame
    simp only [Call.bytes, Call.pieces, Call.values, hvalues]

theorem flatMap_bytes_of_alike {calls calls' : List Call}
    (h : List.Forall₂ (Call.Alike P) calls calls') (t : Target) :
    calls.flatMap (Call.bytes t) = calls'.flatMap (Call.bytes t) := by
  induction h with
  | nil => rfl
  | cons hc _ ih => rw [List.flatMap_cons, List.flatMap_cons, hc.bytes_eq, ih]

/-! ### Two sources -/

/-- The spans of the tokens with one index, or two spans at the ends of the sources. -/
inductive SamePlace (source source' : String) (tokens tokens' : List (Spanned Token)) :
    Span → Span → Prop
  | token {i : Nat} {x y : Spanned Token} (hx : tokens[i]? = some x) (hy : tokens'[i]? = some y) :
      SamePlace source source' tokens tokens' x.span y.span
  | ending {span span' : Span} (h : span.start = source.utf8ByteSize)
      (h' : span'.start = source'.utf8ByteSize) :
      SamePlace source source' tokens tokens' span span'

theorem samePlace_tokens (source source' : String) {tokens tokens' : List (Spanned Token)}
    (h : List.Forall₂ (fun x y => x.value.Alike y.value) tokens tokens') :
    List.Forall₂ (Spanned.Alike (SamePlace source source' tokens tokens')) tokens tokens' := by
  apply List.forall₂_of_length_eq_of_get h.length_eq
  intro i hi hi'
  exact ⟨h.get hi hi', .token (List.getElem?_eq_getElem hi) (List.getElem?_eq_getElem hi')⟩

theorem kind_of_firstFault [Host] {t : Target} {eos ending : Span}
    {read : List Call × Option Break} {fault : Spanned Cause}
    (h : firstFault t eos ending read = some fault) (source : String) :
    (Diagnostic.ofSource source fault.value fault.span).kind = .parse := by
  obtain ⟨calls, broken⟩ := read
  unfold firstFault at h
  split at h
  · obtain rfl := Option.some.inj h
    rfl
  · obtain ⟨place, -, rfl⟩ := Option.map_eq_some_iff.1 h
    rw [Break.fault]
    split <;> rfl

/-- **Layout, comments and the spelling of numbers do not matter.** Two sources with the same
    tokens, up to their places and up to how numbers are spelled, are assembled into the same
    bytecode, or both have a syntax or encoding error, at tokens with the same index or at the ends
    of both sources. -/
theorem assemble_spelling [Host] (t : Target) {source source' : String}
    {tokens tokens' : List (Spanned Token)} (htokens : tokenize source = .ok tokens)
    (htokens' : tokenize source' = .ok tokens')
    (h : List.Forall₂ (fun x y => x.value.Alike y.value) tokens tokens') :
    (∃ b, assemble t source = .ok b ∧ assemble t source' = .ok b) ∨
      ∃ d d', assemble t source = .error d ∧ assemble t source' = .error d' ∧
        d.kind = .parse ∧ d'.kind = .parse ∧
        SamePlace source source' tokens tokens' d.span d'.span := by
  have hread := State.Alike.between.run (samePlace_tokens source source' h)
  have heos : SamePlace source source' tokens tokens' (endOfSource source) (endOfSource source') :=
    .ending rfl rfl
  have hending : SamePlace source source' tokens tokens' (endOfInput source.utf8ByteSize tokens)
      (endOfInput source'.utf8ByteSize tokens') :=
    .ending (start_endOfInput _ _) (start_endOfInput _ _)
  have hfaults := hread.located_firstFault t heos hending
  generalize hfault : firstFault t (endOfSource source) (endOfInput source.utf8ByteSize tokens)
    (State.between.run tokens) = fault at hfaults
  generalize hfault' : firstFault t (endOfSource source') (endOfInput source'.utf8ByteSize tokens')
    (State.between.run tokens') = fault' at hfaults
  cases hfaults with
  | some hspan =>
    right
    refine ⟨_, _, (assemble_eq_error_iff htokens).2 ⟨_, hfault, rfl⟩,
      (assemble_eq_error_iff htokens').2 ⟨_, hfault', rfl⟩, ?_, ?_, hspan⟩
    · exact kind_of_firstFault hfault source
    · exact kind_of_firstFault hfault' source'
  | none =>
    left
    obtain ⟨calls, hrun, -, hb⟩ := assemble_of_firstFault_eq_none htokens hfault
    obtain ⟨calls', hrun', -, hb'⟩ := assemble_of_firstFault_eq_none htokens' hfault'
    rw [hrun, hrun'] at hread
    rw [← flatMap_bytes_of_alike hread.calls t] at hb'
    exact ⟨_, hb, hb'⟩

/-- A number that is too wide, in decimal and in hexadecimal, behind a comment. -/
theorem assemble_spelling_too_wide :
    ∃ tokens tokens', tokenize "DW_OP_const1u(256)" = .ok tokens ∧
      tokenize "DW_OP_const1u # wide\n( 0x0100 )" = .ok tokens' ∧
      ∃ d d', assemble {} "DW_OP_const1u(256)" = .error d ∧
        assemble {} "DW_OP_const1u # wide\n( 0x0100 )" = .error d' ∧
        d.kind = .parse ∧ d'.kind = .parse ∧
        SamePlace "DW_OP_const1u(256)" "DW_OP_const1u # wide\n( 0x0100 )" tokens tokens'
          d.span d'.span := by
  have htokens : tokenize "DW_OP_const1u(256)" =
      .ok [⟨.operation ⟨"DW_OP_const1u", 0x08, [.unsigned .bits8]⟩, ⟨0, 13⟩⟩,
        ⟨.leftParen, ⟨13, 14⟩⟩, ⟨.number .decimal (.ofNat 256), ⟨14, 17⟩⟩,
        ⟨.rightParen, ⟨17, 18⟩⟩] := by
    decide +kernel
  have htokens' : tokenize "DW_OP_const1u # wide\n( 0x0100 )" =
      .ok [⟨.operation ⟨"DW_OP_const1u", 0x08, [.unsigned .bits8]⟩, ⟨0, 13⟩⟩,
        ⟨.leftParen, ⟨21, 22⟩⟩, ⟨.number .hexadecimal (.ofNat 256), ⟨23, 29⟩⟩,
        ⟨.rightParen, ⟨30, 31⟩⟩] := by
    decide +kernel
  have hrefused : ∀ b, assemble {} "DW_OP_const1u(256)" ≠ .ok b := by
    have herror : (assemble {} "DW_OP_const1u(256)").isOk = false := by decide +kernel
    intro b hb
    rw [hb] at herror
    cases herror
  rcases assemble_spelling {} htokens htokens'
    (.cons (.same _) (.cons (.same _) (.cons (.number ..) (.cons (.same _) .nil)))) with
    ⟨b, hb, -⟩ | hfaults
  · exact absurd hb (hrefused b)
  · exact ⟨_, _, htokens, htokens', hfaults⟩

end DwarfExpr
