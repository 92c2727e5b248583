/-
  DwarfExpr/Proofs/Log.lean
  =========================
  **The log tells the truth about the output.** Events are logged at every step: when the source has
  been cut into tokens, when these break off, when a call has been encoded, when one cannot be, and
  at the end.  Whatever becomes of a source, the events are those of what was done:

    * the calls that are logged are the calls that were read, in their order and with their bytes,
      up to the first that cannot be encoded (`Reading.exists_encoded`);
    * one event tells what the encoder refused, if anything (`Reading.fault_eq_some_iff`);
    * the log has a syntax error exactly if the tokens are no sentence, and its last event is the
      result.

  All this is said of the messages as they are written (`TellsOutput`, `TellsFailure`).  They are
  told apart by the words that they begin with, as a reader of the log has to do it.
-/
import DwarfExpr.Proofs.Assembly
import DwarfExpr.Proofs.Sentence

namespace DwarfExpr

/-! ### Events by their messages -/

namespace Event

/-- The messages of a log that begin with these words. -/
def messages (words : String) (log : List Event) : List String :=
  (log.filterMap message).filter fun m => words.toList.isPrefixOf m.toList

/-- The event has a message, and this begins with these words. -/
def begins (words : String) (e : Event) : Bool :=
  e.message.any fun m => words.toList.isPrefixOf m.toList

theorem messages_eq (words : String) (log : List Event) :
    messages words log = (log.filter (begins words)).filterMap message := by
  rw [messages, List.filter_filterMap, List.filterMap_filter]
  refine List.filterMap_congr fun e _ => ?_
  cases hmessage : e.message with
  | none => simp
  | some m => simp [begins, hmessage, Option.filter_some]

/-- What every message of an event of this sort begins with. -/
def opening : Event → Option String
  | started .. => none
  | lexicalError _ => "lexical error at "
  | tokenized _ => "input contains "
  | syntaxError _ => "syntax error at "
  | encodeError _ => "cannot encode operand at "
  | encoded .. => "encoded "
  | assembled _ => "assembled "
  | failed _ => "assembly failed: "

theorem exists_message_eq (e : Event) : ∃ rest, e.message = e.opening.map (· ++ rest) := by
  cases e with
  | started => exact ⟨"", rfl⟩
  | _ => unfold message opening; simp only [String.append_assoc]; exact ⟨_, rfl⟩

theorem exists_begins_eq (words : String) (e : Event) :
    ∃ rest, e.begins words = e.opening.any fun o => words.toList.isPrefixOf (o.toList ++ rest) := by
  obtain ⟨rest, hrest⟩ := e.exists_message_eq
  refine ⟨rest.toList, ?_⟩
  rw [begins, hrest, Option.any_map]
  simp only [String.toList_append]

@[simp] theorem begins_encoded_iff {e : Event} :
    e.begins "encoded " = true ↔ ∃ call bytes, e = encoded call bytes := by
  obtain ⟨rest, hrest⟩ := exists_begins_eq "encoded " e
  rw [hrest]
  cases e <;> simp [opening, List.isPrefixOf]

@[simp] theorem begins_encodeError_iff {e : Event} :
    e.begins "cannot encode operand" = true ↔ ∃ fault, e = encodeError fault := by
  obtain ⟨rest, hrest⟩ := exists_begins_eq "cannot encode operand" e
  rw [hrest]
  cases e <;> simp [opening, List.isPrefixOf]

@[simp] theorem begins_syntaxError_iff {e : Event} :
    e.begins "syntax error" = true ↔ ∃ fault, e = syntaxError fault := by
  obtain ⟨rest, hrest⟩ := exists_begins_eq "syntax error" e
  rw [hrest]
  cases e <;> simp [opening, List.isPrefixOf]

theorem filter_map_of_forall {α : Type} {f : α → Event} {q : Event → Bool}
    (h : ∀ x, q (f x) = true) (xs : List α) : (xs.map f).filter q = xs.map f := by
  apply List.filter_eq_self.2
  intro e he
  obtain ⟨x, -, rfl⟩ := List.mem_map.1 he
  exact h x

theorem filter_map_of_forall_not {α : Type} {f : α → Event} {q : Event → Bool}
    (h : ∀ x, ¬ q (f x) = true) (xs : List α) : (xs.map f).filter q = [] := by
  apply List.filter_eq_nil_iff.2
  intro e he
  obtain ⟨x, -, rfl⟩ := List.mem_map.1 he
  exact h x

end Event

/-! ### What the encoder is given -/

/-- What is read of a source: complete calls, the span of what comes behind them, and then a call
    with an open list, if its operation takes operands. -/
structure Reading where
  calls : List Call
  stop : Span
  incomplete : Option OpenCall

namespace Reading

/-- All calls of an expression, or what there is of one that breaks off. -/
def ofTokens (source : String) (tokens : List (Spanned Token)) : Reading :=
  match parse source.utf8ByteSize tokens with
  | .ok calls => ⟨calls, endOfSource source, none⟩
  | .error e => ⟨e.calls, e.stop, e.incomplete⟩

/-- What is wrong with the literals of the open list. -/
def openFault [Host] (t : Target) (r : Reading) : Option (Spanned EncodeFault) :=
  r.incomplete.bind fun c =>
    match c.check t with
    | .error fault => some fault
    | .ok () => none

/-- How far the calls and then the open list are encoded. -/
def progress [Host] (t : Target) (r : Reading) : Progress :=
  let p := encodeCalls t r.stop r.calls
  ⟨p.encoded, p.fault.or (r.openFault t)⟩

/-- The encoder refuses a call that cannot be encoded, and nothing before it; or, if all calls can
    be, a literal of the open list. -/
inductive Refused [Host] (t : Target) : Reading → Spanned EncodeFault → Prop
  | call {c : Call} {calls : List Call} {stop : Span} {incomplete : Option OpenCall}
      {fault : Spanned EncodeFault}
      (h : c.encode t ((calls.head?.map Call.span).getD stop) = .error fault) :
      Refused t ⟨c :: calls, stop, incomplete⟩ fault
  | later {c : Call} {calls : List Call} {stop : Span} {incomplete : Option OpenCall}
      {fault : Spanned EncodeFault} (hc : c.Admitted t)
      (h : Refused t ⟨calls, stop, incomplete⟩ fault) :
      Refused t ⟨c :: calls, stop, incomplete⟩ fault
  | openList {c : OpenCall} {stop : Span} {fault : Spanned EncodeFault}
      (h : c.check t = .error fault) : Refused t ⟨[], stop, some c⟩ fault

/-- The calls before the first one that cannot be encoded, or all calls if there is none. -/
structure UpToRefusal [Host] (t : Target) (calls done : List Call) : Prop where
  admitted : ∀ c ∈ done, c.Admitted t
  rest : done = calls ∨ ∃ c rest, calls = done ++ c :: rest ∧ ¬ c.Admitted t

theorem UpToRefusal.eq_of_forall [Host] {t : Target} {calls done : List Call}
    (h : UpToRefusal t calls done) (hall : ∀ c ∈ calls, c.Admitted t) : done = calls := by
  rcases h.rest with hdone | ⟨c, rest, rfl, hnot⟩
  · exact hdone
  · exact absurd (hall c (by simp)) hnot

section Progress

variable [Host] {t : Target} {c : Call} {calls : List Call} {stop : Span}
  {incomplete : Option OpenCall} {fault : Spanned EncodeFault}

theorem openFault_eq_some_iff {r : Reading} :
    r.openFault t = some fault ↔ ∃ c, r.incomplete = some c ∧ c.check t = .error fault := by
  rw [openFault, Option.bind_eq_some_iff]
  refine exists_congr fun c => and_congr_right fun _ => ?_
  cases c.check t <;> simp

/-- **One step** of the encoder. -/
theorem progress_cons :
    progress t ⟨c :: calls, stop, incomplete⟩ =
      match c.encode t ((calls.head?.map Call.span).getD stop) with
      | .error fault => ⟨[], some fault⟩
      | .ok bytes =>
        ⟨(c, bytes) :: (progress t ⟨calls, stop, incomplete⟩).encoded,
          (progress t ⟨calls, stop, incomplete⟩).fault⟩ := by
  have hstep : encodeCalls t stop (c :: calls) =
      match c.encode t ((calls.head?.map Call.span).getD stop) with
      | .error fault => ⟨[], some fault⟩
      | .ok bytes =>
        ⟨(c, bytes) :: (encodeCalls t stop calls).encoded, (encodeCalls t stop calls).fault⟩ := by
    cases calls <;> rfl
  simp only [progress, hstep]
  cases c.encode t ((calls.head?.map Call.span).getD stop) <;> rfl

theorem not_admitted_of_encode_eq_error {following : Span}
    (h : c.encode t following = .error fault) : ¬ c.Admitted t := by
  intro hadmitted
  rw [Call.encode_eq_ok_iff.2 ⟨hadmitted, rfl⟩] at h
  cases h

/-- **What stops the encoder.** -/
theorem fault_eq_some_iff {r : Reading} :
    (r.progress t).fault = some fault ↔ r.Refused t fault := by
  obtain ⟨calls, stop, incomplete⟩ := r
  induction calls with
  | nil =>
    have hnil : (progress t ⟨[], stop, incomplete⟩).fault =
        openFault t ⟨[], stop, incomplete⟩ := rfl
    rw [hnil, openFault_eq_some_iff]
    constructor
    · rintro ⟨c, rfl, hcheck⟩
      exact .openList hcheck
    · rintro ⟨⟩
      exact ⟨_, rfl, ‹_›⟩
  | cons c calls ih =>
    rw [progress_cons]
    cases hc : c.encode t ((calls.head?.map Call.span).getD stop) with
    | error e =>
      constructor
      · intro h
        obtain rfl : e = fault := Option.some.inj h
        exact .call hc
      · intro h
        cases h with
        | call h => simp_all
        | later hadmitted h => exact absurd hadmitted (not_admitted_of_encode_eq_error hc)
    | ok bytes =>
      obtain ⟨hadmitted, -⟩ := Call.encode_eq_ok_iff.1 hc
      simp only [ih]
      constructor
      · exact .later hadmitted
      · intro h
        cases h with
        | call h => simp [hc] at h
        | later _ h => exact h

theorem fault_eq_none_of_not_refused {r : Reading} (h : ¬ ∃ fault, r.Refused t fault) :
    (r.progress t).fault = none := by
  by_contra hsome
  obtain ⟨fault, hfault⟩ := Option.ne_none_iff_exists'.1 hsome
  exact h ⟨fault, fault_eq_some_iff.1 hfault⟩

/-- **Which calls are encoded**, and into what. -/
theorem exists_encoded (t : Target) (r : Reading) :
    ∃ done, UpToRefusal t r.calls done ∧
      (r.progress t).encoded = done.map fun c => (c, c.bytes t) := by
  obtain ⟨calls, stop, incomplete⟩ := r
  induction calls with
  | nil => exact ⟨[], ⟨by simp, .inl rfl⟩, rfl⟩
  | cons c calls ih =>
    rw [progress_cons]
    cases hc : c.encode t ((calls.head?.map Call.span).getD stop) with
    | error e =>
      have hnot := not_admitted_of_encode_eq_error hc
      exact ⟨[], ⟨by simp, .inr ⟨c, calls, rfl, hnot⟩⟩, rfl⟩
    | ok bytes =>
      obtain ⟨hadmitted, rfl⟩ := Call.encode_eq_ok_iff.1 hc
      obtain ⟨done, hdone, hencoded⟩ := ih
      refine ⟨c :: done, ⟨?_, ?_⟩, by simp [hencoded]⟩
      · simpa [hadmitted] using hdone.admitted
      · rcases hdone.rest with rfl | ⟨d, rest, rfl, hnot⟩
        · exact .inl rfl
        · exact .inr ⟨d, rest, rfl, hnot⟩

end Progress

end Reading

/-! ### The log of a source -/

/-- The syntax error of tokens that break off. -/
def breakFault (source : String) (tokens : List (Spanned Token)) : Option (Spanned SyntaxFault) :=
  match parse source.utf8ByteSize tokens with
  | .ok _ => none
  | .error e => some e.fault

theorem breakFault_eq_none_iff {source : String} {tokens : List (Spanned Token)} :
    breakFault source tokens = none ↔ Sentence (tokens.map (·.value)) := by
  rw [← @exists_parse_iff_sentence source.utf8ByteSize, breakFault]
  cases parse source.utf8ByteSize tokens <;> simp

section Log

variable [Host] {t : Target} {source : String} {tokens : List (Spanned Token)}

theorem encodeCalls_eq (t : Target) (stop : Span) (calls : List Call) :
    encodeCalls t stop calls = Reading.progress t ⟨calls, stop, none⟩ := by
  simp [Reading.progress, Reading.openFault]

theorem upToBreak_eq (t : Target) (e : SyntaxError) :
    Assembly.upToBreak t e = Reading.progress t ⟨e.calls, e.stop, e.incomplete⟩ := by
  simp only [Assembly.upToBreak, Reading.progress, Reading.openFault]
  obtain ⟨encoded, fault⟩ := encodeCalls t e.stop e.calls
  cases fault with
  | some fault => rfl
  | none =>
    cases e.incomplete with
    | none => rfl
    | some c => cases hcheck : c.check t <;> simp [hcheck]

/-- **The log**, event by event, of a source that has tokens. -/
theorem log_eq (htokens : tokenize source = .ok tokens) :
    (assembly t source).log = .started source.utf8ByteSize t :: .tokenized tokens.length ::
      ((breakFault source tokens).toList.map .syntaxError ++
        ((Reading.ofTokens source tokens).progress t).events) ++
          [(assembly t source).lastEvent] := by
  simp only [assembly, Assembly.ofSource, htokens, breakFault, Reading.ofTokens]
  cases parse source.utf8ByteSize tokens with
  | ok calls =>
    rw [← encodeCalls_eq]
    rfl
  | error e =>
    rw [← upToBreak_eq]
    rfl

/-- **The result** of a source that has tokens. -/
theorem assemble_eq (htokens : tokenize source = .ok tokens) :
    assemble t source =
      match ((Reading.ofTokens source tokens).progress t).fault with
      | some fault => .error (.ofSource source (.encoding fault.value) fault.span)
      | none =>
        match parse source.utf8ByteSize tokens with
        | .ok _ => .ok ((Reading.ofTokens source tokens).progress t).bytes
        | .error e => .error (e.diagnostic source) := by
  simp only [assemble, assembly, Assembly.ofSource, htokens, Reading.ofTokens]
  cases parse source.utf8ByteSize tokens with
  | ok calls =>
    rw [← encodeCalls_eq]
    rfl
  | error e =>
    simp only [Assembly.ofBreak, upToBreak_eq]
    cases (Reading.progress t ⟨e.calls, e.stop, e.incomplete⟩).fault <;> rfl

/-- Reading and encoding have events of three sorts; what stands before and behind these is of other
    sorts. -/
theorem filter_log {q : Event → Bool} (htokens : tokenize source = .ok tokens)
    (hstarted : ∀ bytes target, ¬ q (.started bytes target) = true)
    (htokenized : ∀ count, ¬ q (.tokenized count) = true)
    (hassembled : ∀ count, ¬ q (.assembled count) = true)
    (hfailed : ∀ d, ¬ q (.failed d) = true) :
    (assembly t source).log.filter q =
      ((breakFault source tokens).toList.map .syntaxError).filter q ++
        ((((Reading.ofTokens source tokens).progress t).encoded.map
            fun x => Event.encoded x.1 x.2).filter q ++
          (((Reading.ofTokens source tokens).progress t).fault.toList.map
            .encodeError).filter q) := by
  have hlast : ¬ q (assembly t source).lastEvent = true := by
    unfold Assembly.lastEvent
    cases (assembly t source).result with
    | ok bytes => exact hassembled bytes.length
    | error d => exact hfailed d
  rw [log_eq htokens, Progress.events, List.cons_append, List.cons_append,
    List.filter_cons_of_neg (hstarted _ _), List.filter_cons_of_neg (htokenized _),
    List.filter_append, List.filter_append, List.filter_append, List.filter_cons_of_neg hlast,
    List.filter_nil, List.append_nil]

theorem filter_encoded_log (htokens : tokenize source = .ok tokens) :
    (assembly t source).log.filter (Event.begins "encoded ") =
      ((Reading.ofTokens source tokens).progress t).encoded.map fun x => .encoded x.1 x.2 := by
  rw [filter_log htokens (by simp) (by simp) (by simp) (by simp),
    Event.filter_map_of_forall_not (by simp), Event.filter_map_of_forall (by simp),
    Event.filter_map_of_forall_not (by simp), List.nil_append, List.append_nil]

/-- The calls in the log are those that the encoder came to the end of. -/
theorem exists_messages_encoded (htokens : tokenize source = .ok tokens) :
    ∃ done, Reading.UpToRefusal t (Reading.ofTokens source tokens).calls done ∧
      Event.messages "encoded " (assembly t source).log =
        done.map fun c => s!"encoded {c.text} as {ByteText.list (c.bytes t)}" := by
  obtain ⟨done, hdone, hencoded⟩ := (Reading.ofTokens source tokens).exists_encoded t
  refine ⟨done, hdone, ?_⟩
  rw [Event.messages_eq, filter_encoded_log htokens, hencoded, List.map_map, List.filterMap_map]
  exact congrFun List.filterMap_eq_map done

theorem filter_encodeError_log (htokens : tokenize source = .ok tokens) :
    (assembly t source).log.filter (Event.begins "cannot encode operand") =
      ((Reading.ofTokens source tokens).progress t).fault.toList.map .encodeError := by
  rw [filter_log htokens (by simp) (by simp) (by simp) (by simp),
    Event.filter_map_of_forall_not (by simp), Event.filter_map_of_forall_not (by simp),
    Event.filter_map_of_forall (by simp), List.nil_append, List.nil_append]

theorem filter_syntaxError_log (htokens : tokenize source = .ok tokens) :
    (assembly t source).log.filter (Event.begins "syntax error") =
      (breakFault source tokens).toList.map .syntaxError := by
  rw [filter_log htokens (by simp) (by simp) (by simp) (by simp),
    Event.filter_map_of_forall (by simp), Event.filter_map_of_forall_not (by simp),
    Event.filter_map_of_forall_not (by simp), List.append_nil, List.append_nil]

theorem messages_syntaxError_eq_nil_iff (htokens : tokenize source = .ok tokens) :
    Event.messages "syntax error" (assembly t source).log = [] ↔
      Sentence (tokens.map (·.value)) := by
  rw [Event.messages_eq, filter_syntaxError_log htokens, ← breakFault_eq_none_iff]
  cases breakFault source tokens <;> simp [Event.message]

theorem getLast?_log (t : Target) (source : String) :
    (assembly t source).log.getLast? = some (assembly t source).lastEvent :=
  List.getLast?_concat

end Log

/-! ### What the log tells -/

/-- The log tells of an output: each call of the source was encoded, in the order of the source, and
    their bytes are the output.  The number of these comes last. -/
structure TellsOutput [Host] (t : Target) (source : String) (output : List UInt8)
    (log : List Event) : Prop where
  encoded : ∃ tokens calls, tokenize source = .ok tokens ∧ Spells tokens calls ∧
    Event.messages "encoded " log =
      calls.map (fun c => s!"encoded {c.text} as {ByteText.list (c.bytes t)}") ∧
    calls.flatMap (Call.bytes t) = output
  last : log.getLast?.bind Event.message = some s!"assembled {output.length} bytes"

/-- The log tells of a failure behind the tokens.  The calls that were read were encoded, up to the
    first that cannot be.  If the encoder refused something, then it is what the diagnostic is
    about, and there is one message for it; else there is none, and the diagnostic is that of the
    tokens.  A syntax error is told exactly if the tokens are no sentence.  The diagnostic comes
    last. -/
structure TellsFailure [Host] (t : Target) (source : String) (tokens : List (Spanned Token))
    (d : Diagnostic) (log : List Event) : Prop where
  encoded : ∃ done, Reading.UpToRefusal t (Reading.ofTokens source tokens).calls done ∧
    Event.messages "encoded " log =
      done.map fun c => s!"encoded {c.text} as {ByteText.list (c.bytes t)}"
  refused : ∀ fault, (Reading.ofTokens source tokens).Refused t fault →
    d = .ofSource source (.encoding fault.value) fault.span ∧
      Event.messages "cannot encode operand" log =
        [s!"cannot encode operand at {d.span.text}: {d.text}"]
  accepted : (¬ ∃ fault, (Reading.ofTokens source tokens).Refused t fault) →
    (∃ e, parse source.utf8ByteSize tokens = .error e ∧ d = e.diagnostic source) ∧
      Event.messages "cannot encode operand" log = []
  broken : Event.messages "syntax error" log ≠ [] ↔ ¬ Sentence (tokens.map (·.value))
  last : log.getLast?.bind Event.message = some s!"assembly failed: {d.message}"

section Tells

variable [Host] {t : Target} {source : String} {tokens : List (Spanned Token)} {d : Diagnostic}

/-- What the encoder refuses is what the diagnostic is about. -/
theorem assemble_of_refused (htokens : tokenize source = .ok tokens) {fault : Spanned EncodeFault}
    (h : (Reading.ofTokens source tokens).Refused t fault) :
    assemble t source = .error (.ofSource source (.encoding fault.value) fault.span) := by
  rw [assemble_eq htokens, Reading.fault_eq_some_iff.2 h]

/-- If the encoder refuses nothing, the tokens break off. -/
theorem exists_of_not_refused (htokens : tokenize source = .ok tokens)
    (hnot : ¬ ∃ fault, (Reading.ofTokens source tokens).Refused t fault)
    (h : assemble t source = .error d) :
    ∃ e, parse source.utf8ByteSize tokens = .error e ∧ d = e.diagnostic source := by
  rw [assemble_eq htokens, Reading.fault_eq_none_of_not_refused hnot] at h
  cases hparse : parse source.utf8ByteSize tokens with
  | ok calls => simp [hparse] at h
  | error e =>
    rw [hparse, Except.error.injEq] at h
    exact ⟨e, rfl, h.symm⟩

/-- Calls that can all be encoded are all in the log. -/
theorem messages_encoded_of_admitted (htokens : tokenize source = .ok tokens)
    {calls : List Call} (hcalls : parse source.utf8ByteSize tokens = .ok calls)
    (hadmitted : ∀ c ∈ calls, c.Admitted t) :
    Event.messages "encoded " (assembly t source).log =
      calls.map fun c => s!"encoded {c.text} as {ByteText.list (c.bytes t)}" := by
  obtain ⟨done, hdone, hencoded⟩ := @exists_messages_encoded _ t _ _ htokens
  have hread : (Reading.ofTokens source tokens).calls = calls := by
    rw [Reading.ofTokens, hcalls]
  rw [hread] at hdone
  rw [hencoded, hdone.eq_of_forall hadmitted]

end Tells

/-- **The log tells the truth about the output**, of a source that is assembled and of one that has
    tokens and is not. -/
theorem log_truthful [Host] (t : Target) (source : String) :
    (∀ output, assemble t source = .ok output →
      TellsOutput t source output (assembly t source).log) ∧
    ∀ tokens d, tokenize source = .ok tokens → assemble t source = .error d →
      TellsFailure t source tokens d (assembly t source).log := by
  constructor
  · intro output h
    have hresult : (assembly t source).result = .ok output := h
    obtain ⟨tokens, calls, htokens, hcalls, hadmitted, rfl⟩ := assemble_eq_ok_iff.1 h
    constructor
    · exact ⟨tokens, calls, htokens, spells_of_parse hcalls,
        messages_encoded_of_admitted htokens hcalls hadmitted, rfl⟩
    · rw [getLast?_log, Assembly.lastEvent, hresult]
      rfl
  · intro tokens d htokens h
    have hresult : (assembly t source).result = .error d := h
    constructor
    · exact exists_messages_encoded htokens
    · intro fault hrefused
      rw [assemble_of_refused htokens hrefused, Except.error.injEq] at h
      subst h
      rw [Event.messages_eq, filter_encodeError_log htokens,
        Reading.fault_eq_some_iff.2 hrefused]
      exact ⟨rfl, rfl⟩
    · intro hnot
      rw [Event.messages_eq, filter_encodeError_log htokens,
        Reading.fault_eq_none_of_not_refused hnot]
      exact ⟨exists_of_not_refused htokens hnot h, rfl⟩
    · exact (messages_syntaxError_eq_nil_iff htokens).not
    · rw [getLast?_log, Assembly.lastEvent, hresult]
      rfl

/-- A call that is encoded; and one behind another, whose list breaks off behind a literal that is
    too wide. -/
theorem log_truthful_open_list :
    assemble {} "DW_OP_const1u(1)" = .ok [0x08, 0x01] ∧
      TellsOutput {} "DW_OP_const1u(1)" [0x08, 0x01] (assembly {} "DW_OP_const1u(1)").log ∧
    ∃ tokens d fault, tokenize "DW_OP_lit1 DW_OP_const1u(256" = .ok tokens ∧
      assemble {} "DW_OP_lit1 DW_OP_const1u(256" = .error d ∧
      TellsFailure {} "DW_OP_lit1 DW_OP_const1u(256" tokens d
        (assembly {} "DW_OP_lit1 DW_OP_const1u(256").log ∧
      (Reading.ofTokens "DW_OP_lit1 DW_OP_const1u(256" tokens).Refused {} fault ∧
      fault = ⟨.tooWide 9 8, ⟨25, 28⟩⟩ := by
  have hok : assemble {} "DW_OP_const1u(1)" = .ok [0x08, 0x01] := by decide +kernel
  have htokens : tokenize "DW_OP_lit1 DW_OP_const1u(256" =
      .ok [⟨.operation ⟨"DW_OP_lit1", 0x31, []⟩, ⟨0, 10⟩⟩,
        ⟨.operation ⟨"DW_OP_const1u", 0x08, [.unsigned .bits8]⟩, ⟨11, 24⟩⟩, ⟨.leftParen, ⟨24, 25⟩⟩,
        ⟨.number .decimal (.ofNat 256), ⟨25, 28⟩⟩] := by
    decide +kernel
  have herror : assemble {} "DW_OP_lit1 DW_OP_const1u(256" =
      .error ⟨.encoding (.tooWide 9 8), ⟨25, 28⟩, ⟨1, 26⟩⟩ := by
    decide +kernel
  exact ⟨hok, (log_truthful {} _).1 _ hok, _, _, _, htokens, herror,
    (log_truthful {} _).2 _ _ htokens herror,
    Reading.fault_eq_some_iff.1 (by decide +kernel), rfl⟩

example : (assembly {} "DW_OP_lit1 DW_OP_const1u(256").log.filterMap Event.message =
    ["input contains 4 tokens",
      "syntax error at 28..28: expected one of ')', ',', found end of input",
      "encoded DW_OP_lit1 as [31]",
      "cannot encode operand at 25..28: operand value too large: needs 9 bits, width is 8",
      "assembly failed: line 1, column 26: operand value too large: needs 9 bits, width is 8"] := by
  decide +kernel

end DwarfExpr
