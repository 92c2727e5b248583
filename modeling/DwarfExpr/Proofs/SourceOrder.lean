/-
  DwarfExpr/Proofs/SourceOrder.lean
  =================================
  **Errors are reported in the order of the source.** An error at a token is settled by the tokens
  up to that one: whatever else follows, the same error is reported at the same place
  (`assemble_error_settled`).  Only the count in a message about too many literals looks ahead, so
  faults are compared without it (`EncodeFault.uncounted`).

  The assembler finds one and the same fault in different ways.  A literal out of range is found
  when its call is encoded, or when its list breaks off; a list that should not be there is found in
  two ways, too; and a name without its list is reported at whatever is read next.  `firstFault` is
  the fault of whatever was read, complete or not.  It is followed token by token:

    * `OpenCall.fault` is what is wrong with a list so far.  Once there is something wrong, it stays
      wrong in the same way, however the list goes on (`firstFault_of_fault`);
    * a state with nothing wrong so far is faultless.  The next token is refused whatever follows,
      or leads to a faultless state with the same first fault (`Faultless.step`);
    * so some token is refused, or the fault is at the end of the input (`Faultless.run`).
-/
import DwarfExpr.Proofs.Assembly
import DwarfExpr.Proofs.Lexeme

namespace DwarfExpr

/-! ### Faults without counts -/

/-- The fault less the count of literals when there are too many. -/
def EncodeFault.uncounted : EncodeFault → EncodeFault
  | tooMany op expected _ | tooManySoFar op expected _ => tooMany op expected 0
  | fault => fault

namespace Cause

def uncounted : Cause → Cause
  | encoding fault => encoding fault.uncounted
  | cause => cause

/-- There are more literals than the operation takes. -/
def TooMany (op : String) (expected : Nat) (cause : Cause) : Prop :=
  ∃ found, cause = encoding (.tooMany op expected found) ∨
    cause = encoding (.tooManySoFar op expected found)

/-- A syntax error where the input ends. -/
def foundEnd : Cause → Bool
  | grammar fault => fault.found.isNone
  | lexical _ | encoding _ => false

theorem eq_or_tooMany_of_uncounted_eq {c d : Cause} (h : c.uncounted = d.uncounted) :
    c = d ∨ ∃ op expected, c.TooMany op expected ∧ d.TooMany op expected := by
  cases c <;> cases d <;> simp only [uncounted, reduceCtorEq] at h
  case lexical.lexical => exact .inl h
  case grammar.grammar => exact .inl h
  case encoding.encoding f g =>
    rw [encoding.injEq] at h
    cases f <;> cases g <;> simp_all [EncodeFault.uncounted, TooMany]

end Cause

/-- A fault of encoding as a cause. -/
def Spanned.cause (fault : Spanned EncodeFault) : Spanned Cause :=
  ⟨.encoding fault.value, fault.span⟩

/-- What is settled of a fault by what comes before it. -/
def Spanned.settled (fault : Spanned Cause) : Spanned Cause := ⟨fault.value.uncounted, fault.span⟩

/-! ### Lists that grow -/

section Operands

variable [Host] {t : Target} {kinds : List OperandKind} {size : Nat} {ls : List Literal}
  {fault : Spanned EncodeFault}

theorem encodeOperands_append_of_error (h : encodeOperands t size kinds ls = .error fault)
    (more : List Literal) : encodeOperands t size kinds (ls ++ more) = .error fault := by
  induction kinds generalizing size ls with
  | nil => cases ls <;> simp [encodeOperands] at h
  | cons kind kinds ih =>
    cases ls with
    | nil => simp [encodeOperands] at h
    | cons l ls =>
      rw [List.cons_append, encodeOperands]
      rw [encodeOperands] at h
      cases hl : l.encode t size kind with
      | error e =>
        rw [hl] at h
        exact h
      | ok bytes =>
        simp only [hl, map_eq_error_iff] at h ⊢
        exact ih h

/-- Literals beyond those that the operation takes are not encoded. -/
theorem encodeOperands_append_of_le (h : kinds.length ≤ ls.length) (more : List Literal) :
    encodeOperands t size kinds (ls ++ more) = encodeOperands t size kinds ls := by
  induction kinds generalizing size ls with
  | nil => cases ls <;> cases more <;> rfl
  | cons kind kinds ih =>
    cases ls with
    | nil => simp at h
    | cons l ls =>
      have hrest := @ih l.value.toInt.toNat ls (Nat.le_of_succ_le_succ h)
      rw [List.cons_append, encodeOperands, encodeOperands, hrest]

/-- A literal that is added is the one that is at fault. -/
theorem span_of_encodeOperands_push {bytes : List UInt8} {l : Literal}
    (hok : encodeOperands t size kinds ls = .ok bytes)
    (h : encodeOperands t size kinds (ls ++ [l]) = .error fault) : fault.span = l.span := by
  induction kinds generalizing size ls bytes with
  | nil => cases ls <;> simp [encodeOperands] at h
  | cons kind kinds ih =>
    cases ls with
    | nil =>
      rw [List.nil_append, encodeOperands] at h
      cases hl : l.encode t size kind with
      | error e =>
        rw [hl, Except.error.injEq] at h
        rw [← h]
      | ok piece => cases kinds <;> simp [hl, encodeOperands, Except.map] at h
    | cons m ls =>
      rw [List.cons_append, encodeOperands] at h
      rw [encodeOperands] at hok
      cases hm : m.encode t size kind with
      | error e => simp [hm] at hok
      | ok piece =>
        simp only [hm, map_eq_ok_iff] at hok
        obtain ⟨rest, hrest, -⟩ := hok
        simp only [hm, map_eq_error_iff] at h
        exact ih hrest h

end Operands

namespace OpenCall

/-- What is wrong with a list so far. -/
def fault [Host] (t : Target) (c : OpenCall) : Option (Spanned EncodeFault) :=
  if c.operation.operands = [] then some ⟨.needlessList, c.opening⟩
  else
    match c.check t with
    | .error fault => some fault
    | .ok () => none

variable [Host] {t : Target} {c : OpenCall}

theorem check_eq_ok_iff {u : Unit} :
    c.check t = .ok u ↔
      (∃ bytes, encodeOperands t 0 c.operation.operands c.operands = .ok bytes) ∧
        c.operands.drop c.operation.operands.length = [] := by
  rw [check]
  cases hoperands : encodeOperands t 0 c.operation.operands c.operands with
  | error e => simp
  | ok bytes => cases c.operands.drop c.operation.operands.length <;> simp

theorem check_eq_error_iff {e : Spanned EncodeFault} :
    c.check t = .error e ↔
      encodeOperands t 0 c.operation.operands c.operands = .error e ∨
        ∃ bytes extra rest,
          encodeOperands t 0 c.operation.operands c.operands = .ok bytes ∧
          c.operands.drop c.operation.operands.length = extra :: rest ∧
          e = ⟨.tooManySoFar c.operation.name c.operation.operands.length c.operands.length,
            extra.span⟩ := by
  rw [check]
  cases hoperands : encodeOperands t 0 c.operation.operands c.operands with
  | error e => simp
  | ok bytes => cases c.operands.drop c.operation.operands.length <;> simp [eq_comm]

theorem fault_eq_none_iff :
    c.fault t = none ↔ c.operation.operands ≠ [] ∧ c.check t = .ok () := by
  unfold fault
  by_cases hempty : c.operation.operands = []
  · simp [hempty]
  · cases c.check t <;> simp [hempty]

theorem fault_eq_some_iff {e : Spanned EncodeFault} :
    c.fault t = some e ↔
      (c.operation.operands = [] ∧ e = ⟨.needlessList, c.opening⟩) ∨
        (c.operation.operands ≠ [] ∧ c.check t = .error e) := by
  unfold fault
  by_cases hempty : c.operation.operands = []
  · simp [hempty, eq_comm]
  · cases c.check t <;> simp [hempty]

/-- **What is wrong with a list stays wrong**, however the list goes on. -/
theorem fault_extend_of_some {e : Spanned EncodeFault} (h : c.fault t = some e)
    (more : List Literal) :
    ∃ e', (c.extend more).fault t = some e' ∧ e'.cause.settled = e.cause.settled := by
  simp only [fault_eq_some_iff, extend] at h ⊢
  rcases h with hneedless | ⟨hne, hcheck⟩
  · exact ⟨e, .inl hneedless, rfl⟩
  simp only [check_eq_error_iff] at hcheck ⊢
  rcases hcheck with hoperand | ⟨bytes, extra, rest, hok, hdrop, rfl⟩
  · exact ⟨e, .inr ⟨hne, .inl (encodeOperands_append_of_error hoperand more)⟩, rfl⟩
  · -- the literal at fault was there before; only the count goes up
    have hle : c.operation.operands.length ≤ c.operands.length :=
      Nat.le_of_lt (List.length_lt_of_drop_ne_nil (by simp [hdrop]))
    refine ⟨_, .inr ⟨hne, .inr ⟨bytes, extra, rest ++ more, ?_, ?_, rfl⟩⟩, rfl⟩
    · rw [encodeOperands_append_of_le hle, hok]
    · rw [List.drop_append_of_le_length hle, hdrop, List.cons_append]

/-- A list without literals can only be one that should not be there. -/
theorem span_of_fault_nil {e : Spanned EncodeFault} (hnil : c.operands = [])
    (h : c.fault t = some e) : e.span = c.opening := by
  rcases fault_eq_some_iff.1 h with ⟨-, rfl⟩ | ⟨-, hcheck⟩
  · rfl
  have hok : c.check t = .ok () := by
    rw [check_eq_ok_iff, hnil]
    exact ⟨⟨[], by cases c.operation.operands <;> rfl⟩, List.drop_nil⟩
  simp [hok] at hcheck

/-- A literal that is added is the one that is at fault. -/
theorem span_of_fault_push {l : Literal} {e : Spanned EncodeFault} (hnone : c.fault t = none)
    (h : (c.push l).fault t = some e) : e.span = l.span := by
  obtain ⟨hne, hcheck⟩ := fault_eq_none_iff.1 hnone
  obtain ⟨⟨bytes, hok⟩, hdrop⟩ := check_eq_ok_iff.1 hcheck
  simp only [fault_eq_some_iff, push] at h
  rcases h with ⟨hempty, -⟩ | ⟨-, hpush⟩
  · exact absurd hempty hne
  rcases check_eq_error_iff.1 hpush with hoperand | ⟨bytes', extra, rest, -, hextra, rfl⟩
  · exact span_of_encodeOperands_push hok hoperand
  · rw [List.drop_append, hdrop, List.nil_append] at hextra
    have hmem : extra ∈ [l] := List.mem_of_mem_drop (hextra ▸ List.mem_cons_self)
    rw [List.mem_singleton.1 hmem]

/-- **What is wrong with a list is found when the call is encoded**, once it is closed. -/
theorem encode_close_of_some {e : Spanned EncodeFault} (h : c.fault t = some e)
    (closing following : Span) :
    ∃ e', (c.close closing).encode t following = .error e' ∧
      e'.cause.settled = e.cause.settled := by
  obtain ⟨⟨name, code, kinds⟩, span, opening, ls⟩ := c
  rcases fault_eq_some_iff.1 h with ⟨hempty, rfl⟩ | ⟨hne, hcheck⟩
  · obtain rfl : kinds = [] := hempty
    exact ⟨_, rfl, rfl⟩
  cases kinds with
  | nil => exact absurd rfl hne
  | cons kind kinds =>
    simp only [close, Call.encode]
    rcases check_eq_error_iff.1 hcheck with hoperand | ⟨bytes, extra, rest, hok, hdrop, rfl⟩
    · exact ⟨e, by simp only [hoperand], rfl⟩
    · simp only [List.length_cons] at hdrop
      have hlt : kinds.length + 1 < ls.length :=
        List.length_lt_of_drop_ne_nil (by simp [hdrop])
      simp only [hok, if_neg (Nat.lt_asymm hlt), hdrop]
      exact ⟨_, rfl, rfl⟩

/-- A list with nothing wrong so far can only be too short when it is closed. -/
theorem encode_close_of_none (h : c.fault t = none) (closing : Span) :
    (∀ following, ∃ bytes, (c.close closing).encode t following = .ok bytes) ∨
      ∃ e, ∀ following, (c.close closing).encode t following = .error ⟨e, closing⟩ := by
  obtain ⟨⟨name, code, kinds⟩, span, opening, ls⟩ := c
  obtain ⟨hne, hcheck⟩ := fault_eq_none_iff.1 h
  obtain ⟨⟨bytes, hok⟩, hdrop⟩ := check_eq_ok_iff.1 hcheck
  cases kinds with
  | nil => exact absurd rfl hne
  | cons kind kinds =>
    simp only [List.length_cons] at hok hdrop
    simp only [close, Call.encode, hok, hdrop]
    by_cases hfew : ls.length < kinds.length + 1
    · right
      exact ⟨_, fun _ => if_pos hfew⟩
    · left
      exact fun _ => ⟨_, if_neg hfew⟩

end OpenCall

/-! ### The first fault of what was read -/

/-- What comes behind the complete calls: the end of the source, or the place where reading broke
    off. -/
def behind (eos ending : Span) : Option Break → Span
  | none => eos
  | some place => place.stop ending

/-- What comes first of what was read, or behind it. -/
def following (eos ending : Span) (read : List Call × Option Break) : Span :=
  (read.1.head?.map Call.span).getD (behind eos ending read.2)

/-- What is wrong where reading broke off: the open list, else the token that may not follow. -/
def Break.fault [Host] (t : Target) (ending : Span) (place : Break) : Spanned Cause :=
  match place.state.openCall?.bind (OpenCall.fault t) with
  | some fault => fault.cause
  | none =>
    let fault := place.syntaxFault ending
    ⟨.grammar fault.value, fault.span⟩

/-- The first fault of what was read: that of a complete call, else that of the break.  `eos` and
    `ending` are the two spans by which the end of the source goes. -/
def firstFault [Host] (t : Target) (eos ending : Span) (read : List Call × Option Break) :
    Option (Spanned Cause) :=
  match (encodeCalls t (behind eos ending read.2) read.1).fault with
  | some fault => some fault.cause
  | none => read.2.map (Break.fault t ending)

section FirstFault

variable [Host] {t : Target} {eos ending : Span} {c : Call} {calls : List Call}
  {broken : Option Break}

theorem firstFault_cons_of_ok (h : ∀ following, ∃ bytes, c.encode t following = .ok bytes) :
    firstFault t eos ending (c :: calls, broken) = firstFault t eos ending (calls, broken) := by
  obtain ⟨following, hstep⟩ := encodeCalls_cons t (behind eos ending broken) c calls
  obtain ⟨bytes, hbytes⟩ := h following
  simp only [firstFault, hstep, hbytes]

theorem firstFault_cons_of_error {e : Spanned EncodeFault}
    (h : c.encode t (following eos ending (calls, broken)) = .error e) :
    firstFault t eos ending (c :: calls, broken) = some e.cause := by
  cases calls with
  | nil =>
    replace h : c.encode t (behind eos ending broken) = .error e := h
    simp only [firstFault, encodeCalls, h]
  | cons d calls =>
    replace h : c.encode t d.span = .error e := h
    simp only [firstFault, encodeCalls, h]

theorem Assembly.result_ofBreak (source : String) (calls : List Call) (place : Break)
    (ending : Span) :
    ∃ fault, firstFault t eos ending (calls, some place) = some fault ∧
      (Assembly.ofBreak t source (place.error calls ending)).result =
        .error (.ofSource source fault.value fault.span) := by
  have hstop : place.stop ending = behind eos ending (some place) := rfl
  simp only [Assembly.ofBreak, Assembly.upToBreak, Break.error, firstFault, hstop]
  cases hcalls : (encodeCalls t (behind eos ending (some place)) calls).fault with
  | some e => exact ⟨_, rfl, by simp [hcalls, Spanned.cause]⟩
  | none =>
    refine ⟨_, rfl, ?_⟩
    simp only [Break.fault, SyntaxError.diagnostic]
    cases hopen : place.state.openCall? with
    | none =>
      simp [Break.incomplete, Break.needless, hopen, hcalls]
    | some c =>
      rw [Break.incomplete_of_openCall hopen, Break.needless_of_openCall hopen]
      by_cases hempty : c.operation.operands = []
      · simp [hcalls, hempty, OpenCall.fault, Spanned.cause]
      · cases hcheck : c.check t with
        | error e => simp [hempty, OpenCall.fault, hcheck, Spanned.cause]
        | ok u => simp [hcalls, hempty, OpenCall.fault, hcheck]

/-- The assembler reports the first fault. -/
theorem assemble_eq_error_iff {source : String} {tokens : List (Spanned Token)}
    (htokens : tokenize source = .ok tokens) {d : Diagnostic} :
    assemble t source = .error d ↔
      ∃ fault, firstFault t (endOfSource source) (endOfInput source.utf8ByteSize tokens)
          (State.between.run tokens) = some fault ∧
        d = .ofSource source fault.value fault.span := by
  simp only [assemble, assembly, Assembly.ofSource, htokens]
  cases hrun : State.between.run tokens with
  | mk calls broken =>
    cases broken with
    | none =>
      simp only [parse_of_run_eq_none _ hrun, Assembly.ofCalls, firstFault, behind]
      cases (encodeCalls t (endOfSource source) calls).fault with
      | none => simp
      | some e => simp [Spanned.cause, eq_comm]
    | some place =>
      obtain ⟨fault, hfault, hresult⟩ := @Assembly.result_ofBreak _ t (endOfSource source) source
        calls place (endOfInput source.utf8ByteSize tokens)
      rw [← recovered_of_nodup hrun (nodup_spans htokens)] at hresult
      simp only [parse_of_run_eq_some _ hrun, hfault, hresult, Except.error.injEq,
        Option.some.injEq, exists_eq_left', eq_comm]

/-- A source without a fault is assembled. -/
theorem assemble_of_firstFault_eq_none {source : String} {tokens : List (Spanned Token)}
    (htokens : tokenize source = .ok tokens)
    (h : firstFault t (endOfSource source) (endOfInput source.utf8ByteSize tokens)
      (State.between.run tokens) = none) :
    ∃ calls, State.between.run tokens = (calls, none) ∧ (∀ c ∈ calls, c.Admitted t) ∧
      assemble t source = .ok (calls.flatMap (Call.bytes t)) := by
  cases hresult : assemble t source with
  | error d =>
    obtain ⟨fault, hfault, -⟩ := (assemble_eq_error_iff htokens).1 hresult
    rw [h] at hfault
    cases hfault
  | ok b =>
    obtain ⟨found, calls, hfound, hcalls, hadmitted, rfl⟩ := assemble_eq_ok_iff.1 hresult
    rw [htokens, Except.ok.injEq] at hfound
    subst hfound
    exact ⟨calls, parse_eq_ok_iff.1 hcalls, hadmitted, rfl⟩

end FirstFault

/-! ### Reading token by token -/

namespace State

theorem run_nil_of_openCall {s : State} {c : OpenCall} (h : s.openCall? = some c) :
    s.run [] = ([], some ⟨s, none⟩) := by
  cases s <;> first | rfl | simp [openCall?] at h

theorem run_nil_of_openCall_eq_none {s : State} (h : s.openCall? = none) :
    s.run [] = (s.finished, none) := by
  cases s <;> first | rfl | simp [openCall?] at h

theorem run_of_next_eq_none {s : State} {x : Spanned Token} (h : s.next x = none)
    (rest : List (Spanned Token)) : s.run (x :: rest) = (s.finished, some ⟨s, some x⟩) := by
  rw [run, h]

/-- However a list goes on, it breaks off or it is closed. -/
theorem run_of_openCall {s : State} {c : OpenCall} (h : s.openCall? = some c)
    (rest : List (Spanned Token)) :
    ∃ more,
      (∃ place, s.run rest = ([], some place) ∧
        place.state.openCall? = some (c.extend more)) ∨
      ∃ closing calls broken, s.run rest = ((c.extend more).close closing :: calls, broken) := by
  induction rest generalizing s c with
  | nil => exact ⟨[], .inl ⟨⟨s, none⟩, run_nil_of_openCall h, by rw [c.extend_nil]; exact h⟩⟩
  | cons x rest ih =>
    cases hnext : s.next x with
    | none =>
      refine ⟨[], .inl ⟨⟨s, some x⟩, ?_, by rw [c.extend_nil]; exact h⟩⟩
      rw [run_of_next_eq_none hnext, finished_of_openCall h]
    | some step =>
      obtain ⟨complete, s'⟩ := step
      rw [run_of_next hnext rfl]
      cases move_of_next hnext with
      | name hnone => simp [h] at hnone
      | opening => simp [openCall?] at h
      | @literal _ _ c' radix value place hc hc' =>
        obtain rfl : c' = c := by simpa [hc] using h
        obtain ⟨more, hmore⟩ := ih hc'
        rw [c'.extend_push] at hmore
        exact ⟨_, hmore⟩
      | comma hc hc' => exact ih (hc'.trans (hc.symm.trans h))
      | @closing _ c' place hc =>
        obtain rfl : c' = c := by simpa [hc] using h
        refine ⟨[], .inr ⟨place, (between.run rest).1, (between.run rest).2, ?_⟩⟩
        rw [c'.extend_nil, List.singleton_append]

theorem following_of_openCall {eos ending : Span} {s : State} {c : OpenCall}
    (h : s.openCall? = some c) (rest : List (Spanned Token)) :
    following eos ending (s.run rest) = c.span := by
  obtain ⟨more, ⟨place, hrun, hopen⟩ | ⟨closing, calls, broken, hrun⟩⟩ := run_of_openCall h rest
  · simp [hrun, following, behind, Break.stop, hopen, OpenCall.extend]
  · simp [hrun, following, OpenCall.extend, OpenCall.close]

theorem following_named (eos ending : Span) (op : Operation) (span : Span)
    (rest : List (Spanned Token)) :
    following eos ending ((named op span).run rest) = span := by
  cases rest with
  | nil => rfl
  | cons x rest =>
    cases hnext : (named op span).next x with
    | none =>
      rw [run_of_next_eq_none hnext]
      rfl
    | some step =>
      obtain ⟨complete, s'⟩ := step
      rw [run_of_next hnext rfl]
      cases move_of_next hnext with
      | name hnone => rfl
      | @opening _ _ place => exact @following_of_openCall _ _ _ ⟨op, span, place, []⟩ rfl rest
      | literal hc hc' => simp [openCall?] at hc
      | comma hc hc' => simp [openCall?] at hc
      | closing hc => simp [openCall?] at hc

variable [Host] {t : Target} {eos ending : Span} {s : State} {c : OpenCall}

/-- **What is wrong with a list is reported**, however the list goes on. -/
theorem firstFault_of_fault {e : Spanned EncodeFault} (h : s.openCall? = some c)
    (hfault : c.fault t = some e) (rest : List (Spanned Token)) :
    (firstFault t eos ending (s.run rest)).map Spanned.settled = some e.cause.settled := by
  obtain ⟨more, hmore⟩ := run_of_openCall h rest
  obtain ⟨e', he', hsettled'⟩ := c.fault_extend_of_some hfault more
  rcases hmore with ⟨place, hrun, hopen⟩ | ⟨closing, calls, broken, hrun⟩
  · simp [hrun, firstFault, encodeCalls, Break.fault, hopen, he', hsettled']
  · obtain ⟨e'', he'', hsettled''⟩ := OpenCall.encode_close_of_some he' closing
      (following eos ending (calls, broken))
    rw [hrun, firstFault_cons_of_error he'', Option.map_some, hsettled'', hsettled']

/-- A name without a list is at fault at whatever is read next, or it is not at all. -/
theorem firstFault_finished (t : Target) (s : State) :
    (∃ e, ∀ eos ending read, firstFault t eos ending (s.finished ++ read.1, read.2) =
      some ⟨.encoding e, following eos ending read⟩) ∨
    ∀ eos ending read, firstFault t eos ending (s.finished ++ read.1, read.2) =
      firstFault t eos ending read := by
  cases s with
  | named op span =>
    obtain ⟨name, code, kinds⟩ := op
    cases kinds with
    | nil =>
      right
      intro eos ending read
      exact firstFault_cons_of_ok fun _ => ⟨[code], rfl⟩
    | cons kind kinds =>
      left
      refine ⟨.missingList name, fun eos ending read => ?_⟩
      have hmissing : Call.encode t (following eos ending read) ⟨⟨name, code, kind :: kinds⟩, span,
          none⟩ = .error ⟨.missingList name, following eos ending read⟩ := rfl
      exact firstFault_cons_of_error hmissing
  | _ =>
    right
    intro eos ending read
    rfl

/-! ### States with nothing wrong so far -/

/-- Nothing is wrong with the list that is being read, if one is. -/
def Faultless (t : Target) (s : State) : Prop := ∀ c, s.openCall? = some c → c.fault t = none

/-- Behind the tokens `before`, the token `x` is at fault, whatever follows. -/
def Refuses (t : Target) (s : State) (before : List (Spanned Token)) (x : Spanned Token)
    (cause : Cause) : Prop :=
  ∀ eos ending rest, (firstFault t eos ending (s.run (before ++ x :: rest))).map Spanned.settled =
    some ⟨cause, x.span⟩

theorem Faultless.fault_break (h : s.Faultless t) (found : Option (Spanned Token)) :
    Break.fault t ending ⟨s, found⟩ =
      ⟨.grammar ⟨s.expected, found.map (·.value)⟩, (found.map (·.span)).getD ending⟩ := by
  have hnone : s.openCall?.bind (OpenCall.fault t) = none := by
    cases hopen : s.openCall? with
    | none => rfl
    | some c => exact h c hopen
  cases found <;> simp [Break.fault, hnone, Break.syntaxFault, Break.span]

/-- Nothing is wrong up to the token `x`, and the first fault is that of what follows. -/
structure LeadsTo (t : Target) (s : State) (x : Spanned Token) (s' : State) : Prop where
  faultless : s'.Faultless t
  firstFault_eq : ∀ eos ending rest,
    firstFault t eos ending (s.run (x :: rest)) = firstFault t eos ending (s'.run rest)

theorem faultless_of_openCall_eq_none (h : s.openCall? = none) : s.Faultless t := by
  intro c hc
  simp [h] at hc

theorem refuses_of_firstFault {x : Spanned Token} {c : Cause}
    (h : ∀ eos ending rest, firstFault t eos ending (s.run (x :: rest)) = some ⟨c, x.span⟩) :
    s.Refuses t [] x c.uncounted := by
  intro eos ending rest
  rw [List.nil_append, h]
  rfl

theorem Faultless.refuses_of_next_eq_none (h : s.Faultless t) {x : Spanned Token}
    (hnext : s.next x = none) : ∃ cause, s.Refuses t [] x cause := by
  have hbreak (eos ending : Span) : firstFault t eos ending ([], some ⟨s, some x⟩) =
      some ⟨.grammar ⟨s.expected, some x.value⟩, x.span⟩ := by
    simp [firstFault, encodeCalls, h.fault_break]
  cases hopen : s.openCall? with
  | some c =>
    refine ⟨_, refuses_of_firstFault (c := .grammar ⟨s.expected, some x.value⟩) ?_⟩
    intro eos ending rest
    rw [run_of_next_eq_none hnext, finished_of_openCall hopen, hbreak]
  | none =>
    rcases firstFault_finished t s with ⟨e, he⟩ | hsame
    · refine ⟨_, refuses_of_firstFault (c := .encoding e) ?_⟩
      intro eos ending rest
      have hspan : following eos ending ([], some ⟨s, some x⟩) = x.span := by
        simp [following, behind, Break.stop, hopen, Break.span]
      have hfault := he eos ending ([], some ⟨s, some x⟩)
      rw [List.append_nil, hspan] at hfault
      rw [run_of_next_eq_none hnext, hfault]
    · refine ⟨_, refuses_of_firstFault (c := .grammar ⟨s.expected, some x.value⟩) ?_⟩
      intro eos ending rest
      have hfault := hsame eos ending ([], some ⟨s, some x⟩)
      rw [List.append_nil, hbreak] at hfault
      rw [run_of_next_eq_none hnext, hfault]

/-- A list that is begun or goes on is refused if something is wrong with it now. -/
theorem refuses_or_leadsTo_of_openCall {s' : State} {x : Spanned Token}
    (hnext : s.next x = some ([], s')) (hopen : s'.openCall? = some c)
    (hspan : ∀ e, c.fault t = some e → e.span = x.span) :
    (∃ cause, s.Refuses t [] x cause) ∨ s.LeadsTo t x s' := by
  have hrun (rest : List (Spanned Token)) : s.run (x :: rest) = s'.run rest :=
    run_of_next hnext rfl
  cases hfault : c.fault t with
  | some e =>
    left
    refine ⟨.encoding e.value.uncounted, fun eos ending rest => ?_⟩
    rw [List.nil_append, hrun, ← hspan e hfault]
    exact firstFault_of_fault hopen hfault rest
  | none =>
    right
    refine ⟨fun c' hc' => ?_, fun eos ending rest => by rw [hrun]⟩
    obtain rfl : c = c' := by simpa [hopen] using hc'
    exact hfault

/-- **One step.** A token is refused whatever follows, or it leads on to a state with nothing wrong
    so far. -/
theorem Faultless.step (h : s.Faultless t) (x : Spanned Token) :
    (∃ cause, s.Refuses t [] x cause) ∨ ∃ s', s.LeadsTo t x s' := by
  cases hnext : s.next x with
  | none => exact .inl (h.refuses_of_next_eq_none hnext)
  | some step =>
    obtain ⟨complete, s'⟩ := step
    have hrun (rest : List (Spanned Token)) :
        s.run (x :: rest) = (complete ++ (s'.run rest).1, (s'.run rest).2) :=
      run_of_next hnext rfl
    refine Or.imp_right (fun hs' => ⟨s', hs'⟩) ?_
    cases move_of_next hnext with
    | @name _ op place hnone =>
      rcases firstFault_finished t s with ⟨e, he⟩ | hsame
      · left
        refine ⟨_, refuses_of_firstFault (c := .encoding e) ?_⟩
        intro eos ending rest
        rw [hrun, he, following_named]
      · right
        exact ⟨faultless_of_openCall_eq_none rfl, fun eos ending rest => by rw [hrun, hsame]⟩
    | opening =>
      apply refuses_or_leadsTo_of_openCall hnext rfl
      intro e he
      exact OpenCall.span_of_fault_nil rfl he
    | literal hc hc' =>
      apply refuses_or_leadsTo_of_openCall hnext hc'
      intro e he
      exact OpenCall.span_of_fault_push (h _ hc) he
    | comma hc hc' =>
      apply refuses_or_leadsTo_of_openCall hnext hc'
      intro e he
      simp [h _ hc] at he
    | @closing _ c place hc =>
      rcases OpenCall.encode_close_of_none (h c hc) place with hok | ⟨e, he⟩
      · right
        refine ⟨faultless_of_openCall_eq_none rfl, fun eos ending rest => ?_⟩
        rw [hrun, List.singleton_append, firstFault_cons_of_ok hok]
      · left
        refine ⟨_, refuses_of_firstFault (c := .encoding e) ?_⟩
        intro eos ending rest
        rw [hrun, List.singleton_append, firstFault_cons_of_error (he _)]
        rfl

/-- **A whole run.** Some token is refused whatever follows, or nothing is wrong before the end of
    the input; a syntax error is at `ending` then, and any other at `eos`. -/
theorem Faultless.run (h : s.Faultless t) (tokens : List (Spanned Token)) :
    (∃ before x rest cause, tokens = before ++ x :: rest ∧ s.Refuses t before x cause) ∨
      ∀ eos ending fault, firstFault t eos ending (s.run tokens) = some fault →
        fault.span = if fault.value.foundEnd then ending else eos := by
  induction tokens generalizing s with
  | nil =>
    right
    intro eos ending fault hfault
    cases hopen : s.openCall? with
    | some c =>
      rw [run_nil_of_openCall hopen] at hfault
      simp only [firstFault, encodeCalls, Option.map_some, h.fault_break, Option.some.injEq]
        at hfault
      rw [← hfault]
      rfl
    | none =>
      rw [run_nil_of_openCall_eq_none hopen] at hfault
      rcases firstFault_finished t s with ⟨e, he⟩ | hsame
      · have hend := he eos ending ([], none)
        rw [List.append_nil, hfault, Option.some.injEq] at hend
        rw [hend]
        rfl
      · have hend := hsame eos ending ([], none)
        rw [List.append_nil, hfault] at hend
        simp [firstFault, encodeCalls] at hend
  | cons x tokens ih =>
    rcases h.step x with ⟨cause, hcause⟩ | ⟨s', hs', hstep⟩
    · exact .inl ⟨[], x, tokens, cause, rfl, hcause⟩
    rcases ih hs' with ⟨before, y, rest, cause, rfl, hcause⟩ | hend
    · left
      refine ⟨x :: before, y, rest, cause, rfl, fun eos ending rest' => ?_⟩
      rw [List.cons_append, hstep]
      exact hcause eos ending rest'
    · right
      intro eos ending fault hfault
      rw [hstep] at hfault
      exact hend eos ending fault hfault

end State

/-! ### Places in two sources -/

theorem Location.before_append {offset : Nat} {text : List Char} (h : offset ≤ byteLength text)
    (rest : List Char) : before offset (text ++ rest) = before offset text := by
  induction text generalizing offset with
  | nil =>
    obtain rfl : offset = 0 := Nat.le_zero.1 h
    cases rest <;> rfl
  | cons c text ih =>
    rw [byteLength_cons] at h
    rw [List.cons_append, before, before, ih (by omega)]

/-- The location of an offset does not depend on what comes behind it. -/
theorem Location.ofOffset_append {offset : Nat} {text : String}
    (h : offset ≤ text.utf8ByteSize) (rest : String) :
    ofOffset (text ++ rest) offset = ofOffset text offset := by
  rw [← String.ofList_toList (s := text), utf8ByteSize_ofList] at h
  rw [ofOffset, ofOffset, String.toList_append, before_append h]

/-- A token of a source is known by its span. -/
theorem eq_of_span_eq {source : String} {before after before' after' : List (Spanned Token)}
    {x y : Spanned Token} (h : tokenize source = .ok (before ++ x :: after))
    (heq : before ++ x :: after = before' ++ y :: after') (hspan : y.span = x.span) :
    before = before' ∧ x = y := by
  obtain ⟨hbounds, hpairwise⟩ := spans_of_tokenize h
  have hx := (hbounds x (by simp)).1
  obtain ⟨-, hafter, hbefore⟩ := List.pairwise_append.1 hpairwise
  have hnot : y ∉ before ∧ y ∉ after := by
    constructor
    · intro hy
      have hle := hbefore y hy x List.mem_cons_self
      rw [hspan] at hle
      omega
    · intro hy
      have hle := (List.pairwise_cons.1 hafter).1 y hy
      rw [hspan] at hle
      omega
  obtain ⟨rfl, rfl, -⟩ := (List.append_cons_inj_of_notMem hnot.1 hnot.2).1 heq
  exact ⟨rfl, rfl⟩

theorem start_endOfInput (length : Nat) (tokens : List (Spanned Token)) :
    (endOfInput length tokens).start = length := by
  unfold endOfInput
  cases tokens.getLast? <;> rfl

/-! ### Errors at tokens -/

theorem Diagnostic.kind_eq_of_uncounted_eq {source source' : String} {c c' : Cause}
    {span span' : Span} (h : c.uncounted = c'.uncounted) :
    (ofSource source c span).kind = (ofSource source' c' span').kind := by
  cases c <;> cases c' <;> simp_all [Cause.uncounted, ofSource, kind]

/-- **A fault at a token is there whatever follows**: no other token has its span, and the end of
    the input is behind it. -/
theorem refuses_of_fault_at_token [Host] {t : Target} {source : String}
    {before after : List (Spanned Token)} {x : Spanned Token} {fault : Spanned Cause}
    (htokens : tokenize source = .ok (before ++ x :: after))
    (hfault : firstFault t (endOfSource source)
      (endOfInput source.utf8ByteSize (before ++ x :: after))
      (State.between.run (before ++ x :: after)) = some fault)
    (hspan : fault.span = x.span) : State.between.Refuses t before x fault.value.uncounted := by
  have hclean : State.between.Faultless t := State.faultless_of_openCall_eq_none rfl
  rcases hclean.run (before ++ x :: after) with ⟨before', y, after', cause, heq, hcause⟩ | hend
  · have hrefused := hcause (endOfSource source)
      (endOfInput source.utf8ByteSize (before ++ x :: after)) after'
    rw [← heq, hfault, Option.map_some, Option.some.injEq] at hrefused
    obtain ⟨rfl, hy⟩ := Spanned.mk.inj hrefused
    obtain ⟨rfl, rfl⟩ := eq_of_span_eq htokens heq (hy.symm.trans hspan)
    exact hcause
  · have hx := (spans_of_tokenize htokens).1 x (by simp)
    have hstart : x.span.start = source.utf8ByteSize := by
      rw [← hspan, hend _ _ fault hfault]
      split
      · exact start_endOfInput _ _
      · rfl
    omega

/-- **An error at a token is settled by what comes before it.** Two sources have the same tokens up
    to `x` and the same text up to the end of it.  If the first is refused at `x`, then so is the
    second, with the same kind, span and location; and with the same text, unless both times there
    are too many literals for the operation, of which there may be a different number. -/
theorem assemble_error_settled [Host] (t : Target) {source source' text rest rest' : String}
    {before after after' : List (Spanned Token)} {x : Spanned Token} {d : Diagnostic}
    (htokens : tokenize source = .ok (before ++ x :: after))
    (htokens' : tokenize source' = .ok (before ++ x :: after'))
    (hsource : source = text ++ rest) (hsource' : source' = text ++ rest')
    (htext : text.utf8ByteSize = x.span.stop)
    (herror : assemble t source = .error d) (hspan : d.span = x.span) :
    ∃ d', assemble t source' = .error d' ∧ d'.kind = d.kind ∧ d'.span = d.span ∧
      d'.location = d.location ∧
      (d'.text = d.text ∨
        ∃ op expected, d.cause.TooMany op expected ∧ d'.cause.TooMany op expected) := by
  obtain ⟨fault, hfault, rfl⟩ := (assemble_eq_error_iff htokens).1 herror
  replace hspan : fault.span = x.span := hspan
  have hrefuses := refuses_of_fault_at_token htokens hfault hspan
  obtain ⟨fault', hfault', hsettled⟩ := Option.map_eq_some_iff.1 <| hrefuses (endOfSource source')
    (endOfInput source'.utf8ByteSize (before ++ x :: after')) after'
  obtain ⟨hvalue, hspan'⟩ := Spanned.mk.inj hsettled
  rw [← hspan] at hspan'
  refine ⟨.ofSource source' fault'.value fault'.span,
    (assemble_eq_error_iff htokens').2 ⟨fault', hfault', rfl⟩,
    Diagnostic.kind_eq_of_uncounted_eq hvalue, hspan', ?_, ?_⟩
  · have hstart : fault.span.start ≤ text.utf8ByteSize := by
      have hx := ((spans_of_tokenize htokens).1 x (by simp)).1
      rw [hspan, htext]
      omega
    simp only [Diagnostic.ofSource, hspan', hsource, hsource', Location.ofOffset_append hstart]
  · rcases Cause.eq_or_tooMany_of_uncounted_eq hvalue with hcauses | ⟨op, expected, hmany', hmany⟩
    · exact .inl (congrArg Cause.text hcauses)
    · exact .inr ⟨op, expected, hmany, hmany'⟩

/-- A list that is closed, and one that breaks off behind the literal at fault. -/
theorem assemble_error_settled_count :
    assemble {} "DW_OP_const1u(1, 2)" =
      .error ⟨.encoding (.tooMany "DW_OP_const1u" 1 2), ⟨17, 18⟩, ⟨1, 18⟩⟩ ∧
    ∃ d, assemble {} "DW_OP_const1u(1, 2, 3" = .error d ∧ d.kind = .parse ∧ d.span = ⟨17, 18⟩ ∧
      d.location = ⟨1, 18⟩ ∧
      (d.text = "too many operands for DW_OP_const1u: expected 1, found 2" ∨
        ∃ op expected,
          (Cause.encoding (.tooMany "DW_OP_const1u" 1 2)).TooMany op expected ∧
          d.cause.TooMany op expected) := by
  have htokens : tokenize "DW_OP_const1u(1, 2)" =
      .ok ([⟨.operation ⟨"DW_OP_const1u", 0x08, [.unsigned .bits8]⟩, ⟨0, 13⟩⟩,
        ⟨.leftParen, ⟨13, 14⟩⟩, ⟨.number .decimal (.ofNat 1), ⟨14, 15⟩⟩, ⟨.comma, ⟨15, 16⟩⟩] ++
        ⟨.number .decimal (.ofNat 2), ⟨17, 18⟩⟩ :: [⟨.rightParen, ⟨18, 19⟩⟩]) := by
    decide +kernel
  have htokens' : tokenize "DW_OP_const1u(1, 2, 3" =
      .ok ([⟨.operation ⟨"DW_OP_const1u", 0x08, [.unsigned .bits8]⟩, ⟨0, 13⟩⟩,
        ⟨.leftParen, ⟨13, 14⟩⟩, ⟨.number .decimal (.ofNat 1), ⟨14, 15⟩⟩, ⟨.comma, ⟨15, 16⟩⟩] ++
        ⟨.number .decimal (.ofNat 2), ⟨17, 18⟩⟩ ::
          [⟨.comma, ⟨18, 19⟩⟩, ⟨.number .decimal (.ofNat 3), ⟨20, 21⟩⟩]) := by
    decide +kernel
  have herror : assemble {} "DW_OP_const1u(1, 2)" =
      .error ⟨.encoding (.tooMany "DW_OP_const1u" 1 2), ⟨17, 18⟩, ⟨1, 18⟩⟩ := by
    decide +kernel
  have hsource : "DW_OP_const1u(1, 2)" = "DW_OP_const1u(1, 2" ++ ")" := by decide +kernel
  have hsource' : "DW_OP_const1u(1, 2, 3" = "DW_OP_const1u(1, 2" ++ ", 3" := by decide +kernel
  refine ⟨herror, ?_⟩
  exact assemble_error_settled {} htokens htokens' hsource hsource' (by decide +kernel) herror rfl

end DwarfExpr
