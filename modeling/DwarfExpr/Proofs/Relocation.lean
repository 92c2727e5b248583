/-
  DwarfExpr/Proofs/Relocation.lean
  ================================
  **Moving tokens moves what is wrong with them.** Spans are only ever copied: from tokens to calls,
  and from calls to faults.  So a map of spans can be applied to the tokens or to what comes of
  them, with the same result:

    * reading moved tokens gives the moved calls and the moved break (`State.run_mapSpan`);
    * encoding moved calls gives the same bytes or the moved fault (`Call.encode_mapSpan`);
    * the first fault is the same, at the moved place (`firstFault_mapSpan`).
-/
import DwarfExpr.Proofs.SourceOrder

namespace DwarfExpr

/-! ### Maps of spans -/

def Spanned.mapSpan {α : Type} (f : Span → Span) (x : Spanned α) : Spanned α :=
  ⟨x.value, f x.span⟩

def Literal.mapSpan (f : Span → Span) (l : Literal) : Literal := ⟨l.radix, l.value, f l.span⟩

def Arguments.mapSpan (f : Span → Span) (a : Arguments) : Arguments :=
  ⟨f a.opening, a.operands.map (Literal.mapSpan f), f a.closing⟩

def Call.mapSpan (f : Span → Span) (c : Call) : Call :=
  ⟨c.operation, f c.span, c.arguments.map (Arguments.mapSpan f)⟩

def OpenCall.mapSpan (f : Span → Span) (c : OpenCall) : OpenCall :=
  ⟨c.operation, f c.span, f c.opening, c.operands.map (Literal.mapSpan f)⟩

def State.mapSpan (f : Span → Span) : State → State
  | between => between
  | named op span => named op (f span)
  | opened call => opened (call.mapSpan f)
  | valued call => valued (call.mapSpan f)
  | separated call => separated (call.mapSpan f)

def Break.mapSpan (f : Span → Span) (b : Break) : Break :=
  ⟨b.state.mapSpan f, b.found.map (Spanned.mapSpan f)⟩

/-! ### Reading -/

namespace State

variable (f : Span → Span)

theorem expected_mapSpan (s : State) : (s.mapSpan f).expected = s.expected := by
  cases s <;> rfl

theorem finished_mapSpan (s : State) :
    (s.mapSpan f).finished = s.finished.map (Call.mapSpan f) := by
  cases s <;> rfl

theorem openCall?_mapSpan (s : State) :
    (s.mapSpan f).openCall? = s.openCall?.map (OpenCall.mapSpan f) := by
  cases s <;> rfl

theorem next_mapSpan (s : State) (x : Spanned Token) :
    (s.mapSpan f).next (x.mapSpan f) =
      (s.next x).map fun step => (step.1.map (Call.mapSpan f), step.2.mapSpan f) := by
  obtain ⟨token, place⟩ := x
  cases s <;> cases token <;>
    simp [next, mapSpan, Spanned.mapSpan, Call.mapSpan, OpenCall.mapSpan, OpenCall.push,
      OpenCall.close, Literal.mapSpan, Arguments.mapSpan]

/-- **Moved tokens are read as the moved calls.** -/
theorem run_mapSpan (s : State) (tokens : List (Spanned Token)) :
    (s.mapSpan f).run (tokens.map (Spanned.mapSpan f)) =
      ((s.run tokens).1.map (Call.mapSpan f), (s.run tokens).2.map (Break.mapSpan f)) := by
  induction tokens generalizing s with
  | nil =>
    rw [List.map_nil, run, run, expected_mapSpan, finished_mapSpan]
    split <;> rfl
  | cons x tokens ih =>
    rw [List.map_cons, run, run, next_mapSpan]
    cases s.next x with
    | none => simp [finished_mapSpan, Break.mapSpan]
    | some step =>
      obtain ⟨complete, s'⟩ := step
      simp [ih]

end State

/-! ### What comes behind -/

theorem Break.span_mapSpan (f : Span → Span) (ending : Span) (place : Break) :
    (place.mapSpan f).span (f ending) = f (place.span ending) := by
  obtain ⟨s, found⟩ := place
  cases found <;> rfl

theorem Break.stop_mapSpan (f : Span → Span) (ending : Span) (place : Break) :
    (place.mapSpan f).stop (f ending) = f (place.stop ending) := by
  have hopen : (place.mapSpan f).state.openCall? = _ := place.state.openCall?_mapSpan f
  simp only [Break.stop, hopen, Break.span_mapSpan]
  cases place.state.openCall? <;> rfl

theorem following_mapSpan (f : Span → Span) (eos ending : Span) (calls : List Call)
    (broken : Option Break) :
    following (f eos) (f ending) (calls.map (Call.mapSpan f), broken.map (Break.mapSpan f)) =
      f (following eos ending (calls, broken)) := by
  cases calls with
  | cons c calls => rfl
  | nil =>
    cases broken with
    | none => rfl
    | some place => exact Break.stop_mapSpan f ending place

/-! ### Encoding -/

section Encoding

variable [Host] (f : Span → Span) (t : Target)

theorem encodeOperands_mapSpan (size : Nat) (kinds : List OperandKind) (ls : List Literal) :
    encodeOperands t size kinds (ls.map (Literal.mapSpan f)) =
      (encodeOperands t size kinds ls).mapError (Spanned.mapSpan f) := by
  induction kinds generalizing size ls with
  | nil => cases ls <;> rfl
  | cons kind kinds ih =>
    cases ls with
    | nil => rfl
    | cons l ls =>
      have hl : (l.mapSpan f).encode t size kind = l.encode t size kind := rfl
      have hrest := ih l.value.toInt.toNat ls
      rw [List.map_cons, encodeOperands, encodeOperands, hl]
      cases l.encode t size kind with
      | error fault => rfl
      | ok bytes =>
        simp only [Literal.mapSpan] at hrest ⊢
        rw [hrest]
        cases encodeOperands t l.value.toInt.toNat kinds ls <;> rfl

/-- **A moved call is encoded alike**, or has the moved fault. -/
theorem Call.encode_mapSpan (following : Span) (c : Call) :
    (c.mapSpan f).encode t (f following) =
      (c.encode t following).mapError (Spanned.mapSpan f) := by
  obtain ⟨⟨name, code, kinds⟩, span, arguments⟩ := c
  cases arguments with
  | none => cases kinds <;> rfl
  | some a =>
    cases kinds with
    | nil => rfl
    | cons kind kinds =>
      simp only [Call.mapSpan, Call.encode, Option.map_some, Arguments.mapSpan,
        encodeOperands_mapSpan, List.length_map, ← List.map_drop]
      cases encodeOperands t 0 (kind :: kinds) a.operands with
      | error fault => rfl
      | ok bytes =>
        simp only [Except.mapError]
        split
        · rfl
        · cases a.operands.drop (kinds.length + 1) <;> rfl

theorem OpenCall.check_mapSpan (c : OpenCall) :
    (c.mapSpan f).check t = (c.check t).mapError (Spanned.mapSpan f) := by
  simp only [OpenCall.check, OpenCall.mapSpan, encodeOperands_mapSpan, List.length_map,
    ← List.map_drop]
  cases encodeOperands t 0 c.operation.operands c.operands with
  | error fault => rfl
  | ok bytes => cases c.operands.drop c.operation.operands.length <;> rfl

theorem OpenCall.fault_mapSpan (c : OpenCall) :
    (c.mapSpan f).fault t = (c.fault t).map (Spanned.mapSpan f) := by
  have hoperation : (c.mapSpan f).operation = c.operation := rfl
  rw [OpenCall.fault, OpenCall.fault, hoperation, OpenCall.check_mapSpan]
  split
  · rfl
  · cases c.check t <;> rfl

/-! ### The first fault -/

theorem Break.fault_mapSpan (ending : Span) (place : Break) :
    (place.mapSpan f).fault t (f ending) = (place.fault t ending).mapSpan f := by
  have hopen : (place.mapSpan f).state.openCall?.bind (OpenCall.fault t) =
      (place.state.openCall?.bind (OpenCall.fault t)).map (Spanned.mapSpan f) := by
    rw [Break.mapSpan, State.openCall?_mapSpan]
    cases place.state.openCall? with
    | none => rfl
    | some c => exact c.fault_mapSpan f t
  rw [Break.fault, Break.fault, hopen]
  cases place.state.openCall?.bind (OpenCall.fault t) with
  | some fault => rfl
  | none =>
    have hexpected : (place.mapSpan f).state.expected = _ := place.state.expected_mapSpan f
    have hfound : (place.mapSpan f).found.map (·.value) = place.found.map (·.value) := by
      simp [Break.mapSpan, Spanned.mapSpan, Function.comp_def]
    simp only [Option.map_none, Break.syntaxFault, Break.span_mapSpan, hexpected, hfound]
    rfl

theorem firstFault_cons_of_admitted {t : Target} {eos ending : Span} {c : Call} (h : c.Admitted t)
    (calls : List Call) (broken : Option Break) :
    firstFault t eos ending (c :: calls, broken) = firstFault t eos ending (calls, broken) :=
  firstFault_cons_of_ok fun _ => ⟨_, Call.encode_eq_ok_iff.2 ⟨h, rfl⟩⟩

/-- **The first fault moves with the tokens.** -/
theorem firstFault_mapSpan (eos ending : Span) (calls : List Call) (broken : Option Break) :
    firstFault t (f eos) (f ending)
        (calls.map (Call.mapSpan f), broken.map (Break.mapSpan f)) =
      (firstFault t eos ending (calls, broken)).map (Spanned.mapSpan f) := by
  induction calls with
  | nil =>
    cases broken with
    | none => rfl
    | some place => simp [firstFault, encodeCalls, Break.fault_mapSpan]
  | cons c calls ih =>
    have hencode := c.encode_mapSpan f t (following eos ending (calls, broken))
    rw [← following_mapSpan f] at hencode
    cases hc : c.encode t (following eos ending (calls, broken)) with
    | error e =>
      rw [hc] at hencode
      rw [List.map_cons, firstFault_cons_of_error hencode, firstFault_cons_of_error hc]
      rfl
    | ok bytes =>
      rw [hc] at hencode
      rw [List.map_cons, firstFault_cons_of_admitted (Call.encode_eq_ok_iff.1 hencode).1,
        firstFault_cons_of_admitted (Call.encode_eq_ok_iff.1 hc).1, ih]

end Encoding

end DwarfExpr
