/-
  DwarfExpr/Proofs/Assembly.lean
  ==============================
  **When a source is assembled, and into what.** A call is admitted if it has a list exactly if its
  operation takes operands, and if each literal is one that its operand takes.  A source is
  assembled exactly if it has tokens, the tokens are calls, and every call is admitted; the bytecode
  is the bytes of the calls (`assemble_eq_ok_iff`).  Spans do not matter to it, so this holds for
  the calls as they are written, too (`assemble_text_eq_ok_iff`).

  The bytes of admitted calls are segments (`exists_segments_of_admitted`).
-/
import DwarfExpr.Assembly
import DwarfExpr.Proofs.Grammar
import DwarfExpr.Proofs.Lexing
import DwarfExpr.Proofs.Operand

namespace DwarfExpr

/-! ### Calls -/

namespace Call

/-- The literals of a call. -/
def values (c : Call) : List Value :=
  match c.arguments with
  | none => []
  | some a => a.operands.map (·.value)

/-- The call can be encoded. -/
structure Admitted [Host] (t : Target) (c : Call) : Prop where
  listed : c.arguments.isSome = true ↔ c.operation.operands ≠ []
  literals : OperandKind.AdmitsAll t 0 c.operation.operands c.values

def pieces (t : Target) (c : Call) : List (List UInt8) :=
  OperandKind.writeAll t 0 c.operation.operands c.values

def bytes (t : Target) (c : Call) : List UInt8 := c.operation.code :: (c.pieces t).flatten

variable [Host] {t : Target}

/-- A call with a list is encoded if the list has the right length and its literals are encoded. -/
theorem encode_list_eq_ok_iff {following span : Span} {name : String} {code : UInt8}
    {kind : OperandKind} {kinds : List OperandKind} {a : Arguments} {bytes : List UInt8} :
    Call.encode t following ⟨⟨name, code, kind :: kinds⟩, span, some a⟩ = .ok bytes ↔
      (kind :: kinds).length = a.operands.length ∧
        ∃ body, encodeOperands t 0 (kind :: kinds) a.operands = .ok body ∧
          bytes = code :: body := by
  simp only [Call.encode, List.length_cons]
  cases encodeOperands t 0 (kind :: kinds) a.operands with
  | error fault => simp
  | ok body =>
    dsimp only
    rcases Nat.lt_trichotomy a.operands.length (kinds.length + 1) with hfew | hlen | hmany
    · rw [if_pos hfew]
      simp only [reduceCtorEq, false_iff]
      omega
    · have hdrop : a.operands.drop (kinds.length + 1) = [] :=
        List.drop_eq_nil_of_le (le_of_eq hlen)
      simp [hlen, hdrop, eq_comm]
    · rw [if_neg (by omega)]
      cases hdrop : a.operands.drop (kinds.length + 1) with
      | nil => exact absurd (List.drop_eq_nil_iff.1 hdrop) (by omega)
      | cons extra rest =>
        simp only [reduceCtorEq, false_iff]
        omega

/-- **When a call is encoded.** -/
theorem encode_eq_ok_iff {following : Span} {c : Call} {bytes : List UInt8} :
    c.encode t following = .ok bytes ↔ c.Admitted t ∧ bytes = c.bytes t := by
  obtain ⟨⟨name, code, kinds⟩, span, arguments⟩ := c
  cases arguments with
  | none =>
    cases kinds with
    | nil =>
      have hadmitted : Admitted t ⟨⟨name, code, []⟩, span, none⟩ := ⟨by simp, trivial⟩
      simp [Call.encode, hadmitted, Call.bytes, pieces, OperandKind.writeAll, eq_comm]
    | cons kind kinds =>
      have hnot : ¬ Admitted t ⟨⟨name, code, kind :: kinds⟩, span, none⟩ := by
        intro h
        simpa using h.listed
      simp [Call.encode, hnot]
  | some a =>
    cases kinds with
    | nil =>
      have hnot : ¬ Admitted t ⟨⟨name, code, []⟩, span, some a⟩ := by
        intro h
        simpa using h.listed
      simp [Call.encode, hnot]
    | cons kind kinds =>
      rw [encode_list_eq_ok_iff]
      constructor
      · rintro ⟨hlen, body, hbody, rfl⟩
        obtain ⟨hadmits, rfl⟩ := (encodeOperands_eq_ok_iff hlen).1 hbody
        exact ⟨⟨by simp, hadmits⟩, rfl⟩
      · rintro ⟨hadmitted, rfl⟩
        have hlen : (kind :: kinds).length = a.operands.length := by
          simpa [values] using hadmitted.literals.length_eq
        exact ⟨hlen, _, (encodeOperands_eq_ok_iff hlen).2 ⟨hadmitted.literals, rfl⟩, rfl⟩

end Call

/-- One step of encoding; the span that follows only matters to faults. -/
theorem encodeCalls_cons [Host] (t : Target) (stop : Span) (c : Call) (cs : List Call) :
    ∃ following, encodeCalls t stop (c :: cs) =
      match c.encode t following with
      | .error fault => ⟨[], some fault⟩
      | .ok bytes =>
        ⟨(c, bytes) :: (encodeCalls t stop cs).encoded, (encodeCalls t stop cs).fault⟩ := by
  cases cs with
  | nil => exact ⟨stop, rfl⟩
  | cons next cs => exact ⟨next.span, rfl⟩

/-- **When calls are encoded** to the last. -/
theorem encodeCalls_fault_eq_none_iff [Host] {t : Target} {stop : Span} {calls : List Call}
    {b : List UInt8} :
    (encodeCalls t stop calls).fault = none ∧ b = (encodeCalls t stop calls).bytes ↔
      (∀ c ∈ calls, c.Admitted t) ∧ b = calls.flatMap (Call.bytes t) := by
  induction calls generalizing b with
  | nil => simp [encodeCalls, Progress.bytes]
  | cons c cs ih =>
    obtain ⟨following, hstep⟩ := encodeCalls_cons t stop c cs
    rw [hstep]
    cases hc : c.encode t following with
    | error fault =>
      have hnot : ¬ c.Admitted t := by
        intro hadmitted
        rw [Call.encode_eq_ok_iff.2 ⟨hadmitted, rfl⟩] at hc
        simp at hc
      simp [hnot]
    | ok bytes =>
      obtain ⟨hadmitted, rfl⟩ := Call.encode_eq_ok_iff.1 hc
      have hrest := @ih (encodeCalls t stop cs).bytes
      simp only [and_true] at hrest
      simp only [Progress.bytes, List.flatMap_cons, List.forall_mem_cons, hadmitted, true_and]
      constructor
      · rintro ⟨hfault, rfl⟩
        obtain ⟨hall, hbytes⟩ := hrest.1 hfault
        exact ⟨hall, by rw [← hbytes, Progress.bytes]⟩
      · rintro ⟨hall, rfl⟩
        obtain ⟨hfault, hbytes⟩ := ih.2 ⟨hall, rfl⟩
        exact ⟨hfault, by rw [hbytes, Progress.bytes]⟩

/-! ### Sources -/

theorem Assembly.result_ofCalls_eq_ok_iff [Host] {t : Target} {source : String}
    {calls : List Call} {b : List UInt8} :
    (Assembly.ofCalls t source calls).result = .ok b ↔
      (∀ c ∈ calls, c.Admitted t) ∧ b = calls.flatMap (Call.bytes t) := by
  rw [← @encodeCalls_fault_eq_none_iff _ t (endOfSource source), Assembly.ofCalls]
  cases (encodeCalls t (endOfSource source) calls).fault with
  | some fault => simp
  | none => simp [eq_comm]

/-- **When a source is assembled, and into what.** -/
theorem assemble_eq_ok_iff [Host] {t : Target} {source : String} {b : List UInt8} :
    assemble t source = .ok b ↔
      ∃ tokens calls, tokenize source = .ok tokens ∧
        parse source.utf8ByteSize tokens = .ok calls ∧
        (∀ c ∈ calls, c.Admitted t) ∧ b = calls.flatMap (Call.bytes t) := by
  constructor
  · intro h
    simp only [assemble, assembly, Assembly.ofSource] at h
    cases htokens : tokenize source with
    | error fault => simp [htokens] at h
    | ok tokens =>
      simp only [htokens] at h
      cases hcalls : parse source.utf8ByteSize tokens with
      | error e => simp [hcalls, Assembly.ofBreak] at h
      | ok calls =>
        simp only [hcalls] at h
        exact ⟨tokens, calls, rfl, hcalls, Assembly.result_ofCalls_eq_ok_iff.1 h⟩
  · rintro ⟨tokens, calls, htokens, hcalls, hadmitted⟩
    simp only [assemble, assembly, Assembly.ofSource, htokens, hcalls]
    exact Assembly.result_ofCalls_eq_ok_iff.2 hadmitted

/-! ### Calls as they are written -/

theorem Call.values_eq (c : Call) : c.values = (c.written.2.getD []).map Prod.snd := by
  obtain ⟨op, span, arguments⟩ := c
  cases arguments with
  | none => rfl
  | some a => simp [Call.values, Call.written, Literal.written, Function.comp_def]

/-- Whether a call is encoded, and into what, does not depend on its spans. -/
theorem Call.admitted_congr [Host] (t : Target) {c d : Call} (h : c.written = d.written) :
    (c.Admitted t ↔ d.Admitted t) ∧ c.bytes t = d.bytes t := by
  have hop : c.operation = d.operation := congrArg Prod.fst h
  have hvalues : c.values = d.values := by rw [c.values_eq, d.values_eq, h]
  have hsome : c.arguments.isSome = d.arguments.isSome := by
    simpa [Call.written] using congrArg (fun w => w.2.isSome) h
  constructor
  · constructor
    · rintro ⟨hlisted, hliterals⟩
      exact ⟨hop ▸ hsome ▸ hlisted, hop ▸ hvalues ▸ hliterals⟩
    · rintro ⟨hlisted, hliterals⟩
      exact ⟨hop ▸ hsome ▸ hlisted, hop ▸ hvalues ▸ hliterals⟩
  · rw [Call.bytes, Call.bytes, Call.pieces, Call.pieces, hop, hvalues]

theorem Call.forall_admitted_congr [Host] (t : Target) {cs ds : List Call}
    (h : cs.map Call.written = ds.map Call.written) :
    ((∀ c ∈ cs, c.Admitted t) ↔ ∀ d ∈ ds, d.Admitted t) ∧
      cs.flatMap (Call.bytes t) = ds.flatMap (Call.bytes t) := by
  induction cs generalizing ds with
  | nil =>
    cases ds with
    | nil => simp
    | cons d ds => simp at h
  | cons c cs ih =>
    cases ds with
    | nil => simp at h
    | cons d ds =>
      simp only [List.map_cons, List.cons.injEq] at h
      obtain ⟨hadmitted, hbytes⟩ := Call.admitted_congr t h.1
      obtain ⟨hrest, hrestBytes⟩ := ih h.2
      rw [List.forall_mem_cons, List.forall_mem_cons, List.flatMap_cons, List.flatMap_cons,
        hadmitted, hrest, hbytes, hrestBytes]
      exact ⟨Iff.rfl, rfl⟩

/-- **The text of calls is assembled** exactly if the calls are admitted. -/
theorem assemble_text_eq_ok_iff [Host] {t : Target} {calls : List Call}
    (h : ∀ c ∈ calls, c.Writable) {b : List UInt8} :
    assemble t ("\n".intercalate (calls.map Call.text)) = .ok b ↔
      (∀ c ∈ calls, c.Admitted t) ∧ b = calls.flatMap (Call.bytes t) := by
  obtain ⟨tokens, htokens, hvalues⟩ := tokenize_source h
  obtain ⟨calls', hcalls, hwritten⟩ := parse_of_tokens
    ("\n".intercalate (calls.map Call.text)).utf8ByteSize hvalues
  obtain ⟨hadmitted, hbytes⟩ := Call.forall_admitted_congr t hwritten
  rw [assemble_eq_ok_iff, ← hadmitted, ← hbytes]
  constructor
  · rintro ⟨found, foundCalls, hfound, hfoundCalls, hresult⟩
    rw [htokens, Except.ok.injEq] at hfound
    subst hfound
    rw [hcalls, Except.ok.injEq] at hfoundCalls
    rwa [hfoundCalls]
  · intro hresult
    exact ⟨tokens, calls', htokens, hcalls, hresult⟩

/-! ### The bytes of calls are segments -/

/-- The segment is what the call is encoded into. -/
structure Call.EncodesTo {t : Target} (c : Call) (s : Segment t) : Prop where
  operation : s.operation = c.operation
  pieces : s.pieces = c.pieces t

theorem Call.Admitted.exists_segment [Host] {t : Target} {c : Call} (h : c.Admitted t)
    (known : c.operation ∈ Operation.all) : ∃ s : Segment t, c.EncodesTo s := by
  have shaped := h.literals.shapes_writeAll (Operation.isChain_operands known)
    fun _ => Value.toInt_zero
  exact ⟨⟨c.operation, c.pieces t, known, shaped⟩, rfl, rfl⟩

theorem exists_segments_of_admitted [Host] {t : Target} {calls : List Call}
    (h : ∀ c ∈ calls, c.operation ∈ Operation.all ∧ c.Admitted t) :
    ∃ segments : List (Segment t), List.Forall₂ Call.EncodesTo calls segments := by
  induction calls with
  | nil => exact ⟨[], .nil⟩
  | cons c cs ih =>
    obtain ⟨⟨known, hc⟩, hcs⟩ := List.forall_mem_cons.1 h
    obtain ⟨s, hs⟩ := hc.exists_segment known
    obtain ⟨segments, hsegments⟩ := ih hcs
    exact ⟨s :: segments, .cons hs hsegments⟩

theorem Call.EncodesTo.bytes_eq {t : Target} {c : Call} {s : Segment t} (h : c.EncodesTo s) :
    c.bytes t = s.bytes := by
  rw [Call.bytes, Segment.bytes, h.operation, h.pieces]

theorem flatMap_bytes_of_encodesTo {t : Target} {calls : List Call} {segments : List (Segment t)}
    (h : List.Forall₂ Call.EncodesTo calls segments) :
    calls.flatMap (Call.bytes t) = segments.flatMap Segment.bytes := by
  induction h with
  | nil => rfl
  | cons hcs _ ih => rw [List.flatMap_cons, List.flatMap_cons, ih, hcs.bytes_eq]

end DwarfExpr
