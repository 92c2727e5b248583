/-
  DwarfExpr/Carrying.lean
  =======================
  **The last operand, carried along.** A block has the size that the operand before it says.  The
  encoder (`encode_operations`, `encode_incomplete`) and the decoder (`disassemble`) keep the last
  operand for that and never drop it, so that a block could be given its size by another operation,
  or find no operand before it, or one that is no 64-bit number.  The operands of a call are those
  of the operation with its code, which there need not be, and a kind may have no width.

  `Call.encode` and `disassembleFrom` begin anew with each operation.  Here are the encoder and the
  decoder as they carry the operand, with every fault that they check for.
-/
import DwarfExpr.Assembly
import DwarfExpr.Instruction

namespace DwarfExpr

/-! ### Encoding -/

/-- The size of a block by the operand before it (`variable_length_bytes`). -/
def blockSize (last : Option Value) : Except EncodeFault Nat :=
  match last with
  | none => .error .noSize
  | some size =>
    match size.toUInt64? with
    | none => .error .sizeTooLarge
    | some bytes => .ok bytes.toNat

/-- The literal as an operand; `last` is the operand before it (`encode_operand`). -/
def Literal.encodeCarrying [Host] (t : Target) (last : Option Value) (kind : OperandKind)
    (l : Literal) : Except EncodeFault (List UInt8) := do
  l.checkSign kind
  match kind with
  | .uleb128 =>
    l.checkWidth 64
    return Leb128.encodeUnsigned l.value
  | .sleb128 =>
    l.checkWidth 64
    return Leb128.encodeSigned l.value
  | .signed w => l.encodeFixed t w.bits
  | .unsigned _ | .address | .word =>
    match kind.width? t with
    | none => .error (.noWidth kind)
    | some w => l.encodeFixed t w.bits
  | .block => l.encodeBlock t (← blockSize last)

/-- Encodes literals as long as there are both kinds and literals, and gives the last operand. -/
def encodeOperandsCarrying [Host] (t : Target) (last : Option Value) :
    List OperandKind → List Literal →
      Except (Spanned EncodeFault) (List UInt8 × Option Value)
  | kind :: kinds, l :: ls =>
    match l.encodeCarrying t last kind with
    | .error fault => .error ⟨fault, l.span⟩
    | .ok bytes =>
      (encodeOperandsCarrying t (some l.value) kinds ls).map fun (more, last) =>
        (bytes ++ more, last)
  | _, _ => .ok ([], last)

/-- The bytes of a call, and the last operand (`encode_call`). -/
def Call.encodeCarrying [Host] (t : Target) (last : Option Value) (following : Span) (c : Call) :
    Except (Spanned EncodeFault) (List UInt8 × Option Value) :=
  match Operation.ofCode? c.operation.code with
  | none => .error ⟨.noOperation c.operation.code, c.span⟩
  | some op =>
    match c.arguments, op.operands with
    | none, [] => .ok ([op.code], last)
    | some a, [] => .error ⟨.needlessList, a.opening⟩
    | none, _ :: _ => .error ⟨.missingList op.name, following⟩
    | some a, kind :: kinds =>
      let expected := kinds.length + 1
      let found := a.operands.length
      match encodeOperandsCarrying t last (kind :: kinds) a.operands with
      | .error fault => .error fault
      | .ok (bytes, last) =>
        if found < expected then .error ⟨.tooFew op.name expected found, a.closing⟩
        else
          match a.operands.drop expected with
          | extra :: _ => .error ⟨.tooMany op.name expected found, extra.span⟩
          | [] => .ok (op.code :: bytes, last)

/-- Whether the literals of an open list can be encoded so far (`encode_incomplete`). -/
def OpenCall.checkCarrying [Host] (t : Target) (last : Option Value) (c : OpenCall) :
    Except (Spanned EncodeFault) Unit :=
  match Operation.ofCode? c.operation.code with
  | none => .error ⟨.noOperation c.operation.code, c.span⟩
  | some op =>
    match encodeOperandsCarrying t last op.operands c.operands with
    | .error fault => .error fault
    | .ok _ =>
      match c.operands.drop op.operands.length with
      | extra :: _ =>
        .error ⟨.tooManySoFar op.name op.operands.length c.operands.length, extra.span⟩
      | [] => .ok ()

/-- Encodes calls up to the first that cannot be encoded, and then an open list, if there is one. -/
def encodeCarrying [Host] (t : Target) (last : Option Value) (stop : Span)
    (incomplete : Option OpenCall) : List Call → Progress
  | [] =>
    match incomplete with
    | none => ⟨[], none⟩
    | some call =>
      match call.checkCarrying t last with
      | .error fault => ⟨[], some fault⟩
      | .ok () => ⟨[], none⟩
  | c :: cs =>
    match c.encodeCarrying t last ((cs.head?.map Call.span).getD stop) with
    | .error fault => ⟨[], some fault⟩
    | .ok (bytes, last) =>
      let rest := encodeCarrying t last stop incomplete cs
      ⟨(c, bytes) :: rest.encoded, rest.fault⟩

/-- Assembles a source with an operand that is left from before (`assemble_source`). -/
def assembleCarrying [Host] (t : Target) (last : Option Value) (source : String) :
    Except Diagnostic (List UInt8) :=
  match tokenize source with
  | .error fault => .error (.ofSource source (.lexical fault.value) fault.span)
  | .ok tokens =>
    match parse source.utf8ByteSize tokens with
    | .ok calls =>
      let progress := encodeCarrying t last (endOfSource source) none calls
      match progress.fault with
      | some fault => .error (.ofSource source (.encoding fault.value) fault.span)
      | none => .ok progress.bytes
    | .error e =>
      match (encodeCarrying t last e.stop e.incomplete e.calls).fault with
      | some fault => .error (.ofSource source (.encoding fault.value) fault.span)
      | none => .error (e.diagnostic source)

/-! ### Decoding -/

/-- Reads one operand; `last` is the operand before it. -/
def decodeOperandCarrying (t : Target) (last : Option Value) (kind : OperandKind)
    (input : List UInt8) : Except OperandFault (Value × List UInt8) :=
  match kind, last with
  | .block, none => .error .missingSize
  | _, _ => decodeOperand t (last.getD .zero) kind input

/-- Reads operands one after another. -/
def decodeOperandsCarrying (t : Target) (last : Option Value) :
    List OperandKind → List UInt8 → Except OperandFault (List Value × List UInt8)
  | [], input => .ok ([], input)
  | kind :: kinds, input =>
    match decodeOperandCarrying t last kind input with
    | .error fault => .error fault
    | .ok (v, rest) =>
      match decodeOperandsCarrying t (some v) kinds rest with
      | .error fault => .error fault
      | .ok (vs, rest) => .ok (v :: vs, rest)

theorem decodeOperandsCarrying_some (t : Target) (size : Value) (kinds : List OperandKind)
    (input : List UInt8) :
    decodeOperandsCarrying t (some size) kinds input = decodeOperands t size kinds input := by
  induction kinds generalizing size input with
  | nil => rfl
  | cons kind kinds ih =>
    have hfirst : decodeOperandCarrying t (some size) kind input =
        decodeOperand t size kind input := by
      cases kind <;> rfl
    rw [decodeOperandsCarrying, decodeOperands, hfirst]
    rcases decodeOperand t size kind input with fault | ⟨v, rest⟩
    · rfl
    · cases hrest : decodeOperands t v kinds rest <;> simp only [ih, hrest]

/-- The operand before is of no use unless a block comes first. -/
theorem decodeOperandsCarrying_of_head?_ne (t : Target) (last : Option Value) (size : Value)
    {kinds : List OperandKind} (h : kinds.head? ≠ some .block) (input : List UInt8) :
    decodeOperandsCarrying t last kinds input = decodeOperands t size kinds input := by
  cases kinds with
  | nil => rfl
  | cons kind kinds =>
    have hfirst : decodeOperandCarrying t last kind input = decodeOperand t size kind input := by
      cases kind with
      | block => exact absurd rfl h
      | _ => rfl
    rw [decodeOperandsCarrying, decodeOperands, hfirst]
    rcases decodeOperand t size kind input with fault | ⟨v, rest⟩
    · rfl
    · cases hrest : decodeOperands t v kinds rest <;>
        simp only [decodeOperandsCarrying_some, hrest]

theorem length_decodeOperandsCarrying_le {t : Target} {last : Option Value}
    {kinds : List OperandKind} {input rest : List UInt8} {vs : List Value}
    (h : decodeOperandsCarrying t last kinds input = .ok (vs, rest)) :
    rest.length ≤ input.length := by
  by_cases hhead : kinds.head? = some .block
  · cases last with
    | some size =>
      rw [decodeOperandsCarrying_some] at h
      exact length_decodeOperands_le h
    | none =>
      obtain ⟨kinds, rfl⟩ := List.head?_eq_some_iff.1 hhead
      cases h
  · rw [decodeOperandsCarrying_of_head?_ne t last .zero hhead] at h
    exact length_decodeOperands_le h

/-- Reads the instructions from an offset on; `last` is the last operand before it. -/
def disassembleCarrying (t : Target) (last : Option Value) (offset : Nat) (input : List UInt8) :
    Except DisassemblyFault (List Instruction) :=
  match input with
  | [] => .ok []
  | code :: body =>
    match Operation.ofCode? code with
    | none => .error (.unknownCode offset code)
    | some op =>
      match h : decodeOperandsCarrying t last op.operands body with
      | .error fault => .error (fault.at offset)
      | .ok (operands, rest) =>
        have : rest.length < body.length + 1 :=
          Nat.lt_succ_of_le (length_decodeOperandsCarrying_le h)
        (disassembleCarrying t (operands.getLast?.or last)
          (offset + (body.length + 1 - rest.length)) rest).map (⟨offset, op, operands⟩ :: ·)
termination_by input.length

end DwarfExpr
