/-
  DwarfExpr/Instruction.lean
  ==========================
  **From bytecode to instructions.** An instruction is an operation found in bytecode: where it
  begins, and the values of its operands (`DecodedOperation`).  `disassemble` reads instructions one
  after another until no byte is left.  It fails at a byte that is no operation's code, at an
  operation that the input ends in, and at a block whose size is not a 64-bit number
  (`DisassemblyFailure`).

  An instruction is written so that assembling the text gives its operands again: addresses and
  blocks in hexadecimal, all others in decimal, except that a signed operand which is too wide for a
  literal of its own width (the least value of the width) is written as its bit pattern.
-/
import DwarfExpr.Encoding
import DwarfExpr.Numeral
import DwarfExpr.Operation.Table

namespace DwarfExpr

/-- An operation in bytecode. -/
structure Instruction where
  offset : Nat
  operation : Operation
  operands : List Value
  deriving DecidableEq, Repr

/-! ### Text -/

namespace Instruction

/-- How an operand is written: the radix and the number. -/
def operandLiteral (kind : OperandKind) (v : Value) : Radix × Value :=
  match kind with
  | .address | .block => (.hexadecimal, v)
  | .signed w =>
    if w.bits < v.literalWidth then (.hexadecimal, .ofBytes false (v.bits w.bits).bytes)
    else (.decimal, v)
  | .uleb128 | .sleb128 | .unsigned _ | .word => (.decimal, v)

def operandText (kind : OperandKind) (v : Value) : String :=
  let (radix, number) := operandLiteral kind v
  number.text radix

/-- An instruction: `NAME` or `NAME(1, 0x2)`. -/
def text (i : Instruction) : String :=
  match i.operation.operands with
  | [] => i.operation.name
  | kinds =>
    let operands := (kinds.zip i.operands).map fun (kind, v) => operandText kind v
    i.operation.name ++ "(" ++ ", ".intercalate operands ++ ")"

/-- Offsets have at least four hexadecimal digits. -/
def offsetFormat : NumberFormat :=
  { radix := .hexadecimal, mark := true, zeros := true, width := 6 }

/-- A line of a listing: `0x0000: NAME`. -/
def line (i : Instruction) : String := s!"{(Value.ofNat i.offset).format offsetFormat}: {i.text}"

end Instruction

/-! ### Decoding -/

/-- Why there is no operand. -/
inductive OperandFault where
  | incomplete (reason : DecodeFault)
  /-- There is no operand before a block. -/
  | missingSize
  | sizeTooLarge
  deriving DecidableEq, Repr

/-- Why bytecode cannot be read, and the offset of the operation at fault. -/
inductive DisassemblyFault where
  | unknownCode (offset : Nat) (code : UInt8)
  | incomplete (offset : Nat) (reason : DecodeFault)
  | missingSize (offset : Nat)
  | sizeTooLarge (offset : Nat)
  deriving DecidableEq, Repr

def DisassemblyFault.message : DisassemblyFault → String
  | unknownCode offset code => s!"unknown operation code {ByteText.code code} at offset {offset}"
  | incomplete offset reason => s!"operation at offset {offset} is incomplete: {reason.message}"
  | missingSize offset =>
    s!"operation at offset {offset} has a variable-length operand with no size operand before it"
  | sizeTooLarge offset =>
    s!"operation at offset {offset} has a size operand which exceeds the supported 64-bit range"

/-- The fault of an operand as a fault of its operation. -/
def OperandFault.at (offset : Nat) : OperandFault → DisassemblyFault
  | incomplete reason => .incomplete offset reason
  | missingSize => .missingSize offset
  | sizeTooLarge => .sizeTooLarge offset

/-- Reads one operand; `size` is the value of the operand before it. -/
def decodeOperand (t : Target) (size : Value) (kind : OperandKind) (input : List UInt8) :
    Except OperandFault (Value × List UInt8) :=
  let fixed (length : Nat) := (Fixed.decode t.order kind.isSigned length input).mapError .incomplete
  match kind with
  | .uleb128 => (Leb128.decodeUnsigned input).mapError .incomplete
  | .sleb128 => (Leb128.decodeSigned input).mapError .incomplete
  | .signed w | .unsigned w => fixed w.bytes
  | .address => fixed t.address.bytes
  | .word => fixed t.word.width.bytes
  | .block =>
    match size.toUInt64? with
    | none => .error .sizeTooLarge
    | some length => fixed length.toNat

/-- Reads operands one after another. -/
def decodeOperands (t : Target) (size : Value) :
    List OperandKind → List UInt8 → Except OperandFault (List Value × List UInt8)
  | [], input => .ok ([], input)
  | kind :: kinds, input =>
    match decodeOperand t size kind input with
    | .error fault => .error fault
    | .ok (v, rest) =>
      match decodeOperands t v kinds rest with
      | .error fault => .error fault
      | .ok (vs, rest) => .ok (v :: vs, rest)

theorem ok_of_mapError {α ε δ : Type} {f : ε → δ} {x : Except ε α} {a : α}
    (h : x.mapError f = .ok a) : x = .ok a := by
  cases x with
  | error e => cases h
  | ok b => exact congrArg Except.ok (Except.ok.inj h)

theorem length_decodeOperand_le {t : Target} {size v : Value} {kind : OperandKind}
    {input rest : List UInt8} (h : decodeOperand t size kind input = .ok (v, rest)) :
    rest.length ≤ input.length := by
  unfold decodeOperand at h
  split at h
  · exact Nat.le_of_lt (Leb128.length_decodeUnsigned_lt (ok_of_mapError h))
  · exact Nat.le_of_lt (Leb128.length_decodeSigned_lt (ok_of_mapError h))
  · exact Fixed.length_rest_le (ok_of_mapError h)
  · exact Fixed.length_rest_le (ok_of_mapError h)
  · exact Fixed.length_rest_le (ok_of_mapError h)
  · exact Fixed.length_rest_le (ok_of_mapError h)
  · split at h
    · simp at h
    · exact Fixed.length_rest_le (ok_of_mapError h)

/-- The bytes after the operands are no more than there were. -/
theorem length_decodeOperands_le {t : Target} {size : Value} {kinds : List OperandKind}
    {input rest : List UInt8} {vs : List Value}
    (h : decodeOperands t size kinds input = .ok (vs, rest)) : rest.length ≤ input.length := by
  induction kinds generalizing size input vs with
  | nil =>
    simp only [decodeOperands, Except.ok.injEq, Prod.mk.injEq] at h
    simp [h.2]
  | cons kind kinds ih =>
    unfold decodeOperands at h
    split at h
    · simp at h
    · next hv =>
      split at h
      · simp at h
      · next hvs =>
        simp only [Except.ok.injEq, Prod.mk.injEq] at h
        obtain ⟨-, rfl⟩ := h
        exact Nat.le_trans (ih hvs) (length_decodeOperand_le hv)

/-- Reads the instructions from an offset on. -/
def disassembleFrom (t : Target) (offset : Nat) (input : List UInt8) :
    Except DisassemblyFault (List Instruction) :=
  match input with
  | [] => .ok []
  | code :: body =>
    match Operation.ofCode? code with
    | none => .error (.unknownCode offset code)
    | some op =>
      match h : decodeOperands t .zero op.operands body with
      | .error fault => .error (fault.at offset)
      | .ok (operands, rest) =>
        have : rest.length < body.length + 1 := Nat.lt_succ_of_le (length_decodeOperands_le h)
        (disassembleFrom t (offset + (body.length + 1 - rest.length)) rest).map
          (⟨offset, op, operands⟩ :: ·)
termination_by input.length

/-- The instructions of bytecode. -/
def disassemble (t : Target) (bytes : List UInt8) : Except DisassemblyFault (List Instruction) :=
  disassembleFrom t 0 bytes

/-- The text of instructions, a line each. -/
def Instruction.source (instructions : List Instruction) : String :=
  "\n".intercalate (instructions.map Instruction.text)

end DwarfExpr
