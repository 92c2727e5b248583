/-
  DwarfExpr/Proofs/Continuation.lean
  ==================================
  **Bytecode one part after another.** If the first part of an input can be read, then the rest is
  read as if it stood alone, with all offsets further on (`disassemble_append`).  Two things could
  spoil this.

    * A decoder could look at the bytes behind its operand.  It does not: a segment is read in the
      same way whatever follows it (`Segment.disassembleFrom_flatMap_append`).
    * The size of a block could come from the operation before.  A disassembler that carries the
      last operand along (`disassembleCarrying`) shows that it never does, for no operation begins
      with a block (`disassembleCarrying_eq`).  So no block is without a size, either
      (`disassembleCarrying_ne_missingSize`).
-/
import DwarfExpr.Carrying
import DwarfExpr.Proofs.Disassembly
import DwarfExpr.Proofs.Except

namespace DwarfExpr

/-! ### Offsets further on -/

def Instruction.shift (n : Nat) (i : Instruction) : Instruction := { i with offset := i.offset + n }

def DisassemblyFault.shift (n : Nat) : DisassemblyFault → DisassemblyFault
  | unknownCode offset code => unknownCode (offset + n) code
  | incomplete offset reason => incomplete (offset + n) reason
  | missingSize offset => missingSize (offset + n)
  | sizeTooLarge offset => sizeTooLarge (offset + n)

theorem OperandFault.shift_at (offset n : Nat) (fault : OperandFault) :
    (fault.at offset).shift n = fault.at (offset + n) := by
  cases fault <;> rfl

/-- Where reading begins matters to the offsets only. -/
theorem disassembleFrom_add (t : Target) (offset n : Nat) (input : List UInt8) :
    disassembleFrom t (offset + n) input =
      match disassembleFrom t offset input with
      | .ok ops => .ok (ops.map (Instruction.shift n))
      | .error fault => .error (fault.shift n) := by
  -- on the length, since an operation is taken off at each step
  induction hlength : input.length using Nat.strong_induction_on generalizing offset input with
  | _ length ih =>
    cases input with
    | nil => simp [disassembleFrom_nil]
    | cons code body =>
      rw [disassembleFrom_cons, disassembleFrom_cons]
      cases Operation.ofCode? code with
      | none => rfl
      | some op =>
        cases hoperands : decodeOperands t .zero op.operands body with
        | error fault => simp only [hoperands, OperandFault.shift_at]
        | ok found =>
          obtain ⟨operands, rest⟩ := found
          have hshorter : rest.length < length := by
            rw [← hlength]
            exact Nat.lt_succ_of_le (length_decodeOperands_le hoperands)
          have hrest := ih rest.length hshorter (offset + (body.length + 1 - rest.length)) rest rfl
          rw [Nat.add_right_comm] at hrest
          simp only [hoperands, hrest]
          cases disassembleFrom t (offset + (body.length + 1 - rest.length)) rest <;> rfl

/-! ### Nothing is carried over -/

/-- **No operation depends on an operand of another one.** -/
theorem disassembleCarrying_eq (t : Target) (last : Option Value) (offset : Nat)
    (input : List UInt8) :
    disassembleCarrying t last offset input = disassembleFrom t offset input := by
  have halone {code : UInt8} {op : Operation} (hcode : Operation.ofCode? code = some op)
      (last : Option Value) (body : List UInt8) :
      decodeOperandsCarrying t last op.operands body = decodeOperands t .zero op.operands body :=
    decodeOperandsCarrying_of_head?_ne t last .zero
      (Operation.head?_operands_ne_block (Operation.ofCode?_eq_some hcode).1) body
  fun_induction disassembleCarrying t last offset input with
  | case1 last offset => rw [disassembleFrom_nil]
  | case2 last offset code body hcode => simp only [disassembleFrom_cons, hcode]
  | case3 last offset code body op hcode fault hoperands =>
    rw [halone hcode] at hoperands
    simp only [disassembleFrom_cons, hcode, hoperands]
  | case4 last offset code body op hcode operands rest hoperands _ ih =>
    rw [halone hcode] at hoperands
    simp only [disassembleFrom_cons, hcode, hoperands, ih]

theorem decodeOperand_ne_missingSize (t : Target) (size : Value) (kind : OperandKind)
    (input : List UInt8) : decodeOperand t size kind input ≠ .error .missingSize := by
  have hincomplete (x : Decoded Value) :
      x.mapError OperandFault.incomplete ≠ .error .missingSize := by
    cases x <;> simp [Except.mapError]
  cases kind with
  | block =>
    simp only [decodeOperand]
    cases size.toUInt64? with
    | none => simp
    | some length => exact hincomplete _
  | _ => exact hincomplete _

theorem decodeOperands_ne_missingSize (t : Target) (size : Value) (kinds : List OperandKind)
    (input : List UInt8) : decodeOperands t size kinds input ≠ .error .missingSize := by
  induction kinds generalizing size input with
  | nil => simp [decodeOperands]
  | cons kind kinds ih =>
    have hfirst := decodeOperand_ne_missingSize t size kind input
    rw [decodeOperands]
    cases hread : decodeOperand t size kind input with
    | error fault => simpa [hread] using hfirst
    | ok found =>
      obtain ⟨v, rest⟩ := found
      have hrest := ih v rest
      simp only
      cases hmore : decodeOperands t v kinds rest with
      | error fault => simpa [hmore] using hrest
      | ok found => simp

/-- **No block is without a size**, whether or not there is an operand to begin with. -/
theorem disassembleCarrying_ne_missingSize (t : Target) (last : Option Value) (offset place : Nat)
    (input : List UInt8) :
    disassembleCarrying t last offset input ≠ .error (.missingSize place) := by
  rw [disassembleCarrying_eq]
  fun_induction disassembleFrom t offset input with
  | case1 => simp
  | case2 => simp
  | case3 offset code body op hcode fault hoperands =>
    intro h
    have hmissing : fault = .missingSize := by cases fault <;> simp_all [OperandFault.at]
    exact decodeOperands_ne_missingSize _ _ _ _ (hmissing ▸ hoperands)
  | case4 offset code body op hcode operands rest hoperands _ ih =>
    intro h
    exact ih (map_eq_error_iff.1 h)

/-! ### Reading on -/

theorem Segment.disassembleFrom_flatMap_append {t : Target} (segments : List (Segment t))
    (offset : Nat) (rest : List UInt8) :
    disassembleFrom t offset (segments.flatMap Segment.bytes ++ rest) =
      (disassembleFrom t (offset + (segments.flatMap Segment.bytes).length) rest).map
        (Segment.instructions offset segments ++ ·) := by
  induction segments generalizing offset with
  | nil => exact (id_map (disassembleFrom t offset rest)).symm
  | cons s ss ih =>
    rw [List.flatMap_cons, List.append_assoc, s.disassembleFrom_bytes_append, ih,
      List.length_append, Nat.add_assoc]
    cases disassembleFrom t
      (offset + (s.bytes.length + (ss.flatMap Segment.bytes).length)) rest <;> rfl

/-- **Disassembly of a concatenation.** Behind bytecode that can be read, an input is read as if it
    stood alone: its instructions follow with their offsets increased by the length of what is
    before, and so is the offset of its fault, which is the same otherwise.  It makes no difference
    whether the last operand is carried over from one operation to the next. -/
theorem disassemble_append {t : Target} {b : List UInt8} {ops : List Instruction}
    (h : disassemble t b = .ok ops) (b' : List UInt8) :
    (disassemble t (b ++ b') =
      match disassemble t b' with
      | .ok ops' => .ok (ops ++ ops'.map (Instruction.shift b.length))
      | .error fault => .error (fault.shift b.length)) ∧
    ∀ last, disassembleCarrying t last 0 (b ++ b') = disassemble t (b ++ b') := by
  refine ⟨?_, fun last => disassembleCarrying_eq t last 0 (b ++ b')⟩
  obtain ⟨segments, rfl, rfl⟩ := disassemble_eq_ok_iff.1 h
  rw [disassemble, Segment.disassembleFrom_flatMap_append, disassembleFrom_add, disassemble]
  cases disassembleFrom t 0 b' <;> rfl

/-- A block behind an operation that ends with an operand; then an operation that is cut off. -/
theorem disassemble_append_block :
    disassemble {} [0x08, 5] = .ok [⟨0, ⟨"DW_OP_const1u", 0x08, [.unsigned .bits8]⟩, [.ofNat 5]⟩] ∧
    disassemble {} ([0x08, 5] ++ [0x9e, 1, 7]) =
      .ok [⟨0, ⟨"DW_OP_const1u", 0x08, [.unsigned .bits8]⟩, [.ofNat 5]⟩,
        ⟨2, ⟨"DW_OP_implicit_value", 0x9e, [.uleb128, .block]⟩, [.ofNat 1, .ofNat 7]⟩] ∧
    disassemble {} ([0x08, 5] ++ [0x96, 0x9e, 3, 7]) =
      .error (.incomplete 3 (.truncated 3 1)) := by
  have hfirst : disassemble {} [0x08, 5] =
      .ok [⟨0, ⟨"DW_OP_const1u", 0x08, [.unsigned .bits8]⟩, [.ofNat 5]⟩] := by decide +kernel
  have hblock : disassemble {} [0x9e, 1, 7] =
      .ok [⟨0, ⟨"DW_OP_implicit_value", 0x9e, [.uleb128, .block]⟩, [.ofNat 1, .ofNat 7]⟩] := by
    decide +kernel
  have hcut : disassemble {} [0x96, 0x9e, 3, 7] = .error (.incomplete 1 (.truncated 3 1)) := by
    decide +kernel
  refine ⟨hfirst, ?_, ?_⟩
  · rw [(disassemble_append hfirst _).1, hblock]
    rfl
  · rw [(disassemble_append hfirst _).1, hcut]
    rfl

end DwarfExpr
