/-
  DwarfExpr/Proofs/Disassembly.lean
  =================================
  **Which bytecode is read, and where reading stops.** Bytecode is read exactly if it is a sequence
  of segments, and then it is one such sequence only; each operation is found at the total length of
  the segments before it.

  If bytecode cannot be read, the fault names the offset of an operation, and everything before that
  offset is segments (`exists_segments_of_error`).  A fault is either a byte that is no code, or it
  is in the operands of an operation; so the byte at its offset tells the two apart.
-/
import DwarfExpr.Proofs.Segment

namespace DwarfExpr

/-- The offset of the operation at fault. -/
def DisassemblyFault.offset : DisassemblyFault → Nat
  | unknownCode offset _ | incomplete offset _ | missingSize offset | sizeTooLarge offset => offset

theorem OperandFault.offset_at (offset : Nat) (fault : OperandFault) :
    (fault.at offset).offset = offset := by
  cases fault <;> rfl

theorem OperandFault.at_ne_unknownCode (offset : Nat) (fault : OperandFault) (code : UInt8) :
    fault.at offset ≠ .unknownCode offset code := by
  cases fault <;> simp [OperandFault.at]

/-- A byte is no code exactly if no operation of the table has it. -/
theorem Operation.ofCode?_eq_none_iff (code : UInt8) :
    Operation.ofCode? code = none ↔ ∀ op ∈ Operation.all, op.code ≠ code := by
  simp [Operation.ofCode?]

/-! ### Offsets -/

/-- An instruction stands behind the segments before its own. -/
theorem Segment.offset_of_mem_instructions {t : Target} {segments : List (Segment t)}
    {offset i : Nat} {op : Instruction} (h : (Segment.instructions offset segments)[i]? = some op) :
    op.offset = offset + ((segments.take i).flatMap Segment.bytes).length := by
  induction segments generalizing offset i with
  | nil => simp [Segment.instructions] at h
  | cons s ss ih =>
    cases i with
    | zero =>
      obtain rfl : ⟨offset, s.operation, s.values⟩ = op := by
        simpa [Segment.instructions] using h
      simp
    | succ i =>
      have htail := @ih (offset + s.bytes.length) i (by simpa [Segment.instructions] using h)
      rw [htail, List.take_succ_cons, List.flatMap_cons, List.length_append, Nat.add_assoc]

/-! ### Faults -/

/-- What is wrong with the bytes from the code of an operation on. -/
inductive FaultAt (t : Target) (offset : Nat) (code : UInt8) (body : List UInt8) :
    DisassemblyFault → Prop
  | code (h : Operation.ofCode? code = none) :
      FaultAt t offset code body (.unknownCode offset code)
  | operands {op : Operation} {fault : OperandFault} (hop : Operation.ofCode? code = some op)
      (h : decodeOperands t .zero op.operands body = .error fault) :
      FaultAt t offset code body (fault.at offset)

theorem FaultAt.offset_eq {t : Target} {offset : Nat} {code : UInt8} {body : List UInt8}
    {fault : DisassemblyFault} (h : FaultAt t offset code body fault) : fault.offset = offset := by
  cases h with
  | code hcode => rfl
  | operands hop hfault => exact OperandFault.offset_at offset _

/-- Only an unknown code is reported as one. -/
theorem FaultAt.unknownCode_iff {t : Target} {offset : Nat} {code : UInt8} {body : List UInt8}
    {fault : DisassemblyFault} (h : FaultAt t offset code body fault) :
    (∃ c, fault = .unknownCode offset c) ↔ ∀ op ∈ Operation.all, op.code ≠ code := by
  rw [← Operation.ofCode?_eq_none_iff]
  cases h with
  | code hcode => exact iff_of_true ⟨code, rfl⟩ hcode
  | @operands op operandFault hop hfault =>
    refine iff_of_false ?_ (by simp [hop])
    rintro ⟨c, hc⟩
    exact operandFault.at_ne_unknownCode offset c hc

/-- **One step of the disassembler**: it takes a segment off the front, or fails there. -/
theorem disassembleFrom_step (t : Target) (offset : Nat) (code : UInt8) (body : List UInt8) :
    (∃ (s : Segment t) (rest : List UInt8), code :: body = s.bytes ++ rest) ∨
      ∃ fault, disassembleFrom t offset (code :: body) = .error fault ∧
        FaultAt t offset code body fault := by
  rw [disassembleFrom_cons]
  cases hcode : Operation.ofCode? code with
  | none => exact Or.inr ⟨_, rfl, .code hcode⟩
  | some op =>
    cases hvs : decodeOperands t .zero op.operands body with
    | error fault => exact Or.inr ⟨_, by simp only [hvs], .operands hcode hvs⟩
    | ok found =>
      obtain ⟨vs, rest⟩ := found
      obtain ⟨known, rfl⟩ := Operation.ofCode?_eq_some hcode
      obtain ⟨pieces, rfl, shaped, -⟩ := decodeOperands_eq_ok_iff.1 hvs
      exact Or.inl ⟨⟨op, pieces, known, shaped⟩, rest, rfl⟩

/-- **Where reading stops**: behind segments, at the operation at fault. -/
theorem exists_segments_of_error {t : Target} {offset : Nat} {input : List UInt8}
    {fault : DisassemblyFault} (h : disassembleFrom t offset input = .error fault) :
    ∃ (segments : List (Segment t)) (code : UInt8) (body : List UInt8),
      input = segments.flatMap Segment.bytes ++ code :: body ∧
      FaultAt t (offset + (segments.flatMap Segment.bytes).length) code body fault := by
  -- on the length, since a segment is taken off at each step
  induction hn : input.length using Nat.strong_induction_on generalizing offset input with
  | _ n ih =>
    cases input with
    | nil => simp [disassembleFrom_nil] at h
    | cons code body =>
      rcases disassembleFrom_step t offset code body with ⟨s, rest, hs⟩ | ⟨fault', hfault, hat⟩
      · rw [hs, s.disassembleFrom_bytes_append] at h
        have hrest : disassembleFrom t (offset + s.bytes.length) rest = .error fault := by
          cases hafter : disassembleFrom t (offset + s.bytes.length) rest with
          | error other => simpa [hafter, Except.map] using h
          | ok ops => simp [hafter, Except.map] at h
        have hlt : rest.length < n := by
          rw [← hn, hs, List.length_append, Segment.bytes, List.length_cons]
          omega
        obtain ⟨segments, code', body', rfl, hat⟩ := ih rest.length hlt hrest rfl
        refine ⟨s :: segments, code', body', ?_, ?_⟩
        · rw [hs, List.flatMap_cons, List.append_assoc]
        · rwa [List.flatMap_cons, List.length_append, ← Nat.add_assoc]
      · rw [hfault, Except.error.injEq] at h
        subst h
        exact ⟨[], code, body, rfl, hat⟩

/-! ### The language of the disassembler -/

/-- **The disassembler reads exactly the sequences of segments, in one way.**  Each operation is at
    the total length of the segments before it, and no operation begins with a block, so that the
    size of a block always comes from its own operation.  If reading fails, the bytes before the
    offset of the fault can be read, and the fault is an unknown code exactly if the byte at that
    offset is none. -/
theorem disassemble_language (t : Target) (b : List UInt8) :
    (∀ ops, disassemble t b = .ok ops ↔
      ∃ segments : List (Segment t), b = segments.flatMap Segment.bytes ∧
        ops = Segment.instructions 0 segments) ∧
    (∀ segments segments' : List (Segment t), b = segments.flatMap Segment.bytes →
      b = segments'.flatMap Segment.bytes → segments = segments') ∧
    (∀ (segments : List (Segment t)) ops, b = segments.flatMap Segment.bytes →
      disassemble t b = .ok ops → ∀ i op, ops[i]? = some op →
        op.offset = ((segments.take i).flatMap Segment.bytes).length) ∧
    (∀ op ∈ Operation.all, op.operands.head? ≠ some .block) ∧
    ∀ fault, disassemble t b = .error fault →
      (∃ ops, disassemble t (b.take fault.offset) = .ok ops) ∧
      ∃ byte, b[fault.offset]? = some byte ∧
        ((∃ code, fault = .unknownCode fault.offset code) ↔
          ∀ op ∈ Operation.all, op.code ≠ byte) := by
  refine ⟨fun ops => disassemble_eq_ok_iff, ?_, ?_, fun op => Operation.head?_operands_ne_block, ?_⟩
  · intro segments segments' h h'
    exact Segment.flatMap_bytes_injective (h.symm.trans h')
  · intro segments ops h hops i op hop
    rw [h, disassemble, Segment.disassembleFrom_flatMap, Except.ok.injEq] at hops
    subst hops
    simpa using Segment.offset_of_mem_instructions hop
  · intro fault h
    obtain ⟨segments, code, body, rfl, hat⟩ := exists_segments_of_error h
    have hoffset := hat.offset_eq
    rw [Nat.zero_add] at hoffset
    rw [Nat.zero_add, ← hoffset] at hat
    refine ⟨⟨Segment.instructions 0 segments, ?_⟩, code, ?_, hat.unknownCode_iff⟩
    · rw [hoffset, List.take_left]
      exact Segment.disassembleFrom_flatMap segments 0
    · rw [hoffset, List.getElem?_append_right (le_refl _), Nat.sub_self, List.getElem?_cons_zero]

/-- A block that is cut off, and a byte that is no code. -/
theorem disassemble_language_faults :
    (disassemble {} [0x96, 0x9e, 2, 7] = .error (.incomplete 1 (.truncated 2 1)) ∧
      (∃ ops, disassemble {} [0x96] = .ok ops) ∧
      ¬ ∀ op ∈ Operation.all, op.code ≠ 0x9e) ∧
    disassemble {} [0x9e, 2, 7, 8, 0x01] = .error (.unknownCode 4 0x01) ∧
      (∃ ops, disassemble {} [0x9e, 2, 7, 8] = .ok ops) ∧
      ∀ op ∈ Operation.all, op.code ≠ 0x01 := by
  have hcut : disassemble {} [0x96, 0x9e, 2, 7] = .error (.incomplete 1 (.truncated 2 1)) := by
    decide +kernel
  have hunknown : disassemble {} [0x9e, 2, 7, 8, 0x01] = .error (.unknownCode 4 0x01) := by
    decide +kernel
  obtain ⟨hbefore, byte, hbyte, hcode⟩ := (disassemble_language _ _).2.2.2.2 _ hcut
  obtain ⟨hbefore', byte', hbyte', hcode'⟩ := (disassemble_language _ _).2.2.2.2 _ hunknown
  obtain rfl : 0x9e = byte := by simpa [DisassemblyFault.offset] using hbyte
  obtain rfl : 0x01 = byte' := by simpa [DisassemblyFault.offset] using hbyte'
  exact ⟨⟨hcut, hbefore, fun h => by simpa using hcode.2 h⟩, hunknown, hbefore', hcode'.1 ⟨_, rfl⟩⟩

end DwarfExpr
