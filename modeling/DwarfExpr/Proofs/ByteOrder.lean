/-
  DwarfExpr/Proofs/ByteOrder.lean
  ===============================
  **The byte order of a target only orders bytes.** A source is assembled for both byte orders or
  for none, with the same diagnostic.  The two bytecodes have the same bytes in a different order,
  and the same instructions (`assemble_byteOrder`).

  The encoder looks at the byte order when everything is checked.  So each step gives the same fault
  for both orders, or else the bytes of the other order (`Literal.encode_order`,
  `Call.encode_order`).  The decoder undoes the order operand by operand; as the bytes of an operand
  are as many in both orders, no offset moves (`Segment.instructions_order`).
-/
import DwarfExpr.Proofs.Concatenation
import DwarfExpr.Proofs.RoundTrip
import Mathlib.Data.List.Perm.Basic

namespace DwarfExpr

/-! ### Bytes -/

theorem ByteOrder.perm_arrange (order order' : ByteOrder) (bytes : List UInt8) :
    (order.arrange bytes).Perm (order'.arrange bytes) := by
  have hperm (o : ByteOrder) : (o.arrange bytes).Perm bytes := by
    cases o with
    | little => exact .refl _
    | big => exact List.reverse_perm bytes
  exact (hperm order).trans (hperm order').symm

namespace OperandKind

/-- LEB128 numbers have no byte order; all other operands are rearranged as a whole. -/
theorem perm_write (t : Target) (order : ByteOrder) (size : Nat) (v : Value) (kind : OperandKind) :
    (kind.write t size v).Perm (kind.write { t with order := order } size v) := by
  cases kind with
  | uleb128 => exact .refl _
  | sleb128 => exact .refl _
  | _ => exact t.order.perm_arrange order _

theorem perm_flatten_writeAll (t : Target) (order : ByteOrder) (size : Nat)
    (kinds : List OperandKind) (vs : List Value) :
    (writeAll t size kinds vs).flatten.Perm
      (writeAll { t with order := order } size kinds vs).flatten := by
  induction kinds generalizing size vs with
  | nil => exact .refl _
  | cons kind kinds ih =>
    cases vs with
    | nil => exact .refl _
    | cons v vs => exact (kind.perm_write t order size v).append (ih v.toInt.toNat vs)

end OperandKind

theorem Call.perm_bytes (t : Target) (order : ByteOrder) (c : Call) :
    (c.bytes t).Perm (c.bytes { t with order := order }) := by
  apply List.Perm.cons
  exact OperandKind.perm_flatten_writeAll t order 0 c.operation.operands c.values

theorem Call.perm_flatMap_bytes (t : Target) (order : ByteOrder) (calls : List Call) :
    (calls.flatMap (Call.bytes t)).Perm
      (calls.flatMap (Call.bytes { t with order := order })) := by
  apply List.Perm.flatMap_left
  intro c _
  exact c.perm_bytes t order

/-! ### Faults -/

section Faults

variable (t : Target) (order : ByteOrder)

namespace Literal

variable (l : Literal)

theorem encodeFixed_order (width : Nat) :
    l.encodeFixed { t with order := order } width =
      (l.encodeFixed t width).map fun _ => Fixed.encode order width l.value := by
  rw [encodeFixed, encodeFixed]
  cases l.checkWidth width <;> rfl

variable [Host]

theorem encodeBlock_order (size : Nat) :
    l.encodeBlock { t with order := order } size =
      (l.encodeBlock t size).map fun _ => Fixed.encode order (size * 8) l.value := by
  rw [encodeBlock, encodeBlock]
  cases Host.addressable size with
  | false => rfl
  | true =>
    cases l.checkWidth (size * 8) with
    | error fault => rfl
    | ok u => cases Host.allocatable size <;> rfl

theorem encode_order (size : Nat) (kind : OperandKind) :
    l.encode { t with order := order } size kind =
      (l.encode t size kind).map fun _ => kind.write { t with order := order } size l.value := by
  unfold encode
  cases l.checkSign kind with
  | error fault => rfl
  | ok u =>
    cases kind with
    | uleb128 =>
      dsimp only
      cases l.checkWidth 64 <;> rfl
    | sleb128 =>
      dsimp only
      cases l.checkWidth 64 <;> rfl
    | signed w => exact l.encodeFixed_order t order w.bits
    | unsigned w => exact l.encodeFixed_order t order w.bits
    | address => exact l.encodeFixed_order t order t.address.bits
    | word => exact l.encodeFixed_order t order t.word.width.bits
    | block => exact l.encodeBlock_order t order size

end Literal

variable [Host]

theorem encodeOperands_order (size : Nat) (kinds : List OperandKind) (ls : List Literal) :
    encodeOperands { t with order := order } size kinds ls =
      (encodeOperands t size kinds ls).map fun _ =>
        (OperandKind.writeAll { t with order := order } size kinds (ls.map (·.value))).flatten := by
  induction kinds generalizing size ls with
  | nil => cases ls <;> rfl
  | cons kind kinds ih =>
    cases ls with
    | nil => rfl
    | cons l ls =>
      rw [encodeOperands, encodeOperands, l.encode_order t order]
      cases l.encode t size kind with
      | error fault => rfl
      | ok bytes =>
        simp only [Except.map, ih]
        cases encodeOperands t l.value.toInt.toNat kinds ls <;> rfl

/-- **The byte order matters to no check.** -/
theorem Call.encode_order (following : Span) (c : Call) :
    c.encode { t with order := order } following =
      (c.encode t following).map fun _ => c.bytes { t with order := order } := by
  obtain ⟨⟨name, code, kinds⟩, span, arguments⟩ := c
  cases arguments with
  | none => cases kinds <;> rfl
  | some a =>
    cases kinds with
    | nil => rfl
    | cons kind kinds =>
      simp only [Call.encode, encodeOperands_order t order]
      cases encodeOperands t 0 (kind :: kinds) a.operands with
      | error fault => rfl
      | ok bytes =>
        simp only [Except.map]
        by_cases hfew : a.operands.length < kinds.length + 1
        · rw [if_pos hfew, if_pos hfew]
        · rw [if_neg hfew, if_neg hfew]
          cases a.operands.drop (kinds.length + 1) <;> rfl

theorem OpenCall.check_order (c : OpenCall) :
    c.check { t with order := order } = c.check t := by
  rw [OpenCall.check, OpenCall.check, encodeOperands_order t order]
  cases encodeOperands t 0 c.operation.operands c.operands <;> rfl

theorem Break.fault_order (ending : Span) (place : Break) :
    place.fault { t with order := order } ending = place.fault t ending := by
  have hfault : OpenCall.fault { t with order := order } = OpenCall.fault t := by
    funext c
    rw [OpenCall.fault, OpenCall.fault, c.check_order t order]
  rw [Break.fault, Break.fault, hfault]

theorem firstFault_order (eos ending : Span) (calls : List Call) (broken : Option Break) :
    firstFault { t with order := order } eos ending (calls, broken) =
      firstFault t eos ending (calls, broken) := by
  induction calls with
  | nil =>
    cases broken with
    | none => rfl
    | some place => exact congrArg some (place.fault_order t order ending)
  | cons c calls ih =>
    have hencode := c.encode_order t order (following eos ending (calls, broken))
    cases hc : c.encode t (following eos ending (calls, broken)) with
    | error e =>
      rw [hc] at hencode
      rw [firstFault_cons_of_error hc, firstFault_cons_of_error hencode]
    | ok bytes =>
      rw [hc] at hencode
      rw [firstFault_cons_of_admitted (Call.encode_eq_ok_iff.1 hencode).1,
        firstFault_cons_of_admitted (Call.encode_eq_ok_iff.1 hc).1, ih]

end Faults

/-! ### Instructions -/

/-- **The two bytecodes of calls have the same instructions**, at the same offsets. -/
theorem Segment.instructions_order [Host] {t : Target} {order : ByteOrder} {calls : List Call}
    {segments : List (Segment t)} {segments' : List (Segment { t with order := order })}
    (h : List.Forall₂ Call.EncodesTo calls segments)
    (h' : List.Forall₂ Call.EncodesTo calls segments') (hadmitted : ∀ c ∈ calls, c.Admitted t)
    (hadmitted' : ∀ c ∈ calls, c.Admitted { t with order := order }) (offset : Nat) :
    instructions offset segments = instructions offset segments' := by
  induction h generalizing segments' offset with
  | nil =>
    cases h'
    rfl
  | @cons c s cs ss hs _ ih =>
    cases h' with
    | @cons _ s' _ ss' hs' hss' =>
      obtain ⟨hc, hcs⟩ := List.forall_mem_cons.1 hadmitted
      obtain ⟨hc', hcs'⟩ := List.forall_mem_cons.1 hadmitted'
      have hoperation : s.operation = s'.operation := hs.operation.trans hs'.operation.symm
      have hvalues : s.values = s'.values := by
        apply List.map_injective_iff.2 fun _ _ => Value.toInt_injective
        rw [hs.toInt_values hc, hs'.toInt_values hc']
      have hlength : s.bytes.length = s'.bytes.length := by
        rw [← hs.bytes_eq, ← hs'.bytes_eq]
        exact (c.perm_bytes t order).length_eq
      rw [instructions, instructions, hoperation, hvalues, hlength, ih hss' hcs hcs']

theorem exists_disassemble_order [Host] {t : Target} {order : ByteOrder} {calls : List Call}
    (hknown : ∀ c ∈ calls, c.operation ∈ Operation.all) (hadmitted : ∀ c ∈ calls, c.Admitted t)
    (hadmitted' : ∀ c ∈ calls, c.Admitted { t with order := order }) :
    ∃ ops, disassemble t (calls.flatMap (Call.bytes t)) = .ok ops ∧
      disassemble { t with order := order }
        (calls.flatMap (Call.bytes { t with order := order })) = .ok ops := by
  obtain ⟨segments, hsegments⟩ := exists_segments_of_admitted fun c hc =>
    ⟨hknown c hc, hadmitted c hc⟩
  obtain ⟨segments', hsegments'⟩ := exists_segments_of_admitted fun c hc =>
    ⟨hknown c hc, hadmitted' c hc⟩
  refine ⟨Segment.instructions 0 segments, ?_, ?_⟩
  · apply disassemble_eq_ok_iff.2
    exact ⟨segments, flatMap_bytes_of_encodesTo hsegments, rfl⟩
  · apply disassemble_eq_ok_iff.2
    refine ⟨segments', flatMap_bytes_of_encodesTo hsegments', ?_⟩
    exact Segment.instructions_order hsegments hsegments' hadmitted hadmitted' 0

/-- **The byte order only orders bytes.** For two targets that differ in their byte order, a source
    has the same diagnostic, or it has bytecodes of the same length, with the same bytes, that are
    disassembled, each for its target, into the same instructions at the same offsets. -/
theorem assemble_byteOrder [Host] (t : Target) (order : ByteOrder) (source : String) :
    (∃ d, assemble t source = .error d ∧ assemble { t with order := order } source = .error d) ∨
      ∃ b b' ops, assemble t source = .ok b ∧ assemble { t with order := order } source = .ok b' ∧
        b.length = b'.length ∧ b.Perm b' ∧
        disassemble t b = .ok ops ∧ disassemble { t with order := order } b' = .ok ops := by
  cases htokens : tokenize source with
  | error fault =>
    left
    exact ⟨_, assemble_of_tokenize_eq_error htokens, assemble_of_tokenize_eq_error htokens⟩
  | ok tokens =>
    have hfaults := firstFault_order t order (endOfSource source)
      (endOfInput source.utf8ByteSize tokens) (State.between.run tokens).1
      (State.between.run tokens).2
    cases hfault : firstFault t (endOfSource source) (endOfInput source.utf8ByteSize tokens)
      (State.between.run tokens) with
    | some fault =>
      left
      rw [hfault] at hfaults
      exact ⟨_, (assemble_eq_error_iff htokens).2 ⟨fault, hfault, rfl⟩,
        (assemble_eq_error_iff htokens).2 ⟨fault, hfaults, rfl⟩⟩
    | none =>
      right
      rw [hfault] at hfaults
      obtain ⟨calls, hrun, hadmitted, hb⟩ := assemble_of_firstFault_eq_none htokens hfault
      obtain ⟨calls', hrun', hadmitted', hb'⟩ := assemble_of_firstFault_eq_none htokens hfaults
      obtain rfl : calls = calls' := congrArg Prod.fst (hrun.symm.trans hrun')
      have hcalls : parse source.utf8ByteSize tokens = .ok calls := parse_eq_ok_iff.2 hrun
      obtain ⟨ops, hops, hops'⟩ := exists_disassemble_order (known_of_parse htokens hcalls)
        hadmitted hadmitted'
      have hperm := Call.perm_flatMap_bytes t order calls
      exact ⟨_, _, ops, hb, hb', hperm.length_eq, hperm, hops, hops'⟩

-- numbers and blocks are reversed, but not the size of a block
example :
    assemble {} "DW_OP_const2u(0x1234) DW_OP_implicit_value(2, 0x5678)" =
        .ok [0x0a, 0x34, 0x12, 0x9e, 2, 0x78, 0x56] ∧
      assemble { order := .big } "DW_OP_const2u(0x1234) DW_OP_implicit_value(2, 0x5678)" =
        .ok [0x0a, 0x12, 0x34, 0x9e, 2, 0x56, 0x78] := by
  decide +kernel

end DwarfExpr
