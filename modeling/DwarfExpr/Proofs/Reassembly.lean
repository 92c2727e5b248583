/-
  DwarfExpr/Proofs/Reassembly.lean
  ================================
  **The text of instructions as a source.** An instruction is written as a call, so its text is
  assembled exactly if that call is admitted.  For an operand that was read from bytes:

    * the literal is in range unless the operand is LEB128 and wider than 64 bits, or a block that
      the host has no room for (`OperandKind.Shape.admits_literal_iff`);
    * the literal is encoded as the bytes that it was read from, but without padding
      (`OperandKind.Shape.write_literal`).

  The text of bytecode is thus assembled into the bytecode without padding, or not at all
  (`assemble_source_eq_ok_iff`).
-/
import DwarfExpr.Proofs.Assembly
import DwarfExpr.Proofs.Canonical

namespace DwarfExpr

/-! ### Literals of operands -/

namespace OperandKind

/-- The values that a literal can give to an operand; only LEB128 operands can have others. -/
def Expressible : OperandKind → Int → Prop
  | uleb128, v => v < 2 ^ 64
  | sleb128, v => -2 ^ 63 < v ∧ v < 2 ^ 64
  | _, _ => True

/-- The number that an operand is written as. -/
def literal (t : Target) (kind : OperandKind) (piece : List UInt8) : Value :=
  (Instruction.operandLiteral kind (kind.valueOf t piece)).2

variable {t : Target} {size : Value} {kind : OperandKind} {kinds : List OperandKind}
  {piece : List UInt8} {pieces : List (List UInt8)}

theorem literal_of_not_isSigned (t : Target) (piece : List UInt8) (h : kind.isSigned = false) :
    kind.literal t piece = kind.valueOf t piece := by
  cases kind with
  | sleb128 => simp [isSigned] at h
  | signed w => simp [isSigned] at h
  | _ => rfl

/-- Values of unsigned kinds are not negative. -/
theorem valueOf_nonneg (t : Target) (piece : List UInt8) (h : kind.isSigned = false) :
    0 ≤ (kind.valueOf t piece).toInt := by
  cases kind with
  | sleb128 => simp [isSigned] at h
  | signed w => simp [isSigned] at h
  | uleb128 =>
    rw [valueOf, Leb128.toInt_unsignedOf]
    omega
  | _ => exact (Value.toInt_ofBytes_false_bounds _).1

/-- A hexadecimal literal is never negative. -/
theorem literal_nonneg_of_hexadecimal (t : Target) (kind : OperandKind) (piece : List UInt8)
    (h : (Instruction.operandLiteral kind (kind.valueOf t piece)).1 = .hexadecimal) :
    0 ≤ (kind.literal t piece).toInt := by
  cases kind with
  | uleb128 => exact valueOf_nonneg t piece rfl
  | sleb128 => simp [Instruction.operandLiteral] at h
  | signed w =>
    simp only [literal, Instruction.operandLiteral] at h ⊢
    split at h
    · next hwide =>
      rw [if_pos hwide]
      exact (Value.toInt_ofBytes_false_bounds _).1
    · simp at h
  | _ => exact valueOf_nonneg t piece rfl

/-- The literal of a signed operand is in range and has the bits of the value.  A value that is too
    wide for a literal is written as its residue. -/
theorem literal_signed {w : Width} (h : (signed w).Shape t size piece) :
    (-2 ^ (w.bits - 1) < ((signed w).literal t piece).toInt ∧
      ((signed w).literal t piece).toInt < 2 ^ w.bits) ∧
    ((signed w).literal t piece).toInt % 2 ^ w.bits =
      ((signed w).valueOf t piece).toInt % 2 ^ w.bits := by
  have hlen : piece.length = w.bytes := h
  obtain ⟨v, hv⟩ : ∃ v, v = (signed w).valueOf t piece := ⟨_, rfl⟩
  have hhalf : (2 : Int) ^ w.bits = 2 * 2 ^ (w.bits - 1) := by
    cases w <;> norm_num [Width.bits]
  have hpos : (0 : Int) < 2 ^ (w.bits - 1) := by positivity
  have hbounds : -2 ^ w.bits ≤ 2 * v.toInt ∧ 2 * v.toInt < 2 ^ w.bits := by
    have hbytes := Value.toInt_ofBytes_true_bounds (t.order.arrange piece)
    rw [ByteOrder.length_arrange, hlen, ← two_pow_eight_mul, ← w.bits_eq] at hbytes
    rwa [hv]
  simp only [literal, ← hv, Instruction.operandLiteral]
  by_cases hwide : w.bits < v.literalWidth
  · rw [if_pos hwide]
    dsimp only
    rw [Value.toInt_ofBytes_false, Value.toNat_bits, Int.emod_emod_of_dvd _ (dvd_refl _)]
    have hmod := Int.emod_nonneg v.toInt (show (2 : Int) ^ w.bits ≠ 0 by omega)
    have hlt := Int.emod_lt_of_pos v.toInt (show (0 : Int) < 2 ^ w.bits by omega)
    exact ⟨⟨by omega, hlt⟩, rfl⟩
  · have hfits : v.literalWidth ≤ w.bits := by omega
    rw [Value.literalWidth_le_iff] at hfits
    rw [if_neg hwide]
    dsimp only
    exact ⟨⟨by omega, by omega⟩, rfl⟩

theorem valueOf_unsigned_bounds {w : Width} (t : Target) (h : piece.length = w.bytes) :
    0 ≤ (Value.ofBytes false (t.order.arrange piece)).toInt ∧
      (Value.ofBytes false (t.order.arrange piece)).toInt < 2 ^ w.bits := by
  have hbounds := Value.toInt_ofBytes_false_bounds (t.order.arrange piece)
  rwa [ByteOrder.length_arrange, h, ← two_pow_eight_mul, ← w.bits_eq] at hbounds

theorem Shape.eq_length {n : Nat} (h : block.Shape t size piece) (hsize : size.toInt = n) :
    n = piece.length := by
  have hlen := h.1
  omega

/-- **Which operands can be written as literals.** -/
theorem Shape.admits_literal_iff [Host] {n : Nat} (h : kind.Shape t size piece)
    (hsize : kind = .block → size.toInt = n) :
    kind.Admits t n (kind.literal t piece).toInt ↔
      kind.Expressible (kind.valueOf t piece).toInt ∧
        (kind = .block → Host.Holds piece.length) := by
  cases kind with
  | uleb128 =>
    have hnonneg : 0 ≤ (uleb128.valueOf t piece).toInt := valueOf_nonneg t piece rfl
    simp only [literal_of_not_isSigned t piece (show uleb128.isSigned = false from rfl), Admits,
      Expressible, hnonneg, true_and, reduceCtorEq, false_implies, and_true]
  | sleb128 => simp [literal, Instruction.operandLiteral, Admits, Expressible]
  | signed w => exact iff_of_true (literal_signed h).1 ⟨trivial, by simp⟩
  | unsigned w => exact iff_of_true (valueOf_unsigned_bounds t h) ⟨trivial, by simp⟩
  | address => exact iff_of_true (valueOf_unsigned_bounds t h) ⟨trivial, by simp⟩
  | word => exact iff_of_true (valueOf_unsigned_bounds t h) ⟨trivial, by simp⟩
  | block =>
    obtain rfl := h.eq_length (hsize rfl)
    have hbounds := Value.toInt_ofBytes_false_bounds (t.order.arrange piece)
    rw [ByteOrder.length_arrange, ← two_pow_eight_mul, Nat.mul_comm] at hbounds
    simp only [Expressible, true_and, forall_const]
    exact and_iff_right hbounds

/-- **The literal of an operand is encoded as the operand**, without padding. -/
theorem Shape.write_literal {n : Nat} (h : kind.Shape t size piece)
    (hsize : kind = .block → size.toInt = n) :
    kind.write t n (kind.literal t piece) = kind.shorten piece := by
  cases kind with
  | uleb128 => rfl
  | sleb128 => rfl
  | signed w =>
    have hlen : piece.length = w.bytes := h
    have hresidue := (literal_signed h).2
    have hbytes := Value.emod_toInt_ofBytes true (t.order.arrange piece)
    rw [ByteOrder.length_arrange, hlen] at hbytes
    rw [w.bits_eq, two_pow_eight_mul] at hresidue
    simp only [write, OperandKind.shorten]
    rw [w.bits_eq, Fixed.encode_eq_iff hlen, hresidue]
    exact hbytes
  | unsigned w =>
    have hlen : piece.length = w.bytes := h
    simp only [write, OperandKind.shorten]
    rw [w.bits_eq, ← hlen]
    exact Fixed.encode_ofBytes t.order false piece
  | address =>
    have hlen : piece.length = t.address.bytes := h
    simp only [write, OperandKind.shorten]
    rw [Width.bits_eq, ← hlen]
    exact Fixed.encode_ofBytes t.order false piece
  | word =>
    have hlen : piece.length = t.word.width.bytes := h
    simp only [write, OperandKind.shorten]
    rw [Width.bits_eq, ← hlen]
    exact Fixed.encode_ofBytes t.order false piece
  | block =>
    obtain rfl := h.eq_length (hsize rfl)
    simp only [write, OperandKind.shorten]
    rw [Nat.mul_comm]
    exact Fixed.encode_ofBytes t.order false piece

/-- The operand can be written as a literal that is assembled. -/
def Rewritable [Host] (t : Target) (kind : OperandKind) (piece : List UInt8) : Prop :=
  kind.Expressible (kind.valueOf t piece).toInt ∧ (kind = .block → Host.Holds piece.length)

/-- The size that the assembler takes from a literal is the size that was read. -/
theorem toInt_valueOf_of_isChain (hchain : (kind :: kinds).IsChain Precedes)
    (hhead : kinds.head? = some .block) :
    (kind.valueOf t piece).toInt = ((kind.literal t piece).toInt.toNat : Int) := by
  have hkind := (sizes_of_isChain hchain hhead).1
  rw [literal_of_not_isSigned t piece hkind]
  exact (Int.toNat_of_nonneg (valueOf_nonneg t piece hkind)).symm

theorem Shapes.admitsAll_literal_iff [Host] {n : Nat} (h : Shapes t size kinds pieces)
    (hchain : kinds.IsChain Precedes) (hsize : kinds.head? = some .block → size.toInt = n) :
    AdmitsAll t n kinds (List.zipWith (literal t) kinds pieces) ↔
      ∀ p ∈ kinds.zip pieces, p.1.Rewritable t p.2 := by
  induction kinds generalizing n size pieces with
  | nil => simp [AdmitsAll]
  | cons kind kinds ih =>
    cases pieces with
    | nil => exact h.elim
    | cons piece pieces =>
      rw [List.zipWith_cons_cons, AdmitsAll, List.zip_cons_cons, List.forall_mem_cons,
        h.1.admits_literal_iff (fun hkind => hsize (by rw [hkind]; rfl)),
        ih h.2 hchain.of_cons (toInt_valueOf_of_isChain hchain)]
      rfl

theorem Shapes.writeAll_literal {n : Nat} (h : Shapes t size kinds pieces)
    (hchain : kinds.IsChain Precedes) (hsize : kinds.head? = some .block → size.toInt = n) :
    writeAll t n kinds (List.zipWith (literal t) kinds pieces) =
      List.zipWith OperandKind.shorten kinds pieces := by
  induction kinds generalizing n size pieces with
  | nil => simp [writeAll]
  | cons kind kinds ih =>
    cases pieces with
    | nil => exact h.elim
    | cons piece pieces =>
      rw [List.zipWith_cons_cons, writeAll, List.zipWith_cons_cons,
        h.1.write_literal (fun hkind => hsize (by rw [hkind]; rfl)),
        ih h.2 hchain.of_cons (toInt_valueOf_of_isChain hchain)]

end OperandKind

/-! ### Instructions as calls -/

/-- The call that an instruction is written as. -/
def Instruction.call (i : Instruction) : Call where
  operation := i.operation
  span := ⟨0, 0⟩
  arguments :=
    match i.operation.operands with
    | [] => none
    | kinds =>
      let literal (kind : OperandKind) (v : Value) : Literal :=
        ⟨(operandLiteral kind v).1, (operandLiteral kind v).2, ⟨0, 0⟩⟩
      some ⟨⟨0, 0⟩, List.zipWith literal kinds i.operands, ⟨0, 0⟩⟩

theorem Instruction.text_call (i : Instruction) : i.call.text = i.text := by
  obtain ⟨offset, ⟨name, code, kinds⟩, vs⟩ := i
  cases kinds with
  | nil => rfl
  | cons kind kinds =>
    simp only [Instruction.call, Instruction.text, Call.text, Arguments.text, List.zip,
      List.map_zipWith, String.append_assoc]
    rfl

theorem Instruction.source_eq (ops : List Instruction) :
    Instruction.source ops = "\n".intercalate ((ops.map Instruction.call).map Call.text) := by
  rw [Instruction.source, List.map_map]
  congr 1
  exact List.map_congr_left fun i _ => i.text_call.symm

namespace Segment

variable {t : Target}

/-- The call that a segment is written as. -/
def call (s : Segment t) : Call := Instruction.call ⟨0, s.operation, s.values⟩

theorem map_call_instructions (offset : Nat) (segments : List (Segment t)) :
    (instructions offset segments).map Instruction.call = segments.map call := by
  induction segments generalizing offset with
  | nil => rfl
  | cons s ss ih =>
    rw [instructions, List.map_cons, List.map_cons, ih]
    rfl

theorem values_call (s : Segment t) :
    s.call.values = List.zipWith (OperandKind.literal t) s.operation.operands s.pieces := by
  obtain ⟨⟨name, code, kinds⟩, pieces, known, shaped⟩ := s
  cases kinds with
  | nil => rfl
  | cons kind kinds =>
    simp only [call, Instruction.call, Call.values, values, List.map_zipWith,
      zipWith_zipWith_self]
    rfl

theorem writable_call (s : Segment t) : s.call.Writable where
  known := s.known
  literals := by
    intro a ha l hl
    simp only [call, Instruction.call] at ha
    split at ha
    · simp at ha
    · obtain rfl := Option.some.inj ha
      dsimp only at hl
      rw [← List.map_uncurry_zip_eq_zipWith, zip_values] at hl
      obtain ⟨q, hq, rfl⟩ := List.mem_map.1 hl
      obtain ⟨⟨kind, piece⟩, -, rfl⟩ := List.mem_map.1 hq
      exact OperandKind.literal_nonneg_of_hexadecimal t kind piece

/-- The text of the segment can be assembled. -/
def Rewritable [Host] (s : Segment t) : Prop := ∀ p ∈ s.operands, p.1.Rewritable t p.2

theorem admitted_call_iff [Host] (s : Segment t) : s.call.Admitted t ↔ s.Rewritable := by
  have hliterals := s.shaped.admitsAll_literal_iff (Operation.isChain_operands s.known)
    fun _ => Value.toInt_zero
  rw [← s.values_call] at hliterals
  constructor
  · intro h
    exact hliterals.1 h.literals
  · intro h
    refine ⟨?_, hliterals.2 h⟩
    simp only [call, Instruction.call]
    cases s.operation.operands <;> simp

/-- A call that was read from bytes is encoded as these bytes, without padding. -/
theorem bytes_call (s : Segment t) : s.call.bytes t = s.shorten.bytes := by
  have hpieces := s.shaped.writeAll_literal (Operation.isChain_operands s.known)
    fun _ => Value.toInt_zero
  rw [← s.values_call] at hpieces
  exact congrArg (fun pieces => s.operation.code :: List.flatten pieces) hpieces

end Segment

/-- **The text of bytecode is assembled** into the bytecode without padding, or not at all. -/
theorem assemble_source_eq_ok_iff [Host] {t : Target} {offset : Nat} {segments : List (Segment t)}
    {b : List UInt8} :
    assemble t (Instruction.source (Segment.instructions offset segments)) = .ok b ↔
      (∀ s ∈ segments, s.Rewritable) ∧
        b = (segments.map Segment.shorten).flatMap Segment.bytes := by
  have hwritable : ∀ c ∈ segments.map Segment.call, c.Writable := by
    intro c hc
    obtain ⟨s, -, rfl⟩ := List.mem_map.1 hc
    exact s.writable_call
  rw [Instruction.source_eq, Segment.map_call_instructions, assemble_text_eq_ok_iff hwritable]
  simp only [List.forall_mem_map, Segment.admitted_call_iff, List.flatMap_map, Segment.bytes_call]

end DwarfExpr
