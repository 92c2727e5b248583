/-
  DwarfExpr/Proofs/Truncation.lean
  ================================
  **Bytecode that is cut short.** A cut between two operations leaves bytecode that can be read, and
  a cut anywhere else is found out: the operation that it falls into is reported as incomplete
  (`disassemble_take`).

    * A piece of an operand that is cut short is no operand: the decoders tell where a piece ends by
      the piece itself, so no shorter one has the shape (`OperandKind.Shape.decodeOperand_take`);
    * the operands before the cut are read as ever, and the size of a block among them
      (`OperandKind.Shapes.decodeOperands_take`);
    * each byte belongs to one segment (`Segment.exists_segment_at`), so the cut is at the beginning
      of a segment or inside one.
-/
import DwarfExpr.Proofs.Continuation
import Mathlib.Order.Bounds.Basic

namespace DwarfExpr

/-! ### Operands that are cut short -/

/-- A size that is too large does not depend on the bytes that follow it. -/
theorem decodeOperand_eq_sizeTooLarge {t : Target} {size : Value} {kind : OperandKind}
    {input : List UInt8} (h : decodeOperand t size kind input = .error .sizeTooLarge)
    (input' : List UInt8) : decodeOperand t size kind input' = .error .sizeTooLarge := by
  have hincomplete (x : Decoded Value) :
      x.mapError OperandFault.incomplete ≠ .error .sizeTooLarge := by
    cases x <;> simp [Except.mapError]
  cases kind with
  | block =>
    simp only [decodeOperand] at h ⊢
    cases hsize : size.toUInt64? with
    | none => rfl
    | some length =>
      simp only [hsize] at h
      exact absurd h (hincomplete _)
  | _ => exact absurd h (hincomplete _)

namespace OperandKind

variable {t : Target} {size : Value}

theorem Shape.decodeOperand_take {kind : OperandKind} {piece : List UInt8}
    (h : kind.Shape t size piece) {k : Nat} (hk : k < piece.length) :
    ∃ reason, decodeOperand t size kind (piece.take k) = .error (.incomplete reason) := by
  cases hread : decodeOperand t size kind (piece.take k) with
  | ok found =>
    obtain ⟨v, rest⟩ := found
    obtain ⟨short, hshort, hshape, -⟩ := decodeOperand_eq_ok_iff.1 hread
    have hwhole : short ++ (rest ++ piece.drop k) = piece ++ [] := by
      rw [← List.append_assoc, ← hshort, List.take_append_drop, List.append_nil]
    obtain ⟨rfl, -⟩ := hshape.eq_of_append_eq h hwhole
    have hlength := congrArg List.length hshort
    rw [List.length_take_of_le hk.le, List.length_append] at hlength
    omega
  | error fault =>
    cases fault with
    | incomplete reason => exact ⟨reason, rfl⟩
    | missingSize => exact absurd hread (decodeOperand_ne_missingSize t size kind _)
    | sizeTooLarge =>
      have hwhole : decodeOperand t size kind piece = .ok (kind.valueOf t piece, []) :=
        decodeOperand_eq_ok_iff.2 ⟨piece, (List.append_nil piece).symm, h, rfl⟩
      rw [decodeOperand_eq_sizeTooLarge hread] at hwhole
      cases hwhole

theorem Shapes.decodeOperands_take {kinds : List OperandKind} {pieces : List (List UInt8)}
    (h : Shapes t size kinds pieces) {k : Nat} (hk : k < pieces.flatten.length) :
    ∃ reason, decodeOperands t size kinds (pieces.flatten.take k) =
      .error (.incomplete reason) := by
  induction kinds generalizing size pieces k with
  | nil =>
    obtain rfl : pieces = [] := List.length_eq_zero_iff.1 h.length_eq
    simp at hk
  | cons kind kinds ih =>
    cases pieces with
    | nil => exact h.elim
    | cons piece pieces =>
      rw [List.flatten_cons, List.length_append] at hk
      rw [List.flatten_cons, decodeOperands]
      by_cases hcut : k < piece.length
      · obtain ⟨reason, hreason⟩ := h.1.decodeOperand_take hcut
        refine ⟨reason, ?_⟩
        rw [List.take_append_of_le_length hcut.le, hreason]
      · -- the cut is behind the piece, which is read with whatever follows it
        have htake : (piece ++ pieces.flatten).take k =
            piece ++ pieces.flatten.take (k - piece.length) := by
          rw [List.take_append, List.take_of_length_le (Nat.le_of_not_lt hcut)]
        have hread : decodeOperand t size kind ((piece ++ pieces.flatten).take k) =
            .ok (kind.valueOf t piece, pieces.flatten.take (k - piece.length)) :=
          decodeOperand_eq_ok_iff.2 ⟨piece, htake, h.1, rfl⟩
        have hrest : k - piece.length < pieces.flatten.length := by omega
        obtain ⟨reason, hreason⟩ := ih h.2 hrest
        refine ⟨reason, ?_⟩
        simp only [hread, hreason]

end OperandKind

/-! ### Segments that are cut short -/

namespace Segment

variable {t : Target}

theorem disassembleFrom_take (s : Segment t) (offset : Nat) {n : Nat} (hpos : 0 < n)
    (hn : n < s.bytes.length) :
    ∃ reason, disassembleFrom t offset (s.bytes.take n) = .error (.incomplete offset reason) := by
  obtain ⟨k, rfl⟩ := Nat.exists_eq_add_one.2 hpos
  obtain ⟨reason, hreason⟩ := s.shaped.decodeOperands_take (Nat.lt_of_succ_lt_succ hn)
  refine ⟨reason, ?_⟩
  rw [bytes, List.take_succ_cons, disassembleFrom_cons, Operation.ofCode?_of_mem s.known]
  simp only [hreason]
  rfl

theorem instructions_append (offset : Nat) (before after : List (Segment t)) :
    instructions offset (before ++ after) =
      instructions offset before ++
        instructions (offset + (before.flatMap bytes).length) after := by
  induction before generalizing offset with
  | nil => rfl
  | cons s before ih =>
    rw [List.cons_append, instructions, ih, instructions, List.flatMap_cons, List.length_append,
      Nat.add_assoc, List.cons_append]

theorem offset_bounds {offset : Nat} {segments : List (Segment t)} {i : Instruction}
    (h : i ∈ instructions offset segments) :
    offset ≤ i.offset ∧ i.offset < offset + (segments.flatMap bytes).length := by
  induction segments generalizing offset with
  | nil => simp [instructions] at h
  | cons s ss ih =>
    have hpos : 0 < s.bytes.length := Nat.succ_pos _
    rw [List.flatMap_cons, List.length_append]
    rw [instructions] at h
    rcases List.mem_cons.1 h with rfl | h
    · exact ⟨le_rfl, by dsimp only; omega⟩
    · have hbounds := ih h
      omega

theorem exists_segment_at {segments : List (Segment t)} {n : Nat}
    (h : n < (segments.flatMap bytes).length) :
    ∃ before s after, segments = before ++ s :: after ∧ (before.flatMap bytes).length ≤ n ∧
      n < (before.flatMap bytes).length + s.bytes.length := by
  induction segments generalizing n with
  | nil => simp at h
  | cons s ss ih =>
    rw [List.flatMap_cons, List.length_append] at h
    by_cases hn : n < s.bytes.length
    · exact ⟨[], s, ss, rfl, Nat.zero_le n, by simpa using hn⟩
    · have hrest : n - s.bytes.length < (ss.flatMap bytes).length := by omega
      obtain ⟨before, s', after, rfl, hle, hlt⟩ := ih hrest
      refine ⟨s :: before, s', after, rfl, ?_, ?_⟩
      · rw [List.flatMap_cons, List.length_append]
        omega
      · rw [List.flatMap_cons, List.length_append]
        omega

/-- The instructions before an offset where a segment begins. -/
theorem filter_instructions (before after : List (Segment t)) :
    (instructions 0 (before ++ after)).filter (·.offset < (before.flatMap bytes).length) =
      instructions 0 before := by
  rw [instructions_append, List.filter_append, List.filter_eq_self.2, List.filter_eq_nil_iff.2,
    List.append_nil]
  · intro i hi
    have hbounds := offset_bounds hi
    simp only [decide_eq_true_eq]
    omega
  · intro i hi
    have hbounds := offset_bounds hi
    simp only [decide_eq_true_eq]
    omega

theorem disassemble_take_flatMap (before after : List (Segment t)) :
    disassemble t (((before ++ after).flatMap bytes).take (before.flatMap bytes).length) =
      .ok ((instructions 0 (before ++ after)).filter
        (·.offset < (before.flatMap bytes).length)) := by
  rw [filter_instructions, List.flatMap_append, List.take_left]
  exact disassembleFrom_flatMap before 0

theorem mem_instructions (before : List (Segment t)) (s : Segment t) (after : List (Segment t)) :
    ⟨(before.flatMap bytes).length, s.operation, s.values⟩ ∈
      instructions 0 (before ++ s :: after) := by
  rw [instructions_append, Nat.zero_add, instructions]
  exact List.mem_append_right _ List.mem_cons_self

section Inside

variable {before : List (Segment t)} {s : Segment t} (after : List (Segment t)) {n : Nat}
  (hbegin : (before.flatMap bytes).length < n)
  (hinside : n < (before.flatMap bytes).length + s.bytes.length)

include hbegin hinside

/-- The operations behind the one that is cut begin behind the cut. -/
theorem isGreatest_offset :
    IsGreatest {o | o < n ∧ ∃ op ∈ instructions 0 (before ++ s :: after), op.offset = o}
      (before.flatMap bytes).length := by
  constructor
  · exact ⟨hbegin, _, mem_instructions before s after, rfl⟩
  · rintro o ⟨ho, op, hop, rfl⟩
    rw [instructions_append, Nat.zero_add, instructions] at hop
    rcases List.mem_append.1 hop with hop | hop
    · have hbounds := offset_bounds hop
      omega
    · rcases List.mem_cons.1 hop with rfl | hop
      · exact le_rfl
      · have hbounds := offset_bounds hop
        omega

theorem disassemble_take_inside :
    ∃ reason, disassemble t (((before ++ s :: after).flatMap bytes).take n) =
      .error (.incomplete (before.flatMap bytes).length reason) := by
  have htake : ((before ++ s :: after).flatMap bytes).take n =
      before.flatMap bytes ++ s.bytes.take (n - (before.flatMap bytes).length) := by
    rw [List.flatMap_append, List.take_append, List.take_of_length_le hbegin.le, List.flatMap_cons,
      List.take_append_of_le_length (by omega)]
  have hpos : 0 < n - (before.flatMap bytes).length := by omega
  have hshort : n - (before.flatMap bytes).length < s.bytes.length := by omega
  obtain ⟨reason, hreason⟩ :=
    s.disassembleFrom_take (before.flatMap bytes).length hpos hshort
  refine ⟨reason, ?_⟩
  rw [htake, disassemble, disassembleFrom_flatMap_append, Nat.zero_add, hreason]
  rfl

end Inside

end Segment

/-! ### Bytecode that is cut short -/

/-- **A cut is always detected at the right operation.** If bytecode is cut at its end or where an
    operation begins, the operations before the cut are read.  If it is cut anywhere else, the last
    operation that begins before the cut is reported as incomplete. -/
theorem disassemble_take {t : Target} {b : List UInt8} {ops : List Instruction}
    (h : disassemble t b = .ok ops) {n : Nat} (hn : n ≤ b.length) :
    ((n = b.length ∨ ∃ op ∈ ops, op.offset = n) →
      disassemble t (b.take n) = .ok (ops.filter (·.offset < n))) ∧
    (¬ (n = b.length ∨ ∃ op ∈ ops, op.offset = n) →
      ∃ offset reason, IsGreatest {o | o < n ∧ ∃ op ∈ ops, op.offset = o} offset ∧
        disassemble t (b.take n) = .error (.incomplete offset reason)) := by
  obtain ⟨segments, rfl, rfl⟩ := disassemble_eq_ok_iff.1 h
  constructor
  · rintro (rfl | ⟨op, hop, rfl⟩)
    · have hwhole := Segment.disassemble_take_flatMap segments []
      rwa [List.append_nil] at hwhole
    · obtain ⟨k, hk⟩ := List.mem_iff_getElem?.1 hop
      have hoffset := Segment.offset_of_mem_instructions hk
      have hcut := Segment.disassemble_take_flatMap (segments.take k) (segments.drop k)
      rw [Nat.zero_add] at hoffset
      rwa [List.take_append_drop, ← hoffset] at hcut
  · intro hnot
    have hlt : n < (segments.flatMap Segment.bytes).length := by
      apply lt_of_le_of_ne hn
      intro heq
      exact hnot (.inl heq)
    obtain ⟨before, s, after, rfl, hle, hinside⟩ := Segment.exists_segment_at hlt
    have hbegin : (before.flatMap Segment.bytes).length < n := by
      apply lt_of_le_of_ne hle
      intro heq
      exact hnot (.inr ⟨_, Segment.mem_instructions before s after, heq⟩)
    obtain ⟨reason, hreason⟩ := Segment.disassemble_take_inside after hbegin hinside
    exact ⟨_, reason, Segment.isGreatest_offset after hbegin hinside, hreason⟩

/-- A cut before an operation, and one inside the padded size of an empty block. -/
theorem disassemble_take_empty_block :
    disassemble {} [0x96, 0x9e, 0x80, 0] =
      .ok [⟨0, ⟨"DW_OP_nop", 0x96, []⟩, []⟩,
        ⟨1, ⟨"DW_OP_implicit_value", 0x9e, [.uleb128, .block]⟩, [.zero, .zero]⟩] ∧
    disassemble {} [0x96] = .ok [⟨0, ⟨"DW_OP_nop", 0x96, []⟩, []⟩] ∧
    ∃ offset reason, IsGreatest {o | o < 3 ∧ (0 = o ∨ 1 = o)} offset ∧
      disassemble {} [0x96, 0x9e, 0x80] = .error (.incomplete offset reason) := by
  have hread : disassemble {} [0x96, 0x9e, 0x80, 0] =
      .ok [⟨0, ⟨"DW_OP_nop", 0x96, []⟩, []⟩,
        ⟨1, ⟨"DW_OP_implicit_value", 0x9e, [.uleb128, .block]⟩, [.zero, .zero]⟩] := by
    decide +kernel
  refine ⟨hread, ?_, ?_⟩
  · exact (disassemble_take hread (n := 1) (by simp)).1 (by simp)
  · simpa using (disassemble_take hread (n := 3) (by simp)).2 (by simp)

end DwarfExpr
