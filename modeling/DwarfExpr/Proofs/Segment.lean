/-
  DwarfExpr/Proofs/Segment.lean
  =============================
  **The format of bytecode.** Bytecode is a sequence of segments, one for each operation: the code
  byte, and a piece of bytes for each operand.  `OperandKind.Shape` says which bytes a piece may be;
  the size of a block is the value of the piece before it.  A `Segment` carries the proof that its
  pieces have the shapes that its operation asks for.

  Disassembling is cutting into segments: it succeeds exactly on joined segments
  (`disassemble_eq_ok_iff`), and there is only one way to cut (`Segment.flatMap_bytes_injective`).
-/
import DwarfExpr.Instruction
import DwarfExpr.Proofs.Encoding
import DwarfExpr.Proofs.Table

namespace DwarfExpr

/-! ### Pieces of operands -/

namespace OperandKind

/-- The bytes that may be an operand of a kind; `size` is the value of the operand before it. -/
def Shape (t : Target) (size : Value) : OperandKind → List UInt8 → Prop
  | uleb128, piece | sleb128, piece => Leb128.Terminated piece
  | signed w, piece | unsigned w, piece => piece.length = w.bytes
  | address, piece => piece.length = t.address.bytes
  | word, piece => piece.length = t.word.width.bytes
  | block, piece => size.toInt = piece.length ∧ piece.length < 2 ^ 64

/-- The value that bytes stand for as an operand of a kind. -/
def valueOf (t : Target) : OperandKind → List UInt8 → Value
  | uleb128, piece => Leb128.unsignedOf piece
  | sleb128, piece => Leb128.signedOf piece
  | signed _, piece => .ofBytes true (t.order.arrange piece)
  | unsigned _, piece | address, piece | word, piece | block, piece =>
    .ofBytes false (t.order.arrange piece)

/-- Pieces for a list of kinds, each of the shape that its kind and the piece before it ask for. -/
def Shapes (t : Target) (size : Value) : List OperandKind → List (List UInt8) → Prop
  | [], [] => True
  | kind :: kinds, piece :: pieces =>
    kind.Shape t size piece ∧ Shapes t (kind.valueOf t piece) kinds pieces
  | _, _ => False

theorem Shapes.length_eq {t : Target} {size : Value} {kinds : List OperandKind}
    {pieces : List (List UInt8)} (h : Shapes t size kinds pieces) :
    pieces.length = kinds.length := by
  induction kinds generalizing size pieces with
  | nil =>
    cases pieces with
    | nil => rfl
    | cons piece pieces => exact h.elim
  | cons kind kinds ih =>
    cases pieces with
    | nil => exact h.elim
    | cons piece pieces => simp [ih h.2]

end OperandKind

theorem mapError_eq_ok_iff {α ε δ : Type} {f : ε → δ} {x : Except ε α} {a : α} :
    x.mapError f = .ok a ↔ x = .ok a := by
  constructor
  · exact ok_of_mapError
  · rintro rfl
    rfl

/-- **What an operand's decoder takes**: a piece of the right shape, whatever follows it. -/
theorem decodeOperand_eq_ok_iff {t : Target} {size v : Value} {kind : OperandKind}
    {input rest : List UInt8} :
    decodeOperand t size kind input = .ok (v, rest) ↔
      ∃ piece, input = piece ++ rest ∧ kind.Shape t size piece ∧ v = kind.valueOf t piece := by
  cases kind with
  | uleb128 =>
    exact mapError_eq_ok_iff.trans Leb128.decodeUnsigned_eq_ok_iff
  | sleb128 =>
    exact mapError_eq_ok_iff.trans Leb128.decodeSigned_eq_ok_iff
  | signed w => exact mapError_eq_ok_iff.trans Fixed.decode_eq_ok_iff
  | unsigned w => exact mapError_eq_ok_iff.trans Fixed.decode_eq_ok_iff
  | address => exact mapError_eq_ok_iff.trans Fixed.decode_eq_ok_iff
  | word => exact mapError_eq_ok_iff.trans Fixed.decode_eq_ok_iff
  | block =>
    simp only [decodeOperand, OperandKind.Shape, OperandKind.valueOf, OperandKind.isSigned]
    cases hsize : size.toUInt64? with
    | none =>
      simp only [reduceCtorEq, false_iff]
      rintro ⟨piece, -, ⟨hlen, hlt⟩, -⟩
      have hword := (Value.toUInt64?_eq_some_iff size (UInt64.ofNat piece.length)).2
        (by rw [hlen, UInt64.toNat_ofNat', Nat.mod_eq_of_lt hlt])
      rw [hsize] at hword
      simp at hword
    | some length =>
      have hlen := (Value.toUInt64?_eq_some_iff size length).1 hsize
      have hlt := length.toNat_lt
      simp only [mapError_eq_ok_iff, Fixed.decode_eq_ok_iff]
      constructor
      · rintro ⟨piece, hinput, hpiece, hv⟩
        exact ⟨piece, hinput, ⟨by rw [hlen, hpiece], by omega⟩, hv⟩
      · rintro ⟨piece, hinput, ⟨hpiece, -⟩, hv⟩
        exact ⟨piece, hinput, by omega, hv⟩

/-- What the decoder of a list of operands takes. -/
theorem decodeOperands_eq_ok_iff {t : Target} {size : Value} {kinds : List OperandKind}
    {input rest : List UInt8} {vs : List Value} :
    decodeOperands t size kinds input = .ok (vs, rest) ↔
      ∃ pieces, input = pieces.flatten ++ rest ∧ OperandKind.Shapes t size kinds pieces ∧
        vs = List.zipWith (OperandKind.valueOf t) kinds pieces := by
  induction kinds generalizing size input vs with
  | nil =>
    simp only [decodeOperands, Except.ok.injEq, Prod.mk.injEq]
    constructor
    · rintro ⟨rfl, rfl⟩
      exact ⟨[], rfl, trivial, rfl⟩
    · rintro ⟨pieces, rfl, hshapes, rfl⟩
      obtain rfl : pieces = [] := List.length_eq_zero_iff.1 hshapes.length_eq
      exact ⟨rfl, rfl⟩
  | cons kind kinds ih =>
    constructor
    · intro h
      rw [decodeOperands] at h
      cases hv : decodeOperand t size kind input with
      | error fault => simp [hv] at h
      | ok found =>
        obtain ⟨v, after⟩ := found
        simp only [hv] at h
        cases hvs : decodeOperands t v kinds after with
        | error fault => simp [hvs] at h
        | ok found =>
          obtain ⟨vs', rest'⟩ := found
          simp only [hvs, Except.ok.injEq, Prod.mk.injEq] at h
          obtain ⟨rfl, rfl⟩ := h
          obtain ⟨piece, rfl, hshape, rfl⟩ := decodeOperand_eq_ok_iff.1 hv
          obtain ⟨pieces, rfl, hshapes, rfl⟩ := ih.1 hvs
          exact ⟨piece :: pieces, by simp, ⟨hshape, hshapes⟩, rfl⟩
    · rintro ⟨pieces, rfl, hshapes, rfl⟩
      cases pieces with
      | nil => exact hshapes.elim
      | cons piece pieces =>
        have hv : decodeOperand t size kind ((piece :: pieces).flatten ++ rest) =
            .ok (kind.valueOf t piece, pieces.flatten ++ rest) :=
          decodeOperand_eq_ok_iff.2 ⟨piece, by simp, hshapes.1, rfl⟩
        have hvs := ih.2 ⟨pieces, rfl, hshapes.2, rfl⟩
        rw [decodeOperands, hv]
        simp only [hvs, List.zipWith_cons_cons]

/-! ### Segments -/

theorem zipWith_zipWith_self {α β γ δ : Type} (f : α → γ → δ) (g : α → β → γ) (l : List α)
    (m : List β) :
    List.zipWith f l (List.zipWith g l m) = List.zipWith (fun a b => f a (g a b)) l m := by
  induction l generalizing m with
  | nil => rfl
  | cons a l ih =>
    cases m with
    | nil => rfl
    | cons b m => simp only [List.zipWith_cons_cons, ih]

/-- The bytes of one operation, cut into the pieces of its operands. -/
@[ext]
structure Segment (t : Target) where
  operation : Operation
  pieces : List (List UInt8)
  known : operation ∈ Operation.all
  shaped : OperandKind.Shapes t .zero operation.operands pieces

namespace Segment

variable {t : Target}

def bytes (s : Segment t) : List UInt8 := s.operation.code :: s.pieces.flatten

/-- The operands of a segment, each with its kind. -/
def operands (s : Segment t) : List (OperandKind × List UInt8) :=
  s.operation.operands.zip s.pieces

def values (s : Segment t) : List Value :=
  List.zipWith (OperandKind.valueOf t) s.operation.operands s.pieces

theorem zip_values (s : Segment t) :
    s.operation.operands.zip s.values = s.operands.map fun p => (p.1, p.1.valueOf t p.2) := by
  rw [List.zip, values, zipWith_zipWith_self, operands, List.zip, List.map_zipWith]

/-- The instructions of segments that stand one after another from an offset on. -/
def instructions (offset : Nat) : List (Segment t) → List Instruction
  | [] => []
  | s :: ss => ⟨offset, s.operation, s.values⟩ :: instructions (offset + s.bytes.length) ss

theorem decodeOperands_append (s : Segment t) (rest : List UInt8) :
    decodeOperands t .zero s.operation.operands (s.pieces.flatten ++ rest) =
      .ok (s.values, rest) :=
  decodeOperands_eq_ok_iff.2 ⟨s.pieces, rfl, s.shaped, rfl⟩

end Segment

/-! ### Disassembling -/

theorem disassembleFrom_nil (t : Target) (offset : Nat) : disassembleFrom t offset [] = .ok [] := by
  rw [disassembleFrom]

/-- One step of the disassembler. -/
theorem disassembleFrom_cons (t : Target) (offset : Nat) (code : UInt8) (body : List UInt8) :
    disassembleFrom t offset (code :: body) =
      match Operation.ofCode? code with
      | none => .error (.unknownCode offset code)
      | some op =>
        match decodeOperands t .zero op.operands body with
        | .error fault => .error (fault.at offset)
        | .ok (operands, rest) =>
          (disassembleFrom t (offset + (body.length + 1 - rest.length)) rest).map
            (⟨offset, op, operands⟩ :: ·) := by
  rw [disassembleFrom]
  cases Operation.ofCode? code with
  | none => rfl
  | some op =>
    dsimp only
    split
    · next h => simp only [h]
    · next h => simp only [h]

theorem Segment.disassembleFrom_bytes_append {t : Target} (s : Segment t) (offset : Nat)
    (rest : List UInt8) :
    disassembleFrom t offset (s.bytes ++ rest) =
      (disassembleFrom t (offset + s.bytes.length) rest).map
        (⟨offset, s.operation, s.values⟩ :: ·) := by
  have hlen : (s.pieces.flatten ++ rest).length + 1 - rest.length = s.bytes.length := by
    simp only [Segment.bytes, List.length_append, List.length_cons]
    omega
  rw [Segment.bytes, List.cons_append, disassembleFrom_cons, Operation.ofCode?_of_mem s.known]
  simp only [s.decodeOperands_append, hlen]
  rfl

/-- Joined segments are read as their instructions. -/
theorem Segment.disassembleFrom_flatMap {t : Target} (segments : List (Segment t)) (offset : Nat) :
    disassembleFrom t offset (segments.flatMap Segment.bytes) =
      .ok (Segment.instructions offset segments) := by
  induction segments generalizing offset with
  | nil => exact disassembleFrom_nil t offset
  | cons s ss ih =>
    rw [List.flatMap_cons, s.disassembleFrom_bytes_append, ih]
    rfl

/-- Whatever can be read is joined segments. -/
theorem exists_segments_of_disassembleFrom {t : Target} {offset : Nat} {input : List UInt8}
    {ops : List Instruction} (h : disassembleFrom t offset input = .ok ops) :
    ∃ segments : List (Segment t), input = segments.flatMap Segment.bytes := by
  -- on the length: what is left after a segment is not a part of the list's structure
  induction hn : input.length using Nat.strong_induction_on generalizing offset input ops with
  | _ n ih =>
    cases input with
    | nil => exact ⟨[], rfl⟩
    | cons code body =>
      rw [disassembleFrom_cons] at h
      cases hcode : Operation.ofCode? code with
      | none => simp [hcode] at h
      | some op =>
        simp only [hcode] at h
        cases hvs : decodeOperands t .zero op.operands body with
        | error fault => simp [hvs] at h
        | ok found =>
          obtain ⟨vs, rest⟩ := found
          simp only [hvs] at h
          obtain ⟨known, rfl⟩ := Operation.ofCode?_eq_some hcode
          obtain ⟨pieces, rfl, shaped, -⟩ := decodeOperands_eq_ok_iff.1 hvs
          cases hrest : disassembleFrom t
              (offset + ((pieces.flatten ++ rest).length + 1 - rest.length)) rest with
          | error fault =>
            rw [hrest] at h
            simp [Except.map] at h
          | ok ops' =>
            have hlt : rest.length < n := by
              rw [← hn]
              simp only [List.length_cons, List.length_append]
              omega
            obtain ⟨segments, rfl⟩ := ih rest.length hlt hrest rfl
            exact ⟨⟨op, pieces, known, shaped⟩ :: segments, by simp [Segment.bytes]⟩

/-- **Disassembling is cutting into segments.** -/
theorem disassemble_eq_ok_iff {t : Target} {b : List UInt8} {ops : List Instruction} :
    disassemble t b = .ok ops ↔
      ∃ segments : List (Segment t), b = segments.flatMap Segment.bytes ∧
        ops = Segment.instructions 0 segments := by
  constructor
  · intro h
    obtain ⟨segments, rfl⟩ := exists_segments_of_disassembleFrom h
    rw [disassemble, Segment.disassembleFrom_flatMap, Except.ok.injEq] at h
    exact ⟨segments, rfl, h.symm⟩
  · rintro ⟨segments, rfl, rfl⟩
    exact Segment.disassembleFrom_flatMap segments 0

/-! ### There is one way to cut -/

theorem OperandKind.Shape.eq_of_append_eq {t : Target} {size : Value} {kind : OperandKind}
    {p q r r' : List UInt8} (hp : kind.Shape t size p) (hq : kind.Shape t size q)
    (h : p ++ r = q ++ r') : p = q ∧ r = r' := by
  have hread : decodeOperand t size kind (p ++ r) = .ok (kind.valueOf t p, r) :=
    decodeOperand_eq_ok_iff.2 ⟨p, rfl, hp, rfl⟩
  rw [h, decodeOperand_eq_ok_iff.2 ⟨q, rfl, hq, rfl⟩] at hread
  simp only [Except.ok.injEq, Prod.mk.injEq] at hread
  obtain ⟨-, rfl⟩ := hread
  exact ⟨List.append_cancel_right h, rfl⟩

theorem OperandKind.Shapes.eq_of_append_eq {t : Target} {size : Value} {kinds : List OperandKind}
    {ps qs : List (List UInt8)} {r r' : List UInt8} (hp : Shapes t size kinds ps)
    (hq : Shapes t size kinds qs) (h : ps.flatten ++ r = qs.flatten ++ r') :
    ps = qs ∧ r = r' := by
  induction kinds generalizing size ps qs with
  | nil =>
    obtain rfl : ps = [] := List.length_eq_zero_iff.1 hp.length_eq
    obtain rfl : qs = [] := List.length_eq_zero_iff.1 hq.length_eq
    exact ⟨rfl, h⟩
  | cons kind kinds ih =>
    cases ps with
    | nil => exact hp.elim
    | cons p ps =>
      cases qs with
      | nil => exact hq.elim
      | cons q qs =>
        rw [List.flatten_cons, List.flatten_cons, List.append_assoc, List.append_assoc] at h
        obtain ⟨rfl, hrest⟩ := hp.1.eq_of_append_eq hq.1 h
        obtain ⟨rfl, rfl⟩ := ih hp.2 hq.2 hrest
        exact ⟨rfl, rfl⟩

theorem Segment.eq_of_append_eq {t : Target} {s s' : Segment t} {r r' : List UInt8}
    (h : s.bytes ++ r = s'.bytes ++ r') : s = s' ∧ r = r' := by
  obtain ⟨op, ps, known, shaped⟩ := s
  obtain ⟨op', qs, known', shaped'⟩ := s'
  simp only [Segment.bytes, List.cons_append, List.cons.injEq] at h
  obtain ⟨hcode, hrest⟩ := h
  have hop := Operation.ofCode?_of_mem known
  rw [hcode, Operation.ofCode?_of_mem known', Option.some.injEq] at hop
  subst hop
  obtain ⟨rfl, rfl⟩ := shaped.eq_of_append_eq shaped' hrest
  exact ⟨rfl, rfl⟩

/-- Bytecode can be cut into segments in one way only. -/
theorem Segment.flatMap_bytes_injective {t : Target} :
    Function.Injective (List.flatMap (Segment.bytes (t := t))) := by
  intro ss ss' h
  induction ss generalizing ss' with
  | nil =>
    cases ss' with
    | nil => rfl
    | cons s' ss' => simp [Segment.bytes] at h
  | cons s ss ih =>
    cases ss' with
    | nil => simp [Segment.bytes] at h
    | cons s' ss' =>
      rw [List.flatMap_cons, List.flatMap_cons] at h
      obtain ⟨rfl, hrest⟩ := Segment.eq_of_append_eq h
      rw [ih hrest]

end DwarfExpr
