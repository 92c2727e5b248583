/-
  DwarfExpr/Proofs/Canonical.lean
  ===============================
  **Canonical bytecode.** LEB128 is the only format that has more than one encoding of a value: one
  can be padded.  Bytecode is canonical if each of its LEB128 operands is as short as it can be.

    * `Segment.shorten` gives every LEB128 operand its shortest encoding.  It keeps the values
      (`Segment.values_shorten`) and adds no bytes (`Segment.length_bytes_shorten_le`);
    * it changes nothing exactly if the bytecode is canonical (`flatMap_shorten_eq_iff`).
-/
import DwarfExpr.Proofs.Segment

namespace DwarfExpr

/-! ### Operands -/

namespace OperandKind

/-- No encoding of the operand's value is shorter. -/
def Shortest : OperandKind → List UInt8 → Prop
  | uleb128, piece => Leb128.Shortest Leb128.unsignedOf piece
  | sleb128, piece => Leb128.Shortest Leb128.signedOf piece
  | _, _ => True

/-- The operand with no padding. -/
def shorten : OperandKind → List UInt8 → List UInt8
  | uleb128, piece => Leb128.encodeUnsigned (Leb128.unsignedOf piece)
  | sleb128, piece => Leb128.encodeSigned (Leb128.signedOf piece)
  | _, piece => piece

variable {t : Target} {size : Value} {kind : OperandKind} {kinds : List OperandKind}
  {piece : List UInt8} {pieces : List (List UInt8)}

theorem Shape.shorten (h : kind.Shape t size piece) :
    kind.Shape t size (kind.shorten piece) := by
  cases kind with
  | uleb128 => exact Leb128.terminated_encodeUnsigned _
  | sleb128 => exact Leb128.terminated_encodeSigned _
  | _ => exact h

theorem valueOf_shorten (t : Target) (kind : OperandKind) (piece : List UInt8) :
    kind.valueOf t (kind.shorten piece) = kind.valueOf t piece := by
  cases kind with
  | uleb128 =>
    refine Leb128.unsignedOf_encodeUnsigned ?_
    rw [Leb128.toInt_unsignedOf]
    omega
  | sleb128 => exact Leb128.signedOf_encodeSigned _
  | _ => rfl

theorem Shape.length_shorten_le (h : kind.Shape t size piece) :
    (kind.shorten piece).length ≤ piece.length := by
  cases kind with
  | uleb128 => exact Leb128.length_encodeUnsigned_le h
  | sleb128 => exact Leb128.length_encodeSigned_le h
  | _ => exact le_refl _

theorem Shape.shorten_eq_iff (h : kind.Shape t size piece) :
    kind.shorten piece = piece ↔ kind.Shortest piece := by
  cases kind with
  | uleb128 => exact (Leb128.shortest_unsigned_iff h).symm
  | sleb128 => exact (Leb128.shortest_signed_iff h).symm
  | _ => exact iff_of_true rfl trivial

/-- Shortening keeps the shapes: the size of a block is a value, and values are kept. -/
theorem Shapes.shorten (h : Shapes t size kinds pieces) :
    Shapes t size kinds (List.zipWith OperandKind.shorten kinds pieces) := by
  induction kinds generalizing size pieces with
  | nil =>
    obtain rfl : pieces = [] := List.length_eq_zero_iff.1 h.length_eq
    exact h
  | cons kind kinds ih =>
    cases pieces with
    | nil => exact h.elim
    | cons piece pieces =>
      refine ⟨h.1.shorten, ?_⟩
      rw [valueOf_shorten]
      exact ih h.2

theorem Shapes.length_flatten_shorten_le (h : Shapes t size kinds pieces) :
    (List.zipWith OperandKind.shorten kinds pieces).flatten.length ≤ pieces.flatten.length := by
  induction kinds generalizing size pieces with
  | nil => simp
  | cons kind kinds ih =>
    cases pieces with
    | nil => exact h.elim
    | cons piece pieces =>
      have hpiece := h.1.length_shorten_le
      have hrest := ih h.2
      simp only [List.zipWith_cons_cons, List.flatten_cons, List.length_append]
      omega

theorem Shapes.shorten_eq_iff (h : Shapes t size kinds pieces) :
    List.zipWith OperandKind.shorten kinds pieces = pieces ↔
      ∀ p ∈ kinds.zip pieces, p.1.Shortest p.2 := by
  induction kinds generalizing size pieces with
  | nil =>
    obtain rfl : pieces = [] := List.length_eq_zero_iff.1 h.length_eq
    simp
  | cons kind kinds ih =>
    cases pieces with
    | nil => exact h.elim
    | cons piece pieces =>
      rw [List.zipWith_cons_cons, List.cons.injEq, h.1.shorten_eq_iff, ih h.2, List.zip_cons_cons,
        List.forall_mem_cons]

end OperandKind

/-! ### Segments -/

namespace Segment

variable {t : Target}

/-- The segment with no padding. -/
def shorten (s : Segment t) : Segment t :=
  { s with
    pieces := List.zipWith OperandKind.shorten s.operation.operands s.pieces
    shaped := s.shaped.shorten }

/-- Every LEB128 operand is as short as it can be. -/
def Canonical (s : Segment t) : Prop := ∀ p ∈ s.operands, p.1.Shortest p.2

@[simp] theorem operation_shorten (s : Segment t) : s.shorten.operation = s.operation := rfl

@[simp] theorem values_shorten (s : Segment t) : s.shorten.values = s.values := by
  simp only [values, shorten, zipWith_zipWith_self, OperandKind.valueOf_shorten]

theorem length_bytes_shorten_le (s : Segment t) : s.shorten.bytes.length ≤ s.bytes.length :=
  Nat.succ_le_succ s.shaped.length_flatten_shorten_le

theorem shorten_eq_iff (s : Segment t) : s.shorten = s ↔ s.Canonical := by
  rw [Segment.ext_iff]
  exact (and_iff_right rfl).trans s.shaped.shorten_eq_iff

end Segment

/-! ### Bytecode -/

/-- Bytecode whose LEB128 operands are all as short as they can be. -/
def Canonical (t : Target) (b : List UInt8) : Prop :=
  ∃ segments : List (Segment t), b = segments.flatMap Segment.bytes ∧ ∀ s ∈ segments, s.Canonical

theorem canonical_flatMap_iff {t : Target} {segments : List (Segment t)} :
    Canonical t (segments.flatMap Segment.bytes) ↔ ∀ s ∈ segments, s.Canonical := by
  constructor
  · rintro ⟨segments', h, hcanonical⟩
    rwa [Segment.flatMap_bytes_injective h]
  · intro h
    exact ⟨segments, rfl, h⟩

theorem length_flatMap_shorten_le {t : Target} (segments : List (Segment t)) :
    ((segments.map Segment.shorten).flatMap Segment.bytes).length ≤
      (segments.flatMap Segment.bytes).length := by
  induction segments with
  | nil => exact le_refl _
  | cons s ss ih =>
    have hs := s.length_bytes_shorten_le
    simp only [List.map_cons, List.flatMap_cons, List.length_append]
    omega

/-- **Canonical bytecode is what shortening leaves alone.** -/
theorem flatMap_shorten_eq_iff {t : Target} {segments : List (Segment t)} :
    (segments.map Segment.shorten).flatMap Segment.bytes = segments.flatMap Segment.bytes ↔
      Canonical t (segments.flatMap Segment.bytes) := by
  have hfixed : segments.map Segment.shorten = segments ↔ ∀ s ∈ segments, s.shorten = s := by
    conv_lhs => rhs; rw [← List.map_id segments]
    exact List.map_inj_left
  rw [canonical_flatMap_iff, Segment.flatMap_bytes_injective.eq_iff, hfixed]
  exact forall₂_congr fun s _ => s.shorten_eq_iff

end DwarfExpr
