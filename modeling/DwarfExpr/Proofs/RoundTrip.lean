/-
  DwarfExpr/Proofs/RoundTrip.lean
  ===============================
  **Assembling and disassembling.** The two directions:

    * bytecode of a source is disassembled into the operations and the literals of the source
      (`disassemble_of_assemble`), and its text is assembled into the same bytecode
      (`reassemble_of_assemble`);
    * the text of any bytecode is assembled into the canonical bytecode of the same instructions, if
      its LEB128 operands are not too wide (`reassemble_normalizes`).  Canonical bytecode within the
      64-bit ranges comes back unchanged, except for the least signed LEB128 value
      (`reassemble_canonical_iff`): it needs 65 bits as a literal.
-/
import DwarfExpr.Proofs.Printing
import DwarfExpr.Proofs.Reassembly

namespace DwarfExpr

/-! ### The parts of a source -/

namespace Token

def operation? : Token → Option Operation
  | operation op => some op
  | _ => none

def number? : Token → Option Value
  | number _ v => some v
  | _ => none

end Token

theorem Literal.filterMap_operation?_tokens (ls : List Literal) :
    (Literal.tokens ls).filterMap Token.operation? = [] := by
  fun_induction Literal.tokens ls with
  | case1 => rfl
  | case2 l => rfl
  | case3 l m ls ih => rwa [List.filterMap_cons_none rfl, List.filterMap_cons_none rfl]

theorem Literal.filterMap_number?_tokens (ls : List Literal) :
    (Literal.tokens ls).filterMap Token.number? = ls.map (·.value) := by
  fun_induction Literal.tokens ls with
  | case1 => rfl
  | case2 l => rfl
  | case3 l m ls ih =>
    have hhead : l.token.number? = some l.value := rfl
    rw [List.filterMap_cons_some hhead, List.filterMap_cons_none rfl, ih]
    rfl

theorem Call.filterMap_operation?_tokens (c : Call) :
    c.tokens.filterMap Token.operation? = [c.operation] := by
  obtain ⟨op, span, arguments⟩ := c
  cases arguments with
  | none => rfl
  | some a =>
    simp only [Call.tokens, Arguments.tokens, List.cons_append, List.filterMap_append,
      List.filterMap_cons, Token.operation?, Literal.filterMap_operation?_tokens, List.nil_append,
      List.filterMap_nil]

theorem Call.filterMap_number?_tokens (c : Call) :
    c.tokens.filterMap Token.number? = c.values := by
  obtain ⟨op, span, arguments⟩ := c
  cases arguments with
  | none => rfl
  | some a =>
    simp only [Call.tokens, Arguments.tokens, List.cons_append, List.filterMap_append,
      List.filterMap_cons, Token.number?, Literal.filterMap_number?_tokens, List.append_nil,
      List.filterMap_nil, Call.values]

/-! ### Instructions of segments -/

namespace Segment

variable {t : Target}

theorem map_instructions {α : Type} (f : Operation → List Value → α) (offset : Nat)
    (segments : List (Segment t)) :
    (instructions offset segments).map (fun i => f i.operation i.operands) =
      segments.map fun s => f s.operation s.values := by
  induction segments generalizing offset with
  | nil => rfl
  | cons s ss ih => rw [instructions, List.map_cons, List.map_cons, ih]

theorem flatMap_instructions {α : Type} (f : Operation → List Value → List α) (offset : Nat)
    (segments : List (Segment t)) :
    (instructions offset segments).flatMap (fun i => f i.operation i.operands) =
      segments.flatMap fun s => f s.operation s.values := by
  rw [List.flatMap_def, List.flatMap_def, map_instructions]

theorem forall_mem_instructions {P : Operation → List Value → Prop} {offset : Nat}
    {segments : List (Segment t)} :
    (∀ i ∈ instructions offset segments, P i.operation i.operands) ↔
      ∀ s ∈ segments, P s.operation s.values := by
  induction segments generalizing offset with
  | nil => simp [instructions]
  | cons s ss ih => rw [instructions, List.forall_mem_cons, List.forall_mem_cons, ih]

theorem length_piece_le {segments : List (Segment t)} {s : Segment t} (hs : s ∈ segments)
    {p : OperandKind × List UInt8} (hp : p ∈ s.operands) :
    p.2.length ≤ (segments.flatMap bytes).length := by
  have hpiece : p.2.length ≤ s.pieces.flatten.length :=
    (List.sublist_flatten_of_mem (List.of_mem_zip hp).2).length_le
  have hsegment : s.bytes.length ≤ (segments.flatMap bytes).length :=
    (List.sublist_flatten_of_mem (List.mem_map_of_mem hs)).length_le
  simp only [bytes, List.length_cons] at hsegment
  omega

end Segment

/-! ### Bytecode of a source -/

/-- The bytecode of a source is the segments of its calls. -/
theorem exists_segments_of_assemble [Host] {t : Target} {source : String} {b : List UInt8}
    (h : assemble t source = .ok b) :
    ∃ tokens calls, ∃ segments : List (Segment t), tokenize source = .ok tokens ∧
      tokens.map (·.value) = calls.flatMap Call.tokens ∧ (∀ c ∈ calls, c.Admitted t) ∧
      List.Forall₂ Call.EncodesTo calls segments ∧ b = segments.flatMap Segment.bytes := by
  obtain ⟨tokens, calls, htokens, hcalls, hadmitted, rfl⟩ := assemble_eq_ok_iff.1 h
  obtain ⟨segments, hsegments⟩ := exists_segments_of_admitted fun c hc =>
    ⟨known_of_parse htokens hcalls c hc, hadmitted c hc⟩
  exact ⟨tokens, calls, segments, htokens, tokens_of_parse hcalls, hadmitted, hsegments,
    flatMap_bytes_of_encodesTo hsegments⟩

theorem Call.EncodesTo.toInt_values [Host] {t : Target} {c : Call} {s : Segment t}
    (h : c.EncodesTo s) (hadmitted : c.Admitted t) :
    s.values.map Value.toInt =
      List.zipWith OperandKind.readBack c.operation.operands (c.values.map Value.toInt) := by
  rw [Segment.values, h.operation, h.pieces]
  exact hadmitted.literals.toInt_valueOf_writeAll

/-- The operands of segments are the literals of their calls, as they are read back. -/
theorem values_of_encodesTo [Host] {t : Target} {calls : List Call} {segments : List (Segment t)}
    (h : List.Forall₂ Call.EncodesTo calls segments) (hadmitted : ∀ c ∈ calls, c.Admitted t) :
    segments.map (·.operation) = calls.map (·.operation) ∧
      (segments.flatMap (·.operation.operands)).length = (calls.flatMap Call.values).length ∧
      (segments.flatMap Segment.values).map Value.toInt =
        List.zipWith OperandKind.readBack (segments.flatMap (·.operation.operands))
          ((calls.flatMap Call.values).map Value.toInt) := by
  induction h with
  | nil => simp
  | @cons c s cs ss hcs _ ih =>
    obtain ⟨hc, hrest⟩ := List.forall_mem_cons.1 hadmitted
    obtain ⟨hops, hlen, hvalues⟩ := ih hrest
    have hcount : s.operation.operands.length = c.values.length := by
      rw [hcs.operation]
      exact hc.literals.length_eq
    have hread := hcs.toInt_values hc
    rw [← hcs.operation] at hread
    refine ⟨by rw [List.map_cons, List.map_cons, hcs.operation, hops], ?_, ?_⟩
    · rw [List.flatMap_cons, List.flatMap_cons, List.length_append, List.length_append, hcount,
        hlen]
    · rw [List.flatMap_cons, List.flatMap_cons, List.flatMap_cons, List.map_append, List.map_append,
        List.zipWith_append (by rw [List.length_map, hcount]), hread, hvalues]

/-- **Assembling loses and invents nothing.** The bytecode of a source is disassembled into the
    operations of the source, in order, and their operands are its literals, in order, except that
    a literal which uses the sign bit of a signed operand is read back as a negative number. -/
theorem disassemble_of_assemble [Host] {t : Target} {source : String} {b : List UInt8}
    (h : assemble t source = .ok b) :
    ∃ tokens ops, tokenize source = .ok tokens ∧ disassemble t b = .ok ops ∧
      ops.map (·.operation) = tokens.filterMap (·.value.operation?) ∧
      (ops.flatMap (·.operation.operands)).length =
        (tokens.filterMap (·.value.number?)).length ∧
      (ops.flatMap (·.operands)).map Value.toInt =
        List.zipWith OperandKind.readBack (ops.flatMap (·.operation.operands))
          ((tokens.filterMap (·.value.number?)).map Value.toInt) := by
  obtain ⟨tokens, calls, segments, htokens, hspelled, hadmitted, hsegments, rfl⟩ :=
    exists_segments_of_assemble h
  have hpicked {α : Type} (pick : Token → Option α) :
      tokens.filterMap (fun token => pick token.value) =
        calls.flatMap fun c => c.tokens.filterMap pick := by
    have hvalues : tokens.filterMap (fun token => pick token.value) =
        (tokens.map (·.value)).filterMap pick := List.filterMap_map.symm
    rw [hvalues, hspelled, List.filterMap_flatMap]
  have hoperations : tokens.filterMap (·.value.operation?) = calls.map (·.operation) := by
    simp only [hpicked Token.operation?, Call.filterMap_operation?_tokens, List.map_eq_flatMap]
  have hnumbers : tokens.filterMap (·.value.number?) = calls.flatMap Call.values := by
    simp only [hpicked Token.number?, Call.filterMap_number?_tokens]
  refine ⟨tokens, Segment.instructions 0 segments, htokens,
    disassemble_eq_ok_iff.2 ⟨segments, rfl, rfl⟩, ?_⟩
  rw [Segment.map_instructions (fun op _ => op),
    Segment.flatMap_instructions (fun op _ => op.operands),
    Segment.flatMap_instructions (fun _ vs => vs), hoperations, hnumbers]
  exact values_of_encodesTo hsegments hadmitted

theorem disassemble_of_assemble_sign_bit :
    assemble {} "DW_OP_const1s(0xff) DW_OP_implicit_value(2, 0x1234)" =
        .ok [0x09, 0xff, 0x9e, 2, 0x34, 0x12] ∧
      ∃ tokens ops,
        tokenize "DW_OP_const1s(0xff) DW_OP_implicit_value(2, 0x1234)" = .ok tokens ∧
        disassemble {} [0x09, 0xff, 0x9e, 2, 0x34, 0x12] = .ok ops ∧
        ops.map (·.operation) = tokens.filterMap (·.value.operation?) ∧
        (ops.flatMap (·.operation.operands)).length =
          (tokens.filterMap (·.value.number?)).length ∧
        (ops.flatMap (·.operands)).map Value.toInt =
          List.zipWith OperandKind.readBack (ops.flatMap (·.operation.operands))
            ((tokens.filterMap (·.value.number?)).map Value.toInt) := by
  have hassemble : assemble {} "DW_OP_const1s(0xff) DW_OP_implicit_value(2, 0x1234)" =
      .ok [0x09, 0xff, 0x9e, 2, 0x34, 0x12] := by decide +kernel
  exact ⟨hassemble, disassemble_of_assemble hassemble⟩

/-! ### Bytecode of a source comes back -/

namespace OperandKind

variable [Host] {t : Target}

/-- What the assembler writes has no padding, and can be written as a literal again. -/
theorem Admits.rewritable_write {kind : OperandKind} {n : Nat} {v : Value}
    (h : kind.Admits t n v.toInt) :
    kind.Rewritable t (kind.write t n v) ∧ kind.Shortest (kind.write t n v) := by
  have hvalue := h.toInt_valueOf_write
  cases kind with
  | uleb128 =>
    have hread := Leb128.unsignedOf_encodeUnsigned h.1
    refine ⟨⟨?_, by simp⟩, (Leb128.shortest_unsigned_iff (Leb128.terminated_encodeUnsigned v)).2 ?_⟩
    · rw [Expressible, hvalue]
      exact h.2
    · rw [hread]
  | sleb128 =>
    have hread := Leb128.signedOf_encodeSigned v
    refine ⟨⟨?_, by simp⟩, (Leb128.shortest_signed_iff (Leb128.terminated_encodeSigned v)).2 ?_⟩
    · rw [Expressible, hvalue]
      exact h
    · rw [hread]
  | block =>
    refine ⟨⟨trivial, fun _ => ?_⟩, trivial⟩
    rw [write, Nat.mul_comm, Fixed.length_encode]
    exact h.2
  | _ => exact ⟨⟨trivial, by simp⟩, trivial⟩

theorem AdmitsAll.rewritable_writeAll {kinds : List OperandKind} {n : Nat} {vs : List Value}
    (h : AdmitsAll t n kinds vs) :
    ∀ p ∈ kinds.zip (writeAll t n kinds vs), p.1.Rewritable t p.2 ∧ p.1.Shortest p.2 := by
  induction kinds generalizing n vs with
  | nil => simp
  | cons kind kinds ih =>
    cases vs with
    | nil => exact h.elim
    | cons v vs =>
      rw [writeAll, List.zip_cons_cons, List.forall_mem_cons]
      exact ⟨h.1.rewritable_write, ih h.2⟩

end OperandKind

theorem exists_of_mem_of_forall₂ {α β : Type} {R : α → β → Prop} {l : List α} {m : List β} {b : β}
    (h : List.Forall₂ R l m) (hb : b ∈ m) : ∃ a ∈ l, R a b := by
  induction h with
  | nil => simp at hb
  | cons hr _ ih =>
    rcases List.mem_cons.1 hb with rfl | hb
    · exact ⟨_, List.mem_cons_self, hr⟩
    · obtain ⟨a, ha, hab⟩ := ih hb
      exact ⟨a, List.mem_cons_of_mem _ ha, hab⟩

/-- **The bytecode of a source is a fixed point** of disassembling and assembling again. -/
theorem reassemble_of_assemble [Host] {t : Target} {source : String} {b : List UInt8}
    (h : assemble t source = .ok b) :
    ∃ ops, disassemble t b = .ok ops ∧ assemble t (Instruction.source ops) = .ok b := by
  obtain ⟨tokens, calls, segments, -, -, hadmitted, hsegments, rfl⟩ :=
    exists_segments_of_assemble h
  have hpieces : ∀ s ∈ segments, ∀ p ∈ s.operands, p.1.Rewritable t p.2 ∧ p.1.Shortest p.2 := by
    intro s hs
    obtain ⟨c, hc, hcs⟩ := exists_of_mem_of_forall₂ hsegments hs
    rw [Segment.operands, hcs.operation, hcs.pieces]
    exact (hadmitted c hc).literals.rewritable_writeAll
  refine ⟨Segment.instructions 0 segments, disassemble_eq_ok_iff.2 ⟨segments, rfl, rfl⟩, ?_⟩
  refine assemble_source_eq_ok_iff.2 ⟨fun s hs p hp => (hpieces s hs p hp).1, Eq.symm ?_⟩
  exact flatMap_shorten_eq_iff.2
    (canonical_flatMap_iff.2 fun s hs p hp => (hpieces s hs p hp).2)

/-- The least value of a width, a signed LEB128 value of 64 bits, and a block of no bytes. -/
theorem reassemble_of_assemble_limits :
    assemble {}
        "DW_OP_const1s(0x80) DW_OP_consts(0xffffffffffffffff) DW_OP_implicit_value(0, 0)" =
      .ok [0x09, 0x80, 0x11, 0xff, 0xff, 0xff, 0xff, 0xff, 0xff, 0xff, 0xff, 0xff, 1, 0x9e, 0] ∧
    ∃ ops,
      disassemble {}
          [0x09, 0x80, 0x11, 0xff, 0xff, 0xff, 0xff, 0xff, 0xff, 0xff, 0xff, 0xff, 1, 0x9e, 0] =
        .ok ops ∧
      assemble {} (Instruction.source ops) =
        .ok [0x09, 0x80, 0x11, 0xff, 0xff, 0xff, 0xff, 0xff, 0xff, 0xff, 0xff, 0xff, 1,
          0x9e, 0] := by
  have hassemble : assemble {}
      "DW_OP_const1s(0x80) DW_OP_consts(0xffffffffffffffff) DW_OP_implicit_value(0, 0)" =
    .ok [0x09, 0x80, 0x11, 0xff, 0xff, 0xff, 0xff, 0xff, 0xff, 0xff, 0xff, 0xff, 1, 0x9e, 0] := by
    decide +kernel
  exact ⟨hassemble, reassemble_of_assemble hassemble⟩

/-! ### Bytecode in general -/

namespace Segment

variable [Host] {t : Target}

/-- If there is room for blocks, only the values of operands decide whether the text of a segment is
    assembled. -/
theorem rewritable_iff {s : Segment t}
    (h : ∀ p ∈ s.operands, p.1 = .block → Host.Holds p.2.length) :
    s.Rewritable ↔
      ∀ p ∈ s.operation.operands.zip s.values, p.1.Expressible p.2.toInt := by
  rw [s.zip_values, List.forall_mem_map]
  constructor
  · intro hs p hp
    exact (hs p hp).1
  · intro hs p hp
    exact ⟨hs p hp, h p hp⟩

end Segment

/-- **Reassembling normalizes.** The text of bytecode is assembled exactly if its LEB128 operands
    are not too wide for literals.  The result has the same operations and operands, and is no
    longer; it is the same bytecode exactly if that was canonical. -/
theorem reassemble_normalizes [Host] {t : Target} {b : List UInt8} {ops : List Instruction}
    (h : disassemble t b = .ok ops) (hhost : ∀ n ≤ b.length, Host.Holds n) :
    ((∃ b', assemble t (Instruction.source ops) = .ok b') ↔
      ∀ i ∈ ops, ∀ p ∈ i.operation.operands.zip i.operands, p.1.Expressible p.2.toInt) ∧
    ∀ b', assemble t (Instruction.source ops) = .ok b' →
      (∃ ops', disassemble t b' = .ok ops' ∧
        ops'.map (fun i => (i.operation, i.operands)) =
          ops.map fun i => (i.operation, i.operands)) ∧
      b'.length ≤ b.length ∧ (b' = b ↔ Canonical t b) := by
  obtain ⟨segments, rfl, rfl⟩ := disassemble_eq_ok_iff.1 h
  constructor
  · rw [Segment.forall_mem_instructions
      (P := fun op vs => ∀ p ∈ op.operands.zip vs, p.1.Expressible p.2.toInt)]
    have hrewritable : ∀ s ∈ segments, (s.Rewritable ↔
        ∀ p ∈ s.operation.operands.zip s.values, p.1.Expressible p.2.toInt) := by
      intro s hs
      exact Segment.rewritable_iff fun p hp _ => hhost _ (Segment.length_piece_le hs hp)
    simp only [assemble_source_eq_ok_iff, exists_and_left, exists_eq, and_true]
    exact forall₂_congr hrewritable
  · intro b' hb'
    obtain ⟨-, rfl⟩ := assemble_source_eq_ok_iff.1 hb'
    refine ⟨⟨_, disassemble_eq_ok_iff.2 ⟨_, rfl, rfl⟩, ?_⟩, length_flatMap_shorten_le segments,
      flatMap_shorten_eq_iff⟩
    rw [Segment.map_instructions (fun op vs => (op, vs)),
      Segment.map_instructions (fun op vs => (op, vs)), List.map_map]
    exact List.map_congr_left fun s _ => by simp

/-- A padded zero loses its padding. -/
theorem reassemble_normalizes_padding :
    disassemble {} [0x10, 0x80, 0] = .ok [⟨0, ⟨"DW_OP_constu", 0x10, [.uleb128]⟩, [.zero]⟩] ∧
      (∀ n ≤ 3, Host.Holds n) ∧
      assemble {} (Instruction.source [⟨0, ⟨"DW_OP_constu", 0x10, [.uleb128]⟩, [.zero]⟩]) =
        .ok [0x10, 0] ∧
      (∃ ops', disassemble {} [0x10, 0] = .ok ops' ∧
        ops'.map (fun i => (i.operation, i.operands)) =
          [(⟨"DW_OP_constu", 0x10, [.uleb128]⟩, [.zero])]) ∧
      ¬ Canonical {} [0x10, 0x80, 0] := by
  have hread : disassemble {} [0x10, 0x80, 0] =
      .ok [⟨0, ⟨"DW_OP_constu", 0x10, [.uleb128]⟩, [.zero]⟩] := by decide +kernel
  have hhost : ∀ n ≤ 3, Host.Holds n := by
    change ∀ n ≤ 3, Host.addressable n = true ∧ Host.allocatable n = true
    decide
  have hassemble :
      assemble {} (Instruction.source [⟨0, ⟨"DW_OP_constu", 0x10, [.uleb128]⟩, [.zero]⟩]) =
        .ok [0x10, 0] := by decide +kernel
  obtain ⟨hsame, -, hcanonical⟩ := (reassemble_normalizes hread hhost).2 _ hassemble
  exact ⟨hread, hhost, hassemble, hsame, fun h => absurd (hcanonical.2 h) (by decide)⟩

/-! ### Canonical bytecode -/

/-- The 64-bit range of a LEB128 operand; the ranges of other operands are in their widths. -/
def OperandKind.InRange : OperandKind → Int → Prop
  | uleb128, v => 0 ≤ v ∧ v < 2 ^ 64
  | sleb128, v => -2 ^ 63 ≤ v ∧ v < 2 ^ 63
  | _, _ => True

theorem OperandKind.InRange.expressible_iff {kind : OperandKind} {v : Int} (h : kind.InRange v) :
    kind.Expressible v ↔ (kind = .sleb128 → v ≠ -2 ^ 63) := by
  cases kind with
  | uleb128 => exact iff_of_true h.2 (by simp)
  | sleb128 =>
    obtain ⟨hge, hlt⟩ := h
    simp only [Expressible, forall_const]
    omega
  | _ => exact iff_of_true trivial (by simp)

/-- The host has room for the blocks of an operation; the size of a block is the operand before. -/
def Operation.BlocksHeld [Host] (op : Operation) (vs : List Value) : Prop :=
  ∀ p ∈ op.operands.tail.zip vs, p.1 = .block → Host.Holds p.2.toInt.toNat

/-- The size of a block is the value before it, all along a list of operands. -/
theorem OperandKind.Shapes.holds_iff [Host] {t : Target} {size : Value} {kinds : List OperandKind}
    {pieces : List (List UInt8)} (h : Shapes t size kinds pieces) :
    (∀ p ∈ kinds.zip pieces, p.1 = .block → Host.Holds p.2.length) ↔
      ∀ p ∈ kinds.zip (size :: List.zipWith (valueOf t) kinds pieces),
        p.1 = .block → Host.Holds p.2.toInt.toNat := by
  induction kinds generalizing size pieces with
  | nil => simp
  | cons kind kinds ih =>
    cases pieces with
    | nil => exact h.elim
    | cons piece pieces =>
      have hhead : (kind = .block → Host.Holds piece.length) ↔
          (kind = .block → Host.Holds size.toInt.toNat) := by
        refine imp_congr_right fun hkind => ?_
        subst hkind
        rw [h.1.1, Int.toNat_natCast]
      rw [List.zip_cons_cons, List.zipWith_cons_cons, List.zip_cons_cons, List.forall_mem_cons,
        List.forall_mem_cons, ih h.2]
      exact and_congr_left' hhead

theorem Segment.holds_iff [Host] {t : Target} (s : Segment t) :
    (∀ p ∈ s.operands, p.1 = .block → Host.Holds p.2.length) ↔
      s.operation.BlocksHeld s.values := by
  obtain ⟨⟨name, code, kinds⟩, pieces, known, shaped⟩ := s
  cases kinds with
  | nil => simp [Segment.operands, Operation.BlocksHeld]
  | cons kind kinds =>
    cases pieces with
    | nil => exact shaped.elim
    | cons piece pieces =>
      have hkind : kind ≠ .block := by
        intro hblock
        exact Operation.head?_operands_ne_block known (congrArg some hblock)
      simp only [Segment.operands, List.zip_cons_cons, List.forall_mem_cons, hkind, false_implies,
        true_and]
      exact shaped.2.holds_iff

/-- A signed constant is canonical in its shortest form. -/
theorem canonical_consts (t : Target) (v : Value) :
    Canonical t (0x11 :: Leb128.encodeSigned v) := by
  have known : ⟨"DW_OP_consts", 0x11, [.sleb128]⟩ ∈ Operation.all := by decide +kernel
  refine ⟨[⟨_, [Leb128.encodeSigned v], known, Leb128.terminated_encodeSigned v, trivial⟩],
    by simp [Segment.bytes], ?_⟩
  simp only [List.forall_mem_singleton, Segment.Canonical, Segment.operands, List.zip_cons_cons,
    List.zip_nil_left]
  exact (Leb128.shortest_signed_iff (Leb128.terminated_encodeSigned v)).2
    (congrArg Leb128.encodeSigned (Leb128.signedOf_encodeSigned v))

/-- **Canonical bytecode comes back** if its operands are in the 64-bit ranges, if there is room for
    its blocks, and if no signed LEB128 operand is the least 64-bit number. -/
theorem reassemble_canonical_iff [Host] {t : Target} {b : List UInt8} {ops : List Instruction}
    (h : disassemble t b = .ok ops) (hcanonical : Canonical t b)
    (hrange : ∀ i ∈ ops, ∀ p ∈ i.operation.operands.zip i.operands, p.1.InRange p.2.toInt) :
    assemble t (Instruction.source ops) = .ok b ↔
      (∀ i ∈ ops, ∀ p ∈ i.operation.operands.zip i.operands,
        p.1 = .sleb128 → p.2.toInt ≠ -2 ^ 63) ∧
      ∀ i ∈ ops, i.operation.BlocksHeld i.operands := by
  obtain ⟨segments, rfl, rfl⟩ := disassemble_eq_ok_iff.1 h
  rw [Segment.forall_mem_instructions
    (P := fun op vs => ∀ p ∈ op.operands.zip vs, p.1.InRange p.2.toInt)] at hrange
  rw [Segment.forall_mem_instructions
      (P := fun op vs => ∀ p ∈ op.operands.zip vs, p.1 = .sleb128 → p.2.toInt ≠ -2 ^ 63),
    Segment.forall_mem_instructions (P := fun op vs => op.BlocksHeld vs),
    assemble_source_eq_ok_iff, ← forall₂_and]
  -- canonical bytecode has no padding to lose
  rw [and_iff_left (flatMap_shorten_eq_iff.2 hcanonical).symm]
  refine forall₂_congr fun s hs => ?_
  have hleast : (∀ p ∈ s.operation.operands.zip s.values, p.1.Expressible p.2.toInt) ↔
      ∀ p ∈ s.operation.operands.zip s.values, p.1 = .sleb128 → p.2.toInt ≠ -2 ^ 63 :=
    forall₂_congr fun p hp => (hrange s hs p hp).expressible_iff
  rw [← s.holds_iff, ← hleast]
  constructor
  · intro hrewritable
    have hroom := fun p hp => (hrewritable p hp).2
    exact ⟨(Segment.rewritable_iff hroom).1 hrewritable, hroom⟩
  · rintro ⟨hexpressible, hroom⟩
    exact (Segment.rewritable_iff hroom).2 hexpressible

/-- One more than the least signed LEB128 operand comes back. -/
theorem reassemble_canonical_iff_above_least :
    disassemble {} [0x11, 0x81, 0x80, 0x80, 0x80, 0x80, 0x80, 0x80, 0x80, 0x80, 0x7f] =
        .ok [⟨0, ⟨"DW_OP_consts", 0x11, [.sleb128]⟩, [.ofInt (-2 ^ 63 + 1)]⟩] ∧
      Canonical {} [0x11, 0x81, 0x80, 0x80, 0x80, 0x80, 0x80, 0x80, 0x80, 0x80, 0x7f] ∧
      OperandKind.sleb128.InRange (Value.ofInt (-2 ^ 63 + 1)).toInt ∧
      assemble {} (Instruction.source
          [⟨0, ⟨"DW_OP_consts", 0x11, [.sleb128]⟩, [.ofInt (-2 ^ 63 + 1)]⟩]) =
        .ok [0x11, 0x81, 0x80, 0x80, 0x80, 0x80, 0x80, 0x80, 0x80, 0x80, 0x7f] := by
  have hread : disassemble {} [0x11, 0x81, 0x80, 0x80, 0x80, 0x80, 0x80, 0x80, 0x80, 0x80, 0x7f] =
      .ok [⟨0, ⟨"DW_OP_consts", 0x11, [.sleb128]⟩, [.ofInt (-2 ^ 63 + 1)]⟩] := by decide +kernel
  have hcanonical :
      Canonical {} [0x11, 0x81, 0x80, 0x80, 0x80, 0x80, 0x80, 0x80, 0x80, 0x80, 0x7f] := by
    have hbytes : Leb128.encodeSigned (.ofInt (-2 ^ 63 + 1)) =
        [0x81, 0x80, 0x80, 0x80, 0x80, 0x80, 0x80, 0x80, 0x80, 0x7f] := by decide +kernel
    exact hbytes ▸ canonical_consts {} (.ofInt (-2 ^ 63 + 1))
  have hrange : OperandKind.sleb128.InRange (Value.ofInt (-2 ^ 63 + 1)).toInt := by
    simp [OperandKind.InRange]
  refine ⟨hread, hcanonical, hrange, (reassemble_canonical_iff hread hcanonical ?_).2 ⟨?_, ?_⟩⟩
  · simpa using hrange
  · simp
  · simp [Operation.BlocksHeld]

/-- The least signed LEB128 operand does not come back: its literal is too wide. -/
theorem reassemble_canonical_least :
    disassemble {} [0x11, 0x80, 0x80, 0x80, 0x80, 0x80, 0x80, 0x80, 0x80, 0x80, 0x7f] =
        .ok [⟨0, ⟨"DW_OP_consts", 0x11, [.sleb128]⟩, [.ofInt (-2 ^ 63)]⟩] ∧
      Canonical {} [0x11, 0x80, 0x80, 0x80, 0x80, 0x80, 0x80, 0x80, 0x80, 0x80, 0x7f] ∧
      OperandKind.sleb128.InRange (Value.ofInt (-2 ^ 63)).toInt ∧
      assemble {} (Instruction.source
          [⟨0, ⟨"DW_OP_consts", 0x11, [.sleb128]⟩, [.ofInt (-2 ^ 63)]⟩]) ≠
        .ok [0x11, 0x80, 0x80, 0x80, 0x80, 0x80, 0x80, 0x80, 0x80, 0x80, 0x7f] := by
  have hbytes : Leb128.encodeSigned (.ofInt (-2 ^ 63)) =
      [0x80, 0x80, 0x80, 0x80, 0x80, 0x80, 0x80, 0x80, 0x80, 0x7f] := by decide +kernel
  refine ⟨by decide +kernel, hbytes ▸ canonical_consts {} (.ofInt (-2 ^ 63)), ?_, by decide +kernel⟩
  simp [OperandKind.InRange]

end DwarfExpr
