/-
  DwarfExpr/Proofs/Acceptance.lean
  ================================
  **Which calls the assembler takes and what it writes for them, in integers.**
  `Proofs/Assembly.lean` says that the output is what the encoders write.  Here the bytes of an
  operand are described without them, by the integer that they stand for (`OperandKind.Renders`): a
  shortest LEB128 number, or the residue of the literal in a fixed number of bytes.  There is one
  such piece for a literal in range (`OperandKind.renders_iff`), so that the description settles the
  output (`Call.forall₂_renders_iff`).

  An operation without operands has no list, not even an empty one; any other operation has a list
  with a literal in range for each of its operands (`Call.admitted_iff`).
-/
import DwarfExpr.Proofs.Assembly

namespace DwarfExpr

/-! ### Numbers by what they stand for -/

namespace Leb128

/-- The integer that a LEB128 number spells in two's complement. -/
def signedPayload (piece : List UInt8) : Int :=
  if 2 * payload piece < 128 ^ piece.length then payload piece
  else payload piece - 128 ^ piece.length

/-- A number that stands for `v`, and no other that does is shorter. -/
structure Spells (reading : List UInt8 → Int) (v : Int) (piece : List UInt8) : Prop where
  terminated : Terminated piece
  value : reading piece = v
  least : ∀ other, Terminated other → reading other = v → piece.length ≤ other.length

/-- An encoder that writes the shortest number, and is undone by reading, writes the only number
    that spells its value. -/
theorem spells_iff {read : List UInt8 → Value} {reading : List UInt8 → Int}
    {encode : Value → List UInt8} {v : Value}
    (hreading : ∀ piece, Terminated piece → (read piece).toInt = reading piece)
    (hterminated : Terminated (encode v)) (hback : read (encode v) = v)
    (hshortest : ∀ {piece}, Terminated piece → (Shortest read piece ↔ encode (read piece) = piece))
    (piece : List UInt8) : Spells reading v.toInt piece ↔ piece = encode v := by
  constructor
  · rintro ⟨hpiece, hvalue, hleast⟩
    have hread : read piece = v := Value.toInt_injective ((hreading piece hpiece).trans hvalue)
    have hshort : Shortest read piece := by
      intro other hother hsame
      apply hleast other hother
      rw [← hreading other hother, hsame, hread]
    rw [← (hshortest hpiece).1 hshort, hread]
  · rintro rfl
    refine ⟨hterminated, by rw [← hreading _ hterminated, hback], ?_⟩
    intro other hother hsame
    apply (hshortest hterminated).2 (by rw [hback]) other hother
    rw [hback]
    exact Value.toInt_injective ((hreading other hother).trans hsame)

theorem spells_unsigned_iff {v : Value} (h : 0 ≤ v.toInt) (piece : List UInt8) :
    Spells (fun bytes => payload bytes) v.toInt piece ↔ piece = encodeUnsigned v :=
  spells_iff (fun other _ => toInt_unsignedOf other) (terminated_encodeUnsigned v)
    (unsignedOf_encodeUnsigned h) shortest_unsigned_iff piece

theorem spells_signed_iff (v : Value) (piece : List UInt8) :
    Spells signedPayload v.toInt piece ↔ piece = encodeSigned v :=
  spells_iff (fun _ hother => toInt_signedOf (List.length_pos_iff.1 hother.length_pos))
    (terminated_encodeSigned v) (signedOf_encodeSigned v) shortest_signed_iff piece

end Leb128

namespace Fixed

/-- The residue of `v` modulo `2 ^ width`, in as many bits. -/
structure Spells (order : ByteOrder) (width : Nat) (v : Int) (piece : List UInt8) : Prop where
  length : 8 * piece.length = width
  value : (Magnitude.toNat (order.arrange piece) : Int) = v % 2 ^ width

theorem spells_iff (order : ByteOrder) {width n : Nat} (hwidth : width = 8 * n) (v : Value)
    (piece : List UInt8) : Spells order width v.toInt piece ↔ piece = encode order width v := by
  subst hwidth
  constructor
  · rintro ⟨hlength, hvalue⟩
    have hpiece : piece.length = n := by omega
    rw [eq_comm, encode_eq_iff hpiece, hvalue, two_pow_eight_mul]
  · rintro rfl
    exact ⟨by rw [length_encode], by rw [toNat_encode, two_pow_eight_mul]⟩

end Fixed

/-! ### The bytes of operands -/

namespace OperandKind

/-- The piece of a literal `v` as an operand of a kind; `size` is the literal before it. -/
def Renders (t : Target) (size : Nat) (v : Int) (piece : List UInt8) : OperandKind → Prop
  | uleb128 => Leb128.Spells (fun bytes => Leb128.payload bytes) v piece
  | sleb128 => Leb128.Spells Leb128.signedPayload v piece
  | signed w | unsigned w => Fixed.Spells t.order w.bits v piece
  | address => Fixed.Spells t.order t.address.bits v piece
  | word => Fixed.Spells t.order t.word.width.bits v piece
  | block => piece.length = size ∧ (Magnitude.toNat (t.order.arrange piece) : Int) = v

/-- A piece for each literal; the size of a block is the literal before. -/
def RendersAll (t : Target) (size : Nat) :
    List OperandKind → List Int → List (List UInt8) → Prop
  | [], [], [] => True
  | kind :: kinds, v :: vs, piece :: pieces =>
    kind.Renders t size v piece ∧ RendersAll t v.toNat kinds vs pieces
  | _, _, _ => False

variable [Host] {t : Target}

/-- **A literal in range has one piece**, and it is what the encoder writes. -/
theorem renders_iff {kind : OperandKind} {n : Nat} {v : Value} (h : kind.Admits t n v.toInt)
    (piece : List UInt8) : kind.Renders t n v.toInt piece ↔ piece = kind.write t n v := by
  cases kind with
  | uleb128 => exact Leb128.spells_unsigned_iff h.1 piece
  | sleb128 => exact Leb128.spells_signed_iff v piece
  | signed w => exact Fixed.spells_iff t.order w.bits_eq v piece
  | unsigned w => exact Fixed.spells_iff t.order w.bits_eq v piece
  | address => exact Fixed.spells_iff t.order t.address.bits_eq v piece
  | word => exact Fixed.spells_iff t.order t.word.width.bits_eq v piece
  | block =>
    obtain ⟨⟨hnonneg, hlt⟩, -⟩ := h
    -- a block has room for its literal, so there is no residue to take
    rw [write, ← Fixed.spells_iff t.order (Nat.mul_comm n 8)]
    constructor
    · rintro ⟨hlength, hvalue⟩
      exact ⟨by omega, by rw [hvalue, Int.emod_eq_of_lt hnonneg hlt]⟩
    · rintro ⟨hlength, hvalue⟩
      exact ⟨by omega, by rw [hvalue, Int.emod_eq_of_lt hnonneg hlt]⟩

theorem rendersAll_iff {kinds : List OperandKind} {n : Nat} {vs : List Value}
    (h : AdmitsAll t n kinds vs) (pieces : List (List UInt8)) :
    RendersAll t n kinds (vs.map Value.toInt) pieces ↔ pieces = writeAll t n kinds vs := by
  induction kinds generalizing n vs pieces with
  | nil =>
    cases vs with
    | nil => cases pieces <;> simp [RendersAll, writeAll]
    | cons v vs => exact h.elim
  | cons kind kinds ih =>
    cases vs with
    | nil => exact h.elim
    | cons v vs =>
      cases pieces with
      | nil => simp [RendersAll, writeAll]
      | cons piece pieces =>
        rw [List.map_cons, RendersAll, renders_iff h.1, ih h.2, writeAll, List.cons.injEq]

end OperandKind

/-! ### Calls -/

theorem Host.holds_iff [Host] (n : Nat) :
    Host.Holds n ↔ n < 2 ^ 61 ∧ Host.allocatable n = true := by
  have haddress : Host.addressable n = true ↔ n < 2 ^ 61 := by
    rw [Host.addressable, decide_eq_true_iff, UInt64.size]
    omega
  rw [Host.Holds, haddress]

namespace Call

/-- The call has a list, and the list has a literal in range for each operand. -/
def Filled [Host] (t : Target) (c : Call) : Prop :=
  ∃ a, c.arguments = some a ∧
    OperandKind.AdmitsAll t 0 c.operation.operands (a.operands.map (·.value))

/-- The code of the operation, and behind it the piece of each literal. -/
def Renders (t : Target) (c : Call) (chunk : List UInt8) : Prop :=
  ∃ pieces, OperandKind.RendersAll t 0 c.operation.operands (c.values.map Value.toInt) pieces ∧
    chunk = c.operation.code :: pieces.flatten

variable [Host] {t : Target}

theorem admitted_iff {c : Call} :
    c.Admitted t ↔ (c.operation.operands = [] ∧ c.arguments = none) ∨
      (c.operation.operands ≠ [] ∧ c.Filled t) := by
  constructor
  · rintro ⟨hlisted, hliterals⟩
    by_cases hempty : c.operation.operands = []
    · left
      refine ⟨hempty, ?_⟩
      by_contra hsome
      exact hlisted.1 (Option.isSome_iff_ne_none.2 hsome) hempty
    · right
      obtain ⟨a, ha⟩ := Option.isSome_iff_exists.1 (hlisted.2 hempty)
      rw [values, ha] at hliterals
      exact ⟨hempty, a, ha, hliterals⟩
  · rintro (⟨hempty, hnone⟩ | ⟨hne, a, ha, hliterals⟩)
    · refine ⟨by simp [hempty, hnone], ?_⟩
      rw [values, hnone, hempty]
      trivial
    · refine ⟨by simp [ha, hne], ?_⟩
      rw [values, ha]
      exact hliterals

theorem Admitted.renders_iff {c : Call} (h : c.Admitted t) (chunk : List UInt8) :
    c.Renders t chunk ↔ chunk = c.bytes t := by
  simp only [Renders, OperandKind.rendersAll_iff h.literals, exists_eq_left, bytes, pieces]

/-- **Calls that are encoded have one rendering.** -/
theorem forall₂_renders_iff {calls : List Call} (h : ∀ c ∈ calls, c.Admitted t)
    (chunks : List (List UInt8)) :
    List.Forall₂ (Renders t) calls chunks ↔ chunks = calls.map (bytes t) := by
  induction calls generalizing chunks with
  | nil => exact List.forall₂_nil_left_iff
  | cons c cs ih =>
    obtain ⟨hc, hcs⟩ := List.forall_mem_cons.1 h
    rw [List.forall₂_cons_left_iff]
    constructor
    · rintro ⟨chunk, rest, hchunk, hrest, rfl⟩
      rw [(hc.renders_iff chunk).1 hchunk, (ih hcs rest).1 hrest, List.map_cons]
    · rintro rfl
      exact ⟨_, _, (hc.renders_iff _).2 rfl, (ih hcs _).2 rfl, rfl⟩

end Call

/-! ### Sources -/

/-- **Acceptance and output of the assembler.** A source that spells calls is assembled exactly if
    each call has no operands and no list, or has operands and a list with a literal in range for
    each of them.  The bytecode is then the code of each operation with the pieces of its literals
    behind it.  Whether there is room for a block of `n` bytes is a matter of `n` alone. -/
theorem assemble_acceptance [Host] (t : Target) {source : String} {tokens : List (Spanned Token)}
    {calls : List Call} (htokens : tokenize source = .ok tokens)
    (hcalls : parse source.utf8ByteSize tokens = .ok calls) :
    ((∃ b, assemble t source = .ok b) ↔
      ∀ c ∈ calls, (c.operation.operands = [] ∧ c.arguments = none) ∨
        (c.operation.operands ≠ [] ∧ c.Filled t)) ∧
    (∀ b, assemble t source = .ok b ↔ (∃ b', assemble t source = .ok b') ∧
      ∃ chunks, List.Forall₂ (Call.Renders t) calls chunks ∧ b = chunks.flatten) ∧
    ∀ n, Host.Holds n ↔ n < 2 ^ 61 ∧ Host.allocatable n = true := by
  have hassemble (b : List UInt8) : assemble t source = .ok b ↔
      (∀ c ∈ calls, c.Admitted t) ∧ b = calls.flatMap (Call.bytes t) := by
    rw [← @Assembly.result_ofCalls_eq_ok_iff _ t source]
    simp only [assemble, assembly, Assembly.ofSource, htokens, hcalls]
  have haccept : (∃ b, assemble t source = .ok b) ↔ ∀ c ∈ calls, c.Admitted t := by
    simp [hassemble]
  rw [haccept]
  refine ⟨by simp only [Call.admitted_iff], ?_, Host.holds_iff⟩
  intro b
  rw [hassemble]
  apply and_congr_right
  intro hadmitted
  simp only [Call.forall₂_renders_iff hadmitted, exists_eq_left, List.flatMap_def]

/-- A negative number, and a block that fills its byte. -/
theorem assemble_acceptance_limits :
    ∃ tokens calls, tokenize "DW_OP_consts(-1) DW_OP_implicit_value(1, 255)" = .ok tokens ∧
      parse 45 tokens = .ok calls ∧
      (∀ c ∈ calls, (c.operation.operands = [] ∧ c.arguments = none) ∨
        (c.operation.operands ≠ [] ∧ c.Filled {})) ∧
      ∃ chunks, List.Forall₂ (Call.Renders {}) calls chunks ∧
        [0x11, 0x7f, 0x9e, 1, 0xff] = chunks.flatten := by
  have h : assemble {} "DW_OP_consts(-1) DW_OP_implicit_value(1, 255)" =
      .ok [0x11, 0x7f, 0x9e, 1, 0xff] := by
    decide +kernel
  obtain ⟨tokens, calls, htokens, hcalls, -⟩ := assemble_eq_ok_iff.1 h
  obtain ⟨haccept, houtput, -⟩ := assemble_acceptance {} htokens hcalls
  exact ⟨tokens, calls, htokens, hcalls, haccept.1 ⟨_, h⟩, ((houtput _).1 h).2⟩

/-- An empty list has as many literals as the operation takes, and is refused all the same. -/
theorem assemble_acceptance_empty_list :
    tokenize "DW_OP_nop()" =
      .ok [⟨.operation ⟨"DW_OP_nop", 0x96, []⟩, ⟨0, 9⟩⟩, ⟨.leftParen, ⟨9, 10⟩⟩,
        ⟨.rightParen, ⟨10, 11⟩⟩] ∧
    parse 11 [⟨.operation ⟨"DW_OP_nop", 0x96, []⟩, ⟨0, 9⟩⟩, ⟨.leftParen, ⟨9, 10⟩⟩,
        ⟨.rightParen, ⟨10, 11⟩⟩] =
      .ok [⟨⟨"DW_OP_nop", 0x96, []⟩, ⟨0, 9⟩, some ⟨⟨9, 10⟩, [], ⟨10, 11⟩⟩⟩] ∧
    Call.Filled {} ⟨⟨"DW_OP_nop", 0x96, []⟩, ⟨0, 9⟩, some ⟨⟨9, 10⟩, [], ⟨10, 11⟩⟩⟩ ∧
    ¬ ∃ b, assemble {} "DW_OP_nop()" = .ok b := by
  refine ⟨by decide +kernel, by decide +kernel, ⟨_, rfl, trivial⟩, ?_⟩
  have h : assemble {} "DW_OP_nop()" =
      .error ⟨.encoding .needlessList, ⟨9, 10⟩, ⟨1, 10⟩⟩ := by
    decide +kernel
  rintro ⟨b, hb⟩
  simp [h] at hb

end DwarfExpr
