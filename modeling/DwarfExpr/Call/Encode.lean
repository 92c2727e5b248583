/-
  DwarfExpr/Call/Encode.lean
  ==========================
  **From calls to bytecode.** A call becomes its operation's code byte and its operands in order.

    * `Literal.encode` encodes one literal as an operand of a given kind (`encode_operand`).  It
      refuses a negative literal for an unsigned kind (`require_unsigned`), and a literal that is
      wider than the operand (`require_fits`);
    * `Call.encode` encodes a whole call, which needs a list of literals exactly if its operation
      takes operands, and exactly as many (`encode_call`);
    * `OpenCall.check` does as much of this as it can for a call whose list is not closed
      (`encode_incomplete`);
    * `encodeCalls` encodes calls up to the first that cannot be encoded (`encode_operations`).
-/
import DwarfExpr.Encoding
import DwarfExpr.Grammar

namespace DwarfExpr

/-! ### Limits of the host -/

/-- The machine that the assembler runs on: the sizes of a block that it gives memory to. -/
class Host where
  allocatable : Nat → Bool

namespace Host

/-- The size of a block in bits has to be a machine word. -/
def addressable (bytes : Nat) : Bool := decide (bytes * 8 < UInt64.size)

/-- Memory is given to a block of up to 1 GiB. -/
instance ordinary : Host := ⟨fun bytes => decide (bytes ≤ 1 <<< 30)⟩

end Host

/-! ### Faults -/

/-- Why a call cannot be encoded. -/
inductive EncodeFault where
  /-- The operation takes operands and has no list. -/
  | missingList (operation : String)
  /-- The operation takes no operands and has a list. -/
  | needlessList
  | tooFew (operation : String) (expected found : Nat)
  | tooMany (operation : String) (expected found : Nat)
  /-- As many were found before the list broke off. -/
  | tooManySoFar (operation : String) (expected found : Nat)
  | negative (literal : String)
  | tooWide (needed width : Nat)
  | unaddressable (bytes : Nat)
  | unallocatable (bytes : Nat)
  /-- There is no operand before a block. -/
  | noSize
  /-- The operand before a block is not a 64-bit number. -/
  | sizeTooLarge
  | noWidth (kind : OperandKind)
  /-- There is no operation with this code. -/
  | noOperation (code : UInt8)
  deriving DecidableEq, Repr

def EncodeFault.message : EncodeFault → String
  | missingList op => s!"expected '(' after {op}"
  | needlessList => "no parentheses for zero-operand operations"
  | tooFew op expected found => s!"too few operands for {op}: expected {expected}, found {found}"
  | tooMany op expected found => s!"too many operands for {op}: expected {expected}, found {found}"
  | tooManySoFar op expected found =>
    s!"too many operands for {op}: expected {expected}, found at least {found}"
  | negative literal => s!"expected unsigned operand, found {literal}"
  | tooWide needed width => s!"operand value too large: needs {needed} bits, width is {width}"
  | unaddressable bytes =>
    s!"variable-length operand of {bytes} bytes is too large for this host"
  | unallocatable bytes => s!"cannot allocate {bytes} bytes for variable-length operand"
  | noSize => "variable-length operand has no preceding size operand"
  | sizeTooLarge => "size operand exceeds supported 64-bit range"
  | noWidth kind => s!"{kind.text} operands have no fixed width"
  | noOperation code => s!"operation code {ByteText.code code} has no operand schema"

/-! ### Operands -/

namespace Literal

/-- The literal is not negative unless the kind is signed. -/
def checkSign (kind : OperandKind) (l : Literal) : Except EncodeFault Unit :=
  if !kind.isSigned && l.value.negative then .error (.negative l.text) else .ok ()

/-- The literal is not wider than the operand. -/
def checkWidth (width : Nat) (l : Literal) : Except EncodeFault Unit :=
  if l.value.literalWidth ≤ width then .ok () else .error (.tooWide l.value.literalWidth width)

/-- The literal in a fixed number of bits.  One that is not negative may use the sign bit of a
    signed operand as well. -/
def encodeFixed (t : Target) (width : Nat) (l : Literal) : Except EncodeFault (List UInt8) := do
  l.checkWidth width
  return Fixed.encode t.order width l.value

/-- The literal as a block of `size` bytes (`encode_variable_length`). -/
def encodeBlock [Host] (t : Target) (size : Nat) (l : Literal) : Except EncodeFault (List UInt8) :=
  if !Host.addressable size then .error (.unaddressable size)
  else do
    l.checkWidth (size * 8)
    if !Host.allocatable size then .error (.unallocatable size)
    else return Fixed.encode t.order (size * 8) l.value

/-- The literal as an operand; `size` is the value of the operand before it.  LEB128 operands are
    no wider than 64 bits. -/
def encode [Host] (t : Target) (size : Nat) (kind : OperandKind) (l : Literal) :
    Except EncodeFault (List UInt8) := do
  l.checkSign kind
  match kind with
  | .uleb128 =>
    l.checkWidth 64
    return Leb128.encodeUnsigned l.value
  | .sleb128 =>
    l.checkWidth 64
    return Leb128.encodeSigned l.value
  | .signed w | .unsigned w => l.encodeFixed t w.bits
  | .address => l.encodeFixed t t.address.bits
  | .word => l.encodeFixed t t.word.width.bits
  | .block => l.encodeBlock t size

end Literal

/-- Encodes literals one after another as long as there are both kinds and literals. -/
def encodeOperands [Host] (t : Target) (size : Nat) :
    List OperandKind → List Literal → Except (Spanned EncodeFault) (List UInt8)
  | kind :: kinds, l :: ls =>
    match l.encode t size kind with
    | .error fault => .error ⟨fault, l.span⟩
    | .ok bytes => (encodeOperands t l.value.toInt.toNat kinds ls).map (bytes ++ ·)
  | _, _ => .ok []

/-! ### Calls -/

/-- The bytes of a call; `following` is the span of what comes after it. -/
def Call.encode [Host] (t : Target) (following : Span) (c : Call) :
    Except (Spanned EncodeFault) (List UInt8) :=
  let op := c.operation
  match c.arguments, op.operands with
  | none, [] => .ok [op.code]
  | some a, [] => .error ⟨.needlessList, a.opening⟩
  | none, _ :: _ => .error ⟨.missingList op.name, following⟩
  | some a, kind :: kinds =>
    let expected := kinds.length + 1
    let found := a.operands.length
    match encodeOperands t 0 (kind :: kinds) a.operands with
    | .error fault => .error fault
    | .ok bytes =>
      if found < expected then .error ⟨.tooFew op.name expected found, a.closing⟩
      else
        match a.operands.drop expected with
        | extra :: _ => .error ⟨.tooMany op.name expected found, extra.span⟩
        | [] => .ok (op.code :: bytes)

/-- Whether the literals of an open list can be encoded so far. -/
def OpenCall.check [Host] (t : Target) (c : OpenCall) : Except (Spanned EncodeFault) Unit :=
  let op := c.operation
  match encodeOperands t 0 op.operands c.operands with
  | .error fault => .error fault
  | .ok _ =>
    match c.operands.drop op.operands.length with
    | extra :: _ =>
      .error ⟨.tooManySoFar op.name op.operands.length c.operands.length, extra.span⟩
    | [] => .ok ()

/-- How far encoding came: the encoded calls with their bytes, and what stopped it, if anything
    did. -/
structure Progress where
  encoded : List (Call × List UInt8)
  fault : Option (Spanned EncodeFault)
  deriving DecidableEq, Repr

namespace Progress

def bytes (p : Progress) : List UInt8 := p.encoded.flatMap (·.2)

/-- The bytes after the first call, after the second, and so on, behind the bytes `before`. -/
def totals (before : List UInt8) : List (Call × List UInt8) → List (List UInt8)
  | [] => []
  | (_, bytes) :: rest => (before ++ bytes) :: totals (before ++ bytes) rest

end Progress

/-- Encodes calls up to the first that cannot be encoded; `stop` is the span of what comes after the
    last one. -/
def encodeCalls [Host] (t : Target) (stop : Span) : List Call → Progress
  | [] => ⟨[], none⟩
  | c :: cs =>
    let following := match cs with
      | [] => stop
      | next :: _ => next.span
    match c.encode t following with
    | .error fault => ⟨[], some fault⟩
    | .ok bytes =>
      let rest := encodeCalls t stop cs
      ⟨(c, bytes) :: rest.encoded, rest.fault⟩

end DwarfExpr
