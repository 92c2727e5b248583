/-
  DwarfExpr/Operation.lean
  ========================
  **Operations and their operands.** An operation of an expression is a code byte followed by its
  operands, one for each kind in the operation's list.  The kinds say how an operand's bytes are
  laid out and which values it admits:

    * LEB128 operands take as many bytes as their value needs;
    * fixed, address and word operands have a width, the last two the width that the target gives
      (`width_of`);
    * a block takes as many bytes as the operand just before it says.
-/
import DwarfExpr.ByteText
import DwarfExpr.Target

namespace DwarfExpr

/-- How an operand is laid out. -/
inductive OperandKind where
  | uleb128
  | sleb128
  | signed (width : Width)
  | unsigned (width : Width)
  | address
  | word
  | block
  deriving DecidableEq, Repr

namespace OperandKind

def isSigned : OperandKind → Bool
  | sleb128 | signed _ => true
  | uleb128 | unsigned _ | address | word | block => false

/-- The width of an operand for a target; LEB128 operands and blocks have none. -/
def width? (t : Target) : OperandKind → Option Width
  | signed w | unsigned w => some w
  | address => some t.address
  | word => some t.word.width
  | uleb128 | sleb128 | block => none

def text : OperandKind → String
  | uleb128 => "ULEB128"
  | sleb128 => "SLEB128"
  | signed w => s!"signed {w.bits}-bit"
  | unsigned w => s!"unsigned {w.bits}-bit"
  | address => "target address"
  | word => "word"
  | block => "variable-length block"

end OperandKind

/-- An operation: its name in source text, its code in bytecode, and the kinds of its operands. -/
structure Operation where
  name : String
  code : UInt8
  operands : List OperandKind
  deriving DecidableEq, Repr

/-- An operation by name and code: `DW_OP_nop(0x96)`. -/
def Operation.describe (o : Operation) : String := s!"{o.name}({ByteText.code o.code})"

end DwarfExpr
