/-
  DwarfExpr/Call.lean
  ===================
  **Operation calls** (`OperationCall`), the lines of an expression as they are written: the name of
  an operation and, if there is one, a list of literals in parentheses (`Arguments`).  Every part
  keeps the span where it stands in the source, so that an error can point at it.

  A call can be written back as text (`Call.text`) and as the tokens that it is read from
  (`Call.tokens`).
-/
import DwarfExpr.Token

namespace DwarfExpr

/-- A number as it is written. -/
structure Literal where
  radix : Radix
  value : Value
  span : Span
  deriving DecidableEq, Repr

/-- A list of literals in parentheses. -/
structure Arguments where
  opening : Span
  operands : List Literal
  closing : Span
  deriving DecidableEq, Repr

/-- An operation with or without a list of literals. -/
structure Call where
  operation : Operation
  /-- The span of the name. -/
  span : Span
  arguments : Option Arguments
  deriving DecidableEq, Repr

/-! ### Text -/

/-- A literal in its own radix. -/
def Literal.text (l : Literal) : String := l.value.text l.radix

/-- A list of literals: `(1, 0x2)`. -/
def Arguments.text (a : Arguments) : String :=
  "(" ++ ", ".intercalate (a.operands.map Literal.text) ++ ")"

/-- A call: `NAME` or `NAME(1, 0x2)`. -/
def Call.text (c : Call) : String :=
  match c.arguments with
  | none => c.operation.name
  | some a => c.operation.name ++ a.text

/-! ### Tokens -/

def Literal.token (l : Literal) : Token := .number l.radix l.value

/-- Literals with commas between them. -/
def Literal.tokens : List Literal → List Token
  | [] => []
  | [l] => [l.token]
  | l :: m :: ls => l.token :: .comma :: Literal.tokens (m :: ls)

def Arguments.tokens (a : Arguments) : List Token :=
  .leftParen :: Literal.tokens a.operands ++ [.rightParen]

/-- The tokens that a call is read from. -/
def Call.tokens (c : Call) : List Token :=
  .operation c.operation ::
    match c.arguments with
    | none => []
    | some a => a.tokens

end DwarfExpr
