/-
  DwarfExpr/Grammar.lean
  ======================
  **From tokens to calls.** An expression is any number of calls, one after another:

      expression := call*
      call       := NAME [ '(' [ literal (',' literal)* ] ')' ]

  `Grammar.expression` reads all tokens or says what is in its way (`expression`).  If it fails,
  the tokens are read a second time for what there is before the error (`recover_prefix`): the
  complete calls, by a grammar that stops at the first token it cannot use (`expression_prefix`),
  and the literals of a list that was begun and not closed, by a third one (`partial_arguments`).
  That list is found again by the place of its parenthesis.

  How many literals an operation takes is not a matter of the grammar.
-/
import DwarfExpr.Call
import DwarfExpr.Parser

namespace DwarfExpr

/-- A call whose list of literals is not closed yet. -/
structure OpenCall where
  operation : Operation
  /-- The span of the name. -/
  span : Span
  opening : Span
  operands : List Literal
  deriving DecidableEq, Repr

/-- The call as far as its name goes. -/
def OpenCall.bare (c : OpenCall) : Call := ⟨c.operation, c.span, none⟩

/-! ### The grammar -/

namespace Grammar

def literal : Parser Literal :=
  .token [.literal] fun t =>
    match t.value with
    | .number radix value => some ⟨radix, value, t.span⟩
    | _ => none

/-- A token for its span. -/
def mark (expected : Expected) (token : Token) : Parser Span :=
  .token [expected] fun t => if t.value = token then some t.span else none

def leftParen : Parser Span := mark .leftParen .leftParen

def rightParen : Parser Span := mark .rightParen .rightParen

def comma : Parser Span := mark .comma .comma

def name : Parser (Operation × Span) :=
  .token [.operation] fun t =>
    match t.value with
    | .operation op => some (op, t.span)
    | _ => none

/-- `'(' [ literal (',' literal)* ] ')'` -/
def arguments : Parser Arguments :=
  ((leftParen.andThen (literal.separatedBy comma false)).andThen rightParen).map
    fun ((opening, operands), closing) => ⟨opening, operands, closing⟩

/-- `NAME [ arguments ]` -/
def call : Parser Call :=
  (name.andThen arguments.orNot).map fun ((op, span), arguments) => ⟨op, span, arguments⟩

/-- `call*`, to the end of the input. -/
def expression : Parser (List Call) := call.repeated.thenIgnore .atEnd

/-- As many calls as there are, and the token behind them; whatever follows is skipped. -/
def expressionPrefix : Parser (List Call × Option (Spanned Token)) :=
  (call.repeated.andThen Parser.any.orNot).thenIgnore Parser.any.repeated

/-- The literals of a list from its parenthesis on; whatever follows is skipped. -/
def partialArguments : Parser (List Literal) :=
  (leftParen.ignoreThen (literal.separatedBy comma true)).thenIgnore Parser.any.repeated

/-- The literals from the first token with this span on, if it is a parenthesis. -/
def literalsAt (opening : Span) (tokens : List (Spanned Token)) : List Literal :=
  (partialArguments.parse (tokens.dropWhile (·.span ≠ opening))).toOption.getD []

end Grammar

/-! ### Errors -/

/-- Something else was found than what may follow. -/
structure SyntaxFault where
  expected : List Expected
  found : Option Token
  deriving DecidableEq, Repr

/-- The text of a syntax error (`describe_syntax_error`). -/
def SyntaxFault.message (f : SyntaxFault) : String :=
  let found := match f.found with
    | some token => "'" ++ token.text ++ "'"
    | none => Expected.endOfInput.text
  match f.expected with
  | [] => "unexpected " ++ found
  | [only] => "expected " ++ only.text ++ ", found " ++ found
  | several =>
    "expected one of " ++ ", ".intercalate (several.map Expected.text) ++ ", found " ++ found

/-- What an obstacle is reported as; `ending` is the span of the end of the input. -/
def Obstacle.fault (ending : Span) (o : Obstacle) : Spanned SyntaxFault :=
  match o.rest with
  | [] => ⟨⟨Expected.sorted o.expected, none⟩, ending⟩
  | t :: _ => ⟨⟨Expected.sorted o.expected, some t.value⟩, t.span⟩

/-- An expression that breaks off. -/
structure SyntaxError where
  /-- The complete calls before the error. -/
  calls : List Call
  /-- Where these stop. -/
  stop : Span
  /-- A call behind these with an open list, if its operation takes operands. -/
  incomplete : Option OpenCall
  /-- The parenthesis of such a list, if the operation takes none. -/
  needless : Option Span
  /-- What the grammar has to say. -/
  fault : Spanned SyntaxFault
  deriving DecidableEq, Repr

/-! ### Parsing -/

/-- What there is of an expression before an error (`recover_prefix`).  If the token behind the
    complete calls is a parenthesis and the last call has no list, then that is the call whose list
    breaks off. -/
def recover (eos : Span) (tokens : List (Spanned Token)) (fault : Spanned SyntaxFault) :
    SyntaxError :=
  let (calls, unconsumed) := (Grammar.expressionPrefix.parse tokens).toOption.getD ([], none)
  match unconsumed, calls.getLast? with
  | some ⟨.leftParen, opening⟩, some ⟨op, span, none⟩ =>
    if op.operands.isEmpty then ⟨calls.dropLast, span, none, some opening, fault⟩
    else
      let operands := Grammar.literalsAt opening tokens
      ⟨calls.dropLast, span, some ⟨op, span, opening, operands⟩, none, fault⟩
  | some token, _ => ⟨calls, token.span, none, none, fault⟩
  | none, _ => ⟨calls, eos, none, none, fault⟩

/-- The end of the input as the place of an error: it starts at the end of a source of `length`
    bytes and stops where the last token stops, which is further left if blanks or comments
    follow. -/
def endOfInput (length : Nat) (tokens : List (Spanned Token)) : Span :=
  match tokens.getLast? with
  | some last => ⟨length, last.span.stop⟩
  | none => ⟨length, length⟩

/-- The calls that the tokens of a source of `length` bytes spell (`parse_expression`). -/
def parse (length : Nat) (tokens : List (Spanned Token)) : Except SyntaxError (List Call) :=
  match Grammar.expression.parse tokens with
  | .ok calls => .ok calls
  | .error obstacle =>
    .error (recover ⟨length, length⟩ tokens (obstacle.fault (endOfInput length tokens)))

end DwarfExpr
