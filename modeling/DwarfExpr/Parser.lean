/-
  DwarfExpr/Parser.lean
  =====================
  **Parsers with ordered choice.** A parser takes a value off the front of the tokens, or it fails.
  What is optional or repeated (`or_not`, `repeated`, `separated_by`) is attempted first, and an
  attempt that fails takes nothing: reading goes on where the attempt began.

  Such an attempt leaves a trace all the same.  A parser keeps the furthest obstacle that it has
  met, with everything that could have helped it past that token.  If nothing else is left to try,
  that obstacle is why the parser fails.
-/
import DwarfExpr.Token

namespace DwarfExpr

/-! ### Obstacles -/

/-- What may follow at some point of an expression. -/
inductive Expected where
  | leftParen
  | rightParen
  | comma
  | endOfInput
  | literal
  | operation
  deriving DecidableEq, Repr

namespace Expected

def text : Expected → String
  | leftParen => "'('"
  | rightParen => "')'"
  | comma => "','"
  | endOfInput => "end of input"
  | literal => "numeric literal"
  | operation => "operation"

/-- All that may follow, by the order of the texts. -/
def all : List Expected := [leftParen, rightParen, comma, endOfInput, literal, operation]

/-- Each once, by the order of the texts. -/
def sorted (expected : List Expected) : List Expected := all.filter expected.contains

end Expected

/-- Where an attempt failed: the tokens from there on, and what was expected in their place. -/
structure Obstacle where
  rest : List (Spanned Token)
  expected : List Expected
  deriving DecidableEq, Repr

/-- The obstacle further on; two at the same token make one. -/
def Obstacle.further (a b : Obstacle) : Obstacle :=
  if a.rest.length < b.rest.length then a
  else if b.rest.length < a.rest.length then b
  else ⟨a.rest, a.expected ++ b.expected⟩

/-! ### Attempts -/

/-- What comes of an attempt.  One that succeeds may have met an obstacle, too. -/
inductive Attempt (α : Type) where
  | success (value : α) (rest : List (Spanned Token)) (met : Option Obstacle)
  | failure (met : Obstacle)

namespace Attempt

variable {α β : Type}

def map (f : α → β) : Attempt α → Attempt β
  | success value rest met => success (f value) rest met
  | failure met => failure met

/-- The attempt when another one has met an obstacle before. -/
def after (before : Option Obstacle) : Attempt α → Attempt α
  | success value rest met => success value rest (before.merge Obstacle.further met)
  | failure met => failure (before.elim met (·.further met))

end Attempt

/-! ### Parsers -/

/-- A parser takes a value off the front of the tokens. -/
abbrev Parser (α : Type) := List (Spanned Token) → Attempt α

namespace Parser

variable {α β : Type}

/-- One token, if it is accepted. -/
def token (expected : List Expected) (accept : Spanned Token → Option α) : Parser α
  | [] => .failure ⟨[], expected⟩
  | t :: rest =>
    match accept t with
    | some value => .success value rest none
    | none => .failure ⟨t :: rest, expected⟩

/-- Any token.  It is never told that one was expected. -/
def any : Parser (Spanned Token) := token [] some

/-- Nothing, where the input ends. -/
def atEnd : Parser Unit
  | [] => .success () [] none
  | t :: rest => .failure ⟨t :: rest, [.endOfInput]⟩

def map (f : α → β) (p : Parser α) : Parser β := fun input => (p input).map f

/-- One after the other. -/
def andThen (p : Parser α) (q : Parser β) : Parser (α × β) := fun input =>
  match p input with
  | .success x rest met => ((q rest).map (x, ·)).after met
  | .failure met => .failure met

def thenIgnore (p : Parser α) (q : Parser β) : Parser α := (p.andThen q).map Prod.fst

def ignoreThen (p : Parser α) (q : Parser β) : Parser β := (p.andThen q).map Prod.snd

/-- The value, or none. -/
def orNot (p : Parser α) : Parser (Option α) := fun input =>
  match p input with
  | .success x rest met => .success (some x) rest met
  | .failure met => .success none input (some met)

/-- As many as there are.  One that takes no token is the last. -/
def repeated (p : Parser α) : Parser (List α) := fun input =>
  match p input with
  | .success x rest met =>
    if rest.length < input.length then ((repeated p rest).map (x :: ·)).after met
    else .success [x] rest met
  | .failure met => .success [] input (some met)
termination_by input => input.length

/-- As many as there are, with separators between them.  A separator behind the last one is taken
    only if `trailing` is set. -/
def separatedBy (item : Parser α) (separator : Parser β) (trailing : Bool) : Parser (List α) :=
  let items := item.andThen (separator.ignoreThen item).repeated
  let list := if trailing then items.thenIgnore separator.orNot else items
  list.orNot.map fun found =>
    match found with
    | some (x, xs) => x :: xs
    | none => []

/-- The value of all tokens. -/
def parse (p : Parser α) (tokens : List (Spanned Token)) : Except Obstacle α :=
  match p.thenIgnore atEnd tokens with
  | .success value _ _ => .ok value
  | .failure met => .error met

end Parser

end DwarfExpr
