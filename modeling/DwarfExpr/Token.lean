/-
  DwarfExpr/Token.lean
  ====================
  **The tokens of a source.** Blanks and comments are skipped; every other piece of the text is a
  token or a lexical error.  A name has to be that of an operation (`capture_operation`), a
  hexadecimal number has to have digits and no sign (`capture_literal`), and there may be no stray
  character.  The first piece that breaks a rule is the error of the whole source (`tokenize`).
-/
import DwarfExpr.Operation.Table
import DwarfExpr.Piece
import DwarfExpr.Source
import DwarfExpr.Text.Escape

namespace DwarfExpr

/-- A token. -/
inductive Token where
  | operation (op : Operation)
  | number (radix : Radix) (value : Value)
  | leftParen
  | rightParen
  | comma
  deriving DecidableEq, Repr

/-- A token as it is written. -/
def Token.text : Token → String
  | operation op => op.name
  | number radix value => value.text radix
  | leftParen => "("
  | rightParen => ")"
  | comma => ","

/-- Why a piece of text is no token. -/
inductive LexicalFault where
  | strayCharacter (c : Char)
  | unknownOperation (name : String)
  | malformedNumber (text : String) (reason : NumeralFault)
  deriving DecidableEq, Repr

def LexicalFault.message : LexicalFault → String
  | strayCharacter c => "unexpected character '" ++ String.ofList (Text.escape c) ++ "'"
  | unknownOperation name => s!"unknown operation '{name}'"
  | malformedNumber text reason => s!"malformed numeric literal '{text}': {reason.message}"

namespace Token

/-- The token that a piece of text is, if it is not skipped. -/
def ofPiece (p : Piece) : Except LexicalFault (Option Token) :=
  match p.shape with
  | .blank | .comment => .ok none
  | .leftParen => .ok (some leftParen)
  | .rightParen => .ok (some rightParen)
  | .comma => .ok (some comma)
  | .stray c => .error (.strayCharacter c)
  | .name =>
    let name := String.ofList p.text
    match Operation.ofName? name with
    | some op => .ok (some (operation op))
    | none => .error (.unknownOperation name)
  | .number radix =>
    match Value.read radix p.text with
    | .ok value => .ok (some (number radix value))
    | .error reason => .error (.malformedNumber (String.ofList p.text) reason)

/-- The tokens of pieces that stand one after another from a byte offset on. -/
def ofPieces (start : Nat) : List Piece → Except (Spanned LexicalFault) (List (Spanned Token))
  | [] => .ok []
  | p :: ps =>
    let span : Span := ⟨start, start + byteLength p.text⟩
    match ofPiece p with
    | .error fault => .error ⟨fault, span⟩
    | .ok none => ofPieces span.stop ps
    | .ok (some token) => (ofPieces span.stop ps).map (⟨token, span⟩ :: ·)

end Token

/-- The tokens of a source with their spans, or the first lexical error. -/
def tokenize (source : String) : Except (Spanned LexicalFault) (List (Spanned Token)) :=
  Token.ofPieces 0 (Piece.pieces source.toList)

end DwarfExpr
