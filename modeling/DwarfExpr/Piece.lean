/-
  DwarfExpr/Piece.lean
  ====================
  **Cutting source text into pieces.** A piece is a run of blanks, a comment, or the lexeme of a
  token, each as long as it can be; a character that starts none of these is a piece of its own.
  Every text is cut in exactly one way, and the pieces joined give the text back.  These are the
  rules that `Token` is declared with.

  Pieces need nothing between them: `12abc` is a number and a name.  A minus sign belongs to a
  number only if a digit follows it at once, and hexadecimal digits may be missing after `0x`.
-/
import DwarfExpr.Numeral

namespace DwarfExpr

/-- What a piece of source text looks like. -/
inductive Shape where
  | blank
  | comment
  | name
  | number (radix : Radix)
  | leftParen
  | rightParen
  | comma
  /-- A character that starts nothing. -/
  | stray (c : Char)
  deriving DecidableEq, Repr

/-- A piece of source text. -/
structure Piece where
  shape : Shape
  text : List Char
  deriving DecidableEq, Repr

namespace Piece

/-! ### Character classes -/

/-- Blank, tab, CR, LF, VT or FF. -/
def isBlank (c : Char) : Bool :=
  c == ' ' || c == '\t' || c == '\r' || c == '\n' || c == '\x0b' || c == '\x0c'

/-- A comment goes on up to the end of its line; FF does not end a line. -/
def inComment (c : Char) : Bool := !(c == '\r' || c == '\n' || c == '\x0b')

/-- An ASCII letter or an underscore. -/
def isNameStart (c : Char) : Bool := c.isAlpha || c == '_'

def isNamePart (c : Char) : Bool := c.isAlphanum || c == '_'

def isDigit (r : Radix) (c : Char) : Bool := (r.digit? c).isSome

/-! ### The first piece of a text -/

/-- The piece that begins with `lead` and goes on as long as the characters are of a class, and the
    text after it. -/
def run (shape : Shape) (lead : List Char) (goesOn : Char → Bool) (text : List Char) :
    Piece × List Char :=
  (⟨shape, lead ++ text.takeWhile goesOn⟩, text.dropWhile goesOn)

/-- A number, after its sign. -/
def number (sign : List Char) : List Char → Piece × List Char
  | '0' :: 'x' :: text =>
    run (.number .hexadecimal) (sign ++ ['0', 'x']) (isDigit .hexadecimal) text
  | '0' :: 'X' :: text =>
    run (.number .hexadecimal) (sign ++ ['0', 'X']) (isDigit .hexadecimal) text
  | text => run (.number .decimal) sign (isDigit .decimal) text

/-- A piece of one character. -/
def single (shape : Shape) (c : Char) (text : List Char) : Piece × List Char :=
  (⟨shape, [c]⟩, text)

/-- Whether a text begins with a decimal digit. -/
def startsNumber : List Char → Bool
  | [] => false
  | c :: _ => isDigit .decimal c

/-- The first piece of a text that begins with `c`, and the text after it. -/
def first (c : Char) (text : List Char) : Piece × List Char :=
  if isBlank c then run .blank [c] isBlank text
  else if c = '#' then run .comment [c] inComment text
  else if isNameStart c then run .name [c] isNamePart text
  else if isDigit .decimal c then number [] (c :: text)
  else if c = '-' ∧ startsNumber text then number [c] text
  else if c = '(' then single .leftParen c text
  else if c = ')' then single .rightParen c text
  else if c = ',' then single .comma c text
  else single (.stray c) c text

theorem run_append (shape : Shape) (lead : List Char) (goesOn : Char → Bool) (text : List Char) :
    (run shape lead goesOn text).1.text ++ (run shape lead goesOn text).2 = lead ++ text := by
  simp [run]

theorem number_append (sign text : List Char) :
    (number sign text).1.text ++ (number sign text).2 = sign ++ text := by
  unfold number
  split <;> simp [run_append]

/-- The first piece and the text after it give the text back. -/
theorem first_append (c : Char) (text : List Char) :
    (first c text).1.text ++ (first c text).2 = c :: text := by
  unfold first
  repeat' split
  all_goals simp [run_append, number_append, single]

theorem run_text_ne_nil {shape : Shape} {lead : List Char} (h : lead ≠ []) (goesOn : Char → Bool)
    (text : List Char) : (run shape lead goesOn text).1.text ≠ [] := by
  simp [run, h]

theorem number_text_ne_nil (sign : List Char) {text : List Char} (h : startsNumber text = true) :
    (number sign text).1.text ≠ [] := by
  unfold number
  split
  · simp [run]
  · simp [run]
  · cases text with
    | nil => simp [startsNumber] at h
    | cons c text =>
      simp only [startsNumber] at h
      simp [run, h]

/-- A piece is never empty. -/
theorem first_text_ne_nil (c : Char) (text : List Char) : (first c text).1.text ≠ [] := by
  unfold first
  split
  · exact run_text_ne_nil (by simp) _ _
  split
  · exact run_text_ne_nil (by simp) _ _
  split
  · exact run_text_ne_nil (by simp) _ _
  split
  · next h => exact number_text_ne_nil _ h
  split
  · next h => exact number_text_ne_nil _ h.2
  repeat' split
  all_goals simp [single]

/-- The text after the first piece is shorter. -/
theorem length_first_lt (c : Char) (text : List Char) :
    (first c text).2.length < (c :: text).length := by
  have h := congrArg List.length (first_append c text)
  have := List.length_pos_iff.2 (first_text_ne_nil c text)
  rw [List.length_append] at h
  omega

/-! ### All pieces of a text -/

/-- The pieces of a text, in order. -/
def pieces : List Char → List Piece
  | [] => []
  | c :: text => (first c text).1 :: pieces (first c text).2
termination_by text => text.length
decreasing_by exact length_first_lt c text

/-- The pieces joined give the text back. -/
theorem flatMap_pieces (text : List Char) : (pieces text).flatMap Piece.text = text := by
  fun_induction pieces text with
  | case1 => rfl
  | case2 c text ih => rw [List.flatMap_cons, ih, first_append]

end Piece

end DwarfExpr
