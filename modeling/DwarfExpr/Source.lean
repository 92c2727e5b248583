/-
  DwarfExpr/Source.lean
  =====================
  **Places in source text.** A span is a range of byte offsets into the UTF-8 form of a source; a
  location is the line and column that a reader sees there.

  Lines end at LF, at CR, at CR LF (which is one ending) and at VT.  A location counts the
  characters that start before its offset, so an offset inside a character lies behind it
  (`location_of`).
-/

namespace DwarfExpr

/-- A range of byte offsets, the end not included. -/
structure Span where
  start : Nat
  stop : Nat
  deriving DecidableEq, Repr

def Span.text (s : Span) : String := s!"{s.start}..{s.stop}"

/-- Something together with where it stands. -/
structure Spanned (α : Type) where
  value : α
  span : Span
  deriving DecidableEq, Repr

/-- The number of bytes of a text in UTF-8. -/
def byteLength (text : List Char) : Nat := (text.map Char.utf8Size).foldr (· + ·) 0

/-! ### Lines and columns -/

/-- A line and a column, both counted from 1. -/
structure Location where
  line : Nat
  column : Nat
  deriving DecidableEq, Repr

namespace Location

def text (l : Location) : String := s!"line {l.line}, column {l.column}"

/-- The beginning of a text. -/
def first : Location := ⟨1, 1⟩

/-- The beginning of the next line. -/
def nextLine (l : Location) : Location := ⟨l.line + 1, 1⟩

/-- The next column of the same line. -/
def nextColumn (l : Location) : Location := ⟨l.line, l.column + 1⟩

def endsLine (c : Char) : Bool := c == '\n' || c == '\r' || c == '\x0b'

/-- The location behind a text that begins at `l`. -/
def after (l : Location) : List Char → Location
  | [] => l
  | '\r' :: '\n' :: text => after l.nextLine text
  | c :: text => after (if endsLine c then l.nextLine else l.nextColumn) text

/-- The characters of a text that start before a byte offset. -/
def before (offset : Nat) : List Char → List Char
  | [] => []
  | c :: text => if offset = 0 then [] else c :: before (offset - c.utf8Size) text

/-- The location of a byte offset in a source. -/
def ofOffset (source : String) (offset : Nat) : Location :=
  first.after (before offset source.toList)

end Location

end DwarfExpr
