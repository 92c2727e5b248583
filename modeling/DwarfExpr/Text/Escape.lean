/-
  DwarfExpr/Text/Escape.lean
  ==========================
  **Characters in messages.** A message that quotes a character shows it so that the reader can
  tell what it is: a few characters have a short escape, and a character that would not be seen on
  its own is written as its code point.  All others stand for themselves.  So a stray character
  is quoted (`describe_lex_error`).
-/
import DwarfExpr.Text.DefaultIgnorable
import DwarfExpr.Text.GraphemeExtend
import DwarfExpr.Text.Unprintable

namespace DwarfExpr

namespace Text

def backslash : Char := '\x5c'

/-- A character as its code point in hexadecimal, in braces after a backslash and a `u`. -/
def codePoint (c : Char) : List Char :=
  [backslash, 'u', '\x7b'] ++ Nat.toDigits 16 c.toNat ++ ['\x7d']

/-- The halfwidth sound marks of Katakana.  They extend the character before them and yet are
letters, with a visible form of their own. -/
def isHalfwidthSoundMark (c : Char) : Bool := 0xff9e ≤ c.toNat && c.toNat ≤ 0xff9f

/-- Whether a character would not be seen on its own. -/
def isHidden (c : Char) : Bool :=
  isUnprintable c || isDefaultIgnorable c || (isGraphemeExtend c && !isHalfwidthSoundMark c)

/-- A character as a message shows it. -/
def escape (c : Char) : List Char :=
  if c = '\x00' then [backslash, '0']
  else if c = '\t' then [backslash, 't']
  else if c = '\r' then [backslash, 'r']
  else if c = '\n' then [backslash, 'n']
  else if c = backslash ∨ c = '\x22' ∨ c = '\x27' then [backslash, c]
  else if isHidden c then codePoint c
  else [c]

end Text

end DwarfExpr
