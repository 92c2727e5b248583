/-
  DwarfExpr/Numeral.lean
  ======================
  **Numbers as text.** Values are read from and written as decimal and hexadecimal digits.

    * `Value.read` takes a text in one of the two radixes (`parse`).  A minus sign may stand before
      decimal digits, and `0x` or `0X` before hexadecimal ones; there has to be at least one digit;
    * `Value.text` writes a value back: the sign, `0x` before hexadecimal digits, and the digits
      without leading zeros (`decimal_digits`, `hex_digits`);
    * `Value.format` writes a value into a field of a given width, as `NumberFormat` describes.
-/
import DwarfExpr.ByteText
import DwarfExpr.Value

namespace DwarfExpr

/-- The two radixes in which numbers are written. -/
inductive Radix where
  | decimal
  | hexadecimal
  deriving DecidableEq, Repr

namespace Radix

def base : Radix → Nat
  | decimal => 10
  | hexadecimal => 16

/-- What stands before the digits of a number. -/
def mark : Radix → String
  | decimal => ""
  | hexadecimal => "0x"

/-- The value of a digit.  Only ASCII digits count, and hexadecimal letters in either case. -/
def digit? (r : Radix) (c : Char) : Option Nat :=
  let d :=
    if '0' ≤ c ∧ c ≤ '9' then c.toNat - '0'.toNat
    else if 'a' ≤ c ∧ c ≤ 'f' then c.toNat - 'a'.toNat + 10
    else if 'A' ≤ c ∧ c ≤ 'F' then c.toNat - 'A'.toNat + 10
    else 16
  if d < r.base then some d else none

end Radix

/-! ### Reading -/

/-- Why a text is not a number. -/
inductive NumeralFault where
  | empty
  | notADigit (c : Char)
  | negativeHex
  deriving DecidableEq, Repr

def NumeralFault.message : NumeralFault → String
  | empty => "numeric literal has no digits"
  | notADigit c => s!"'{c}' is not a valid digit"
  | negativeHex => "hexadecimal literals cannot be negative"

namespace Value

/-- Reads digits from the most significant on, each one multiplying what stands before it. -/
def readDigits (r : Radix) (digits : List Char) : Except NumeralFault Magnitude :=
  digits.foldlM (fun m c =>
    match r.digit? c with
    | some d => .ok (Magnitude.mulAdd r.base.toUInt32 d.toUInt32 m)
    | none => .error (.notADigit c)) []

/-- Takes one minus sign off the front. -/
def splitSign : List Char → Bool × List Char
  | '-' :: digits => (true, digits)
  | digits => (false, digits)

/-- Takes one `0x` or `0X` off hexadecimal digits. -/
def dropMark : Radix → List Char → List Char
  | .hexadecimal, '0' :: 'x' :: digits => digits
  | .hexadecimal, '0' :: 'X' :: digits => digits
  | _, digits => digits

/-- Reads a number.  A hexadecimal number with a minus sign is refused before its digits are
    looked at. -/
def read (r : Radix) (text : List Char) : Except NumeralFault Value :=
  let (negative, unsigned) := splitSign text
  if negative && r == .hexadecimal then .error .negativeHex
  else
    match dropMark r unsigned with
    | [] => .error .empty
    | c :: cs => (readDigits r (c :: cs)).map (ofMagnitude negative)

/-! ### Writing -/

/-- The decimal digits from the least significant on, at most `count` of them. -/
def decimalDigits : Nat → Magnitude → List Char
  | 0, _ => []
  | _ + 1, [] => []
  | count + 1, b :: m =>
    let (quotient, digit) := Magnitude.divMod 10 (b :: m)
    Nat.digitChar digit.toNat :: decimalDigits count quotient

/-- The digits of the magnitude without leading zeros; zero has one digit.  A byte is less than
    1000, so three decimal digits a byte are enough. -/
def digits (r : Radix) (v : Value) : List Char :=
  match v.magnitude with
  | [] => ['0']
  | b :: m =>
    match r with
    | .decimal => (decimalDigits (3 * (b :: m).length) (b :: m)).reverse
    | .hexadecimal => ((b :: m).reverse.flatMap ByteText.digits).dropWhile (· == '0')

/-- A value as it is written in a radix: sign, mark, digits. -/
def text (r : Radix) (v : Value) : String :=
  (if v.negative then "-" else "") ++ r.mark ++ String.ofList (v.digits r)

/-- A value in decimal. -/
def decimal (v : Value) : String := v.text .decimal

/-- A value in hexadecimal. -/
def hexadecimal (v : Value) : String := v.text .hexadecimal

/-- How a value introduces itself where the kind of number matters. -/
def describe (v : Value) : String := s!"WideInt({v.decimal})"

end Value

/-! ### Fields of a given width -/

/-- Where a text stands in a wider field. -/
inductive Alignment where
  | left
  | right
  | centre
  deriving DecidableEq, Repr

/-- How a number fills a field. -/
structure NumberFormat where
  radix : Radix := .decimal
  /-- Write `+` before a number that is not negative. -/
  plus : Bool := false
  /-- Write the radix mark before the digits. -/
  mark : Bool := false
  /-- Fill with zeros before the digits, whatever the alignment. -/
  zeros : Bool := false
  align : Alignment := .right
  fill : Char := ' '
  width : Nat := 0
  deriving DecidableEq, Repr

namespace NumberFormat

/-- How many of the `missing` places are filled on the left. -/
def leftPlaces (f : NumberFormat) (missing : Nat) : Nat :=
  match f.align with
  | .left => 0
  | .right => missing
  | .centre => missing / 2

end NumberFormat

namespace Value

/-- Writes a value into a field.  A number wider than its field is written whole. -/
def format (f : NumberFormat) (v : Value) : String :=
  let sign := if v.negative then ['-'] else if f.plus then ['+'] else []
  let lead := sign ++ (if f.mark then f.radix.mark.toList else [])
  let digits := v.digits f.radix
  let missing := f.width - (lead.length + digits.length)
  let left := f.leftPlaces missing
  String.ofList <|
    if f.zeros then lead ++ List.replicate missing '0' ++ digits
    else List.replicate left f.fill ++ lead ++ digits ++ List.replicate (missing - left) f.fill

end Value

end DwarfExpr
