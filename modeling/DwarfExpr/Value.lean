/-
  DwarfExpr/Value.lean
  ====================
  **Operand values.** A value is an integer of any size, held as a sign and a trimmed magnitude.
  The two proof fields make the holding unique: the magnitude has no zero byte at its high end, and
  zero has no sign, so that two values are equal exactly when they are the same integer.

    * `ofMagnitude` builds a value from any sign and any bytes, and all others go through it
      (`from_parts`);
    * `toInt` is the integer that a value stands for;
    * `bitLength`, `signedWidth` and `literalWidth` are the three measures of width: of the
      magnitude alone (`active_bits`), of the narrowest two's complement form (`signed_bits`), and
      of a literal as it is written (`literal_bits`);
    * `bits` cuts or extends a value to a given number of bits, in two's complement (`to_bits`).
-/
import DwarfExpr.Magnitude

namespace DwarfExpr

/-- An integer of any size, as a sign and a magnitude. -/
structure Value where
  negative : Bool
  magnitude : Magnitude
  trimmed : magnitude.Trimmed
  negative_ne : negative = true → magnitude ≠ []
  deriving DecidableEq, Repr

/-- The lowest bits of a value, as little-endian bytes. -/
structure BitPattern where
  bytes : List UInt8
  deriving DecidableEq, Repr

namespace Value

/-! ### Building values -/

/-- The value with the given sign and magnitude; zero bytes at the high end are dropped, and the
    sign of zero with them. -/
def ofMagnitude (negative : Bool) (m : Magnitude) : Value where
  negative := negative && !m.trim.isEmpty
  magnitude := m.trim
  trimmed := m.trimmed_trim
  negative_ne := by
    intro h hm
    simp [hm] at h

def zero : Value := ofMagnitude false []

def ofNat (n : Nat) : Value := ofMagnitude false (Magnitude.ofNat n)

def ofInt (i : Int) : Value := ofMagnitude (decide (i < 0)) (Magnitude.ofNat i.natAbs)

/-- Whether the top bit of the highest byte is set. -/
def topBit (bytes : List UInt8) : Bool :=
  match bytes.getLast? with
  | none => false
  | some top => decide (128 ≤ top)

/-- Reads little-endian bytes, in two's complement if `signed`. -/
def ofBytes (signed : Bool) (bytes : List UInt8) : Value :=
  if signed && topBit bytes then ofMagnitude true (Magnitude.negate bytes)
  else ofMagnitude false bytes

/-! ### Reading values -/

/-- The integer that a value stands for. -/
def toInt (v : Value) : Int :=
  if v.negative then -(v.magnitude.toNat : Int) else (v.magnitude.toNat : Int)

def isZero (v : Value) : Bool := v.magnitude.isEmpty

/-- The number as a 64-bit word, if it is one. -/
def toUInt64? (v : Value) : Option UInt64 :=
  if v.negative || decide (8 < v.magnitude.length) then none
  else some (UInt64.ofNat v.magnitude.toNat)

/-- The bit length of the magnitude. -/
def bitLength (v : Value) : Nat := v.magnitude.bitLength

/-- The narrowest two's complement width: one bit for the sign above the bits of the magnitude, or
    above those of its predecessor if the value is negative. -/
def signedWidth (v : Value) : Nat :=
  if v.negative then v.magnitude.pred.bitLength + 1 else v.bitLength + 1

/-- The width of a literal: the bits of its magnitude, and one more for a minus sign. -/
def literalWidth (v : Value) : Nat :=
  if v.negative then v.bitLength + 1 else v.bitLength

/-! ### Bit patterns -/

/-- Clears all but the lowest `keep` bits of the last byte. -/
def maskTop (keep : Nat) : List UInt8 → List UInt8
  | [] => []
  | [b] => [(b.toNat % 1 <<< keep).toUInt8]
  | b :: c :: m => b :: maskTop keep (c :: m)

/-- The value modulo `2 ^ width`, in the fewest bytes that hold `width` bits. -/
def bits (v : Value) (width : Nat) : BitPattern :=
  let length := (width + 7) / 8
  let low := v.magnitude.resize length
  let low := if v.negative then Magnitude.negate low else low
  ⟨maskTop (8 - (8 * length - width)) low⟩

end Value

namespace BitPattern

/-- The byte at an index, zero beyond the pattern. -/
def byteAt (p : BitPattern) (i : Nat) : Nat := (p.bytes.getD i 0).toNat

/-- The `count` bits at bit `offset`, for a count of at most eight: they lie in two neighbouring
    bytes.  Bits beyond the pattern are zero. -/
def window (p : BitPattern) (offset count : Nat) : UInt8 :=
  let pair := p.byteAt (offset / 8) + 256 * p.byteAt (offset / 8 + 1)
  (pair >>> (offset % 8) % 1 <<< count).toUInt8

/-- More bits were asked for than a byte holds. -/
structure TooManyBits where
  count : Nat
  deriving DecidableEq, Repr

def TooManyBits.message (e : TooManyBits) : String :=
  s!"cannot extract {e.count} bits into a byte"

/-- The `count` bits at bit `offset`, refused if they do not fit a byte. -/
def extract (p : BitPattern) (offset count : Nat) : Except TooManyBits UInt8 :=
  if count ≤ 8 then .ok (p.window offset count) else .error ⟨count⟩

end BitPattern

end DwarfExpr
