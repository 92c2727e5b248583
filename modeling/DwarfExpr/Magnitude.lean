/-
  DwarfExpr/Magnitude.lean
  ========================
  **Natural numbers as bytes.** A magnitude is a natural number written in base 256, the least
  significant byte first.  Operand values are kept in this form because both ends of the work are
  bytes: a literal is read digit by digit into a magnitude, and an encoding is cut out of one.

    * `toNat` is what a magnitude means; every operation below is described by what it does to it;
    * `Trimmed` says that no zero byte stands at the high end, so that a number has one spelling
      (`trim`);
    * `mulAdd` and `divMod` are the long multiplication and division behind reading and writing
      digits (`mul_add_small`, `div_rem_small`).  They work byte by byte in 32-bit words, which hold
      every intermediate result;
    * `negate` is the two's complement of a byte string of fixed length (`negate_in_place`).
-/

namespace DwarfExpr

/-- A natural number in base 256, the least significant byte first. -/
abbrev Magnitude := List UInt8

namespace Magnitude

/-- The number that the bytes spell. -/
def toNat : Magnitude → Nat
  | [] => 0
  | b :: m => b.toNat + 256 * toNat m

/-! ### Trimmed magnitudes -/

/-- No zero byte stands at the high end. -/
def Trimmed (m : Magnitude) : Prop := m.getLast? ≠ some 0

instance (m : Magnitude) : Decidable m.Trimmed := inferInstanceAs (Decidable (_ ≠ _))

/-- Puts a lower byte below `m`, where a zero byte below nothing is nothing. -/
def push (b : UInt8) (m : Magnitude) : Magnitude :=
  if b = 0 ∧ m = [] then [] else b :: m

/-- Drops the zero bytes at the high end. -/
def trim (m : Magnitude) : Magnitude := m.foldr push []

@[simp] theorem trimmed_nil : Trimmed [] := by simp [Trimmed]

theorem trimmed_push {m : Magnitude} (b : UInt8) (h : m.Trimmed) : (push b m).Trimmed := by
  unfold push
  split
  · exact trimmed_nil
  · rename_i hb
    cases m with
    | nil => simpa [Trimmed] using fun h0 : b = 0 => hb ⟨h0, rfl⟩
    | cons c m => simpa [Trimmed, List.getLast?_cons_cons] using h

theorem trimmed_trim (m : Magnitude) : (trim m).Trimmed := by
  induction m with
  | nil => exact trimmed_nil
  | cons b m ih => exact trimmed_push b ih

@[simp] theorem toNat_push (b : UInt8) (m : Magnitude) :
    toNat (push b m) = b.toNat + 256 * toNat m := by
  unfold push
  split
  · rename_i h; simp [h.1, h.2, toNat]
  · rfl

/-- Trimming keeps the number. -/
@[simp] theorem toNat_trim (m : Magnitude) : toNat (trim m) = toNat m := by
  induction m with
  | nil => rfl
  | cons b m ih => rw [trim, List.foldr_cons, toNat_push, ← trim, ih, toNat]

/-! ### Arithmetic -/

/-- The trimmed bytes of a natural number. -/
def ofNat (n : Nat) : Magnitude :=
  if n = 0 then [] else n.toUInt8 :: ofNat (n / 256)

/-- `m * factor + carry`, from the low byte up.  A word holds the product of a byte and the factor
    together with the carry as long as the factor is below `2 ^ 23`. -/
def mulAdd (factor carry : UInt32) : Magnitude → Magnitude
  | [] => ofNat carry.toNat
  | b :: m =>
    let word := b.toUInt32 * factor + carry
    word.toUInt8 :: mulAdd factor (word >>> 8) m

/-- The quotient, trimmed, and the remainder of a division by a small number, from the high byte
    down. -/
def divMod (divisor : UInt32) : Magnitude → Magnitude × UInt32
  | [] => ([], 0)
  | b :: m =>
    let (quotient, rest) := divMod divisor m
    let word := rest * 256 + b.toUInt32
    (push (word / divisor).toUInt8 quotient, word % divisor)

/-- One less than the number, in as many bytes; zero wraps around to the greatest. -/
def pred : Magnitude → Magnitude
  | [] => []
  | b :: m => if b = 0 then 255 :: pred m else (b - 1) :: m

/-- The two's complement in as many bytes: zero bytes at the low end stay, the byte above them is
    subtracted from 256, and the bytes above that one are complemented. -/
def negate : Magnitude → Magnitude
  | [] => []
  | b :: m => if b = 0 then 0 :: negate m else (0 - b) :: m.map (255 - ·)

/-- The lowest `length` bytes, filled up with zero bytes at the high end. -/
def resize (length : Nat) (m : Magnitude) : Magnitude :=
  m.take length ++ List.replicate (length - m.length) 0

/-! ### Bit length -/

/-- The number of bits up to the highest set bit of a byte. -/
def byteBits (b : UInt8) : Nat := if b = 0 then 0 else b.toNat.log2 + 1

/-- The number of bits up to the highest set bit of the last byte; the bytes below it count eight
    bits each. -/
def bitLength : Magnitude → Nat
  | [] => 0
  | [b] => byteBits b
  | _ :: c :: m => 8 + bitLength (c :: m)

end Magnitude

end DwarfExpr
