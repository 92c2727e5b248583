/-
  DwarfExpr/Target.lean
  =====================
  **The machine that an expression is for.** Three things about it change the bytes of an
  expression: how wide an address is, how wide a word is (an offset into other sections), and the
  order of bytes.  An address has 8, 16, 32 or 64 bits, and a word has 32 or 64
  (`target_from_options`).
-/

namespace DwarfExpr

/-- The widths of fixed-width operands. -/
inductive Width where
  | bits8
  | bits16
  | bits32
  | bits64
  deriving DecidableEq, Repr

namespace Width

def bits : Width → Nat
  | bits8 => 8
  | bits16 => 16
  | bits32 => 32
  | bits64 => 64

def bytes (w : Width) : Nat := w.bits / 8

def ofBits? (n : Nat) : Option Width :=
  match n with
  | 8 => some bits8
  | 16 => some bits16
  | 32 => some bits32
  | 64 => some bits64
  | _ => none

end Width

/-- The widths of a word. -/
inductive WordWidth where
  | bits32
  | bits64
  deriving DecidableEq, Repr

namespace WordWidth

def width : WordWidth → Width
  | bits32 => .bits32
  | bits64 => .bits64

def ofWidth? : Width → Option WordWidth
  | .bits32 => some bits32
  | .bits64 => some bits64
  | .bits8 | .bits16 => none

end WordWidth

/-- The order in which the bytes of a fixed-width operand stand. -/
inductive ByteOrder where
  | little
  | big
  deriving DecidableEq, Repr

def ByteOrder.text : ByteOrder → String
  | little => "little-endian"
  | big => "big-endian"

/-- Puts little-endian bytes into the given order, and back. -/
def ByteOrder.arrange : ByteOrder → List UInt8 → List UInt8
  | little, bytes => bytes
  | big, bytes => bytes.reverse

/-- The machine that an expression is for. -/
structure Target where
  address : Width := .bits64
  word : WordWidth := .bits32
  order : ByteOrder := .little
  deriving DecidableEq, Repr

/-- Why there is no such target. -/
inductive TargetFault where
  | unsupportedWidth (bits : Nat)
  | unsupportedWordWidth (bits : Nat)
  deriving DecidableEq, Repr

def TargetFault.message : TargetFault → String
  | unsupportedWidth n => s!"{n} is not a supported width (use 8, 16, 32 or 64)"
  | unsupportedWordWidth n => s!"{n} is not a supported word width (use 32 or 64)"

namespace Target

/-- The target with the given numbers of bits.  Both have to be widths at all before the second is
    tried as the width of a word. -/
def ofBits (address word : Nat) (order : ByteOrder) : Except TargetFault Target :=
  match Width.ofBits? address, Width.ofBits? word with
  | none, _ => .error (.unsupportedWidth address)
  | some _, none => .error (.unsupportedWidth word)
  | some a, some w =>
    match WordWidth.ofWidth? w with
    | none => .error (.unsupportedWordWidth word)
    | some w => .ok { address := a, word := w, order := order }

def text (t : Target) : String :=
  s!"{t.address.bits}-bit address, {t.word.width.bits}-bit word, {t.order.text}"

end Target

end DwarfExpr
