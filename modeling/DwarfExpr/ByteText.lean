/-
  DwarfExpr/ByteText.lean
  =======================
  **Bytes as text**: two lower-case hexadecimal digits a byte, in the three arrangements in which
  bytecode is shown.  One of them is the dump that the assembler prints (`hex_dump`).
-/

namespace DwarfExpr

namespace ByteText

/-- The two hexadecimal digits of a byte. -/
def digits (b : UInt8) : List Char :=
  [Nat.digitChar (b.toNat / 16), Nat.digitChar (b.toNat % 16)]

def byte (b : UInt8) : String := String.ofList (digits b)

/-- A byte as a code: `0x9f`. -/
def code (b : UInt8) : String := "0x" ++ byte b

/-- Bytes separated by blanks: `08 01 9f`. -/
def dump (bytes : List UInt8) : String := " ".intercalate (bytes.map byte)

/-- Bytes as a list: `[08, 01, 9f]`. -/
def list (bytes : List UInt8) : String := "[" ++ ", ".intercalate (bytes.map byte) ++ "]"

end ByteText

end DwarfExpr
