/-
  DwarfExpr/Encoding.lean
  =======================
  **Operand values as bytes.** Two families of encodings carry operand values.

    * `Fixed`: the value modulo a power of two, in a given number of bytes and in the target's
      byte order (`encode_fixed`, `decode_fixed`).
    * `Leb128`: seven bits a byte, the lowest first; every byte but the last has its top bit set.
      The shortest encoding is written (`leb128_len`, `emit_groups`), and any length is read
      (`gather_groups`).  The signed form takes bit 6 of the last byte for the sign.

  A decoder takes the bytes that it needs from the front of its input and returns the bytes after
  them beside the value.
-/
import DwarfExpr.Target
import DwarfExpr.Value

namespace DwarfExpr

/-- Why the input holds no operand. -/
inductive DecodeFault where
  /-- A fixed number of bytes was needed and fewer are there. -/
  | truncated (needed available : Nat)
  /-- No byte of the input ends a LEB128 number. -/
  | unterminated (available : Nat)
  deriving DecidableEq, Repr

def DecodeFault.message : DecodeFault → String
  | truncated needed available =>
    s!"operand is truncated: needs {needed} bytes but only {available} remain"
  | unterminated available =>
    s!"LEB128 operand is not terminated within the remaining {available} bytes"

/-- What a decoder gives: a result and the bytes after it, or a fault. -/
abbrev Decoded (α : Type) := Except DecodeFault (α × List UInt8)

/-! ### Fixed width -/

namespace Fixed

/-- The value modulo `2 ^ width`, for a width of whole bytes. -/
def encode (order : ByteOrder) (width : Nat) (v : Value) : List UInt8 :=
  order.arrange (v.bits width).bytes

/-- Reads `length` bytes, in two's complement if `signed`. -/
def decode (order : ByteOrder) (signed : Bool) (length : Nat) (input : List UInt8) :
    Decoded Value :=
  if length ≤ input.length then
    .ok (Value.ofBytes signed (order.arrange (input.take length)), input.drop length)
  else .error (.truncated length input.length)

/-- What is left is no longer than the input. -/
theorem length_rest_le {order : ByteOrder} {signed : Bool} {length : Nat} {input rest : List UInt8}
    {v : Value} (h : decode order signed length input = .ok (v, rest)) :
    rest.length ≤ input.length := by
  unfold decode at h
  split at h
  · simp only [Except.ok.injEq, Prod.mk.injEq] at h
    simp [← h.2]
  · simp at h

end Fixed

/-! ### LEB128 -/

namespace Leb128

/-- The number of seven-bit groups that hold `bits` bits; there is always one. -/
def length (bits : Nat) : Nat := (max bits 1 + 6) / 7

/-- The lowest seven-bit groups of a value. -/
def groups (count : Nat) (v : Value) : List UInt8 :=
  (List.range count).map fun g => (v.bits (7 * count)).window (7 * g) 7

/-- Sets the top bit of all groups but the last. -/
def join : List UInt8 → List UInt8
  | [] => []
  | [g] => [g]
  | g :: h :: gs => (g ||| 0x80) :: join (h :: gs)

/-- The shortest unsigned encoding of a value that is not negative. -/
def encodeUnsigned (v : Value) : List UInt8 := join (groups (length v.bitLength) v)

/-- The shortest signed encoding. -/
def encodeSigned (v : Value) : List UInt8 := join (groups (length v.signedWidth) v)

/-- Takes groups from the input up to and including the first byte without its top bit. -/
def split : List UInt8 → Option (List UInt8 × List UInt8)
  | [] => none
  | b :: input =>
    if b < 0x80 then some ([b], input)
    else (split input).map fun (gs, rest) => ((b &&& 0x7f) :: gs, rest)

/-- What is left is shorter than the input. -/
theorem length_rest_lt {input groups rest : List UInt8} (h : split input = some (groups, rest)) :
    rest.length < input.length := by
  induction input generalizing groups with
  | nil => simp [split] at h
  | cons b input ih =>
    unfold split at h
    split at h
    · simp only [Option.some.injEq, Prod.mk.injEq] at h
      simp [← h.2]
    · simp only [Option.map_eq_some_iff, Prod.mk.injEq] at h
      obtain ⟨⟨gs, r⟩, hs, -, rfl⟩ := h
      exact Nat.lt_succ_of_lt (ih hs)

/-- The number that groups spell in base 128, the lowest first. -/
def spell (groups : List UInt8) : Magnitude :=
  groups.foldr (fun g m => Magnitude.mulAdd 128 g.toUInt32 m) []

/-- The value of groups in two's complement.  A negative number is the complement of its groups,
    plus one, with a minus sign. -/
def signedValue (groups : List UInt8) : Value :=
  match groups.getLast? with
  | none => .zero
  | some top =>
    if top < 0x40 then .ofMagnitude false (spell groups)
    else .ofMagnitude true (Magnitude.mulAdd 1 1 (spell (groups.map (0x7f - ·))))

/-- Reads an unsigned number. -/
def decodeUnsigned (input : List UInt8) : Decoded Value :=
  match split input with
  | some (groups, rest) => .ok (.ofMagnitude false (spell groups), rest)
  | none => .error (.unterminated input.length)

/-- Reads a signed number. -/
def decodeSigned (input : List UInt8) : Decoded Value :=
  match split input with
  | some (groups, rest) => .ok (signedValue groups, rest)
  | none => .error (.unterminated input.length)

theorem length_decodeUnsigned_lt {input rest : List UInt8} {v : Value}
    (h : decodeUnsigned input = .ok (v, rest)) : rest.length < input.length := by
  unfold decodeUnsigned at h
  split at h
  · next hs =>
    simp only [Except.ok.injEq, Prod.mk.injEq] at h
    exact h.2 ▸ length_rest_lt hs
  · simp at h

theorem length_decodeSigned_lt {input rest : List UInt8} {v : Value}
    (h : decodeSigned input = .ok (v, rest)) : rest.length < input.length := by
  unfold decodeSigned at h
  split at h
  · next hs =>
    simp only [Except.ok.injEq, Prod.mk.injEq] at h
    exact h.2 ▸ length_rest_lt hs
  · simp at h

end Leb128

end DwarfExpr
