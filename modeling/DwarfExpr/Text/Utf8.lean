/-
  DwarfExpr/Text/Utf8.lean
  ========================
  **Bytes as text.** Bytes are cut into segments: the encoding of a character, or a bad sequence.
  A bad sequence is as long as it could still have become a character, so it ends before the first
  byte that rules this out, and one at the end of the input that could still go on is told apart.

    * `decode` takes bytes without bad sequences, and reports the first one otherwise: so a source
      is read (`assemble_file`);
    * `decodeLossy` puts U+FFFD in the place of each: so the name of a file is shown
      (`write_os_string`).
-/

namespace DwarfExpr

namespace Utf8

/-- A piece of a byte string. -/
inductive Segment where
  | char (c : Char)
  /-- Bytes that are not the beginning of any character together with the byte after them. -/
  | invalid (length : Nat)
  /-- The beginning of a character that the input ends in. -/
  | incomplete
  deriving DecidableEq, Repr

/-- What the first byte of a character of several bytes says: how many bytes follow, the range of
    the first of them, and the bits that it contributes. -/
structure Lead where
  following : Nat
  low : UInt8
  high : UInt8
  bits : Nat

/-- Overlong forms, surrogates and code points above U+10FFFF are ruled out by the range of the
    second byte. -/
def lead? (b : UInt8) : Option Lead :=
  if 0xc2 ≤ b ∧ b ≤ 0xdf then some ⟨1, 0x80, 0xbf, b.toNat - 0xc0⟩
  else if b = 0xe0 then some ⟨2, 0xa0, 0xbf, 0⟩
  else if b = 0xed then some ⟨2, 0x80, 0x9f, 0xd⟩
  else if 0xe1 ≤ b ∧ b ≤ 0xef then some ⟨2, 0x80, 0xbf, b.toNat - 0xe0⟩
  else if b = 0xf0 then some ⟨3, 0x90, 0xbf, 0⟩
  else if 0xf1 ≤ b ∧ b ≤ 0xf3 then some ⟨3, 0x80, 0xbf, b.toNat - 0xf0⟩
  else if b = 0xf4 then some ⟨3, 0x80, 0x8f, 4⟩
  else none

/-- Reads the bytes that follow a first byte.  `taken` bytes have been taken, and the next one has
    to lie between `low` and `high`. -/
def follow (low high : UInt8) (taken bits : Nat) : Nat → List UInt8 → Segment × List UInt8
  | 0, input => (.char (Char.ofNat bits), input)
  | _ + 1, [] => (.incomplete, [])
  | following + 1, b :: input =>
    if low ≤ b ∧ b ≤ high then
      follow 0x80 0xbf (taken + 1) (bits * 64 + b.toNat % 64) following input
    else (.invalid taken, b :: input)

/-- The first segment of an input that begins with `b`, and the bytes after it. -/
def first (b : UInt8) (input : List UInt8) : Segment × List UInt8 :=
  if b < 0x80 then (.char (Char.ofNat b.toNat), input)
  else
    match lead? b with
    | none => (.invalid 1, input)
    | some l => follow l.low l.high 1 l.bits l.following input

theorem length_follow_le (low high : UInt8) (taken bits following : Nat) (input : List UInt8) :
    (follow low high taken bits following input).2.length ≤ input.length := by
  induction following generalizing low high taken bits input with
  | zero => simp [follow]
  | succ following ih =>
    cases input with
    | nil => simp [follow]
    | cons b input =>
      unfold follow
      split
      · exact Nat.le_succ_of_le (ih ..)
      · exact Nat.le_refl _

/-- The bytes after a segment are no more than those after its first byte. -/
theorem length_first_le (b : UInt8) (input : List UInt8) :
    (first b input).2.length ≤ input.length := by
  unfold first
  split
  · exact Nat.le_refl _
  · split
    · exact Nat.le_refl _
    · exact length_follow_le ..

/-- The segments of a byte string. -/
def segments : List UInt8 → List Segment
  | [] => []
  | b :: input => (first b input).1 :: segments (first b input).2
termination_by input => input.length
decreasing_by exact Nat.lt_succ_of_le (length_first_le b input)

/-! ### Text -/

/-- Why bytes are not text, and the index of the first bad byte. -/
inductive Fault where
  | invalid (length index : Nat)
  | incomplete (index : Nat)
  deriving DecidableEq, Repr

def Fault.message : Fault → String
  | invalid length index => s!"invalid utf-8 sequence of {length} bytes from index {index}"
  | incomplete index => s!"incomplete utf-8 byte sequence from index {index}"

/-- The characters of segments that stand from an index on. -/
def chars (index : Nat) : List Segment → Except Fault (List Char)
  | [] => .ok []
  | .char c :: rest => (chars (index + c.utf8Size) rest).map (c :: ·)
  | .invalid length :: _ => .error (.invalid length index)
  | .incomplete :: _ => .error (.incomplete index)

/-- The text that bytes spell. -/
def decode (bytes : List UInt8) : Except Fault String :=
  (chars 0 (segments bytes)).map String.ofList

/-- The text that bytes spell, with U+FFFD for each bad sequence. -/
def decodeLossy (bytes : List UInt8) : String :=
  String.ofList <| (segments bytes).map fun
    | .char c => c
    | .invalid _ | .incomplete => '\ufffd'

/-- The bytes of a text. -/
def encode (text : String) : List UInt8 := text.toList.flatMap String.utf8EncodeChar

end Utf8

end DwarfExpr
