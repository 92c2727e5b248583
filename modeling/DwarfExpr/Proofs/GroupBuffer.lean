/-
  DwarfExpr/Proofs/GroupBuffer.lean
  =================================
  **LEB128 numbers of any shape, and how to gather one in place.** The first byte below `0x80` ends
  a number; without one there is no number (`Leb128.decodeUnsigned_eq_error_iff`).  The value is the
  sum of the lower seven bits of its bytes, each times a power of 128, and the last byte decides
  about the sign.  Nothing is asked of the bytes: padding is read like everything else.

  `Leb128.decodeUnsigned` and `Leb128.decodeSigned` collect the groups of a number in a list and
  multiply them out.  The other way is to shift each group to its place in a buffer of bytes as soon
  as it is read.  `unsignedInPlace` and `signedInPlace` do so.  They index the buffer, and a result
  of `none` says that an index was out of range.

    * Seven bits may lie across two bytes.  `place_gathered` is the step: if the buffer is as long
      as the groups so far fill it, then it is long enough for one more after it has grown.
    * `gather_gathered` is the run over all groups of a number.
    * The last byte need not be full.  `fillSign` fills it with the sign before the bytes are read
      in two's complement; `fillSign_gathered` says by how much that changes the number.

  No index is out of range and the two ways give the same result, whatever the input
  (`unsignedInPlace_eq`, `signedInPlace_eq`).
-/
import DwarfExpr.Proofs.Encoding
import Mathlib.Algebra.BigOperators.Group.Finset.Basic
import Mathlib.Data.Nat.Bitwise

namespace DwarfExpr

namespace Magnitude

theorem toNat_cons_eq_or (b : UInt8) (m : Magnitude) :
    toNat (b :: m) = toNat m <<< 8 ||| b.toNat := by
  rw [← Nat.shiftLeft_add_eq_or_of_lt b.toNat_lt, Nat.shiftLeft_eq, toNat_cons]
  omega

/-- Setting bits of one byte sets them in the number. -/
theorem toNat_modify_or {m : Magnitude} {index : Nat} (h : index < m.length) (bits : UInt8) :
    toNat (m.modify index (· ||| bits)) = toNat m ||| bits.toNat <<< (8 * index) := by
  induction m generalizing index with
  | nil => simp at h
  | cons b m ih =>
    cases index with
    | zero =>
      rw [List.modify_cons, if_pos rfl, toNat_cons_eq_or, toNat_cons_eq_or, UInt8.toNat_or,
        Nat.or_assoc]
      rfl
    | succ index =>
      have htail := ih (by simpa using h)
      rw [List.modify_cons, if_neg (by omega), Nat.add_sub_cancel, toNat_cons_eq_or,
        toNat_cons_eq_or, htail, Nat.shiftLeft_or_distrib, ← Nat.shiftLeft_add, Nat.or_assoc,
        Nat.or_assoc, Nat.or_comm b.toNat]
      rfl

end Magnitude

namespace Leb128

/-! ### A buffer for groups -/

/-- Sets bits of the byte at an index, if there is one. -/
def setBits (index : Nat) (bits : UInt8) (buffer : List UInt8) : Option (List UInt8) :=
  if index < buffer.length then some (buffer.modify index (· ||| bits)) else none

/-- Makes room for group `i` and puts it in its place, seven bits for each group before it. -/
def place (i : Nat) (group : UInt8) (buffer : List UInt8) : Option (List UInt8) := do
  let index := 7 * i / 8
  let spread := group.toUInt16 <<< (7 * i % 8).toUInt16
  let low ← setBits index spread.toUInt8 (Magnitude.resize ((7 * i + 7 + 7) / 8) buffer)
  if 0xff < spread then setBits (index + 1) (spread >>> 8).toUInt8 low else some low

/-- Puts the groups of the input in place, from group `i` on.  The result is the buffer, the number
    of bits that are in use, and the input behind the number. -/
def gather (i : Nat) (buffer : List UInt8) : List UInt8 → Option (Decoded (List UInt8 × Nat))
  | [] => some (.error (.unterminated i))
  | b :: input => do
    let buffer ← place i (b &&& 0x7f) buffer
    if b &&& 0x80 = 0 then some (.ok ((buffer, 7 * i + 7), input)) else gather (i + 1) buffer input

/-- Repeats the highest bit in use up to the end of the last byte. -/
def fillSign (bits : Nat) (buffer : List UInt8) : Option (List UInt8) :=
  if bits % 8 = 0 then some buffer
  else do
    let top ← buffer[(bits - 1) / 8]?
    if top &&& (1 <<< ((bits - 1) % 8).toUInt8) = 0 then some buffer
    else some (buffer.modify (buffer.length - 1) (· ||| (0xff <<< (bits % 8).toUInt8)))

def unsignedInPlace (input : List UInt8) : Option (Decoded Value) := do
  match ← gather 0 [] input with
  | .ok ((buffer, _), rest) => some (.ok (.ofBytes false buffer, rest))
  | .error fault => some (.error fault)

def signedInPlace (input : List UInt8) : Option (Decoded Value) := do
  match ← gather 0 [] input with
  | .ok ((buffer, bits), rest) =>
    let filled ← fillSign bits buffer
    some (.ok (.ofBytes true filled, rest))
  | .error fault => some (.error fault)

/-! ### One group -/

/-- The buffer holds the groups of the bytes read so far: no byte too many, and their number. -/
structure Gathered (read buffer : List UInt8) : Prop where
  length_eq : buffer.length = (7 * read.length + 7) / 8
  toNat_eq : Magnitude.toNat buffer = payload read

theorem gathered_nil : Gathered [] [] := ⟨rfl, rfl⟩

theorem setBits_of_lt {index : Nat} {buffer : List UInt8} (h : index < buffer.length)
    (bits : UInt8) : ∃ buffer', setBits index bits buffer = some buffer' ∧
      buffer'.length = buffer.length ∧
      Magnitude.toNat buffer' = Magnitude.toNat buffer ||| bits.toNat <<< (8 * index) :=
  ⟨_, if_pos h, List.length_modify _ _ _, Magnitude.toNat_modify_or h bits⟩

theorem toNat_spread {group : UInt8} {shift : Nat} (h : group.toNat < 128) (hshift : shift < 8) :
    (group.toUInt16 <<< shift.toUInt16).toNat = group.toNat <<< shift := by
  have hamount : shift.toUInt16.toNat % 16 = shift := by
    rw [Nat.toUInt16_eq, UInt16.toNat_ofNat']
    omega
  -- seven bits and a shift by at most seven do not leave the sixteen
  have hlt : group.toNat <<< shift < 2 ^ 16 := by
    rw [Nat.shiftLeft_eq]
    calc group.toNat * 2 ^ shift ≤ 127 * 2 ^ 7 :=
          Nat.mul_le_mul (by omega) (Nat.pow_le_pow_right (by omega) (by omega))
      _ < 2 ^ 16 := by norm_num
  rw [UInt16.toNat_shiftLeft, UInt8.toNat_toUInt16, hamount, Nat.mod_eq_of_lt hlt]

/-- Seven bits reach into a second byte only if at least two bits are in use in the first. -/
theorem two_le_of_spread {group shift : Nat} (h : group < 128) (hspread : 255 < group <<< shift) :
    2 ≤ shift := by
  by_contra hlt
  have hcases : shift = 0 ∨ shift = 1 := by omega
  rcases hcases with rfl | rfl
  · simp at hspread
    omega
  · rw [Nat.shiftLeft_eq] at hspread
    omega

theorem or_low_or_high (n spread index : Nat) :
    n ||| (spread % 256) <<< (8 * index) ||| (spread / 256) <<< (8 * (index + 1)) =
      n ||| spread <<< (8 * index) := by
  have hsplit : spread % 256 ||| (spread / 256) <<< 8 = spread := by
    have hlow : spread % 256 < 2 ^ 8 := Nat.mod_lt _ (by norm_num)
    rw [Nat.or_comm, ← Nat.shiftLeft_add_eq_or_of_lt hlow, Nat.shiftLeft_eq]
    omega
  have hstep : (spread / 256) <<< (8 * (index + 1)) = ((spread / 256) <<< 8) <<< (8 * index) := by
    rw [← Nat.shiftLeft_add]
    congr 1
    omega
  rw [hstep, Nat.or_assoc, ← Nat.shiftLeft_or_distrib, hsplit]

/-- **There is room for a group**: after the buffer has grown, no index is out of range. -/
theorem place_of_lt {group : UInt8} (h : group.toNat < 128) (i : Nat) (buffer : List UInt8) :
    ∃ buffer', place i group buffer = some buffer' ∧ buffer'.length = (7 * i + 7 + 7) / 8 ∧
      Magnitude.toNat buffer' = Magnitude.toNat (Magnitude.resize ((7 * i + 7 + 7) / 8) buffer) |||
        group.toNat <<< (7 * i) := by
  obtain ⟨grown, hgrown⟩ : ∃ l, l = Magnitude.resize ((7 * i + 7 + 7) / 8) buffer := ⟨_, rfl⟩
  obtain ⟨spread, hspread⟩ : ∃ w, w = group.toUInt16 <<< (7 * i % 8).toUInt16 := ⟨_, rfl⟩
  have hlength : grown.length = (7 * i + 7 + 7) / 8 := by
    rw [hgrown, Magnitude.length_resize]
  have hnat : spread.toNat = group.toNat <<< (7 * i % 8) := by
    rw [hspread]
    exact toNat_spread h (Nat.mod_lt _ (by omega))
  have hshift : spread.toNat <<< (8 * (7 * i / 8)) = group.toNat <<< (7 * i) := by
    rw [hnat, ← Nat.shiftLeft_add, Nat.mod_add_div]
  have hindex : 7 * i / 8 < grown.length := by omega
  obtain ⟨low, hlow, hlowLength, hlowNat⟩ := setBits_of_lt hindex spread.toUInt8
  rw [UInt16.toNat_toUInt8] at hlowNat
  have hplace : place i group buffer =
      if 0xff < spread then setBits (7 * i / 8 + 1) (spread >>> 8).toUInt8 low else some low := by
    rw [place, ← hgrown, ← hspread, hlow]
    rfl
  rw [hplace, ← hgrown, ← hshift]
  by_cases hwide : 0xff < spread
  · -- the group lies across two bytes, and the buffer has grown for the second one
    have hnext : 7 * i / 8 + 1 < low.length := by
      have htwo : 2 ≤ 7 * i % 8 := by
        apply two_le_of_spread h
        rw [← hnat]
        exact hwide
      omega
    obtain ⟨high, hhigh, hhighLength, hhighNat⟩ := setBits_of_lt hnext (spread >>> 8).toUInt8
    have hupper : (spread >>> 8).toUInt8.toNat = spread.toNat / 256 := by
      have hlt := spread.toNat_lt
      have height : (8 : UInt16).toNat % 16 = 8 := rfl
      rw [UInt16.toNat_toUInt8, UInt16.toNat_shiftRight, height, Nat.shiftRight_eq_div_pow]
      omega
    refine ⟨high, ?_, by omega, ?_⟩
    · rw [if_pos hwide, hhigh]
    · rw [hhighNat, hlowNat, hupper]
      exact or_low_or_high _ _ _
  · -- the group ends within the byte, and there need not be a next one
    have hbyte : spread.toNat % 2 ^ 8 = spread.toNat := by
      rw [UInt16.lt_iff_toNat_lt] at hwide
      simp only [UInt16.reduceToNat] at hwide
      omega
    refine ⟨low, ?_, by omega, ?_⟩
    · rw [if_neg hwide]
    · rw [hlowNat, hbyte]

/-- **One group finds its place.** -/
theorem place_gathered {read buffer : List UInt8} (h : Gathered read buffer) (b : UInt8) :
    ∃ buffer', place read.length (b &&& 0x7f) buffer = some buffer' ∧
      Gathered (read ++ [b]) buffer' := by
  have hgroup : (b &&& 0x7f).toNat = b.toNat % 128 := toNat_and_low b
  have hlt : (b &&& 0x7f).toNat < 128 := by omega
  obtain ⟨buffer', hplace, hlength, hnat⟩ := place_of_lt hlt read.length buffer
  refine ⟨buffer', hplace, ?_, ?_⟩
  · rw [hlength, List.length_append, List.length_singleton]
    omega
  · -- growing keeps the number, and the bits of the new group are above it
    have hgrown : Magnitude.toNat (Magnitude.resize ((7 * read.length + 7 + 7) / 8) buffer) =
        payload read := by
      have hlt := Magnitude.toNat_lt buffer
      have hpow : 256 ^ buffer.length ≤ 256 ^ ((7 * read.length + 7 + 7) / 8) := by
        apply Nat.pow_le_pow_right (by omega)
        rw [h.length_eq]
        omega
      rw [Magnitude.toNat_resize, Nat.mod_eq_of_lt (by omega), h.toNat_eq]
    have hbelow : payload read < 2 ^ (7 * read.length) := by
      rw [pow_mul]
      exact payload_lt read
    rw [hnat, hgrown, hgroup, Nat.or_comm, ← Nat.shiftLeft_add_eq_or_of_lt hbelow,
      Nat.shiftLeft_eq, pow_mul, payload_append]
    simp only [payload]
    norm_num
    ring

/-! ### All groups of a number -/

theorem and_bit_eq_zero_iff {b : UInt8} {i : Nat} (hi : i < 8) (hb : b.toNat < 2 ^ (i + 1)) :
    b &&& (1 <<< i.toUInt8) = 0 ↔ b.toNat < 2 ^ i := by
  have hbit : ∀ i < 8, ((1 : UInt8) <<< i.toUInt8).toNat = 2 ^ i := by decide
  rw [← UInt8.toNat_inj, UInt8.toNat_and, hbit i hi, Nat.and_two_pow]
  by_cases hlt : b.toNat < 2 ^ i
  · simp [Nat.testBit_lt_two_pow hlt, hlt]
  · have hset := Nat.testBit_of_two_pow_le_and_two_pow_add_one_gt (by omega) hb
    simp [hset, hlt]

theorem and_top_eq_zero_iff (b : UInt8) : b &&& 0x80 = 0 ↔ b < 0x80 := by
  rw [UInt8.lt_iff_toNat_lt]
  exact and_bit_eq_zero_iff (i := 7) (by omega) b.toNat_lt

/-- **All groups find their places**, up to the last one of the number. -/
theorem gather_gathered {read buffer piece : List UInt8} (h : Gathered read buffer)
    (hpiece : Terminated piece) (rest : List UInt8) :
    ∃ buffer', gather read.length buffer (piece ++ rest) =
        some (.ok ((buffer', 7 * (read ++ piece).length), rest)) ∧
      Gathered (read ++ piece) buffer' := by
  induction piece generalizing read buffer with
  | nil => exact absurd hpiece not_terminated_nil
  | cons b piece ih =>
    -- the byte goes over from what is to be read to what has been read
    obtain ⟨next, hplace, hnext⟩ := place_gathered h b
    have hstep : gather read.length buffer (b :: piece ++ rest) =
        if b &&& 0x80 = 0 then some (.ok ((next, 7 * read.length + 7), piece ++ rest))
        else gather (read ++ [b]).length next (piece ++ rest) := by
      rw [List.cons_append, gather, hplace, List.length_append]
      rfl
    rw [hstep]
    rcases (terminated_cons_iff b piece).1 hpiece with ⟨rfl, hlast⟩ | ⟨hmore, htail⟩
    · refine ⟨next, ?_, hnext⟩
      rw [if_pos ((and_top_eq_zero_iff b).2 hlast), List.length_append]
      rfl
    · have hnot : ¬ (b &&& 0x80 = 0) := by
        rw [and_top_eq_zero_iff]
        exact UInt8.not_lt.2 hmore
      obtain ⟨buffer', hrun, hgathered⟩ := ih hnext htail
      rw [if_neg hnot, hrun]
      rw [List.append_assoc, List.singleton_append] at hgathered ⊢
      exact ⟨buffer', rfl, hgathered⟩

/-- Without a last group the input ends too soon, and still no index is out of range. -/
theorem gather_unterminated {read buffer input : List UInt8} (h : Gathered read buffer)
    (hinput : ∀ b ∈ input, 0x80 ≤ b) :
    gather read.length buffer input =
      some (.error (.unterminated (read.length + input.length))) := by
  induction input generalizing read buffer with
  | nil => rfl
  | cons b input ih =>
    obtain ⟨next, hplace, hnext⟩ := place_gathered h b
    have hnot : ¬ (b &&& 0x80 = 0) := by
      rw [and_top_eq_zero_iff]
      exact UInt8.not_lt.2 (hinput b (by simp))
    have htail := ih hnext fun c hc => hinput c (by simp [hc])
    rw [List.length_append, List.length_singleton] at htail
    rw [gather, hplace, List.length_cons, Nat.add_comm input.length, ← Nat.add_assoc, ← htail]
    exact if_neg hnot

/-! ### The sign -/

theorem toNat_getLast {buffer : List UInt8} {top : UInt8} (h : buffer.getLast? = some top) :
    top.toNat = Magnitude.toNat buffer / 256 ^ (buffer.length - 1) := by
  obtain ⟨low, rfl⟩ := List.getLast?_eq_some_iff.1 h
  rw [← Magnitude.toNat_drop, List.length_append, List.length_singleton, Nat.add_sub_cancel,
    List.drop_left]
  simp

section Sign

variable {buffer : List UInt8} {bits : Nat} (hlength : buffer.length = (bits + 7) / 8)
  (hbelow : Magnitude.toNat buffer < 2 ^ bits) (hpartial : bits % 8 ≠ 0)
include hlength hbelow hpartial

/-- The highest bit in use is clear in the lower half of the range. -/
theorem sign_clear_iff {top : UInt8} (htop : buffer.getLast? = some top) :
    top &&& (1 <<< ((bits - 1) % 8).toUInt8) = 0 ↔ 2 * Magnitude.toNat buffer < 2 ^ bits := by
  -- a bound for the last byte is one for the number
  have htopLt : ∀ k, top.toNat < 2 ^ k ↔
      Magnitude.toNat buffer < 2 ^ (k + 8 * (buffer.length - 1)) := by
    intro k
    rw [toNat_getLast htop, Nat.div_lt_iff_lt_mul (by positivity), pow_add, pow_mul]
    norm_num
  have hbits : (bits - 1) % 8 + 1 + 8 * (buffer.length - 1) = bits := by omega
  have hdouble : 2 ^ bits = 2 * 2 ^ (bits - 1) := by
    rw [← pow_succ']
    congr 1
    omega
  have hin : top.toNat < 2 ^ ((bits - 1) % 8 + 1) := by
    rw [htopLt, hbits]
    exact hbelow
  rw [and_bit_eq_zero_iff (Nat.mod_lt _ (by omega)) hin, htopLt,
    show (bits - 1) % 8 + 8 * (buffer.length - 1) = bits - 1 by omega]
  omega

/-- Setting all bits of the last byte that are not in use. -/
theorem toNat_modify_fill :
    Magnitude.toNat (buffer.modify (buffer.length - 1) (· ||| (0xff <<< (bits % 8).toUInt8))) =
      Magnitude.toNat buffer + (256 ^ buffer.length - 2 ^ bits) := by
  have hmask : ∀ i < 8, ((0xff : UInt8) <<< i.toUInt8).toNat = (2 ^ (8 - i) - 1) <<< i := by
    decide
  have hbits : bits % 8 + 8 * (buffer.length - 1) = bits := by omega
  have hbytes : 256 ^ buffer.length = 2 ^ (8 - bits % 8) * 2 ^ bits := by
    rw [← pow_add, show 8 - bits % 8 + bits = 8 * buffer.length by omega, pow_mul]
    norm_num
  rw [Magnitude.toNat_modify_or (by omega), hmask _ (Nat.mod_lt _ (by omega)),
    ← Nat.shiftLeft_add, hbits, Nat.or_comm, ← Nat.shiftLeft_add_eq_or_of_lt hbelow,
    Nat.shiftLeft_eq, Nat.sub_mul, Nat.one_mul, hbytes, Nat.add_comm]

end Sign

/-- **Filling up the last byte** adds what is missing from a power of 128 to the next power of 256,
    if the number is in the upper half of its range. -/
theorem fillSign_gathered {piece buffer : List UInt8} (h : Gathered piece buffer)
    (hne : piece ≠ []) :
    ∃ filled, fillSign (7 * piece.length) buffer = some filled ∧ filled.length = buffer.length ∧
      Magnitude.toNat filled =
        if 2 * payload piece < 128 ^ piece.length then payload piece
        else payload piece + (256 ^ buffer.length - 128 ^ piece.length) := by
  obtain ⟨bits, hbits⟩ : ∃ n, n = 7 * piece.length := ⟨_, rfl⟩
  have hpos := List.length_pos_iff.2 hne
  have hlength : buffer.length = (bits + 7) / 8 := by rw [h.length_eq, hbits]
  have hpow : 128 ^ piece.length = 2 ^ bits := by
    rw [hbits, pow_mul]
    norm_num
  have hbelow : Magnitude.toNat buffer < 2 ^ bits := by
    rw [h.toNat_eq, ← hpow]
    exact payload_lt piece
  rw [← hbits, hpow, ← h.toNat_eq]
  by_cases hpartial : bits % 8 = 0
  · -- the groups fill the last byte, and its top bit is the sign already
    have hbytes : 256 ^ buffer.length = 2 ^ bits := by
      rw [show bits = 8 * buffer.length by omega, pow_mul]
      norm_num
    refine ⟨buffer, if_pos hpartial, rfl, ?_⟩
    rw [hbytes, Nat.sub_self, Nat.add_zero, ite_self]
  · obtain ⟨top, htop⟩ : ∃ top, buffer.getLast? = some top := by
      rw [← Option.ne_none_iff_exists', ne_eq, List.getLast?_eq_none_iff, ← List.length_eq_zero_iff]
      omega
    have hclear := sign_clear_iff hlength hbelow hpartial htop
    have htest : fillSign bits buffer =
        if top &&& (1 <<< ((bits - 1) % 8).toUInt8) = 0 then some buffer
        else some (buffer.modify (buffer.length - 1) (· ||| (0xff <<< (bits % 8).toUInt8))) := by
      rw [fillSign, if_neg hpartial, show (bits - 1) / 8 = buffer.length - 1 by omega,
        ← List.getLast?_eq_getElem?, htop]
      rfl
    by_cases hlower : 2 * Magnitude.toNat buffer < 2 ^ bits
    · exact ⟨buffer, by rw [htest, if_pos (hclear.2 hlower)], rfl, by rw [if_pos hlower]⟩
    · refine ⟨_, by rw [htest, if_neg fun hzero => hlower (hclear.1 hzero)],
        List.length_modify _ _ _, ?_⟩
      rw [if_neg hlower, toNat_modify_fill hlength hbelow hpartial]

/-- The filled buffer is the number in two's complement. -/
theorem ofBytes_fillSign {piece buffer : List UInt8} (h : Gathered piece buffer)
    (hne : piece ≠ []) :
    ∃ filled, fillSign (7 * piece.length) buffer = some filled ∧
      Value.ofBytes true filled = signedOf piece := by
  obtain ⟨filled, hfill, hlength, hnat⟩ := fillSign_gathered h hne
  refine ⟨filled, hfill, ?_⟩
  have hlt := payload_lt piece
  have hle : (2 ^ 7) ^ piece.length ≤ (2 ^ 8) ^ buffer.length := by
    rw [← pow_mul, ← pow_mul, h.length_eq]
    apply Nat.pow_le_pow_right (by omega)
    omega
  norm_num at hle
  have hcast : ((128 ^ piece.length : Nat) : Int) = 128 ^ piece.length := by norm_cast
  have hcast' : ((256 ^ buffer.length : Nat) : Int) = 256 ^ buffer.length := by norm_cast
  apply Value.toInt_injective
  rw [Value.toInt_ofBytes_true, toInt_signedOf hne, hlength, hnat]
  by_cases hlower : 2 * payload piece < 128 ^ piece.length
  · rw [if_pos hlower, if_pos hlower, if_neg (by omega)]
  · rw [if_neg hlower, if_neg hlower, if_pos (by omega)]
    omega

/-! ### The same result -/

theorem Terminated.ne_nil {piece : List UInt8} (h : Terminated piece) : piece ≠ [] := by
  rintro rfl
  exact not_terminated_nil h

/-- **How gathering ends**, from an empty buffer: with the groups of a number, or at the end of the
    input. -/
theorem gather_cases (input : List UInt8) :
    (∃ piece rest buffer, input = piece ++ rest ∧ Terminated piece ∧ Gathered piece buffer ∧
      gather 0 [] input = some (.ok ((buffer, 7 * piece.length), rest))) ∨
    ((∀ b ∈ input, 0x80 ≤ b) ∧
      gather 0 [] input = some (.error (.unterminated input.length))) := by
  cases hsplit : split input with
  | none =>
    have hinput := split_eq_none_iff.1 hsplit
    have hgather := gather_unterminated gathered_nil hinput
    rw [List.length_nil, Nat.zero_add] at hgather
    exact Or.inr ⟨hinput, hgather⟩
  | some found =>
    obtain ⟨piece, hinput, hpiece, -⟩ := split_eq_some_iff.1 hsplit
    obtain ⟨buffer, hgather, hgathered⟩ := gather_gathered gathered_nil hpiece found.2
    rw [← hinput] at hgather
    exact Or.inl ⟨piece, found.2, buffer, hinput, hpiece, hgathered, hgather⟩

/-- **Gathering in place reads the same unsigned number**, and no index is out of range. -/
theorem unsignedInPlace_eq (input : List UInt8) :
    unsignedInPlace input = some (decodeUnsigned input) := by
  unfold unsignedInPlace
  rcases gather_cases input with
    ⟨piece, rest, buffer, hinput, hpiece, hgathered, hgather⟩ | ⟨hinput, hgather⟩
  · have hvalue : Value.ofBytes false buffer = unsignedOf piece := by
      apply Value.toInt_injective
      rw [Value.toInt_ofBytes_false, toInt_unsignedOf, hgathered.toNat_eq]
    rw [hgather, decodeUnsigned_eq_ok_iff.2 ⟨piece, hinput, hpiece, rfl⟩, ← hvalue]
    rfl
  · rw [hgather, decodeUnsigned_eq_error_iff.2 ⟨rfl, hinput⟩]
    rfl

/-- **Gathering in place reads the same signed number**, and no index is out of range. -/
theorem signedInPlace_eq (input : List UInt8) :
    signedInPlace input = some (decodeSigned input) := by
  unfold signedInPlace
  rcases gather_cases input with
    ⟨piece, rest, buffer, hinput, hpiece, hgathered, hgather⟩ | ⟨hinput, hgather⟩
  · obtain ⟨filled, hfill, hvalue⟩ := ofBytes_fillSign hgathered hpiece.ne_nil
    rw [hgather, decodeSigned_eq_ok_iff.2 ⟨piece, hinput, hpiece, rfl⟩, ← hvalue]
    change (fillSign (7 * piece.length) buffer).bind _ = _
    rw [hfill]
    rfl
  · rw [hgather, decodeSigned_eq_error_iff.2 ⟨rfl, hinput⟩]
    rfl

/-! ### Numbers by their bytes -/

theorem terminated_take {x : List UInt8} {k : Nat} (h : x.findIdx? (· < 0x80) = some k) :
    Terminated (x.take (k + 1)) := by
  obtain ⟨hk, hlast, hbefore⟩ := List.findIdx?_eq_some_iff_getElem.1 h
  refine ⟨x.take k, x[k], List.take_succ_eq_append_getElem hk, ?_, by simpa using hlast⟩
  intro b hb
  obtain ⟨j, hj, rfl⟩ := List.mem_take_iff_getElem.1 hb
  have hnot := hbefore j (by omega)
  simpa using hnot

theorem payload_take {x : List UInt8} {n : Nat} (h : n ≤ x.length) :
    payload (x.take n) = ∑ i ∈ Finset.range n, (x.getD i 0).toNat % 128 * 128 ^ i := by
  induction n with
  | zero => rfl
  | succ n ih =>
    have hlt : n < x.length := h
    rw [Finset.sum_range_succ, ← ih (by omega), List.take_succ_eq_append_getElem hlt,
      payload_append, List.length_take_of_le (by omega), List.getD_eq_getElem _ _ hlt]
    simp only [payload]
    ring

/-- The last byte tells the half of the range. -/
theorem last_lt_iff {x : List UInt8} {k : Nat} (h : x.findIdx? (· < 0x80) = some k) :
    x.getD k 0 < 0x40 ↔ 2 * payload (x.take (k + 1)) < 128 ^ (k + 1) := by
  obtain ⟨hk, hlast, -⟩ := List.findIdx?_eq_some_iff_getElem.1 h
  have hbyte : x[k].toNat < 128 := by simpa [UInt8.lt_iff_toNat_lt] using hlast
  have htop : ((x.take (k + 1)).map (· &&& 0x7f)).getLast? = some (x[k] &&& 0x7f) := by
    rw [List.take_succ_eq_append_getElem hk, List.map_append, List.map_singleton,
      List.getLast?_concat]
  have hhalf := top_lt_iff (fun _ => low_lt) htop
  rw [payload_map_low, List.length_map, List.length_take_of_le (by omega)] at hhalf
  rw [← hhalf, List.getD_eq_getElem _ _ hk, UInt8.lt_iff_toNat_lt, UInt8.lt_iff_toNat_lt,
    toNat_and_low, Nat.mod_eq_of_lt hbyte]

/-- **What the decoders make of any bytes.** They refuse an input exactly if no byte of it is below
    `0x80`, and then with its length.  Otherwise they take the bytes up to the first such byte, say
    at index `k`.  The unsigned value is the number that these bytes spell in base 128, and the
    signed value is less by `128 ^ (k + 1)` if the last byte is at least `0x40`.  The decoders that
    gather groups in a buffer do the same without an index out of range. -/
theorem decoding_exact (x : List UInt8) :
    (∀ fault, decodeUnsigned x = .error fault ↔
      fault = .unterminated x.length ∧ ∀ b ∈ x, 0x80 ≤ b) ∧
    (∀ fault, decodeSigned x = .error fault ↔
      fault = .unterminated x.length ∧ ∀ b ∈ x, 0x80 ≤ b) ∧
    (∀ k, x.findIdx? (· < 0x80) = some k → ∃ u s : Value,
      decodeUnsigned x = .ok (u, x.drop (k + 1)) ∧ decodeSigned x = .ok (s, x.drop (k + 1)) ∧
      u.toInt = (∑ i ∈ Finset.range (k + 1), (x.getD i 0).toNat % 128 * 128 ^ i : Nat) ∧
      s.toInt = if x.getD k 0 < 0x40 then u.toInt else u.toInt - 128 ^ (k + 1)) ∧
    unsignedInPlace x = some (decodeUnsigned x) ∧ signedInPlace x = some (decodeSigned x) := by
  refine ⟨fun fault => decodeUnsigned_eq_error_iff, fun fault => decodeSigned_eq_error_iff, ?_,
    unsignedInPlace_eq x, signedInPlace_eq x⟩
  intro k hk
  obtain ⟨hlt, -, -⟩ := List.findIdx?_eq_some_iff_getElem.1 hk
  have hlength : (x.take (k + 1)).length = k + 1 := List.length_take_of_le hlt
  have hsplit : x = x.take (k + 1) ++ x.drop (k + 1) := (List.take_append_drop (k + 1) x).symm
  have hterminated := terminated_take hk
  refine ⟨unsignedOf (x.take (k + 1)), signedOf (x.take (k + 1)), ?_, ?_, ?_, ?_⟩
  · exact decodeUnsigned_eq_ok_iff.2 ⟨_, hsplit, hterminated, rfl⟩
  · exact decodeSigned_eq_ok_iff.2 ⟨_, hsplit, hterminated, rfl⟩
  · rw [toInt_unsignedOf, payload_take hlt]
  · have hlast := last_lt_iff hk
    rw [toInt_signedOf hterminated.ne_nil, toInt_unsignedOf, hlength]
    by_cases hhalf : x.getD k 0 < 0x40
    · rw [if_pos hhalf, if_pos (hlast.1 hhalf)]
    · rw [if_neg hhalf, if_neg fun hlower => hhalf (hlast.2 hlower)]

/-- A negative number in one byte more than it needs, and a byte behind it. -/
theorem decoding_exact_padded :
    List.findIdx? (· < 0x80) [(0x80 : UInt8), 0xff, 0x7f, 0x05] = some 2 ∧
    ∃ u s : Value, decodeUnsigned [0x80, 0xff, 0x7f, 0x05] = .ok (u, [0x05]) ∧
      decodeSigned [0x80, 0xff, 0x7f, 0x05] = .ok (s, [0x05]) ∧
      u.toInt = 2097024 ∧ s.toInt = -128 := by
  obtain ⟨-, -, hread, -⟩ := decoding_exact [0x80, 0xff, 0x7f, 0x05]
  obtain ⟨u, s, hunsigned, hsigned, hu, hs⟩ := hread 2 (by decide)
  have hvalue : u.toInt = 2097024 := by
    rw [hu]
    decide
  refine ⟨by decide, u, s, hunsigned, hsigned, hvalue, ?_⟩
  rw [hs, hvalue]
  decide

end Leb128

end DwarfExpr
