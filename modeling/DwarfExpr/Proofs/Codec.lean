/-
  DwarfExpr/Proofs/Codec.lean
  ===========================
  **The encodings as codes on the integers.** `Proofs/Encoding.lean` describes each decoder by the
  pieces that it takes and each encoder by the piece that it writes.  Put together, the two say what
  a code has to be good for.

  For LEB128:

    * what is written is read back, whatever follows it;
    * whatever else is read as the same value is longer;
    * `n` bytes are enough exactly for the integers of `7 * n` bits
      (`Leb128.length_encodeSigned_le_iff`).  A power of two at a boundary shows itself here: 63 and
      -64 take one byte, 64 and -65 take two.  Unsigned numbers have no bit for the sign, so that
      127 still takes one byte and 128 takes two (`Leb128.length_encodeUnsigned_eq`).

  For a fixed number of bytes, integers are written modulo a power of two.  What is read back is the
  representative of the residue class in the range that the reader has in mind
  (`Fixed.Represents`), and every byte string is written by the value that is read from it.
-/
import DwarfExpr.Proofs.Encoding

namespace DwarfExpr

namespace Leb128

/-- An input that is one signed number and nothing else. -/
theorem decodeSigned_eq_ok_nil_iff {x : List UInt8} {v : Value} :
    decodeSigned x = .ok (v, []) ↔ Terminated x ∧ v = signedOf x := by
  rw [decodeSigned_eq_ok_iff]
  simp

/-- **How long a signed number is**: `n` groups hold the integers of `7 * n` bits in two's
    complement. -/
theorem length_encodeSigned_le_iff (v : Value) {n : Nat} (h : 0 < n) :
    (encodeSigned v).length ≤ n ↔
      -2 ^ (7 * n - 1) ≤ v.toInt ∧ v.toInt < 2 ^ (7 * n - 1) := by
  have hbits : 7 * n = 7 * n - 1 + 1 := by omega
  rw [length_encodeSigned, length_le_iff h, ← Value.signedWidth_le_iff, ← hbits]

/-- **Signed LEB128 is an exact code, and the shortest.** What is written for a value is read back
    as it, whatever follows.  Any other bytes that are read as the value are longer.  The number of
    bytes is the least that has room for the value. -/
theorem signed_code_exact (v : Value) :
    (∀ rest, decodeSigned (encodeSigned v ++ rest) = .ok (v, rest)) ∧
    (∀ x, decodeSigned x = .ok (v, []) →
      (encodeSigned v).length ≤ x.length ∧
        (x.length = (encodeSigned v).length → x = encodeSigned v)) ∧
    ∀ n, 0 < n → ((encodeSigned v).length ≤ n ↔
      -2 ^ (7 * n - 1) ≤ v.toInt ∧ v.toInt < 2 ^ (7 * n - 1)) := by
  have hback := signedOf_encodeSigned v
  refine ⟨?_, ?_, fun n => length_encodeSigned_le_iff v⟩
  · intro rest
    exact decodeSigned_eq_ok_iff.2 ⟨encodeSigned v, rfl, terminated_encodeSigned v, hback.symm⟩
  · intro x hx
    obtain ⟨hterminated, rfl⟩ := decodeSigned_eq_ok_nil_iff.1 hx
    refine ⟨length_encodeSigned_le hterminated, ?_⟩
    intro hlength
    exact hterminated.eq_of_signedOf_eq (terminated_encodeSigned _) hlength hback.symm

/-- The least integer of one byte, padded to two: the padded form is read, and is not shorter. -/
theorem signed_code_exact_padded :
    decodeSigned [0xc0, 0x7f] = .ok (.ofInt (-64), []) ∧
      (encodeSigned (.ofInt (-64))).length ≤ 2 ∧
      decodeSigned (encodeSigned (.ofInt (-64)) ++ [0xff]) = .ok (.ofInt (-64), [0xff]) ∧
      (encodeSigned (.ofInt (-64))).length ≤ 1 := by
  have hpadded : decodeSigned [0xc0, 0x7f] = .ok (.ofInt (-64), []) := by decide +kernel
  obtain ⟨hback, hshortest, hlength⟩ := signed_code_exact (.ofInt (-64))
  rw [Value.toInt_ofInt] at hlength
  exact ⟨hpadded, (hshortest _ hpadded).1, hback [0xff], (hlength 1 (by decide)).2 (by decide)⟩

/-! ### Unsigned numbers -/

theorem decodeUnsigned_eq_ok_nil_iff {x : List UInt8} {v : Value} :
    decodeUnsigned x = .ok (v, []) ↔ Terminated x ∧ v = unsignedOf x := by
  rw [decodeUnsigned_eq_ok_iff]
  simp

/-- How long an unsigned number is: seven bits a byte, and at least one byte. -/
theorem length_encodeUnsigned_eq (v : Value) :
    (encodeUnsigned v).length = max 1 ((v.toInt.natAbs.size + 6) / 7) := by
  rw [length_encodeUnsigned, Value.bitLength_eq_size, length]
  omega

/-- An unsigned number is known by its length and its reading. -/
theorem Terminated.eq_of_unsignedOf_eq {l m : List UInt8} (hl : Terminated l) (hm : Terminated m)
    (hlen : l.length = m.length) (h : unsignedOf l = unsignedOf m) : l = m :=
  hl.eq_of_payload_eq hm hlen (payload_unsigned_eq h)

/-- **Unsigned LEB128 is an exact code on the integers that are not negative, and the shortest.**
    What is written for a value is read back as it, whatever follows, and takes one byte for each
    seven bits of the value.  Any other bytes that are read as the value are longer. -/
theorem unsigned_code_exact {v : Value} (h : 0 ≤ v.toInt) :
    (∀ rest, decodeUnsigned (encodeUnsigned v ++ rest) = .ok (v, rest)) ∧
    (encodeUnsigned v).length = max 1 ((v.toInt.natAbs.size + 6) / 7) ∧
    ∀ x, decodeUnsigned x = .ok (v, []) →
      (encodeUnsigned v).length ≤ x.length ∧
        (x.length = (encodeUnsigned v).length → x = encodeUnsigned v) := by
  have hback := unsignedOf_encodeUnsigned h
  refine ⟨?_, length_encodeUnsigned_eq v, ?_⟩
  · intro rest
    apply decodeUnsigned_eq_ok_iff.2
    exact ⟨encodeUnsigned v, rfl, terminated_encodeUnsigned v, hback.symm⟩
  · intro x hx
    obtain ⟨hterminated, rfl⟩ := decodeUnsigned_eq_ok_nil_iff.1 hx
    refine ⟨length_encodeUnsigned_le hterminated, ?_⟩
    intro hlength
    exact hterminated.eq_of_unsignedOf_eq (terminated_encodeUnsigned _) hlength hback.symm

/-- The least number of three bytes, and a padded form of it. -/
theorem unsigned_code_exact_padded :
    0 ≤ (Value.ofNat 16384).toInt ∧
      decodeUnsigned (encodeUnsigned (.ofNat 16384) ++ [0xff]) = .ok (.ofNat 16384, [0xff]) ∧
      (encodeUnsigned (.ofNat 16384)).length = 3 ∧
      decodeUnsigned [0x80, 0x80, 0x81, 0x00] = .ok (.ofNat 16384, []) ∧
      (encodeUnsigned (.ofNat 16384)).length ≤ 4 := by
  have hnonneg : 0 ≤ (Value.ofNat 16384).toInt := by
    rw [Value.toInt_ofNat]
    omega
  have hpadded : decodeUnsigned [0x80, 0x80, 0x81, 0x00] = .ok (.ofNat 16384, []) := by
    decide +kernel
  obtain ⟨hback, hlength, hshortest⟩ := unsigned_code_exact hnonneg
  have hthree : (encodeUnsigned (.ofNat 16384)).length = 3 := by
    rw [hlength, Value.toInt_ofNat]
    decide +kernel
  exact ⟨hnonneg, hback [0xff], hthree, hpadded, (hshortest _ hpadded).1⟩

end Leb128

namespace Fixed

/-- `u` stands for `i` in `n` bytes: it is the integer of the residue class of `i` that lies in the
    unsigned or in the signed range.  No bytes have room for zero only. -/
def Represents (signed : Bool) (n : Nat) (i u : Int) : Prop :=
  u ≡ i [ZMOD 2 ^ (8 * n)] ∧
    if n = 0 then u = 0
    else if signed then -2 ^ (8 * n - 1) ≤ u ∧ u < 2 ^ (8 * n - 1)
    else 0 ≤ u ∧ u < 2 ^ (8 * n)

/-- Bytes are read as the representative of every integer that is written as them. -/
theorem represents_ofBytes (signed : Bool) {bytes : List UInt8} {n : Nat} {i : Int}
    (hlen : bytes.length = n) (h : i % 256 ^ n = Magnitude.toNat bytes) :
    Represents signed n i (Value.ofBytes signed bytes).toInt := by
  subst hlen
  refine ⟨?_, ?_⟩
  · rw [two_pow_eight_mul]
    exact (Value.emod_toInt_ofBytes signed bytes).trans h.symm
  · have hunsigned := Value.toInt_ofBytes_false_bounds bytes
    have hsigned := Value.toInt_ofBytes_true_bounds bytes
    by_cases hzero : bytes.length = 0
    · rw [hzero, pow_zero] at hunsigned hsigned
      rw [if_pos hzero]
      cases signed <;> omega
    · have hhalf : (256 : Int) ^ bytes.length = 2 * 2 ^ (8 * bytes.length - 1) := by
        rw [← two_pow_eight_mul, ← pow_succ']
        congr 1
        omega
      rw [if_neg hzero, two_pow_eight_mul]
      cases signed with
      | false => exact hunsigned
      | true =>
        rw [hhalf] at hsigned
        rw [if_pos rfl]
        omega

/-- **The fixed-width code is arithmetic modulo a power of two.** Any integer is written in any
    number of bytes, and what is read back, whatever follows, is its representative.  In the other
    direction, every byte string can be read, and its value is written as that string. -/
theorem code_residue (order : ByteOrder) (signed : Bool) :
    (∀ (n : Nat) (v : Value) (rest : List UInt8), ∃ u,
      decode order signed n (encode order (8 * n) v ++ rest) = .ok (u, rest) ∧
        Represents signed n v.toInt u.toInt) ∧
    ∀ x : List UInt8, ∃ u,
      decode order signed x.length x = .ok (u, []) ∧ encode order (8 * x.length) u = x := by
  constructor
  · intro n v rest
    refine ⟨Value.ofBytes signed (order.arrange (encode order (8 * n) v)), ?_, ?_⟩
    · apply decode_eq_ok_iff.2
      exact ⟨encode order (8 * n) v, rfl, length_encode order n v, rfl⟩
    · have hlen : (order.arrange (encode order (8 * n) v)).length = n := by
        rw [ByteOrder.length_arrange, length_encode]
      exact represents_ofBytes signed hlen (toNat_encode order n v).symm
  · intro x
    refine ⟨Value.ofBytes signed (order.arrange x), ?_, encode_ofBytes order signed x⟩
    apply decode_eq_ok_iff.2
    exact ⟨x, (List.append_nil x).symm, rfl, rfl⟩

end Fixed

end DwarfExpr
