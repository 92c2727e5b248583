/-
  DwarfExpr/Proofs/Bits.lean
  ==========================
  **Widths and bit patterns, exactly.** The width comparisons of `Proofs/Value.lean` determine the
  widths themselves: each is the least number of bits for its range (`isLeast_bitLength`,
  `isLeast_signedWidth`), collected with the conversion to a 64-bit word in `widths_exact`.

  A bit pattern is the value modulo `2 ^ width` in as few bytes as hold the width, at any width, and
  reading a group of its bits is arithmetic on that residue (`bits_residue`).  A group may straddle
  two bytes or run past the width, where the residue has no bits left.
-/
import DwarfExpr.Proofs.Value
import Mathlib.Order.Bounds.Basic

namespace DwarfExpr

namespace Value

/-! ### Widths -/

theorem isLeast_bitLength (v : Value) : IsLeast {n | v.toInt.natAbs < 2 ^ n} v.bitLength := by
  constructor
  · exact (bitLength_le_iff v _).1 le_rfl
  · intro n hn
    exact (bitLength_le_iff v n).2 hn

theorem one_le_signedWidth (v : Value) : 1 ≤ v.signedWidth := by
  unfold signedWidth
  split <;> exact Nat.le_add_left 1 _

/-- The comparison of `signedWidth_le_iff` at a positive width. -/
theorem signedWidth_le_iff_of_one_le (v : Value) {n : Nat} (h : 1 ≤ n) :
    v.signedWidth ≤ n ↔ -2 ^ (n - 1) ≤ v.toInt ∧ v.toInt < 2 ^ (n - 1) := by
  have hle := signedWidth_le_iff v (n - 1)
  rwa [Nat.sub_add_cancel h] at hle

theorem isLeast_signedWidth (v : Value) :
    IsLeast {n | 1 ≤ n ∧ -2 ^ (n - 1) ≤ v.toInt ∧ v.toInt < 2 ^ (n - 1)} v.signedWidth := by
  constructor
  · have hone := one_le_signedWidth v
    exact ⟨hone, (signedWidth_le_iff_of_one_le v hone).1 le_rfl⟩
  · rintro n ⟨hone, hrange⟩
    exact (signedWidth_le_iff_of_one_le v hone).2 hrange

theorem toUInt64?_eq_none_iff (v : Value) :
    v.toUInt64? = none ↔ ¬(0 ≤ v.toInt ∧ v.toInt < 2 ^ 64) := by
  rw [Option.eq_none_iff_forall_ne_some]
  constructor
  · rintro hnone ⟨hpos, hlt⟩
    -- a value in the range is the number of a word
    apply hnone (UInt64.ofNat v.toInt.toNat)
    rw [toUInt64?_eq_some_iff, UInt64.toNat_ofNat', Nat.mod_eq_of_lt (by omega)]
    exact (Int.toNat_of_nonneg hpos).symm
  · intro hrange n hsome
    have hn := n.toNat_lt
    rw [toUInt64?_eq_some_iff] at hsome
    exact hrange (by omega)

/-- **The widths are exact.** The bit length is the least that holds the magnitude, and the two's
    complement width the least that holds the value.  A literal fits a width if it is below the
    power of two, or negative and above half of its negative: no negative number fits width zero.
    A value is converted to a 64-bit word exactly if it is the number of one. -/
theorem widths_exact (v : Value) :
    IsLeast {n | v.toInt.natAbs < 2 ^ n} v.bitLength ∧
    IsLeast {n | 1 ≤ n ∧ -2 ^ (n - 1) ≤ v.toInt ∧ v.toInt < 2 ^ (n - 1)} v.signedWidth ∧
    (∀ width, v.literalWidth ≤ width ↔
      (0 ≤ v.toInt ∧ v.toInt < 2 ^ width) ∨ (-2 ^ (width - 1) < v.toInt ∧ v.toInt < 0)) ∧
    (∀ n : UInt64, v.toUInt64? = some n ↔ v.toInt = n.toNat) ∧
    (v.toUInt64? = none ↔ ¬(0 ≤ v.toInt ∧ v.toInt < 2 ^ 64)) :=
  ⟨isLeast_bitLength v, isLeast_signedWidth v, literalWidth_le_iff v, toUInt64?_eq_some_iff v,
    toUInt64?_eq_none_iff v⟩

-- a power of two and the numbers beside it, where the three widths part
example : (ofInt (-128)).bitLength = 8 ∧ (ofInt (-128)).signedWidth = 8 ∧
    (ofInt (-128)).literalWidth = 9 ∧ (ofInt (-127)).literalWidth = 8 ∧
    (ofInt (-129)).signedWidth = 9 := by
  decide +kernel

/-! ### Bit patterns -/

/-- A pattern has no bytes beyond its width. -/
theorem isLeast_length_bits (v : Value) (width : Nat) :
    IsLeast {n | width ≤ 8 * n} (v.bits width).bytes.length := by
  rw [length_bits]
  constructor
  · show width ≤ 8 * ((width + 7) / 8)
    omega
  · intro n hn
    have hbits : width ≤ 8 * n := hn
    omega

theorem toNat_bits_lt (v : Value) (width : Nat) :
    Magnitude.toNat (v.bits width).bytes < 2 ^ width := by
  have hlt : v.toInt % 2 ^ width < 2 ^ width := Int.emod_lt_of_pos _ (by positivity)
  rw [← toNat_bits] at hlt
  exact_mod_cast hlt

theorem testBit_bits_of_le (v : Value) {width i : Nat} (h : width ≤ i) :
    (Magnitude.toNat (v.bits width).bytes).testBit i = false := by
  apply Nat.testBit_lt_two_pow
  calc Magnitude.toNat (v.bits width).bytes < 2 ^ width := toNat_bits_lt v width
    _ ≤ 2 ^ i := Nat.pow_le_pow_right (by omega) h

/-- A window of a pattern cuts bits out of the residue. -/
theorem toNat_window_bits (v : Value) (width offset : Nat) {count : Nat} (h : count ≤ 8) :
    (((v.bits width).window offset count).toNat : Int) =
      v.toInt % 2 ^ width / 2 ^ offset % 2 ^ count := by
  rw [BitPattern.toNat_window _ _ h, ← toNat_bits]
  norm_cast

/-- **Bit patterns are residues.** At every width the pattern of a value has the fewest bytes that
    hold the width, and their number is the value modulo `2 ^ width`, with no bit above the width.
    Every group of at most eight bits is read out of it, wherever it lies, and is that part of the
    residue. -/
theorem bits_residue (v : Value) (width : Nat) :
    IsLeast {n | width ≤ 8 * n} (v.bits width).bytes.length ∧
    (Magnitude.toNat (v.bits width).bytes : Int) = v.toInt % 2 ^ width ∧
    (∀ i, width ≤ i → (Magnitude.toNat (v.bits width).bytes).testBit i = false) ∧
    ∀ offset count, count ≤ 8 → ∃ group, (v.bits width).extract offset count = .ok group ∧
      (group.toNat : Int) = v.toInt % 2 ^ width / 2 ^ offset % 2 ^ count := by
  refine ⟨isLeast_length_bits v width, toNat_bits v width,
    fun i hi => testBit_bits_of_le v hi, ?_⟩
  intro offset count hcount
  refine ⟨(v.bits width).window offset count, ?_, toNat_window_bits v width offset hcount⟩
  rw [BitPattern.extract, if_pos hcount]

/-- Twenty-one bits of a negative number: the seven bits from bit 11 on straddle two bytes, and of
    the eight bits from bit 17 on four lie past the width. -/
theorem bits_residue_partial :
    ((ofInt (-123456)).bits 21).bytes = [0xc0, 0x1d, 0x1e] ∧
    (Magnitude.toNat ((ofInt (-123456)).bits 21).bytes).testBit 21 = false ∧
    (∃ group, ((ofInt (-123456)).bits 21).extract 11 7 = .ok group ∧
      (group.toNat : Int) = (ofInt (-123456)).toInt % 2 ^ 21 / 2 ^ 11 % 2 ^ 7) ∧
    ∃ group, ((ofInt (-123456)).bits 21).extract 17 8 = .ok group ∧ group = 0x0f ∧
      (group.toNat : Int) = (ofInt (-123456)).toInt % 2 ^ 21 / 2 ^ 17 % 2 ^ 8 := by
  obtain ⟨-, -, hhigh, hgroup⟩ := bits_residue (ofInt (-123456)) 21
  refine ⟨by decide +kernel, hhigh 21 le_rfl, hgroup 11 7 (by decide), ?_⟩
  obtain ⟨group, hread, hvalue⟩ := hgroup 17 8 (by decide)
  refine ⟨group, hread, ?_, hvalue⟩
  have hexact : ((ofInt (-123456)).bits 21).extract 17 8 = .ok 0x0f := by decide +kernel
  rw [hexact] at hread
  exact (Except.ok.inj hread).symm

end Value

end DwarfExpr
