/-
  DwarfExpr/Proofs/LongArithmetic.lean
  ====================================
  **Long multiplication and division in checked words.** `Magnitude.mulAdd` and `Magnitude.divMod`
  compute in words that would wrap around.  Here the two are done once more as on paper, one byte
  after another in its place, and every result has to fit: `word?` refuses a number that is no
  32-bit word, and `byte?` refuses a word that is no byte.

    * `mulByte_eq` and `divByte_eq` are the steps.  A step can be taken from any carry below
      `2 ^ 31`, or any remainder below the divisor, and leaves such a one behind.
    * `mulBytes_eq` and `divBytes_eq` are the runs, over any number of bytes.

  So nothing is ever refused, and the results are the same (`mulAddChecked_eq`, `divModChecked_eq`).

  A product is written in at least as many bytes as the magnitude was given in, and in more only if
  it needs them (`isLeast_length_mulAdd`).  For a trimmed magnitude this means that the product is
  trimmed again, since it is not less (`trimmed_mulAdd`).
-/
import DwarfExpr.Proofs.Magnitude
import Mathlib.Data.List.DropRight
import Mathlib.Order.Bounds.Basic

namespace DwarfExpr

namespace Magnitude

/-! ### Trimming -/

/-- **Trimmed is as short as can be.** -/
theorem trimmed_iff_isLeast_length (m : Magnitude) :
    m.Trimmed ↔ IsLeast {n | toNat m < 256 ^ n} m.length := by
  constructor
  · intro h
    refine ⟨toNat_lt m, ?_⟩
    intro n hn
    exact (length_le_iff h n).2 hn
  · rintro ⟨-, hleast⟩ hlast
    -- without the zero byte at the high end the bytes spell the same number
    obtain ⟨low, rfl⟩ := List.getLast?_eq_some_iff.1 hlast
    have hshort : toNat (low ++ [0]) < 256 ^ low.length := by
      rw [toNat_append]
      simpa using toNat_lt low
    have hle : (low ++ [(0 : UInt8)]).length ≤ low.length := hleast hshort
    simp at hle

/-- Trimming takes zero bytes off the high end, one after the other. -/
theorem trim_eq_rdropWhile (m : Magnitude) : trim m = m.rdropWhile (· == 0) := by
  apply eq_of_trimmed (trimmed_trim m)
  · intro hlast
    obtain ⟨low, hlow⟩ := List.getLast?_eq_some_iff.1 hlast
    have hne : m.rdropWhile (· == 0) ≠ [] := by simp [hlow]
    have hnot := List.rdropWhile_last_not (· == 0) m hne
    simp [hlow] at hnot
  · rw [toNat_trim]
    induction m using List.reverseRecOn with
    | nil => rfl
    | append_singleton m b ih =>
      by_cases hb : b = 0
      · rw [List.rdropWhile_concat_pos _ _ _ (by simp [hb]), ← ih, hb, toNat_append]
        simp
      · rw [List.rdropWhile_concat_neg _ _ _ (by simp [hb])]

/-! ### Checked words -/

/-- The word of a number, if it has one. -/
def word? (n : Nat) : Option UInt32 := if n < 2 ^ 32 then some (UInt32.ofNat n) else none

/-- A word as a byte, if nothing of it is lost. -/
def byte? (w : UInt32) : Option UInt8 := if w.toNat < 2 ^ 8 then some w.toUInt8 else none

theorem word?_eq_some_iff {n : Nat} {w : UInt32} : word? n = some w ↔ w.toNat = n := by
  have hw := w.toNat_lt
  unfold word?
  split
  · next hn =>
    rw [Option.some.injEq, ← UInt32.toNat_inj, UInt32.toNat_ofNat', Nat.mod_eq_of_lt hn]
    exact eq_comm
  · next hn =>
    simp only [reduceCtorEq, false_iff]
    omega

theorem byte?_eq_some_iff {w : UInt32} {b : UInt8} : byte? w = some b ↔ b.toNat = w.toNat := by
  have hb := b.toNat_lt
  unfold byte?
  split
  · next hw =>
    rw [Option.some.injEq, ← UInt8.toNat_inj, UInt32.toNat_toUInt8, Nat.mod_eq_of_lt hw]
    exact eq_comm
  · next hw =>
    simp only [reduceCtorEq, false_iff]
    omega

theorem byte?_low (w : UInt32) : byte? (w &&& 0xff) = some w.toUInt8 := by
  rw [byte?_eq_some_iff, UInt32.toNat_toUInt8, UInt32.toNat_and]
  exact (Nat.and_two_pow_sub_one_eq_mod w.toNat 8).symm

/-! ### Multiplication -/

/-- One byte of a multiplication: what is left in its place, and the carry to the next. -/
def mulByte (factor carry : UInt32) (b : UInt8) : Option (UInt8 × UInt32) := do
  let product ← word? (b.toNat * factor.toNat)
  let word ← word? (product.toNat + carry.toNat)
  let low ← byte? (word &&& 0xff)
  return (low, word >>> 8)

/-- All bytes of a multiplication from the low end on, and the carry behind the last. -/
def mulBytes (factor : UInt32) : UInt32 → Magnitude → Option (Magnitude × UInt32)
  | carry, [] => some ([], carry)
  | carry, b :: m => do
    let (low, carry) ← mulByte factor carry b
    let (rest, carry) ← mulBytes factor carry m
    return (low :: rest, carry)

/-- The bytes that a carry adds at the high end. -/
def carryBytes (carry : UInt32) : Option Magnitude :=
  if carry = 0 then some []
  else do
    let low ← byte? (carry &&& 0xff)
    let rest ← carryBytes (carry >>> 8)
    return low :: rest
termination_by carry.toNat
decreasing_by
  next h =>
    have hpos : carry.toNat ≠ 0 := fun hzero => h (UInt32.toNat_inj.1 hzero)
    rw [toNat_shiftRight_eight]
    omega

/-- `m * factor + addend`, in checked words. -/
def mulAddChecked (factor addend : UInt32) (m : Magnitude) : Option Magnitude := do
  let (low, carry) ← mulBytes factor addend m
  let high ← carryBytes carry
  return low ++ high

theorem carryBytes_eq (carry : UInt32) : carryBytes carry = some (ofNat carry.toNat) := by
  fun_induction carryBytes carry with
  | case1 =>
    rw [UInt32.toNat_zero, ofNat, if_pos rfl]
  | case2 carry hne ih =>
    have hpos : carry.toNat ≠ 0 := fun hzero => hne (UInt32.toNat_inj.1 hzero)
    rw [byte?_low, ih, toNat_shiftRight_eight]
    conv_rhs => rw [ofNat, if_neg hpos]
    rfl

section Multiplication

variable {factor : UInt32} (hfactor : factor.toNat < 2 ^ 23)
include hfactor

/-- **One byte of a multiplication**: no word overflows. -/
theorem mulByte_eq {carry : UInt32} (hcarry : carry.toNat < 2 ^ 31) (b : UInt8) :
    mulByte factor carry b = some ((b.toUInt32 * factor + carry).toUInt8,
      (b.toUInt32 * factor + carry) >>> 8) := by
  have hproduct : (b.toUInt32 * factor).toNat = b.toNat * factor.toNat := by
    have hzero : (0 : UInt32).toNat < 2 ^ 31 := by decide
    simpa using toNat_mulWord hfactor hzero b
  have hword : (b.toUInt32 * factor + carry).toNat =
      (b.toUInt32 * factor).toNat + carry.toNat := by
    rw [toNat_mulWord hfactor hcarry, hproduct]
  rw [mulByte, word?_eq_some_iff.2 hproduct, Option.bind_eq_bind, Option.bind_some,
    word?_eq_some_iff.2 hword, Option.bind_some, byte?_low]
  rfl

/-- **All bytes of a multiplication**: what is left in their places, with the bytes of the last
    carry behind it, is the product. -/
theorem mulBytes_eq {carry : UInt32} (hcarry : carry.toNat < 2 ^ 31) (m : Magnitude) :
    ∃ low last, mulBytes factor carry m = some (low, last) ∧
      low ++ ofNat last.toNat = mulAdd factor carry m := by
  induction m generalizing carry with
  | nil => exact ⟨[], carry, rfl, rfl⟩
  | cons b m ih =>
    obtain ⟨low, last, hrun, heq⟩ := ih (shiftRight_eight_lt (b.toUInt32 * factor + carry))
    refine ⟨(b.toUInt32 * factor + carry).toUInt8 :: low, last, ?_, ?_⟩
    · simp [mulBytes, mulByte_eq hfactor hcarry, hrun]
    · rw [List.cons_append, heq, mulAdd]

/-- **Checked multiplication is multiplication.** -/
theorem mulAddChecked_eq {addend : UInt32} (haddend : addend.toNat < 2 ^ 31) (m : Magnitude) :
    mulAddChecked factor addend m = some (mulAdd factor addend m) := by
  obtain ⟨low, last, hrun, heq⟩ := mulBytes_eq hfactor haddend m
  simp [mulAddChecked, hrun, carryBytes_eq, heq]

theorem length_mulAdd_le_iff {carry : UInt32} (hcarry : carry.toNat < 2 ^ 31) (m : Magnitude)
    (n : Nat) :
    (mulAdd factor carry m).length ≤ n ↔
      m.length ≤ n ∧ toNat m * factor.toNat + carry.toNat < 256 ^ n := by
  induction m generalizing carry n with
  | nil =>
    rw [mulAdd, length_le_iff (trimmed_ofNat _), toNat_ofNat]
    simp
  | cons b m ih =>
    have hword := toNat_mulWord hfactor hcarry b
    have hsplit : toNat (b :: m) * factor.toNat + carry.toNat =
        b.toNat * factor.toNat + carry.toNat + 256 * (toNat m * factor.toNat) := by
      rw [toNat_cons]
      ring
    cases n with
    | zero => simp [mulAdd]
    | succ n =>
      have htail := ih (shiftRight_eight_lt (b.toUInt32 * factor + carry)) n
      rw [toNat_shiftRight_eight, hword] at htail
      rw [mulAdd, List.length_cons, List.length_cons, Nat.add_le_add_iff_right,
        Nat.add_le_add_iff_right, htail, hsplit, pow_succ]
      omega

theorem isLeast_length_mulAdd {carry : UInt32} (hcarry : carry.toNat < 2 ^ 31) (m : Magnitude) :
    IsLeast {n | m.length ≤ n ∧ toNat m * factor.toNat + carry.toNat < 256 ^ n}
      (mulAdd factor carry m).length := by
  constructor
  · exact (length_mulAdd_le_iff hfactor hcarry m _).1 le_rfl
  · intro n hn
    exact (length_mulAdd_le_iff hfactor hcarry m n).2 hn

theorem trimmed_mulAdd (hpos : 0 < factor.toNat) {carry : UInt32} (hcarry : carry.toNat < 2 ^ 31)
    {m : Magnitude} (h : m.Trimmed) : (mulAdd factor carry m).Trimmed := by
  have hle : toNat m ≤ toNat m * factor.toNat := Nat.le_mul_of_pos_right _ hpos
  obtain ⟨⟨-, hholds⟩, hleast⟩ := isLeast_length_mulAdd hfactor hcarry m
  rw [trimmed_iff_isLeast_length, toNat_mulAdd hfactor m hcarry]
  refine ⟨hholds, ?_⟩
  intro n (hn : toNat m * factor.toNat + carry.toNat < 256 ^ n)
  -- bytes that hold the product hold the magnitude too
  have hshort : m.length ≤ n := (length_le_iff h n).2 (by omega)
  exact hleast ⟨hshort, hn⟩

end Multiplication

-- a factor for which a product overflows, and one for which only the sum does
example : mulByte 0x80000000 0 2 = none ∧ mulByte 0x80000000 0x80000000 1 = none := by decide

/-! ### Division -/

/-- One byte of a division: the digit that takes its place, and the remainder. -/
def divByte (divisor rest : UInt32) (b : UInt8) : Option (UInt8 × UInt32) := do
  let shifted ← word? (rest.toNat <<< 8)
  let word := shifted ||| b.toUInt32
  let digit ← byte? (word / divisor)
  return (digit, word % divisor)

/-- All bytes of a division from the high end on, and the last remainder. -/
def divBytes (divisor : UInt32) : Magnitude → Option (Magnitude × UInt32)
  | [] => some ([], 0)
  | b :: m => do
    let (high, rest) ← divBytes divisor m
    let (digit, rest) ← divByte divisor rest b
    return (digit :: high, rest)

/-- Quotient and remainder, in checked words. -/
def divModChecked (divisor : UInt32) (m : Magnitude) : Option (Magnitude × UInt32) := do
  let (digits, rest) ← divBytes divisor m
  return (digits.rdropWhile (· == 0), rest)

section Division

variable {divisor : UInt32} (hdivisor : divisor.toNat < 2 ^ 23)
include hdivisor

/-- **One byte of a division**: no word overflows, and the digit is a byte. -/
theorem divByte_eq {rest : UInt32} (hrest : rest.toNat < divisor.toNat) (b : UInt8) :
    divByte divisor rest b = some (((rest * 256 + b.toUInt32) / divisor).toUInt8,
      (rest * 256 + b.toUInt32) % divisor) := by
  have hb := b.toNat_lt
  have hword := toNat_divWord rest b (by omega)
  have hshift : (rest * 256).toNat = rest.toNat <<< 8 := by
    have hzero := toNat_divWord rest 0 (by omega)
    rw [Nat.shiftLeft_eq]
    simpa using hzero
  have hor : rest * 256 ||| b.toUInt32 = rest * 256 + b.toUInt32 := by
    rw [← UInt32.toNat_inj, UInt32.toNat_or, UInt8.toNat_toUInt32, hshift,
      ← Nat.shiftLeft_add_eq_or_of_lt hb, Nat.shiftLeft_eq, hword]
  have hdigit : ((rest * 256 + b.toUInt32) / divisor).toUInt8.toNat =
      ((rest * 256 + b.toUInt32) / divisor).toNat := by
    rw [UInt32.toNat_toUInt8, UInt32.toNat_div, hword]
    exact Nat.mod_eq_of_lt (div_divisor_lt hrest hb)
  simp only [divByte, word?_eq_some_iff.2 hshift, Option.bind_eq_bind, Option.bind_some, hor,
    byte?_eq_some_iff.2 hdigit]
  rfl

/-- **All bytes of a division**: trimmed, the digits are the quotient. -/
theorem divBytes_eq (hpos : 0 < divisor.toNat) (m : Magnitude) :
    ∃ digits, divBytes divisor m = some (digits, (divMod divisor m).2) ∧
      trim digits = (divMod divisor m).1 := by
  induction m with
  | nil => exact ⟨[], rfl, rfl⟩
  | cons b m ih =>
    obtain ⟨high, hrun, htrim⟩ := ih
    have hrest : (divMod divisor m).2.toNat < divisor.toNat := by
      rw [(toNat_divMod hpos hdivisor m).2]
      exact Nat.mod_lt _ hpos
    refine ⟨(((divMod divisor m).2 * 256 + b.toUInt32) / divisor).toUInt8 :: high, ?_, ?_⟩
    · simp [divBytes, hrun, divByte_eq hdivisor hrest, divMod]
    · rw [trim, List.foldr_cons, ← trim, htrim]
      rfl

/-- **Checked division is division.** -/
theorem divModChecked_eq (hpos : 0 < divisor.toNat) (m : Magnitude) :
    divModChecked divisor m = some (divMod divisor m) := by
  obtain ⟨digits, hrun, htrim⟩ := divBytes_eq hdivisor hpos m
  simp [divModChecked, hrun, ← trim_eq_rdropWhile, htrim]

end Division

-- a remainder as great as the divisor would give a digit of 256
example : divByte 10 9 0xff = some (0xff, 9) ∧ divByte 10 10 0 = none := by decide

end Magnitude

end DwarfExpr
