/-
  DwarfExpr/Proofs/Representation.lean
  ====================================
  **How values are held.** The type of values promises that the magnitude is trimmed and that zero
  has no sign.  `Value.Parts` is a sign and bytes without the promise, and the functions here build
  one from a text, from bytes and from a machine integer.  Each works on plain bytes and puts things
  in order at the end (`Parts.normalize`).  What comes out are the parts of the value that is built
  from the same input, and so they keep the promise as well (`Parts.Made.canonical`).

  The promise is what makes the comparison of sign and bytes a comparison of integers
  (`Parts.Canonical.eq_iff`).  Without it `[1]` and `[1, 0]` would be told apart, and so would a
  zero with a sign and one without.
-/
import DwarfExpr.Proofs.Except
import DwarfExpr.Proofs.LongArithmetic
import DwarfExpr.Proofs.Numeral

namespace DwarfExpr

namespace Value

/-- A sign and bytes, with nothing promised of them. -/
structure Parts where
  negative : Bool
  bytes : List UInt8
  deriving DecidableEq, Repr

def parts (v : Value) : Parts := ⟨v.negative, v.magnitude⟩

namespace Parts

/-! ### Building parts -/

/-- Takes zero bytes off the high end, and the sign off zero. -/
def normalize (p : Parts) : Parts :=
  let bytes := p.bytes.rdropWhile (· == 0)
  ⟨p.negative && !bytes.isEmpty, bytes⟩

/-- Reads digits behind a magnitude, in checked words. -/
def readDigits (r : Radix) (m : Magnitude) : List Char → Option (Except NumeralFault Magnitude)
  | [] => some (.ok m)
  | c :: digits =>
    match r.digit? c with
    | some d => do
      let next ← Magnitude.mulAddChecked r.base.toUInt32 d.toUInt32 m
      readDigits r next digits
    | none => some (.error (.notADigit c))

/-- Reads a number, in checked words. -/
def read (r : Radix) (text : List Char) : Option (Except NumeralFault Parts) :=
  let (negative, unsigned) := splitSign text
  if negative && r == .hexadecimal then some (.error .negativeHex)
  else
    match dropMark r unsigned with
    | [] => some (.error .empty)
    | c :: cs => do
      let result ← readDigits r [] (c :: cs)
      return result.map fun m => normalize ⟨negative, m⟩

/-- Reads little-endian bytes, in two's complement if `signed`. -/
def ofBytes (signed : Bool) (bytes : List UInt8) : Parts :=
  let negative := signed && topBit bytes
  normalize ⟨negative, if negative then Magnitude.negate bytes else bytes⟩

/-- A sign and the eight bytes of a word. -/
def ofWord (negative : Bool) (n : UInt64) : Parts :=
  normalize ⟨negative, Magnitude.resize 8 (Magnitude.ofNat n.toNat)⟩

/-- A signed word: its sign, and the eight bytes of its absolute value. -/
def ofSigned (i : Int64) : Parts := ofWord (decide (i < 0)) (UInt64.ofNat i.toInt.natAbs)

/-- The parts that are built from a text, from bytes, from a word, from a signed word, or from one
    byte. -/
inductive Made : Parts → Prop
  | read {r : Radix} {text : List Char} {p : Parts} (h : read r text = some (.ok p)) : Made p
  | bytes (signed : Bool) (bytes : List UInt8) : Made (ofBytes signed bytes)
  | word (n : UInt64) : Made (ofWord false n)
  | signed (i : Int64) : Made (ofSigned i)
  | byte (b : UInt8) : Made (ofWord false b.toUInt64)

/-! ### Canonical parts -/

def toInt (p : Parts) : Int :=
  if p.negative then -(Magnitude.toNat p.bytes : Int) else Magnitude.toNat p.bytes

/-- No zero byte stands at the high end, and zero has no sign. -/
structure Canonical (p : Parts) : Prop where
  noHighZero : p.bytes.getLast? ≠ some 0
  noNegativeZero : ¬ (p.negative = true ∧ p.toInt = 0)

theorem toInt_parts (v : Value) : v.parts.toInt = v.toInt := rfl

theorem canonical_parts (v : Value) : v.parts.Canonical := by
  refine ⟨v.trimmed, ?_⟩
  rintro ⟨hsign, hzero⟩
  have hneg : v.toInt < 0 := (negative_iff v).1 hsign
  rw [toInt_parts] at hzero
  omega

theorem Canonical.exists_value {p : Parts} (h : p.Canonical) : ∃ v : Value, v.parts = p := by
  have hne : p.negative = true → p.bytes ≠ [] := by
    intro hsign hnil
    exact h.noNegativeZero ⟨hsign, by simp [toInt, hnil]⟩
  exact ⟨⟨p.negative, p.bytes, h.noHighZero, hne⟩, rfl⟩

/-- **Comparing canonical parts compares integers.** -/
theorem Canonical.eq_iff {p q : Parts} (hp : p.Canonical) (hq : q.Canonical) :
    p = q ↔ p.toInt = q.toInt := by
  constructor
  · intro h
    rw [h]
  · intro h
    obtain ⟨v, rfl⟩ := hp.exists_value
    obtain ⟨w, rfl⟩ := hq.exists_value
    rw [toInt_injective h]

/-! ### The parts of values -/

theorem mulAddChecked_digit {r : Radix} {d : UInt32} (hd : d.toNat < r.base) (m : Magnitude) :
    Magnitude.mulAddChecked r.base.toUInt32 d m =
      some (Magnitude.mulAdd r.base.toUInt32 d m) := by
  have hbase := r.base_le
  have hword := Radix.toNat_toUInt32_of_le_base (Nat.le_refl r.base)
  exact Magnitude.mulAddChecked_eq (by omega) (by omega) m

theorem normalize_eq (negative : Bool) (m : Magnitude) :
    normalize ⟨negative, m⟩ = (ofMagnitude negative m).parts := by
  simp [normalize, parts, ofMagnitude, Magnitude.trim_eq_rdropWhile]

/-- **Digits are read in checked words**: no multiplication on the way overflows. -/
theorem readDigits_eq (r : Radix) (m : Magnitude) (digits : List Char) :
    readDigits r m digits = some (digits.foldlM (fun m c =>
      match r.digit? c with
      | some d => .ok (Magnitude.mulAdd r.base.toUInt32 d.toUInt32 m)
      | none => .error (.notADigit c)) m) := by
  induction digits generalizing m with
  | nil => rfl
  | cons c digits ih =>
    cases hd : r.digit? c with
    | none => simp [readDigits, hd, List.foldlM_cons, bind, Except.bind]
    | some d =>
      have hlt := Radix.digit?_lt hd
      have hdigit : d.toUInt32.toNat < r.base := by
        rwa [Radix.toNat_toUInt32_of_le_base (Nat.le_of_lt hlt)]
      have hstep := mulAddChecked_digit hdigit m
      simp [readDigits, hd, hstep, ih, List.foldlM_cons, bind, Except.bind]

theorem read_eq (r : Radix) (text : List Char) :
    read r text = some ((Value.read r text).map Value.parts) := by
  unfold read Value.read
  obtain ⟨negative, unsigned⟩ := splitSign text
  dsimp only
  split
  · rfl
  · cases dropMark r unsigned with
    | nil => rfl
    | cons c cs =>
      have hdigits : readDigits r [] (c :: cs) = some (Value.readDigits r (c :: cs)) :=
        readDigits_eq r [] (c :: cs)
      dsimp only
      rw [hdigits]
      cases Value.readDigits r (c :: cs) with
      | error fault => rfl
      | ok m => simp [Except.map, normalize_eq]

theorem ofBytes_eq (signed : Bool) (bytes : List UInt8) :
    ofBytes signed bytes = (Value.ofBytes signed bytes).parts := by
  unfold ofBytes Value.ofBytes
  cases h : signed && topBit bytes with
  | false => simp [normalize_eq]
  | true => simp [normalize_eq]

/-- The eight bytes of a word lose their zeros again. -/
theorem ofWord_eq (negative : Bool) (n : UInt64) :
    ofWord negative n = (ofMagnitude negative (Magnitude.ofNat n.toNat)).parts := by
  have hlt : n.toNat < 256 ^ 8 := n.toNat_lt
  rw [ofWord, normalize_eq]
  congr 1
  apply toInt_injective
  rw [toInt_ofMagnitude, toInt_ofMagnitude, Magnitude.toNat_resize, Magnitude.toNat_ofNat,
    Nat.mod_eq_of_lt hlt]

theorem ofSigned_eq (i : Int64) : ofSigned i = (Value.ofInt i.toInt).parts := by
  have hlow := i.le_toInt
  have hhigh := i.toInt_lt
  -- `-2 ^ 63` has no absolute value among the signed words, but the others have room for it
  have hword : (UInt64.ofNat i.toInt.natAbs).toNat = i.toInt.natAbs := by
    rw [UInt64.toNat_ofNat', Nat.mod_eq_of_lt (by omega)]
  have hsign : decide (i < 0) = decide (i.toInt < 0) := by
    simp [Int64.lt_iff_toInt_lt]
  rw [ofSigned, ofWord_eq, hword, hsign]
  rfl

theorem Made.exists_value {p : Parts} (h : Made p) : ∃ v : Value, v.parts = p := by
  cases h with
  | @read r text _ hread =>
    rw [read_eq, Option.some.injEq, map_eq_ok_iff] at hread
    obtain ⟨v, -, rfl⟩ := hread
    exact ⟨v, rfl⟩
  | bytes signed bytes => exact ⟨_, (ofBytes_eq signed bytes).symm⟩
  | word n => exact ⟨_, (ofWord_eq false n).symm⟩
  | signed i => exact ⟨_, (ofSigned_eq i).symm⟩
  | byte b => exact ⟨_, (ofWord_eq false b.toUInt64).symm⟩

/-- **Whatever is built is canonical.** -/
theorem Made.canonical {p : Parts} (h : Made p) : p.Canonical := by
  obtain ⟨v, rfl⟩ := h.exists_value
  exact canonical_parts v

end Parts

open Magnitude

/-- **Arithmetic on magnitudes is exact, and values are held in one way only.**  Multiplying by a
    base and adding a digit gives the right number in no more bytes than were given or are needed,
    and dividing by ten gives the trimmed quotient and the remainder.  The same goes through with
    every word checked for overflow and every digit of the quotient checked to be a byte.

    What is built from a text, from bytes or from a machine integer has no zero byte at the high end
    and is no negative zero.  So two of these are equal, sign by sign and byte by byte, exactly if
    they stand for the same integer. -/
theorem representation_exact :
    (∀ (r : Radix) (d : UInt32) (m : Magnitude), d.toNat < r.base →
      mulAddChecked r.base.toUInt32 d m = some (mulAdd r.base.toUInt32 d m) ∧
      toNat (mulAdd r.base.toUInt32 d m) = toNat m * r.base + d.toNat ∧
      IsLeast {n | m.length ≤ n ∧ toNat m * r.base + d.toNat < 256 ^ n}
        (mulAdd r.base.toUInt32 d m).length ∧
      (m.Trimmed → (mulAdd r.base.toUInt32 d m).Trimmed)) ∧
    (∀ m : Magnitude,
      divModChecked 10 m = some (divMod 10 m) ∧
      (divMod 10 m).1.Trimmed ∧ toNat (divMod 10 m).1 = toNat m / 10 ∧
      (divMod 10 m).2.toNat = toNat m % 10) ∧
    (∀ r text, Parts.read r text = some ((Value.read r text).map parts)) ∧
    (∀ signed bytes, Parts.ofBytes signed bytes = (Value.ofBytes signed bytes).parts) ∧
    (∀ n : UInt64, Parts.ofWord false n = (Value.ofNat n.toNat).parts) ∧
    (∀ i : Int64, Parts.ofSigned i = (Value.ofInt i.toInt).parts) ∧
    (∀ b : UInt8, Parts.ofWord false b.toUInt64 = (Value.ofNat b.toNat).parts) ∧
    (∀ p, Parts.Made p → p.Canonical) ∧
    ∀ p q, Parts.Made p → Parts.Made q → (p = q ↔ p.toInt = q.toInt) := by
  refine ⟨?_, ?_, Parts.read_eq, Parts.ofBytes_eq, Parts.ofWord_eq false, Parts.ofSigned_eq,
    fun b => Parts.ofWord_eq false b.toUInt64, fun p hp => hp.canonical, ?_⟩
  · intro r d m hd
    have hle := r.base_le
    have hpos := r.base_pos
    have hbase := Radix.toNat_toUInt32_of_le_base (Nat.le_refl r.base)
    have hfactor : r.base.toUInt32.toNat < 2 ^ 23 := by omega
    have hcarry : d.toNat < 2 ^ 31 := by omega
    have hnat := toNat_mulAdd hfactor m hcarry
    have hlength := isLeast_length_mulAdd hfactor hcarry m
    rw [hbase] at hnat hlength
    refine ⟨Parts.mulAddChecked_digit hd m, hnat, hlength, ?_⟩
    exact trimmed_mulAdd hfactor (by omega) hcarry
  · intro m
    obtain ⟨hquot, hrest⟩ := @toNat_divMod 10 (by decide) (by decide) m
    exact ⟨divModChecked_eq (by decide) (by decide) m, trimmed_divMod 10 m, hquot, hrest⟩
  · intro p q hp hq
    exact hp.canonical.eq_iff hq.canonical

/-- A product with a carry into a third byte, a quotient that is a byte shorter, and a negative
    number in one byte more than it needs. -/
theorem representation_exact_shortened :
    (15 : UInt32).toNat < Radix.hexadecimal.base ∧ Trimmed [0xff, 0xff] ∧
    mulAddChecked 16 15 [0xff, 0xff] = some [0xff, 0xff, 0x0f] ∧
    Trimmed [0xff, 0xff, 0x0f] ∧
    divModChecked 10 [0x00, 0x01] = some ([25], 6) ∧
    Parts.Made (Parts.ofBytes true [0x80, 0xff]) ∧ Parts.Made (Parts.ofSigned (-128)) ∧
    (Parts.ofBytes true [0x80, 0xff]).bytes = [0x80] ∧
    (Parts.ofBytes true [0x80, 0xff]).toInt = (Parts.ofSigned (-128)).toInt ∧
    Parts.ofBytes true [0x80, 0xff] = Parts.ofSigned (-128) := by
  obtain ⟨hmul, hdiv, -, -, -, -, -, -, hequal⟩ := representation_exact
  have hproduct : mulAdd 16 15 [0xff, 0xff] = [0xff, 0xff, 0x0f] := by decide +kernel
  have hquotient : divMod 10 [0x00, 0x01] = ([25], 6) := by decide +kernel
  obtain ⟨hchecked, -, -, htrimmed⟩ := hmul .hexadecimal 15 [0xff, 0xff] (by decide)
  have hsame : (Parts.ofBytes true [0x80, 0xff]).toInt = (Parts.ofSigned (-128)).toInt := by
    decide +kernel
  refine ⟨by decide, by decide, hchecked.trans (congrArg some hproduct), ?_,
    (hdiv _).1.trans (congrArg some hquotient), .bytes _ _, .signed _, by decide +kernel, hsame,
    (hequal _ _ (.bytes _ _) (.signed _)).2 hsame⟩
  rw [← hproduct]
  exact htrimmed (by decide)

end Value

end DwarfExpr
