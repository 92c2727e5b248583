/-
  DwarfExpr/Proofs/Numeral.lean
  =============================
  **Numbers as text, read back.** Digits spell a number by position (`Radix.number`).  Reading
  digits computes that number, writing a value produces digits of it, and so a value is read back
  from its own text (`Value.read_text`); a negative value has no hexadecimal text that can be read.
-/
import DwarfExpr.Numeral
import DwarfExpr.Proofs.Value

namespace DwarfExpr

namespace Radix

/-- The number that digits spell, the first being the most significant. -/
def number (r : Radix) (digits : List Char) : Nat :=
  digits.foldl (fun n c => n * r.base + (r.digit? c).getD 0) 0

theorem number_append_singleton (r : Radix) (digits : List Char) (c : Char) :
    r.number (digits ++ [c]) = r.number digits * r.base + (r.digit? c).getD 0 := by
  simp [number]

theorem digit?_digitChar (r : Radix) {d : Nat} (h : d < r.base) :
    r.digit? (Nat.digitChar d) = some d := by
  cases r with
  | decimal =>
    have hall : ∀ d < 10, decimal.digit? (Nat.digitChar d) = some d := by decide
    exact hall d h
  | hexadecimal =>
    have hall : ∀ d < 16, hexadecimal.digit? (Nat.digitChar d) = some d := by decide
    exact hall d h

theorem digit?_lt {r : Radix} {c : Char} {d : Nat} (h : r.digit? c = some d) : d < r.base := by
  simp only [digit?, Option.ite_none_right_eq_some, Option.some.injEq] at h
  omega

theorem base_le (r : Radix) : r.base ≤ 16 := by cases r <;> decide

theorem base_pos (r : Radix) : 0 < r.base := by cases r <;> decide

/-- Base and digits are small words. -/
theorem toNat_toUInt32_of_le_base {r : Radix} {n : Nat} (h : n ≤ r.base) :
    n.toUInt32.toNat = n := by
  have hbase := r.base_le
  rw [Nat.toUInt32_eq, UInt32.toNat_ofNat', Nat.mod_eq_of_lt (by omega)]

/-- Zeros in front of digits add nothing. -/
theorem number_dropWhile_zero (r : Radix) (digits : List Char) :
    r.number (digits.dropWhile (· == '0')) = r.number digits := by
  induction digits with
  | nil => rfl
  | cons c digits ih =>
    by_cases hc : c = '0'
    · have hzero : r.digit? '0' = some 0 := by cases r <;> decide
      have hskip : r.number ('0' :: digits) = r.number digits := by simp [number, hzero]
      rw [hc, hskip, List.dropWhile_cons_of_pos (by simp), ih]
    · rw [List.dropWhile_cons_of_neg (by simpa using hc)]

end Radix

namespace Value

/-! ### Reading -/

/-- Digits after the magnitude `m` are read as digits after its number. -/
theorem foldlM_digits (r : Radix) {digits : List Char} (h : ∀ c ∈ digits, (r.digit? c).isSome)
    (m : Magnitude) :
    ∃ m', digits.foldlM (fun m c =>
        match r.digit? c with
        | some d => .ok (Magnitude.mulAdd r.base.toUInt32 d.toUInt32 m)
        | none => .error (.notADigit c)) m = (.ok m' : Except NumeralFault Magnitude) ∧
      m'.toNat = digits.foldl (fun n c => n * r.base + (r.digit? c).getD 0) m.toNat := by
  induction digits generalizing m with
  | nil => exact ⟨m, rfl, rfl⟩
  | cons c digits ih =>
    obtain ⟨d, hd⟩ := Option.isSome_iff_exists.1 (h c (by simp))
    have hlt := Radix.digit?_lt hd
    have hbase := r.base_le
    have hfactor := Radix.toNat_toUInt32_of_le_base (Nat.le_refl r.base)
    have hcarry := Radix.toNat_toUInt32_of_le_base (Nat.le_of_lt hlt)
    have hstep : (Magnitude.mulAdd r.base.toUInt32 d.toUInt32 m).toNat = m.toNat * r.base + d := by
      rw [Magnitude.toNat_mulAdd (by omega) m (by omega), hfactor, hcarry]
    obtain ⟨m', hm', hnat⟩ := ih (fun b hb => h b (by simp [hb]))
      (Magnitude.mulAdd r.base.toUInt32 d.toUInt32 m)
    refine ⟨m', ?_, ?_⟩
    · rw [List.foldlM_cons, hd]
      exact hm'
    · rw [hnat, hstep, List.foldl_cons, hd]
      rfl

theorem readDigits_eq_ok (r : Radix) {digits : List Char}
    (h : ∀ c ∈ digits, (r.digit? c).isSome) :
    ∃ m, readDigits r digits = .ok m ∧ m.toNat = r.number digits :=
  foldlM_digits r h []

theorem splitSign_of_digit {r : Radix} {c : Char} (digits : List Char)
    (h : (r.digit? c).isSome) : splitSign (c :: digits) = (false, c :: digits) := by
  have hc : c ≠ '-' := by
    rintro rfl
    cases r <;> exact absurd h (by decide)
  unfold splitSign
  split
  · next heq => exact absurd (List.cons.inj heq).1 hc
  · rfl

/-! ### Writing -/

/-- The decimal digits of a magnitude, if there is room for all of them. -/
theorem number_decimalDigits {count : Nat} {m : Magnitude} (htrim : m.Trimmed)
    (h : m.toNat < 10 ^ count) :
    Radix.decimal.number (decimalDigits count m).reverse = m.toNat ∧
      ∀ c ∈ decimalDigits count m, (Radix.decimal.digit? c).isSome := by
  induction count generalizing m with
  | zero =>
    have hzero : m.toNat = 0 := by simpa using h
    simp [decimalDigits, Radix.number, hzero]
  | succ count ih =>
    cases m with
    | nil => simp [decimalDigits, Radix.number]
    | cons b m =>
      obtain ⟨hquot, hrest⟩ := @Magnitude.toNat_divMod 10 (by decide) (by decide) (b :: m)
      simp only [UInt32.reduceToNat] at hquot hrest
      have hdigit := Radix.digit?_digitChar .decimal (d := Magnitude.toNat (b :: m) % 10)
        (Nat.mod_lt _ (by decide))
      have htail := ih (m := (Magnitude.divMod 10 (b :: m)).1) (Magnitude.trimmed_divMod 10 _)
        (by rw [hquot, pow_succ] at *; omega)
      simp only [decimalDigits, List.reverse_cons, Radix.number_append_singleton, List.mem_cons]
      rw [htail.1, hquot, hrest, hdigit]
      constructor
      · simp only [Option.getD_some, Radix.base]
        omega
      · rintro c (rfl | hc)
        · rw [hdigit]
          rfl
        · exact htail.2 c hc

/-- Three decimal digits a byte are enough. -/
theorem toNat_lt_ten_pow (m : Magnitude) : m.toNat < 10 ^ (3 * m.length) := by
  apply Nat.lt_of_lt_of_le (Magnitude.toNat_lt m)
  rw [pow_mul]
  exact Nat.pow_le_pow_left (by decide) _

theorem number_hexadecimal (m : Magnitude) :
    Radix.hexadecimal.number (m.reverse.flatMap ByteText.digits) = m.toNat ∧
      ∀ c ∈ m.reverse.flatMap ByteText.digits, (Radix.hexadecimal.digit? c).isSome := by
  induction m with
  | nil => simp [Radix.number]
  | cons b m ih =>
    have hb := b.toNat_lt
    have hhigh := Radix.digit?_digitChar .hexadecimal (d := b.toNat / 16)
      (by simp only [Radix.base]; omega)
    have hlow := Radix.digit?_digitChar .hexadecimal (d := b.toNat % 16)
      (by simp only [Radix.base]; omega)
    have hsplit : (b :: m).reverse.flatMap ByteText.digits =
        m.reverse.flatMap ByteText.digits ++ [Nat.digitChar (b.toNat / 16)] ++
          [Nat.digitChar (b.toNat % 16)] := by
      simp [ByteText.digits]
    rw [hsplit, Radix.number_append_singleton, Radix.number_append_singleton, hhigh, hlow, ih.1]
    constructor
    · simp only [Option.getD_some, Radix.base, Magnitude.toNat_cons]
      omega
    · intro c hc
      simp only [List.mem_append, List.mem_singleton] at hc
      rcases hc with (hc | rfl) | rfl
      · exact ih.2 c hc
      · rw [hhigh]
        rfl
      · rw [hlow]
        rfl

/-- **The digits of a value spell its magnitude.** -/
theorem number_digits (r : Radix) (v : Value) :
    r.number (v.digits r) = v.toInt.natAbs ∧ ∀ c ∈ v.digits r, (r.digit? c).isSome := by
  have htrim := v.trimmed
  rw [natAbs_toInt, digits]
  cases hm : v.magnitude with
  | nil =>
    refine ⟨by cases r <;> rfl, ?_⟩
    intro c hc
    obtain rfl : c = '0' := by simpa using hc
    cases r <;> rfl
  | cons b m =>
    rw [hm] at htrim
    cases r with
    | decimal =>
      obtain ⟨hnumber, hdigits⟩ := number_decimalDigits htrim (toNat_lt_ten_pow (b :: m))
      exact ⟨hnumber, fun c hc => hdigits c (List.mem_reverse.1 hc)⟩
    | hexadecimal =>
      obtain ⟨hnumber, hdigits⟩ := number_hexadecimal (b :: m)
      refine ⟨?_, fun c hc => hdigits c ((List.dropWhile_suffix _).subset hc)⟩
      rw [Radix.number_dropWhile_zero, hnumber]

theorem digits_ne_nil (r : Radix) (v : Value) : v.digits r ≠ [] := by
  intro hnil
  have hnumber := (number_digits r v).1
  rw [hnil, natAbs_toInt] at hnumber
  have hzero : v.magnitude = [] := (Magnitude.toNat_eq_zero_iff v.trimmed).1 hnumber.symm
  simp [digits, hzero] at hnil

theorem toList_text (r : Radix) (v : Value) :
    (v.text r).toList = (if v.negative then ['-'] else []) ++ r.mark.toList ++ v.digits r := by
  unfold text
  split <;> simp

/-- **A value is read back from its own text**, unless that is a negative hexadecimal one. -/
theorem read_text {r : Radix} {v : Value} (h : r = .hexadecimal → 0 ≤ v.toInt) :
    read r (v.text r).toList = .ok v := by
  obtain ⟨hnumber, hdigits⟩ := number_digits r v
  obtain ⟨m, hread, hnat⟩ := readDigits_eq_ok r hdigits
  obtain ⟨c, cs, hcs⟩ := List.exists_cons_of_ne_nil (digits_ne_nil r v)
  have hvalue : ofMagnitude v.negative m = v := by
    apply toInt_injective
    rw [toInt_ofMagnitude, hnat, hnumber, natAbs_toInt]
    rfl
  have hc : (r.digit? c).isSome := hdigits c (by simp [hcs])
  rw [toList_text, hcs]
  rw [hcs] at hread
  cases r with
  | decimal =>
    cases hv : v.negative with
    | true =>
      rw [hv] at hvalue
      simp [read, splitSign, dropMark, Radix.mark, hread, hvalue, Except.map]
    | false =>
      rw [hv] at hvalue
      simp [read, splitSign_of_digit cs hc, dropMark, Radix.mark, hread, hvalue, Except.map]
  | hexadecimal =>
    have hv : v.negative = false := (not_negative_iff v).2 (h rfl)
    rw [hv] at hvalue ⊢
    simp [read, splitSign, dropMark, Radix.mark, hread, hvalue, Except.map]

end Value

end DwarfExpr
