/-
  DwarfExpr/Proofs/Magnitude.lean
  ===============================
  **What the operations on magnitudes do to the number.** Every operation works byte by byte; the
  lemmas here say what it does to `toNat`, and later modules never look at the bytes again.

    * `toNat_mulAdd`, `toNat_divMod`: long multiplication and division are exact, since no 32-bit
      word overflows;
    * `toNat_negate`: the complement of a byte string of length `n` is its negative modulo
      `256 ^ n`;
    * `bitLength_le_iff`: the bit length of a trimmed magnitude is the least width that holds it,
      and `bitLength_pred_le_iff` says the same of the predecessor, which need not be trimmed.
-/
import DwarfExpr.Magnitude
import Mathlib.Data.Int.ModEq
import Mathlib.Data.Nat.Size
import Mathlib.Tactic.Linarith
import Mathlib.Tactic.Ring

namespace DwarfExpr

namespace Magnitude

@[simp] theorem toNat_nil : toNat [] = 0 := rfl

@[simp] theorem toNat_cons (b : UInt8) (m : Magnitude) :
    toNat (b :: m) = b.toNat + 256 * toNat m := rfl

theorem toNat_append (l m : Magnitude) : toNat (l ++ m) = toNat l + 256 ^ l.length * toNat m := by
  induction l with
  | nil => simp
  | cons b l ih =>
    simp only [List.cons_append, toNat_cons, List.length_cons, ih, pow_succ]
    ring

@[simp] theorem toNat_replicate_zero (n : Nat) : toNat (List.replicate n 0) = 0 := by
  induction n with
  | zero => rfl
  | succ n ih => simp [List.replicate_succ, ih]

theorem toNat_lt (m : Magnitude) : toNat m < 256 ^ m.length := by
  induction m with
  | nil => simp
  | cons b m ih =>
    have hb := b.toNat_lt
    rw [toNat_cons, List.length_cons, pow_succ]
    omega

theorem toNat_ne_zero {b : UInt8} (h : b ≠ 0) : b.toNat ≠ 0 := by
  intro hzero
  exact h (UInt8.toNat_inj.1 hzero)

/-! ### One spelling for each number -/

/-- Byte strings of one length are told apart by their numbers. -/
theorem eq_of_toNat_eq {l m : Magnitude} (hlen : l.length = m.length) (h : toNat l = toNat m) :
    l = m := by
  induction l generalizing m with
  | nil => exact (List.length_eq_zero_iff.1 hlen.symm).symm
  | cons b l ih =>
    cases m with
    | nil => simp at hlen
    | cons c m =>
      have hb := b.toNat_lt
      have hc := c.toNat_lt
      simp only [toNat_cons] at h
      have hhead : b = c := UInt8.toNat_inj.1 (by omega)
      have htail : l = m := ih (by simpa using hlen) (by omega)
      rw [hhead, htail]

theorem trimmed_of_cons {b : UInt8} {m : Magnitude} (h : Trimmed (b :: m)) : m.Trimmed := by
  cases m with
  | nil => exact trimmed_nil
  | cons c m => simpa [Trimmed, List.getLast?_cons_cons] using h

theorem trimmed_drop (i : Nat) {m : Magnitude} (h : m.Trimmed) : Trimmed (m.drop i) := by
  induction i generalizing m with
  | zero => exact h
  | succ i ih =>
    cases m with
    | nil => exact trimmed_nil
    | cons b m => exact ih (trimmed_of_cons h)

/-- Only zero has no bytes. -/
theorem toNat_eq_zero_iff {m : Magnitude} (h : m.Trimmed) : toNat m = 0 ↔ m = [] := by
  constructor
  · intro hzero
    induction m with
    | nil => rfl
    | cons b m ih =>
      have hm : m = [] := ih (trimmed_of_cons h) (by rw [toNat_cons] at hzero; omega)
      subst hm
      have hb : b = 0 := UInt8.toNat_inj.1 (by rw [toNat_cons] at hzero; simpa using hzero)
      simp [Trimmed, hb] at h
  · rintro rfl
    rfl

/-- Trimmed magnitudes are told apart by their numbers. -/
theorem eq_of_trimmed {l m : Magnitude} (hl : l.Trimmed) (hm : m.Trimmed)
    (h : toNat l = toNat m) : l = m := by
  induction l generalizing m with
  | nil => exact ((toNat_eq_zero_iff hm).1 h.symm).symm
  | cons b l ih =>
    cases m with
    | nil => exact (toNat_eq_zero_iff hl).1 h
    | cons c m =>
      have hb := b.toNat_lt
      have hc := c.toNat_lt
      simp only [toNat_cons] at h
      have hhead : b = c := UInt8.toNat_inj.1 (by omega)
      have htail : l = m := ih (trimmed_of_cons hl) (trimmed_of_cons hm) (by omega)
      rw [hhead, htail]

/-! ### Multiplication and division -/

@[simp] theorem toNat_ofNat (n : Nat) : toNat (ofNat n) = n := by
  induction n using Nat.strong_induction_on with
  | h n ih =>
    unfold ofNat
    split
    · next h => rw [h, toNat_nil]
    · next h =>
      have hquot : toNat (ofNat (n / 256)) = n / 256 := ih (n / 256) (by omega)
      have hlow : n.toUInt8.toNat = n % 256 := UInt8.toNat_ofNat'
      rw [toNat_cons, hquot, hlow]
      omega

theorem trimmed_ofNat (n : Nat) : (ofNat n).Trimmed := by
  induction n using Nat.strong_induction_on with
  | h n ih =>
    have hnat := toNat_ofNat n
    unfold ofNat at hnat ⊢
    split
    · exact trimmed_nil
    · next hn =>
      rw [if_neg hn] at hnat
      have hpush : n.toUInt8 :: ofNat (n / 256) = push n.toUInt8 (ofNat (n / 256)) := by
        rw [push, if_neg]
        rintro ⟨hlow, hhigh⟩
        rw [hlow, hhigh] at hnat
        exact hn hnat.symm
      rw [hpush]
      exact trimmed_push _ (ih (n / 256) (by omega))

/-- A word holds the product of a byte and the factor together with the carry. -/
theorem toNat_mulWord {factor carry : UInt32} (hfactor : factor.toNat < 2 ^ 23)
    (hcarry : carry.toNat < 2 ^ 31) (b : UInt8) :
    (b.toUInt32 * factor + carry).toNat = b.toNat * factor.toNat + carry.toNat := by
  have hb := b.toNat_lt
  have hprod : b.toNat * factor.toNat ≤ 255 * factor.toNat :=
    Nat.mul_le_mul_right _ (by omega)
  rw [UInt32.toNat_add, UInt32.toNat_mul, UInt8.toNat_toUInt32]
  omega

theorem toNat_shiftRight_eight (word : UInt32) : (word >>> 8).toNat = word.toNat / 256 := by
  rw [UInt32.toNat_shiftRight]
  simp [Nat.shiftRight_eq_div_pow]

/-- A carry is small enough to be carried on. -/
theorem shiftRight_eight_lt (word : UInt32) : (word >>> 8).toNat < 2 ^ 31 := by
  have hlt := word.toNat_lt
  rw [toNat_shiftRight_eight]
  omega

/-- **Long multiplication is exact.**  The carry stays below `2 ^ 31`, so the word that holds the
    product of a byte and the factor together with the carry does not overflow. -/
theorem toNat_mulAdd {factor : UInt32} (hfactor : factor.toNat < 2 ^ 23) (m : Magnitude) :
    ∀ {carry : UInt32}, carry.toNat < 2 ^ 31 →
      toNat (mulAdd factor carry m) = toNat m * factor.toNat + carry.toNat := by
  induction m with
  | nil =>
    intro carry _
    simp [mulAdd]
  | cons b m ih =>
    intro carry hcarry
    have hword := toNat_mulWord hfactor hcarry b
    simp only [mulAdd, toNat_cons]
    rw [ih (shiftRight_eight_lt _), toNat_shiftRight_eight, UInt32.toNat_toUInt8, hword]
    have hsplit := Nat.mod_add_div (b.toNat * factor.toNat + carry.toNat) 256
    calc (b.toNat * factor.toNat + carry.toNat) % 2 ^ 8
          + 256 * (toNat m * factor.toNat + (b.toNat * factor.toNat + carry.toNat) / 256)
        = b.toNat * factor.toNat + carry.toNat + 256 * (toNat m * factor.toNat) := by omega
      _ = (b.toNat + 256 * toNat m) * factor.toNat + carry.toNat := by ring

/-- A word holds a remainder with a byte behind it. -/
theorem toNat_divWord (rest : UInt32) (b : UInt8) (hrest : rest.toNat < 2 ^ 23) :
    (rest * 256 + b.toUInt32).toNat = rest.toNat * 256 + b.toNat := by
  have hb := b.toNat_lt
  rw [UInt32.toNat_add, UInt32.toNat_mul, UInt8.toNat_toUInt32]
  simp only [UInt32.reduceToNat]
  omega

/-- A remainder with a byte behind it is less than 256 times the divisor. -/
theorem div_divisor_lt {divisor rest b : Nat} (hrest : rest < divisor) (hb : b < 256) :
    (rest * 256 + b) / divisor < 256 := by
  rw [Nat.div_lt_iff_lt_mul (by omega)]
  omega

/-- **Long division is exact.**  The remainder stays below the divisor, so every digit of the
    quotient is a byte. -/
theorem toNat_divMod {divisor : UInt32} (hpos : 0 < divisor.toNat) (hlt : divisor.toNat < 2 ^ 23)
    (m : Magnitude) :
    toNat (divMod divisor m).1 = toNat m / divisor.toNat ∧
      (divMod divisor m).2.toNat = toNat m % divisor.toNat := by
  induction m with
  | nil => simp [divMod]
  | cons b m ih =>
    obtain ⟨hquot, hrest⟩ := ih
    have hmod : toNat m % divisor.toNat < divisor.toNat := Nat.mod_lt _ hpos
    have hword := toNat_divWord (divMod divisor m).2 b (by omega)
    rw [hrest] at hword
    have hdigit := div_divisor_lt hmod b.toNat_lt
    -- the number is a multiple of the divisor and the word that is divided here
    have hnumber : b.toNat + 256 * toNat m =
        (toNat m % divisor.toNat * 256 + b.toNat) +
          divisor.toNat * (256 * (toNat m / divisor.toNat)) := by
      have hsplit := Nat.mod_add_div (toNat m) divisor.toNat
      calc b.toNat + 256 * toNat m
          = b.toNat + 256 * (toNat m % divisor.toNat
              + divisor.toNat * (toNat m / divisor.toNat)) := by rw [hsplit]
        _ = _ := by ring
    constructor
    · simp only [divMod, toNat_push, toNat_cons]
      rw [hquot, UInt32.toNat_toUInt8, UInt32.toNat_div, hword, Nat.mod_eq_of_lt hdigit, hnumber,
        Nat.add_mul_div_left _ _ hpos]
    · simp only [divMod, toNat_cons]
      rw [UInt32.toNat_mod, hword, hnumber, Nat.add_mul_mod_self_left]

theorem trimmed_divMod (divisor : UInt32) (m : Magnitude) : (divMod divisor m).1.Trimmed := by
  induction m with
  | nil => exact trimmed_nil
  | cons b m ih => exact trimmed_push _ ih

/-! ### Predecessor, complement and length -/

@[simp] theorem length_negate (m : Magnitude) : (negate m).length = m.length := by
  induction m with
  | nil => rfl
  | cons b m ih =>
    unfold negate
    split
    · simp [ih]
    · simp

/-- A byte string and its complement add up to one less than a power of 256. -/
theorem toNat_map_complement (m : Magnitude) :
    toNat (m.map (255 - ·)) + toNat m + 1 = 256 ^ m.length := by
  induction m with
  | nil => rfl
  | cons b m ih =>
    have hb := b.toNat_lt
    simp only [List.map_cons, toNat_cons, List.length_cons, pow_succ, UInt8.toNat_sub,
      UInt8.reduceToNat]
    omega

/-- A byte string and its two's complement add up to a power of 256, unless both are zero. -/
theorem toNat_negate_add {m : Magnitude} (h : toNat m ≠ 0) :
    toNat (negate m) + toNat m = 256 ^ m.length := by
  induction m with
  | nil => exact absurd rfl h
  | cons b m ih =>
    unfold negate
    split
    · next hb =>
      have hm := ih (by intro hm; exact h (by simp [hb, hm]))
      simp only [hb, toNat_cons, List.length_cons, pow_succ, UInt8.reduceToNat]
      omega
    · next hb =>
      have hpos : b.toNat ≠ 0 := toNat_ne_zero hb
      have hlt := b.toNat_lt
      have hm := toNat_map_complement m
      simp only [toNat_cons, List.length_cons, pow_succ, UInt8.toNat_sub, UInt8.reduceToNat]
      omega

theorem toNat_negate_of_eq_zero {m : Magnitude} (h : toNat m = 0) : toNat (negate m) = 0 := by
  induction m with
  | nil => rfl
  | cons b m ih =>
    rw [toNat_cons] at h
    have hb : b = 0 := UInt8.toNat_inj.1 (by simpa using (by omega : b.toNat = 0))
    simp [negate, hb, ih (by omega)]

/-- **The complement is the negative** modulo `256 ^ n`, where `n` is the number of bytes. -/
theorem toNat_negate (m : Magnitude) :
    (toNat (negate m) : Int) = -(toNat m : Int) % 256 ^ m.length := by
  have hlt := toNat_lt (negate m)
  rw [length_negate] at hlt
  by_cases h : toNat m = 0
  · simp [h, toNat_negate_of_eq_zero h]
  · have hsum : (toNat (negate m) : Int) + toNat m = 256 ^ m.length := by
      exact_mod_cast toNat_negate_add h
    rw [show -(toNat m : Int) = toNat (negate m) - 256 ^ m.length by omega, Int.sub_emod_right]
    exact (Int.emod_eq_of_lt (by omega) (by exact_mod_cast hlt)).symm

@[simp] theorem length_resize (n : Nat) (m : Magnitude) : (resize n m).length = n := by
  simp only [resize, List.length_append, List.length_take, List.length_replicate]
  omega

/-- Cutting and filling up keep the number modulo `256 ^ n`. -/
theorem toNat_resize (n : Nat) (m : Magnitude) : toNat (resize n m) = toNat m % 256 ^ n := by
  have hfill : toNat (resize n m) = toNat (m.take n) := by
    rw [resize, toNat_append, toNat_replicate_zero]
    simp
  have hlt := toNat_lt (m.take n)
  have hle : (m.take n).length ≤ n := by simp
  have hpow : 256 ^ (m.take n).length ≤ 256 ^ n := Nat.pow_le_pow_right (by omega) hle
  rw [hfill]
  rcases Nat.le_total m.length n with hshort | hlong
  · rw [List.take_of_length_le hshort] at hlt hpow ⊢
    exact (Nat.mod_eq_of_lt (by omega)).symm
  · have hsplit : toNat m = toNat (m.take n) + 256 ^ n * toNat (m.drop n) := by
      conv_lhs => rw [← List.take_append_drop n m, toNat_append]
      rw [List.length_take, Nat.min_eq_left hlong]
    rw [hsplit, Nat.add_mul_mod_self_left]
    exact (Nat.mod_eq_of_lt (by omega)).symm

/-- A byte string read from the `i`-th byte on. -/
theorem toNat_drop (i : Nat) (m : Magnitude) : toNat (m.drop i) = toNat m / 256 ^ i := by
  induction i generalizing m with
  | zero => simp
  | succ i ih =>
    cases m with
    | nil => simp
    | cons b m =>
      have hb := b.toNat_lt
      rw [List.drop_succ_cons, ih, toNat_cons, pow_succ', ← Nat.div_div_eq_div_mul]
      congr 1
      omega

/-- The length of a trimmed magnitude is the least number of bytes that hold it. -/
theorem length_le_iff {m : Magnitude} (h : m.Trimmed) (n : Nat) :
    m.length ≤ n ↔ toNat m < 256 ^ n := by
  have hpow : 256 ^ n ≠ 0 := by positivity
  have hdrop := toNat_eq_zero_iff (trimmed_drop n h)
  rw [toNat_drop, List.drop_eq_nil_iff, Nat.div_eq_zero_iff] at hdrop
  rw [← hdrop, or_iff_right hpow]

/-! ### Bit length -/

theorem byteBits_le_iff (b : UInt8) (n : Nat) : byteBits b ≤ n ↔ b.toNat < 2 ^ n := by
  unfold byteBits
  split
  · next h => simp [h]
  · next h =>
    have hb : b.toNat ≠ 0 := toNat_ne_zero h
    rw [Nat.succ_le_iff]
    exact Nat.log2_lt hb

/-- A byte below a number that is not zero adds eight bits. -/
theorem lt_two_pow_cons {b x n : Nat} (hb : b < 256) (hx : x ≠ 0) :
    b + 256 * x < 2 ^ n ↔ 8 ≤ n ∧ x < 2 ^ (n - 8) := by
  constructor
  · intro h
    have hn : 8 ≤ n := by
      by_contra hn
      have : 2 ^ n ≤ 2 ^ 8 := Nat.pow_le_pow_right (by omega) (by omega)
      omega
    refine ⟨hn, ?_⟩
    have hpow : 2 ^ n = 2 ^ (n - 8) * 2 ^ 8 := by rw [← pow_add]; congr 1; omega
    omega
  · rintro ⟨hn, h⟩
    have hpow : 2 ^ n = 2 ^ (n - 8) * 2 ^ 8 := by rw [← pow_add]; congr 1; omega
    omega

theorem bitLength_cons {m : Magnitude} (b : UInt8) (hm : m ≠ []) :
    bitLength (b :: m) = 8 + bitLength m := by
  cases m with
  | nil => exact absurd rfl hm
  | cons c m => rfl

/-- **The bit length is the least width that holds the number.** -/
theorem bitLength_le_iff {m : Magnitude} (h : m.Trimmed) (n : Nat) :
    bitLength m ≤ n ↔ toNat m < 2 ^ n := by
  induction m generalizing n with
  | nil => simp [bitLength]
  | cons b m ih =>
    by_cases hm : m = []
    · subst hm
      simpa [bitLength] using byteBits_le_iff b n
    · have hne : toNat m ≠ 0 := fun h0 => hm ((toNat_eq_zero_iff (trimmed_of_cons h)).1 h0)
      rw [bitLength_cons b hm, toNat_cons, lt_two_pow_cons b.toNat_lt hne,
        ← ih (trimmed_of_cons h)]
      omega

/-- The bit length of the predecessor.  It may have a zero byte at the high end, but only after a
    power of 256, and all bytes below that one are then full. -/
theorem bitLength_pred_le_iff {m : Magnitude} (h : m.Trimmed) (hne : m ≠ []) (n : Nat) :
    bitLength (pred m) ≤ n ↔ toNat m ≤ 2 ^ n := by
  induction m generalizing n with
  | nil => exact absurd rfl hne
  | cons b m ih =>
    have hpow : 0 < 2 ^ n := by positivity
    by_cases hm : m = []
    · subst hm
      have hb : b ≠ 0 := by
        intro hb
        simp [Trimmed, hb] at h
      have hpos : b.toNat ≠ 0 := toNat_ne_zero hb
      have hlt := b.toNat_lt
      simp only [pred, hb, if_false, bitLength, byteBits_le_iff, toNat_cons, toNat_nil,
        UInt8.toNat_sub, UInt8.reduceToNat]
      omega
    · have htrim := trimmed_of_cons h
      have hzero : toNat m ≠ 0 := fun h0 => hm ((toNat_eq_zero_iff htrim).1 h0)
      unfold pred
      split
      · next hb =>
        have hpred : pred m ≠ [] := by
          cases m with
          | nil => exact absurd rfl hm
          | cons c m => unfold pred; split <;> simp
        rw [bitLength_cons _ hpred, hb, toNat_cons]
        have hrest := ih htrim hm (n - 8)
        simp only [UInt8.reduceToNat]
        rcases Nat.lt_or_ge n 8 with hn | hn
        · have : 2 ^ n ≤ 2 ^ 7 := Nat.pow_le_pow_right (by omega) (by omega)
          omega
        · have hsplit : 2 ^ n = 2 ^ (n - 8) * 2 ^ 8 := by rw [← pow_add]; congr 1; omega
          omega
      · next hb =>
        have hpos : b.toNat ≠ 0 := toNat_ne_zero hb
        have hlt := b.toNat_lt
        have hlow : (b - 1).toNat < 256 := (b - 1).toNat_lt
        have hsub : (b - 1).toNat + 1 = b.toNat := by
          rw [UInt8.toNat_sub]
          simp only [UInt8.reduceToNat]
          omega
        have hlen := bitLength_le_iff htrim (n - 8)
        have hstep := lt_two_pow_cons (n := n) hlow hzero
        rw [bitLength_cons _ hm, toNat_cons]
        omega

end Magnitude

end DwarfExpr
