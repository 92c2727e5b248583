/-
  DwarfExpr/Proofs/Value.lean
  ===========================
  **What values mean as integers.** A value is determined by its integer (`toInt_injective`), and
  each function on values is described by what it does to the integer:

    * the three measures of width are least widths: `bitLength_le_iff`, `signedWidth_le_iff` and
      `literalWidth_le_iff`;
    * `toNat_bits`: a bit pattern is the residue modulo a power of two, and `toNat_window` cuts bits
      out of that residue;
    * `emod_toInt_ofBytes` with its bounds: bytes are read as the one number of their residue class
      that lies in the signed or unsigned range.
-/
import DwarfExpr.Proofs.Magnitude
import DwarfExpr.Value

namespace DwarfExpr

namespace Value

/-! ### One value for each integer -/

theorem toInt_of_negative {v : Value} (h : v.negative = true) :
    v.toInt = -(v.magnitude.toNat : Int) := by
  simp [toInt, h]

theorem toInt_of_not_negative {v : Value} (h : v.negative = false) :
    v.toInt = (v.magnitude.toNat : Int) := by
  simp [toInt, h]

theorem negative_iff (v : Value) : v.negative = true ↔ v.toInt < 0 := by
  cases h : v.negative with
  | false => simp [toInt_of_not_negative h]
  | true =>
    have hne : v.magnitude.toNat ≠ 0 := by
      intro hzero
      exact v.negative_ne h ((Magnitude.toNat_eq_zero_iff v.trimmed).1 hzero)
    have hlt : v.toInt < 0 := by
      rw [toInt_of_negative h]
      omega
    simp [hlt]

theorem not_negative_iff (v : Value) : v.negative = false ↔ 0 ≤ v.toInt := by
  rw [← Int.not_lt, ← negative_iff]
  simp

theorem natAbs_toInt (v : Value) : v.toInt.natAbs = v.magnitude.toNat := by
  unfold toInt
  split <;> simp

/-- Two values are equal exactly when they are the same integer. -/
theorem toInt_injective {v w : Value} (h : v.toInt = w.toInt) : v = w := by
  have hsign : v.negative = w.negative := by
    rw [Bool.eq_iff_iff, negative_iff, negative_iff, h]
  have hnat : v.magnitude.toNat = w.magnitude.toNat := by
    rw [← natAbs_toInt, ← natAbs_toInt, h]
  have hmag := Magnitude.eq_of_trimmed v.trimmed w.trimmed hnat
  cases v
  cases w
  simp_all

theorem toInt_ofMagnitude (negative : Bool) (m : Magnitude) :
    (ofMagnitude negative m).toInt = if negative then -(m.toNat : Int) else (m.toNat : Int) := by
  have hzero := Magnitude.toNat_eq_zero_iff m.trimmed_trim
  rw [Magnitude.toNat_trim] at hzero
  cases negative with
  | false => simp [ofMagnitude, toInt]
  | true =>
    by_cases hm : m.trim = []
    · simp [ofMagnitude, toInt, hm, hzero.2 hm]
    · simp [ofMagnitude, toInt, hm]

@[simp] theorem toInt_zero : zero.toInt = 0 := by
  simp [zero, toInt_ofMagnitude]

@[simp] theorem toInt_ofNat (n : Nat) : (ofNat n).toInt = n := by
  simp [ofNat, toInt_ofMagnitude]

@[simp] theorem toInt_ofInt (i : Int) : (ofInt i).toInt = i := by
  simp only [ofInt, toInt_ofMagnitude, Magnitude.toNat_ofNat, decide_eq_true_eq]
  split <;> omega

/-! ### Widths -/

theorem bitLength_le_iff (v : Value) (n : Nat) : v.bitLength ≤ n ↔ v.toInt.natAbs < 2 ^ n := by
  rw [bitLength, Magnitude.bitLength_le_iff v.trimmed, natAbs_toInt]

theorem bitLength_eq_size (v : Value) : v.bitLength = v.toInt.natAbs.size := by
  apply Nat.le_antisymm
  · rw [bitLength_le_iff]
    exact Nat.lt_size_self _
  · rw [Nat.size_le, ← bitLength_le_iff]

/-- **The two's complement width is the least that holds the value.** -/
theorem signedWidth_le_iff (v : Value) (n : Nat) :
    v.signedWidth ≤ n + 1 ↔ -2 ^ n ≤ v.toInt ∧ v.toInt < 2 ^ n := by
  have hcast : ((2 ^ n : Nat) : Int) = 2 ^ n := by norm_cast
  cases h : v.negative with
  | false =>
    have hlen := bitLength_le_iff v n
    have hsign := (not_negative_iff v).1 h
    simp only [signedWidth, h, Bool.false_eq_true, if_false]
    omega
  | true =>
    have hlen := Magnitude.bitLength_pred_le_iff v.trimmed (v.negative_ne h) n
    have hsign := (negative_iff v).1 h
    rw [← natAbs_toInt] at hlen
    simp only [signedWidth, h, if_true]
    omega

/-- **What a literal of a given width can be**: any number below the power of two, and a negative
    one above half of its negative. -/
theorem literalWidth_le_iff (v : Value) (width : Nat) :
    v.literalWidth ≤ width ↔
      (0 ≤ v.toInt ∧ v.toInt < 2 ^ width) ∨ (-2 ^ (width - 1) < v.toInt ∧ v.toInt < 0) := by
  cases h : v.negative with
  | false =>
    have hlen := bitLength_le_iff v width
    have hsign := (not_negative_iff v).1 h
    have hcast : ((2 ^ width : Nat) : Int) = 2 ^ width := by norm_cast
    simp only [literalWidth, h, Bool.false_eq_true, if_false]
    omega
  | true =>
    have hsign := (negative_iff v).1 h
    simp only [literalWidth, h, if_true]
    cases width with
    | zero => simp; omega
    | succ n =>
      have hlen := bitLength_le_iff v n
      have hcast : ((2 ^ n : Nat) : Int) = 2 ^ n := by norm_cast
      rw [Nat.add_sub_cancel]
      omega

theorem length_magnitude_le_iff (v : Value) (n : Nat) :
    v.magnitude.length ≤ n ↔ v.toInt.natAbs < 256 ^ n := by
  rw [natAbs_toInt]
  exact Magnitude.length_le_iff v.trimmed n

/-- A value is a 64-bit word exactly if it is the number of one. -/
theorem toUInt64?_eq_some_iff (v : Value) (n : UInt64) :
    v.toUInt64? = some n ↔ v.toInt = n.toNat := by
  have hn := n.toNat_lt
  have hlen := length_magnitude_le_iff v 8
  unfold toUInt64?
  cases h : v.negative with
  | true =>
    have hsign := (negative_iff v).1 h
    simp only [Bool.true_or, if_true, reduceCtorEq, false_iff]
    omega
  | false =>
    have hsign := (not_negative_iff v).1 h
    simp only [Bool.false_or, decide_eq_true_eq]
    split
    · next hlong =>
      simp only [reduceCtorEq, false_iff]
      omega
    · next hshort =>
      have hlt : v.magnitude.toNat < 2 ^ 64 := by
        rw [← natAbs_toInt]
        omega
      rw [Option.some.injEq, ← UInt64.toNat_inj, UInt64.toNat_ofNat', Nat.mod_eq_of_lt hlt,
        ← natAbs_toInt]
      omega

/-! ### Reading bytes -/

/-- The top bit of bytes is set exactly if their number is at least half of the range. -/
theorem topBit_iff (bytes : List UInt8) :
    topBit bytes = true ↔ 256 ^ bytes.length ≤ 2 * Magnitude.toNat bytes := by
  induction bytes with
  | nil => simp [topBit]
  | cons b bytes ih =>
    have hb := b.toNat_lt
    cases bytes with
    | nil =>
      simp only [topBit, List.getLast?_singleton, decide_eq_true_eq, UInt8.le_iff_toNat_le,
        UInt8.reduceToNat, List.length_singleton, Magnitude.toNat_cons, Magnitude.toNat_nil]
      omega
    | cons c bytes =>
      have hskip : topBit (b :: c :: bytes) = topBit (c :: bytes) := by
        simp [topBit, List.getLast?_cons_cons]
      rw [hskip, ih]
      simp only [List.length_cons, pow_succ, Magnitude.toNat_cons]
      omega

theorem toInt_ofBytes_false (bytes : List UInt8) :
    (ofBytes false bytes).toInt = Magnitude.toNat bytes := by
  simp [ofBytes, toInt_ofMagnitude]

theorem toInt_ofBytes_true (bytes : List UInt8) :
    (ofBytes true bytes).toInt =
      if 256 ^ bytes.length ≤ 2 * Magnitude.toNat bytes
      then (Magnitude.toNat bytes : Int) - 256 ^ bytes.length else Magnitude.toNat bytes := by
  have hpow : 0 < 256 ^ bytes.length := by positivity
  by_cases htop : 256 ^ bytes.length ≤ 2 * Magnitude.toNat bytes
  · have hsum : (Magnitude.toNat (Magnitude.negate bytes) : Int) + Magnitude.toNat bytes =
        256 ^ bytes.length := by
      exact_mod_cast Magnitude.toNat_negate_add (m := bytes) (by omega)
    simp only [ofBytes, (topBit_iff bytes).2 htop, htop, toInt_ofMagnitude, Bool.and_self, if_true]
    omega
  · have hbit : topBit bytes = false := by
      rw [← Bool.not_eq_true, topBit_iff]
      exact htop
    simp [ofBytes, hbit, htop, toInt_ofMagnitude]

/-- Bytes are read as a number of their residue class. -/
theorem emod_toInt_ofBytes (signed : Bool) (bytes : List UInt8) :
    (ofBytes signed bytes).toInt % 256 ^ bytes.length = Magnitude.toNat bytes := by
  have hlt : (Magnitude.toNat bytes : Int) < 256 ^ bytes.length := by
    exact_mod_cast Magnitude.toNat_lt bytes
  cases signed with
  | false =>
    rw [toInt_ofBytes_false]
    exact Int.emod_eq_of_lt (by omega) hlt
  | true =>
    rw [toInt_ofBytes_true]
    split
    · rw [Int.sub_emod_right]
      exact Int.emod_eq_of_lt (by omega) hlt
    · exact Int.emod_eq_of_lt (by omega) hlt

theorem toInt_ofBytes_false_bounds (bytes : List UInt8) :
    0 ≤ (ofBytes false bytes).toInt ∧ (ofBytes false bytes).toInt < 256 ^ bytes.length := by
  rw [toInt_ofBytes_false]
  exact ⟨by omega, by exact_mod_cast Magnitude.toNat_lt bytes⟩

theorem toInt_ofBytes_true_bounds (bytes : List UInt8) :
    -256 ^ bytes.length ≤ 2 * (ofBytes true bytes).toInt ∧
      2 * (ofBytes true bytes).toInt < 256 ^ bytes.length := by
  have hlt : (Magnitude.toNat bytes : Int) < 256 ^ bytes.length := by
    exact_mod_cast Magnitude.toNat_lt bytes
  have hcast : ((256 ^ bytes.length : Nat) : Int) = 256 ^ bytes.length := by norm_cast
  rw [toInt_ofBytes_true]
  split <;> omega

/-! ### Bit patterns -/

@[simp] theorem length_maskTop (keep : Nat) (m : List UInt8) :
    (maskTop keep m).length = m.length := by
  induction m using maskTop.induct with
  | case1 => rfl
  | case2 b => rfl
  | case3 b c m ih => simpa [maskTop] using ih

/-- Masking the top byte keeps the number modulo a power of two. -/
theorem toNat_maskTop {keep : Nat} (hkeep : keep ≤ 8) (m : List UInt8) :
    Magnitude.toNat (maskTop keep m) = Magnitude.toNat m % 2 ^ (8 * (m.length - 1) + keep) := by
  induction m using maskTop.induct with
  | case1 => simp [maskTop]
  | case2 b =>
    have hpow : 2 ^ keep ≤ 2 ^ 8 := Nat.pow_le_pow_right (by omega) hkeep
    have hmod : b.toNat % 2 ^ keep < 2 ^ keep := Nat.mod_lt _ (by positivity)
    have hbyte : (b.toNat % 2 ^ keep).toUInt8.toNat = b.toNat % 2 ^ keep := by
      rw [Nat.toUInt8_eq, UInt8.toNat_ofNat', Nat.mod_eq_of_lt (by omega)]
    simp only [maskTop, Nat.one_shiftLeft]
    simp [hbyte]
  | case3 b c m ih =>
    have hb := b.toNat_lt
    have hwidth : 8 * ((b :: c :: m).length - 1) + keep =
        8 + (8 * ((c :: m).length - 1) + keep) := by
      simp only [List.length_cons]
      omega
    have hlow : Magnitude.toNat (b :: c :: m) % 2 ^ 8 = b.toNat := by
      rw [Magnitude.toNat_cons]
      omega
    have hhigh : Magnitude.toNat (b :: c :: m) / 2 ^ 8 = Magnitude.toNat (c :: m) := by
      rw [Magnitude.toNat_cons]
      omega
    rw [maskTop, Magnitude.toNat_cons, ih, hwidth, pow_add 2 8, Nat.mod_mul, hlow, hhigh]
    norm_num

@[simp] theorem length_bits (v : Value) (width : Nat) :
    (v.bits width).bytes.length = (width + 7) / 8 := by
  unfold bits
  split <;> simp

/-- **A bit pattern is a residue**: the value modulo `2 ^ width`. -/
theorem toNat_bits (v : Value) (width : Nat) :
    (Magnitude.toNat (v.bits width).bytes : Int) = v.toInt % 2 ^ width := by
  obtain ⟨length, hlength⟩ : ∃ n, n = (width + 7) / 8 := ⟨_, rfl⟩
  -- before masking, the bytes hold the value modulo a power of 256
  obtain ⟨low, hlow⟩ : ∃ low : List UInt8, low = if v.negative then
      Magnitude.negate (v.magnitude.resize length) else v.magnitude.resize length := ⟨_, rfl⟩
  have hlen : low.length = length := by
    rw [hlow]
    split <;> simp
  have hresidue : (Magnitude.toNat low : Int) = v.toInt % 256 ^ length := by
    have hcast : ((v.magnitude.toNat % 256 ^ length : Nat) : Int) =
        (v.magnitude.toNat : Int) % 256 ^ length := by norm_cast
    rw [hlow]
    cases h : v.negative with
    | true =>
      rw [if_pos rfl, Magnitude.toNat_negate, Magnitude.length_resize, Magnitude.toNat_resize,
        hcast, toInt_of_negative h]
      exact (Int.mod_modEq _ _).neg
    | false =>
      rw [if_neg (by simp), Magnitude.toNat_resize, hcast, toInt_of_not_negative h]
  have hbytes : (v.bits width).bytes = maskTop (8 - (8 * length - width)) low := by
    rw [hlow, hlength]
    rfl
  rw [hbytes, toNat_maskTop (by omega), hlen]
  by_cases hzero : width = 0
  · have hnil : low = [] := List.length_eq_zero_iff.1 (by omega)
    simp [hnil, hzero]
  · have hkeep : 8 * (length - 1) + (8 - (8 * length - width)) = width := by omega
    have hdvd : (2 : Int) ^ width ∣ 256 ^ length := by
      rw [show (256 : Int) = 2 ^ 8 by norm_num, ← pow_mul]
      exact pow_dvd_pow 2 (by omega)
    rw [hkeep]
    push_cast
    rw [hresidue, Int.emod_emod_of_dvd _ hdvd]

end Value

namespace BitPattern

theorem byteAt_eq (p : BitPattern) (i : Nat) :
    p.byteAt i = Magnitude.toNat p.bytes / 256 ^ i % 256 := by
  rw [← Magnitude.toNat_drop, byteAt, List.getD_eq_getElem?_getD, ← List.head?_drop]
  cases p.bytes.drop i with
  | nil => rfl
  | cons b rest =>
    have hb := b.toNat_lt
    simp only [List.head?_cons, Option.getD_some, Magnitude.toNat_cons]
    omega

/-- **A window cuts bits out of the number**; bits beyond the pattern are zero. -/
theorem toNat_window (p : BitPattern) (offset : Nat) {count : Nat} (h : count ≤ 8) :
    (p.window offset count).toNat = Magnitude.toNat p.bytes / 2 ^ offset % 2 ^ count := by
  obtain ⟨x, hx⟩ : ∃ x, x = Magnitude.toNat p.bytes / 256 ^ (offset / 8) := ⟨_, rfl⟩
  -- the two bytes that are looked at are the lowest sixteen bits from a byte boundary on
  have hpair : p.byteAt (offset / 8) + 256 * p.byteAt (offset / 8 + 1) = x % 2 ^ 16 := by
    rw [byteAt_eq, byteAt_eq, pow_succ, ← Nat.div_div_eq_div_mul, ← hx]
    omega
  have hshift : Magnitude.toNat p.bytes / 2 ^ offset = x / 2 ^ (offset % 8) := by
    rw [hx, Nat.div_div_eq_div_mul, show 256 = 2 ^ 8 by rfl, ← pow_mul, ← pow_add,
      Nat.div_add_mod]
  have hcut : x % 2 ^ 16 / 2 ^ (offset % 8) % 2 ^ count = x / 2 ^ (offset % 8) % 2 ^ count := by
    have hsplit : 2 ^ 16 = 2 ^ (offset % 8) * 2 ^ (16 - offset % 8) := by
      rw [← pow_add]
      congr 1
      omega
    rw [hsplit, Nat.mod_mul_right_div_self,
      Nat.mod_mod_of_dvd _ (pow_dvd_pow 2 (by omega))]
  have hlt : x / 2 ^ (offset % 8) % 2 ^ count < 2 ^ 8 :=
    Nat.lt_of_lt_of_le (Nat.mod_lt _ (by positivity)) (Nat.pow_le_pow_right (by omega) h)
  simp only [window, Nat.one_shiftLeft, Nat.shiftRight_eq_div_pow]
  rw [hpair, hcut, Nat.toUInt8_eq, UInt8.toNat_ofNat', Nat.mod_eq_of_lt hlt, hshift]

end BitPattern

end DwarfExpr
