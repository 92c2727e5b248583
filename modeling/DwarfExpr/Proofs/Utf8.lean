/-
  DwarfExpr/Proofs/Utf8.lean
  ==========================
  **Decoding takes exactly what encoding writes** (`Utf8.decode_eq_ok_iff`).

  A character of `n + 2` bytes is cut behind its first two bytes.  Their bits `x` are the only ones
  that overlong forms, surrogates and code points above U+10FFFF can be told by (`Opens`); the bits
  of the other `n` bytes are free (`trail`).  So a character is a pair of an `x` and a `w < 64 ^ n`:

    * the reader takes such pairs (`first_eq_char_iff`);
    * the writer has one form for each of them (`encodeChar_of_opens`), and there are no other
      characters above U+007F (`exists_opens`).
-/
import DwarfExpr.Proofs.Except
import DwarfExpr.Text.Utf8
import Mathlib.Tactic.Common
import Mathlib.Tactic.Positivity
import Mathlib.Tactic.Ring

namespace DwarfExpr

namespace Utf8

/-! ### The bytes behind the first two -/

/-- The last `n` digits of a number to base 64, each in a byte of its own. -/
def trail : Nat → Nat → List UInt8
  | 0, _ => []
  | n + 1, w => UInt8.ofNat (0x80 + w / 64 ^ n % 64) :: trail n w

theorem trail_add_mul (n w k : Nat) : trail n (k * 64 ^ n + w) = trail n w := by
  induction n generalizing k with
  | zero => rfl
  | succ n ih =>
    have hk : k * 64 ^ (n + 1) = k * 64 * 64 ^ n := by ring
    have hdigit : (k * 64 * 64 ^ n + w) / 64 ^ n % 64 = w / 64 ^ n % 64 := by
      rw [Nat.add_comm, Nat.add_mul_div_right _ _ (by positivity)]
      omega
    rw [trail, trail, hk, hdigit, ih]

theorem trail_succ {n r w : Nat} (hr : r < 64) (hw : w < 64 ^ n) :
    trail (n + 1) (r * 64 ^ n + w) = UInt8.ofNat (0x80 + r) :: trail n w := by
  have hdigit : (r * 64 ^ n + w) / 64 ^ n % 64 = r := by
    rw [Nat.add_comm, Nat.add_mul_div_right _ _ (by positivity), Nat.div_eq_of_lt hw]
    omega
  rw [trail, hdigit, trail_add_mul]

/-- A number below `64 ^ (n + 1)` is its first digit and a number below `64 ^ n`. -/
theorem exists_lt_pow_succ {n : Nat} {p : Nat → Prop} :
    (∃ w < 64 ^ (n + 1), p w) ↔ ∃ r < 64, ∃ w < 64 ^ n, p (r * 64 ^ n + w) := by
  constructor
  · rintro ⟨w, hw, hp⟩
    refine ⟨w / 64 ^ n, ?_, w % 64 ^ n, Nat.mod_lt _ (by positivity), ?_⟩
    · rw [Nat.div_lt_iff_lt_mul (by positivity)]
      rwa [Nat.pow_succ, Nat.mul_comm] at hw
    · rwa [Nat.div_add_mod']
  · rintro ⟨r, hr, w, hw, hp⟩
    refine ⟨_, ?_, hp⟩
    calc r * 64 ^ n + w < r * 64 ^ n + 64 ^ n := by omega
      _ = (r + 1) * 64 ^ n := by ring
      _ ≤ 64 * 64 ^ n := Nat.mul_le_mul_right _ hr
      _ = 64 ^ (n + 1) := by ring

/-- A byte that is not the first one of a character. -/
theorem continuation_iff (b : UInt8) :
    (0x80 ≤ b ∧ b ≤ 0xbf) ↔ ∃ r < 64, b = UInt8.ofNat (0x80 + r) := by
  constructor
  · intro h
    simp only [UInt8.le_iff_toNat_le, UInt8.reduceToNat] at h
    refine ⟨b.toNat - 0x80, by omega, ?_⟩
    rw [show 0x80 + (b.toNat - 0x80) = b.toNat by omega, UInt8.ofNat_toNat]
  · rintro ⟨r, hr, rfl⟩
    simp only [UInt8.le_iff_toNat_le, UInt8.toNat_ofNat', UInt8.reduceToNat]
    omega

theorem bits_continuation {r : Nat} (h : r < 64) : (UInt8.ofNat (0x80 + r)).toNat % 64 = r := by
  rw [UInt8.toNat_ofNat']
  omega

theorem follow_succ_eq_char_iff {low high : UInt8} {taken bits n : Nat} {input rest : List UInt8}
    {c : Char} :
    follow low high taken bits (n + 1) input = (.char c, rest) ↔
      ∃ b tail, input = b :: tail ∧ (low ≤ b ∧ b ≤ high) ∧
        follow 0x80 0xbf (taken + 1) (bits * 64 + b.toNat % 64) n tail = (.char c, rest) := by
  rcases input with - | ⟨b, tail⟩
  · simp [follow]
  · rw [follow]
    split
    · simp_all
    · simp_all

/-- What is read behind the first two bytes. -/
theorem follow_eq_char_iff {taken bits n : Nat} {input rest : List UInt8} {c : Char} :
    follow 0x80 0xbf taken bits n input = (.char c, rest) ↔
      ∃ w < 64 ^ n, input = trail n w ++ rest ∧ c = Char.ofNat (bits * 64 ^ n + w) := by
  induction n generalizing taken bits input with
  | zero =>
    simp [follow, trail, eq_comm, and_comm]
  | succ n ih =>
    rw [follow_succ_eq_char_iff, exists_lt_pow_succ]
    constructor
    · rintro ⟨b, tail, rfl, hb, htail⟩
      obtain ⟨r, hr, rfl⟩ := (continuation_iff b).1 hb
      obtain ⟨w, hw, rfl, rfl⟩ := ih.1 htail
      refine ⟨r, hr, w, hw, ?_, ?_⟩
      · rw [trail_succ hr hw, List.cons_append]
      · rw [bits_continuation hr]
        congr 1
        ring
    · rintro ⟨r, hr, w, hw, rfl, rfl⟩
      rw [trail_succ hr hw]
      refine ⟨_, _, rfl, (continuation_iff _).2 ⟨r, hr, rfl⟩, ih.2 ⟨w, hw, rfl, ?_⟩⟩
      rw [bits_continuation hr]
      congr 1
      ring

/-! ### The first two bytes -/

/-- The bits of the first two bytes of a character of `n + 2` bytes. -/
def Opens : Nat → Nat → Prop
  | 0, x => 0x80 ≤ x ∧ x < 0x800
  | 1, x => 0x20 ≤ x ∧ x < 0x400 ∧ (x < 0x360 ∨ 0x380 ≤ x)
  | 2, x => 0x10 ≤ x ∧ x < 0x110
  | _, _ => False

/-- The bits of a first byte that say how many bytes follow. -/
def mark : Nat → Nat
  | 0 => 0xc0
  | 1 => 0xe0
  | _ => 0xf0

/-- The bounds on a second byte keep exactly the openings of a character. -/
theorem lead?_iff (b s : UInt8) (n q : Nat) :
    (∃ l, lead? b = some l ∧ (l.low ≤ s ∧ s ≤ l.high) ∧ l.following = n + 1 ∧ l.bits = q) ↔
      b.toNat = mark n + q ∧ (0x80 ≤ s ∧ s ≤ 0xbf) ∧ Opens n (q * 64 + s.toNat % 64) := by
  have hs := s.toNat_lt
  unfold lead?
  simp only [UInt8.le_iff_toNat_le, ← UInt8.toNat_inj, UInt8.reduceToNat]
  split_ifs
  all_goals
    simp only [Option.some.injEq, exists_eq_left', false_and, exists_false,
      UInt8.reduceToNat]
    rcases n with - | - | - | n <;>
      simp only [Opens, mark, true_and, and_false, iff_false, false_iff] <;> omega

theorem following_pos {b : UInt8} {l : Lead} (h : lead? b = some l) : 0 < l.following := by
  unfold lead? at h
  split_ifs at h <;> cases h <;> simp

theorem Opens.first_byte {n x : Nat} (h : Opens n x) :
    0x80 ≤ mark n + x / 64 ∧ mark n + x / 64 < 256 := by
  rcases n with - | - | - | n <;> simp only [Opens, mark] at h ⊢ <;> omega

theorem first_of_lt {b : UInt8} (h : b < 0x80) (input : List UInt8) :
    first b input = (.char (Char.ofNat b.toNat), input) := by
  rw [first, if_pos h]

/-- A character above U+007F at the beginning of an input. -/
theorem first_eq_char_iff_of_le {b : UInt8} (h : 0x80 ≤ b) {input rest : List UInt8} {c : Char} :
    first b input = (.char c, rest) ↔
      ∃ n x, Opens n x ∧ ∃ w < 64 ^ n, c = Char.ofNat (x * 64 ^ n + w) ∧
        b :: input = UInt8.ofNat (mark n + x / 64) :: UInt8.ofNat (0x80 + x % 64) ::
          (trail n w ++ rest) := by
  rw [first, if_neg (by simpa using h)]
  constructor
  · intro hfirst
    rcases hl : lead? b with - | l
    · simp [hl] at hfirst
    · obtain ⟨n, hn⟩ := Nat.exists_eq_succ_of_ne_zero (following_pos hl).ne'
      simp only [hl, hn] at hfirst
      obtain ⟨s, tail, rfl, hs, htail⟩ := follow_succ_eq_char_iff.1 hfirst
      obtain ⟨hb, hcontinues, hopens⟩ := (lead?_iff b s n l.bits).1 ⟨l, hl, hs, hn, rfl⟩
      obtain ⟨w, hw, rfl, rfl⟩ := follow_eq_char_iff.1 htail
      obtain ⟨r, hr, rfl⟩ := (continuation_iff s).1 hcontinues
      rw [bits_continuation hr] at hopens
      refine ⟨n, l.bits * 64 + r, hopens, w, hw, ?_, ?_⟩
      · rw [bits_continuation hr]
      · rw [show (l.bits * 64 + r) / 64 = l.bits by omega,
          show (l.bits * 64 + r) % 64 = r by omega, ← hb, UInt8.ofNat_toNat]
  · rintro ⟨n, x, hx, w, hw, rfl, heq⟩
    obtain ⟨rfl, rfl⟩ := List.cons.inj heq
    have hr : x % 64 < 64 := Nat.mod_lt _ (by decide)
    have hbits : x / 64 * 64 + x % 64 = x := Nat.div_add_mod' x 64
    obtain ⟨l, hl, hs, hn, hq⟩ := (lead?_iff (UInt8.ofNat (mark n + x / 64))
      (UInt8.ofNat (0x80 + x % 64)) n (x / 64)).2 (by
        refine ⟨?_, (continuation_iff _).2 ⟨_, hr, rfl⟩, ?_⟩
        · rw [UInt8.toNat_ofNat', Nat.mod_eq_of_lt hx.first_byte.2]
        · rwa [bits_continuation hr, hbits])
    simp only [hl, hn, hq]
    refine follow_succ_eq_char_iff.2 ⟨_, _, rfl, hs, follow_eq_char_iff.2 ⟨w, hw, rfl, ?_⟩⟩
    rw [bits_continuation hr, hbits]

/-! ### Characters -/

theorem toNat_ofNat_of_isValidChar {v : Nat} (h : v.isValidChar) : (Char.ofNat v).toNat = v := by
  rw [Char.ofNat, dif_pos h]
  rfl

theorem Opens.isValidChar {n x w : Nat} (hx : Opens n x) (hw : w < 64 ^ n) :
    (x * 64 ^ n + w).isValidChar := by
  rcases n with - | - | - | n <;> simp only [Opens, Nat.isValidChar] at hx ⊢ <;> omega

theorem encodeChar_of_opens {n x w : Nat} (hx : Opens n x) (hw : w < 64 ^ n) :
    String.utf8EncodeChar (Char.ofNat (x * 64 ^ n + w)) =
      UInt8.ofNat (mark n + x / 64) :: UInt8.ofNat (0x80 + x % 64) :: trail n w := by
  have hv : (Char.ofNat (x * 64 ^ n + w)).val.toNat = x * 64 ^ n + w :=
    toNat_ofNat_of_isValidChar (hx.isValidChar hw)
  unfold String.utf8EncodeChar
  simp only [hv]
  rcases n with - | - | - | n
  · rw [Opens] at hx
    rw [if_neg (by omega), if_pos (by omega)]
    simp only [trail, mark, List.cons.injEq, and_true]
    exact ⟨congrArg _ (by omega), congrArg _ (by omega)⟩
  · rw [Opens] at hx
    rw [if_neg (by omega), if_neg (by omega), if_pos (by omega)]
    simp only [trail, mark, List.cons.injEq, and_true]
    exact ⟨congrArg _ (by omega), congrArg _ (by omega), congrArg _ (by omega)⟩
  · rw [Opens] at hx
    rw [if_neg (by omega), if_neg (by omega), if_neg (by omega)]
    simp only [trail, mark, List.cons.injEq, and_true]
    exact ⟨congrArg _ (by omega), congrArg _ (by omega), congrArg _ (by omega),
      congrArg _ (by omega)⟩
  · exact hx.elim

theorem exists_opens {c : Char} (h : 0x80 ≤ c.toNat) :
    ∃ n x, Opens n x ∧ ∃ w < 64 ^ n, c = Char.ofNat (x * 64 ^ n + w) := by
  have hvalid : c.toNat.isValidChar := c.valid
  rw [Nat.isValidChar] at hvalid
  -- The number of bytes is settled by the size of the code point.
  obtain ⟨n, hn⟩ : ∃ n, Opens n (c.toNat / 64 ^ n) := by
    rcases Nat.lt_or_ge c.toNat 0x800 with hsize | hsize
    · exact ⟨0, by rw [Opens]; omega⟩
    · rcases Nat.lt_or_ge c.toNat 0x10000 with hsize' | hsize'
      · exact ⟨1, by rw [Opens]; omega⟩
      · exact ⟨2, by rw [Opens]; omega⟩
  refine ⟨n, _, hn, c.toNat % 64 ^ n, Nat.mod_lt _ (by positivity), ?_⟩
  rw [Nat.div_add_mod', Char.ofNat_toNat]

theorem encodeChar_of_lt {c : Char} (h : c.toNat < 0x80) :
    String.utf8EncodeChar c = [UInt8.ofNat c.toNat] := by
  rw [Char.toNat] at h ⊢
  unfold String.utf8EncodeChar
  simp only [if_pos (Nat.le_of_lt_succ h)]

/-- **The first character of an input** is the one whose bytes the input begins with. -/
theorem first_eq_char_iff {b : UInt8} {input rest : List UInt8} {c : Char} :
    first b input = (.char c, rest) ↔ b :: input = String.utf8EncodeChar c ++ rest := by
  constructor
  · intro h
    rcases Nat.lt_or_ge b.toNat 0x80 with hb | hb
    · rw [first_of_lt hb] at h
      cases h
      have hc : (Char.ofNat b.toNat).toNat = b.toNat :=
        toNat_ofNat_of_isValidChar (Or.inl (by omega))
      rw [encodeChar_of_lt (by rwa [hc]), hc, UInt8.ofNat_toNat]
      rfl
    · obtain ⟨n, x, hx, w, hw, rfl, heq⟩ := (first_eq_char_iff_of_le hb).1 h
      rw [heq, encodeChar_of_opens hx hw]
      rfl
  · intro h
    rcases Nat.lt_or_ge c.toNat 0x80 with hc | hc
    · rw [encodeChar_of_lt hc] at h
      obtain ⟨rfl, rfl⟩ := List.cons.inj h
      have hb : (UInt8.ofNat c.toNat).toNat = c.toNat := by
        rw [UInt8.toNat_ofNat', Nat.mod_eq_of_lt (by omega)]
      rw [first_of_lt (UInt8.lt_iff_toNat_lt.2 (by rwa [hb])), hb, Char.ofNat_toNat]
    · obtain ⟨n, x, hx, w, hw, rfl⟩ := exists_opens hc
      rw [encodeChar_of_opens hx hw] at h
      have hb : 0x80 ≤ b := by
        rw [(List.cons.inj h).1, UInt8.le_iff_toNat_le, UInt8.toNat_ofNat',
          Nat.mod_eq_of_lt hx.first_byte.2]
        exact hx.first_byte.1
      exact (first_eq_char_iff_of_le hb).2 ⟨n, x, hx, w, hw, rfl, h⟩

/-! ### Texts -/

theorem segments_eq_map_char_iff {bytes : List UInt8} {text : List Char} :
    segments bytes = text.map .char ↔ bytes = text.flatMap String.utf8EncodeChar := by
  induction text generalizing bytes with
  | nil =>
    rcases bytes with - | ⟨b, input⟩
    · simp [segments]
    · simp [segments]
  | cons c text ih =>
    rcases bytes with - | ⟨b, input⟩
    · simp [segments, String.utf8EncodeChar_ne_nil]
    · rw [segments, List.map_cons, List.flatMap_cons, List.cons.injEq, ih]
      constructor
      · rintro ⟨hc, hrest⟩
        exact first_eq_char_iff.1 (Prod.ext hc hrest)
      · intro h
        rw [first_eq_char_iff.2 h]
        exact ⟨rfl, rfl⟩

theorem chars_eq_ok_iff {index : Nat} {segs : List Segment} {text : List Char} :
    chars index segs = .ok text ↔ segs = text.map .char := by
  induction segs generalizing index text with
  | nil => cases text <;> simp [chars]
  | cons s segs ih =>
    rcases s with c | length | -
    · rw [chars, map_eq_ok_iff]
      constructor
      · rintro ⟨tail, htail, rfl⟩
        rw [ih.1 htail, List.map_cons]
      · intro h
        rcases text with - | ⟨d, text⟩
        · simp at h
        · obtain ⟨hc, hsegs⟩ := List.cons.inj h
          exact ⟨text, ih.2 hsegs, by rw [Segment.char.inj hc]⟩
    · cases text <;> simp [chars]
    · cases text <;> simp [chars]

/-- **What is decoded**: the bytes of a text, and nothing else. -/
theorem decode_eq_ok_iff {bytes : List UInt8} {text : String} :
    decode bytes = .ok text ↔ bytes = encode text := by
  rw [decode, map_eq_ok_iff, encode, ← segments_eq_map_char_iff]
  constructor
  · rintro ⟨cs, hcs, rfl⟩
    rw [String.toList_ofList]
    exact chars_eq_ok_iff.1 hcs
  · intro h
    exact ⟨text.toList, chars_eq_ok_iff.2 h, String.ofList_toList⟩

end Utf8

end DwarfExpr
