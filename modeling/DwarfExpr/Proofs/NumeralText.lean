/-
  DwarfExpr/Proofs/NumeralText.lean
  =================================
  **Which texts are numbers, and how numbers are written.** `Value.read` is described from both
  sides.

    * `Radix.Numeral`: a number is a sign or a mark that may be missing, then at least one digit.
      Its value is positional, and a minus sign turns it around.
    * `Radix.Refuses`: every other text is refused for one reason.  A sign before hexadecimal digits
      comes first, then the lack of digits, then the first character that is none.

  Each text is of exactly one kind (`Radix.numeral_or_refuses`), and reading tells which one.  The
  only point that needs care is where the digits begin.  A sign or mark is taken off as soon as the
  text begins with one, even if the rest is no number without it: `0x` has no digits and is not a
  zero with a stray letter behind it.

  What is written has no zero in front of other digits (`Value.shortest_digits`).  In decimal the
  digits come from divisions, and the last of these leaves a quotient of zero.  The first digit is
  thus the remainder of a number between one and nine.
-/
import DwarfExpr.Proofs.Lexing
import Mathlib.Data.List.Induction
import Mathlib.Data.Nat.Digits.Defs

namespace DwarfExpr

namespace Radix

/-! ### Digits -/

/-- The digits of a radix.  Letters count in either case. -/
def alphabet : Radix → List Char
  | decimal => ['0', '1', '2', '3', '4', '5', '6', '7', '8', '9']
  | hexadecimal =>
    ['0', '1', '2', '3', '4', '5', '6', '7', '8', '9', 'a', 'b', 'c', 'd', 'e', 'f',
      'A', 'B', 'C', 'D', 'E', 'F']

/-- The value of a digit: its place among the digits with small letters. -/
def valueOf (c : Char) : Nat := (hexadecimal.alphabet.take 16).idxOf c.toLower

/-- The number that digits stand for by their positions, the first being the most significant. -/
def positional (r : Radix) (ds : List Char) : Nat := Nat.ofDigits r.base (ds.reverse.map valueOf)

theorem digit?_of_mem {r : Radix} {c : Char} (h : c ∈ r.alphabet) :
    r.digit? c = some (valueOf c) := by
  have hall : r.alphabet.all fun c => r.digit? c == some (valueOf c) := by cases r <;> decide
  simpa using List.all_eq_true.1 hall c h

theorem isSome_digit?_iff {r : Radix} {c : Char} : (r.digit? c).isSome ↔ c ∈ r.alphabet := by
  constructor
  · intro h
    have hfigure : ∀ n < 58, 48 ≤ n → Char.ofNat n ∈ r.alphabet := by cases r <;> decide
    have hsmall : ∀ n < 103, 97 ≤ n → Char.ofNat n ∈ hexadecimal.alphabet := by decide
    have hcapital : ∀ n < 71, 65 ≤ n → Char.ofNat n ∈ hexadecimal.alphabet := by decide
    rw [← Char.ofNat_toNat c]
    rcases (Piece.isDigit_iff r c).1 h with ⟨hge, hle⟩ | ⟨rfl, ⟨hge, hle⟩ | ⟨hge, hle⟩⟩
    · exact hfigure _ (by omega) hge
    · exact hsmall _ (by omega) hge
    · exact hcapital _ (by omega) hge
  · intro h
    rw [digit?_of_mem h]
    rfl

theorem digit?_eq_none_iff {r : Radix} {c : Char} : r.digit? c = none ↔ c ∉ r.alphabet := by
  rw [← isSome_digit?_iff]
  simp

/-- Reading digits one after another adds up their positional value. -/
theorem number_eq_positional {r : Radix} {ds : List Char} (h : ∀ c ∈ ds, c ∈ r.alphabet) :
    r.number ds = r.positional ds := by
  induction ds using List.reverseRecOn with
  | nil => rfl
  | append_singleton ds c ih =>
    have hinit := ih fun d hd => h d (by simp [hd])
    have hlast := digit?_of_mem (h c (by simp))
    rw [number_append_singleton, hinit, hlast, positional, positional, List.reverse_append,
      List.reverse_singleton, List.singleton_append, List.map_cons, Nat.ofDigits_cons,
      Option.getD_some]
    ring

/-! ### Texts -/

/-- What may stand before the digits of a number. -/
def leads : Radix → List (List Char)
  | decimal => [[], ['-']]
  | hexadecimal => [[], ['0', 'x'], ['0', 'X']]

/-- The text is a number of the radix, and `i` is the integer that it stands for. -/
def Numeral (r : Radix) (text : List Char) (i : Int) : Prop :=
  ∃ lead ∈ r.leads, ∃ ds, text = lead ++ ds ∧ ds ≠ [] ∧ (∀ c ∈ ds, c ∈ r.alphabet) ∧
    i = if lead = ['-'] then -(r.positional ds : Int) else r.positional ds

/-- The longest lead that the text begins with, and what is left behind it. -/
structure Splits (r : Radix) (text lead body : List Char) : Prop where
  mem : lead ∈ r.leads
  eq : text = lead ++ body
  longest : ∀ other ∈ r.leads, other <+: text → other.length ≤ lead.length

def Signed (r : Radix) (text : List Char) : Prop := r = .hexadecimal ∧ ['-'] <+: text

/-- The text is not a number of the radix, for the given reason. -/
inductive Refuses (r : Radix) (text : List Char) : NumeralFault → Prop
  | negativeHex (hsign : r.Signed text) : Refuses r text .negativeHex
  | empty (hsign : ¬ r.Signed text) {lead : List Char} (hsplit : r.Splits text lead []) :
      Refuses r text .empty
  | notADigit (hsign : ¬ r.Signed text) {lead ds rest : List Char} {c : Char}
      (hsplit : r.Splits text lead (ds ++ c :: rest)) (hds : ∀ d ∈ ds, d ∈ r.alphabet)
      (hc : c ∉ r.alphabet) : Refuses r text (.notADigit c)

/-- The digits stand for `n`, and no zero is in front of others. -/
structure Shortest (r : Radix) (ds : List Char) (n : Nat) : Prop where
  ne_nil : ds ≠ []
  digits : ∀ c ∈ ds, c ∈ r.alphabet
  value : r.positional ds = n
  noLeadingZero : ds.head? = some '0' → ds = ['0']

theorem exists_not_digit_of_lead {r : Radix} {lead : List Char} (h : lead ∈ r.leads)
    (hne : lead ≠ []) : ∃ c ∈ lead, c ∉ r.alphabet := by
  have hall : ∀ lead ∈ r.leads, lead ≠ [] → lead.any (· ∉ r.alphabet) := by
    cases r <;> decide
  simpa using hall lead h hne

theorem length_lead_le {r : Radix} {lead other : List Char} (h : lead ∈ r.leads) (hne : lead ≠ [])
    (hother : other ∈ r.leads) : other.length ≤ lead.length := by
  have hall : ∀ lead ∈ r.leads, lead ≠ [] → ∀ other ∈ r.leads, other.length ≤ lead.length := by
    cases r <;> decide
  exact hall lead h hne other hother

/-- Digits are not taken for a lead. -/
theorem splits_of_digits {r : Radix} {lead ds : List Char} (hlead : lead ∈ r.leads)
    (hds : ∀ c ∈ ds, c ∈ r.alphabet) : r.Splits (lead ++ ds) lead ds := by
  refine ⟨hlead, rfl, ?_⟩
  intro other hother hstart
  by_cases hnil : lead = []
  · -- another lead would have to consist of digits
    by_cases hempty : other = []
    · simp [hempty]
    · rw [hnil, List.nil_append] at hstart
      obtain ⟨c, hc, hnot⟩ := exists_not_digit_of_lead hother hempty
      exact absurd (hds c (hstart.subset hc)) hnot
  · exact length_lead_le hlead hnil hother

/-- No sign is before digits, except a minus sign before decimal ones. -/
theorem not_signed_of_digits {r : Radix} {lead ds : List Char} (hlead : lead ∈ r.leads)
    (hds : ∀ c ∈ ds, c ∈ r.alphabet) : ¬ r.Signed (lead ++ ds) := by
  rintro ⟨rfl, hstart⟩
  by_cases hnil : lead = []
  · rw [hnil, List.nil_append] at hstart
    exact absurd (hds '-' (hstart.subset (by simp))) (by decide)
  · have hall : ∀ lead ∈ hexadecimal.leads, lead ≠ [] → lead.head? ≠ some '-' := by decide
    obtain ⟨rest, hrest⟩ := hstart
    have hhead : (lead ++ ds).head? = some '-' := by rw [← hrest]; rfl
    rw [List.head?_append_of_ne_nil _ hnil] at hhead
    exact hall lead hlead hnil hhead

theorem exists_splits (r : Radix) (text : List Char) : ∃ lead body, r.Splits text lead body := by
  by_cases h : ∃ lead ∈ r.leads, lead ≠ [] ∧ lead <+: text
  · -- the leads of a radix that are not empty are equally long
    obtain ⟨lead, hlead, hne, body, rfl⟩ := h
    exact ⟨lead, body, hlead, rfl, fun other hother _ => length_lead_le hlead hne hother⟩
  · refine ⟨[], text, by cases r <;> decide, rfl, ?_⟩
    intro other hother hstart
    by_contra hlong
    exact h ⟨other, hother, fun hnil => hlong (by simp [hnil]), hstart⟩

/-- **Every text is a number or refused.** -/
theorem numeral_or_refuses (r : Radix) (text : List Char) :
    (∃ i, r.Numeral text i) ∨ ∃ fault, r.Refuses text fault := by
  by_cases hsign : r.Signed text
  · exact Or.inr ⟨_, .negativeHex hsign⟩
  · obtain ⟨lead, body, hsplit⟩ := r.exists_splits text
    cases hfind : body.find? (· ∉ r.alphabet) with
    | some c =>
      obtain ⟨hc, ds, rest, rfl, hds⟩ := List.find?_eq_some_iff_append.1 hfind
      refine Or.inr ⟨_, .notADigit hsign hsplit ?_ (by simpa using hc)⟩
      intro d hd
      simpa using hds d hd
    | none =>
      have hdigits : ∀ c ∈ body, c ∈ r.alphabet := by simpa using hfind
      by_cases hnil : body = []
      · rw [hnil] at hsplit
        exact Or.inr ⟨_, .empty hsign hsplit⟩
      · exact Or.inl ⟨_, lead, hsplit.mem, body, hsplit.eq, hnil, hdigits, rfl⟩

end Radix

namespace Value

/-! ### Reading -/

theorem splitSign_of_not_minus {text : List Char} (h : ¬ ['-'] <+: text) :
    splitSign text = (false, text) := by
  unfold splitSign
  split
  · next rest => exact absurd ⟨rest, rfl⟩ h
  · rfl

theorem dropMark_of_not_mark {text : List Char} (hsmall : ¬ ['0', 'x'] <+: text)
    (hcapital : ¬ ['0', 'X'] <+: text) : dropMark .hexadecimal text = text := by
  unfold dropMark
  split
  · next rest _ => exact absurd ⟨rest, rfl⟩ hsmall
  · next rest _ => exact absurd ⟨rest, rfl⟩ hcapital
  · rfl

theorem read_eq {r : Radix} {text unsigned body : List Char} {negative : Bool}
    (hsplit : splitSign text = (negative, unsigned)) (hmark : dropMark r unsigned = body)
    (hsign : (negative && r == .hexadecimal) = false) :
    read r text =
      if body = [] then .error .empty else (readDigits r body).map (ofMagnitude negative) := by
  simp only [read, hsplit, hmark, hsign]
  cases body <;> rfl

/-- What is read is what is left behind the longest lead. -/
theorem read_of_splits {r : Radix} {text lead body : List Char} (hsign : ¬ r.Signed text)
    (h : r.Splits text lead body) :
    read r text =
      if body = [] then .error .empty
      else (readDigits r body).map (ofMagnitude (decide (lead = ['-']))) := by
  obtain ⟨hmem, rfl, hlongest⟩ := h
  cases r with
  | decimal =>
    have hcases : lead = [] ∨ lead = ['-'] := by simpa [Radix.leads] using hmem
    rcases hcases with rfl | rfl
    · have hminus : ¬ ['-'] <+: body := by
        intro hstart
        exact absurd (hlongest ['-'] (by decide) hstart) (by decide)
      exact read_eq (splitSign_of_not_minus hminus) rfl rfl
    · exact read_eq rfl rfl rfl
  | hexadecimal =>
    have hminus : ¬ ['-'] <+: lead ++ body := fun hstart => hsign ⟨rfl, hstart⟩
    have hcases : lead = [] ∨ lead = ['0', 'x'] ∨ lead = ['0', 'X'] := by
      simpa [Radix.leads] using hmem
    rcases hcases with rfl | rfl | rfl
    · -- a mark would be a longer lead
      have hmark : ∀ mark ∈ [['0', 'x'], ['0', 'X']], ¬ mark <+: body := by
        intro mark hin hstart
        have hlength := hlongest mark (by simp [Radix.leads] at hin ⊢; tauto) hstart
        simp at hin
        rcases hin with rfl | rfl <;> simp at hlength
      exact read_eq (splitSign_of_not_minus hminus)
        (dropMark_of_not_mark (hmark _ (by simp)) (hmark _ (by simp))) rfl
    · exact read_eq (splitSign_of_not_minus hminus) rfl rfl
    · exact read_eq (splitSign_of_not_minus hminus) rfl rfl

/-- Digits are read up to the first character that is none. -/
theorem readDigits_append_cons {r : Radix} {ds : List Char} {c : Char}
    (hds : ∀ d ∈ ds, d ∈ r.alphabet) (hc : c ∉ r.alphabet) (rest : List Char) :
    readDigits r (ds ++ c :: rest) = .error (.notADigit c) := by
  obtain ⟨m, hread, -⟩ := readDigits_eq_ok r fun d hd => Radix.isSome_digit?_iff.2 (hds d hd)
  unfold readDigits at hread ⊢
  rw [List.foldlM_append, hread]
  simp only [bind, Except.bind, List.foldlM_cons, Radix.digit?_eq_none_iff.2 hc]

theorem read_of_numeral {r : Radix} {text : List Char} {i : Int} (h : r.Numeral text i) :
    ∃ v, read r text = .ok v ∧ v.toInt = i := by
  obtain ⟨lead, hlead, ds, rfl, hne, hds, rfl⟩ := h
  obtain ⟨m, hread, hnat⟩ := readDigits_eq_ok r fun c hc => Radix.isSome_digit?_iff.2 (hds c hc)
  refine ⟨ofMagnitude (decide (lead = ['-'])) m, ?_, ?_⟩
  · rw [read_of_splits (Radix.not_signed_of_digits hlead hds) (Radix.splits_of_digits hlead hds),
      if_neg hne, hread]
    rfl
  · rw [toInt_ofMagnitude, hnat, Radix.number_eq_positional hds]
    simp only [decide_eq_true_eq]

theorem read_of_refuses {r : Radix} {text : List Char} {fault : NumeralFault}
    (h : r.Refuses text fault) : read r text = .error fault := by
  cases h with
  | negativeHex hsign =>
    obtain ⟨rfl, rest, rfl⟩ := hsign
    rfl
  | empty hsign hsplit => rw [read_of_splits hsign hsplit, if_pos rfl]
  | notADigit hsign hsplit hds hc =>
    rw [read_of_splits hsign hsplit, if_neg (by simp), readDigits_append_cons hds hc]
    rfl

/-- **Which texts can be read, and as what.** -/
theorem read_eq_ok_iff_numeral {r : Radix} {text : List Char} {v : Value} :
    read r text = .ok v ↔ r.Numeral text v.toInt := by
  constructor
  · intro hread
    rcases r.numeral_or_refuses text with ⟨i, hnumeral⟩ | ⟨fault, hrefuses⟩
    · obtain ⟨w, hw, hint⟩ := read_of_numeral hnumeral
      obtain rfl : v = w := by simpa using hread.symm.trans hw
      rwa [hint]
    · rw [read_of_refuses hrefuses] at hread
      cases hread
  · intro hnumeral
    obtain ⟨w, hw, hint⟩ := read_of_numeral hnumeral
    rw [hw, toInt_injective hint]

/-- **Why a text cannot be read.** -/
theorem read_eq_error_iff_refuses {r : Radix} {text : List Char} {fault : NumeralFault} :
    read r text = .error fault ↔ r.Refuses text fault := by
  constructor
  · intro hread
    rcases r.numeral_or_refuses text with ⟨i, hnumeral⟩ | ⟨other, hrefuses⟩
    · obtain ⟨w, hw, -⟩ := read_of_numeral hnumeral
      rw [hw] at hread
      cases hread
    · obtain rfl : fault = other := by simpa using hread.symm.trans (read_of_refuses hrefuses)
      exact hrefuses
  · exact read_of_refuses

/-! ### Writing -/

theorem decimalDigits_nil (count : Nat) : decimalDigits count [] = [] := by
  cases count <;> rfl

theorem decimalDigits_ne_nil {count : Nat} {m : Magnitude} (htrim : m.Trimmed) (hne : m ≠ [])
    (h : m.toNat < 10 ^ count) : decimalDigits count m ≠ [] := by
  intro hnil
  have hnumber := (number_decimalDigits htrim h).1
  rw [hnil] at hnumber
  exact hne ((Magnitude.toNat_eq_zero_iff htrim).1 hnumber.symm)

/-- The last division leaves the first digit, which is not zero. -/
theorem getLast?_decimalDigits_ne {count : Nat} {m : Magnitude} (htrim : m.Trimmed) (hne : m ≠ [])
    (h : m.toNat < 10 ^ count) : (decimalDigits count m).getLast? ≠ some '0' := by
  induction count generalizing m with
  | zero =>
    have hzero : m.toNat = 0 := by simpa using h
    exact absurd ((Magnitude.toNat_eq_zero_iff htrim).1 hzero) hne
  | succ count ih =>
    obtain ⟨hquot, hrest⟩ := @Magnitude.toNat_divMod 10 (by decide) (by decide) m
    simp only [UInt32.reduceToNat] at hquot hrest
    have hstep : decimalDigits (count + 1) m =
        Nat.digitChar (m.toNat % 10) :: decimalDigits count (Magnitude.divMod 10 m).1 := by
      cases m with
      | nil => exact absurd rfl hne
      | cons b m =>
        rw [← hrest]
        rfl
    rw [hstep]
    by_cases hlast : (Magnitude.divMod 10 m).1 = []
    · -- this was the last division, and the number is its remainder
      have hone : ∀ d < 10, d ≠ 0 → Nat.digitChar d ≠ '0' := by decide
      have hpos : m.toNat ≠ 0 := fun hzero => hne ((Magnitude.toNat_eq_zero_iff htrim).1 hzero)
      rw [hlast, Magnitude.toNat_nil] at hquot
      rw [hlast, decimalDigits_nil, List.getLast?_singleton, ne_eq, Option.some.injEq]
      exact hone _ (by omega) (by omega)
    · have htrim' := Magnitude.trimmed_divMod 10 m
      have hroom : (Magnitude.divMod 10 m).1.toNat < 10 ^ count := by
        rw [hquot]
        rw [pow_succ] at h
        omega
      obtain ⟨d, ds, hds⟩ := List.exists_cons_of_ne_nil (decimalDigits_ne_nil htrim' hlast hroom)
      have htail := ih htrim' hlast hroom
      rw [hds] at htail ⊢
      rwa [List.getLast?_cons_cons]

theorem noLeadingZero_digits {r : Radix} {v : Value} (hhead : (v.digits r).head? = some '0') :
    v.digits r = ['0'] := by
  have htrim := v.trimmed
  unfold digits at hhead ⊢
  cases hm : v.magnitude with
  | nil => rfl
  | cons b m =>
    rw [hm] at htrim hhead
    exfalso
    cases r with
    | decimal =>
      have hlast := getLast?_decimalDigits_ne htrim (by simp) (toNat_lt_ten_pow (b :: m))
      exact hlast (by simpa using hhead)
    | hexadecimal =>
      have hfirst := List.head?_dropWhile_not (· == '0') ((b :: m).reverse.flatMap ByteText.digits)
      simp only at hhead
      rw [hhead] at hfirst
      simp at hfirst

/-- **A number is written with as few digits as it needs.** -/
theorem shortest_digits (r : Radix) (v : Value) : r.Shortest (v.digits r) v.toInt.natAbs := by
  obtain ⟨hnumber, hdigits⟩ := number_digits r v
  have hmem : ∀ c ∈ v.digits r, c ∈ r.alphabet := by
    intro c hc
    exact Radix.isSome_digit?_iff.1 (hdigits c hc)
  exact ⟨digits_ne_nil r v, hmem, (Radix.number_eq_positional hmem).symm.trans hnumber,
    noLeadingZero_digits⟩

/-- **Numbers are read and written exactly.** A text is read exactly if it is a number of its radix,
    and as the integer that it stands for; otherwise the fault is the first that applies.  A value
    is read back from its decimal text, and from its hexadecimal text if it is not negative.
    Neither text has a zero in front of other digits. -/
theorem numerals_exact :
    (∀ (r : Radix) (text : List Char) (v : Value),
      read r text = .ok v ↔ r.Numeral text v.toInt) ∧
    (∀ (r : Radix) (text : List Char) (fault : NumeralFault),
      read r text = .error fault ↔ r.Refuses text fault) ∧
    ∀ v : Value,
      read .decimal v.decimal.toList = .ok v ∧
      (0 ≤ v.toInt → read .hexadecimal v.hexadecimal.toList = .ok v) ∧
      (∃ ds, Radix.decimal.Shortest ds v.toInt.natAbs ∧
        v.decimal.toList = (if v.toInt < 0 then ['-'] else []) ++ ds) ∧
      ∃ ds, Radix.hexadecimal.Shortest ds v.toInt.natAbs ∧
        v.hexadecimal.toList = (if v.toInt < 0 then ['-'] else []) ++ '0' :: 'x' :: ds := by
  refine ⟨fun r text v => read_eq_ok_iff_numeral, fun r text fault => read_eq_error_iff_refuses, ?_⟩
  intro v
  refine ⟨read_text (by simp), fun h => read_text fun _ => h,
    ⟨_, shortest_digits .decimal v, ?_⟩, ⟨_, shortest_digits .hexadecimal v, ?_⟩⟩
  · simp [decimal, toList_text, Radix.mark, negative_iff]
  · simp [hexadecimal, toList_text, Radix.mark, negative_iff]

/-- A zero digit inside of a byte and a byte of zeros are written. -/
theorem numerals_exact_inner_zeros :
    read .hexadecimal "0x10000a".toList = .ok (ofNat 0x10000a) ∧ 0 ≤ (ofNat 0x10000a).toInt ∧
      read .hexadecimal (ofNat 0x10000a).hexadecimal.toList = .ok (ofNat 0x10000a) := by
  have hnonneg : 0 ≤ (ofNat 0x10000a).toInt := by
    rw [toInt_ofNat]
    omega
  obtain ⟨hread, -, hwrite⟩ := numerals_exact
  refine ⟨(hread _ _ _).2 ?_, hnonneg, (hwrite _).2.1 hnonneg⟩
  refine ⟨['0', 'x'], by decide, ['1', '0', '0', '0', '0', 'a'], by decide, by decide, ?_, ?_⟩
  · simp [Radix.alphabet]
  · rw [toInt_ofNat]
    decide +kernel

end Value

end DwarfExpr
