/-
  DwarfExpr/Proofs/Encoding.lean
  ==============================
  **The two families of encodings, as arithmetic.** A decoder is described by the piece of bytes
  that it takes from the front of its input: which pieces it takes, and what value it reads from
  them.

    * `Fixed.decode_eq_ok_iff`: a piece is any string of the given length.  Writing a value gives
      the one piece of its residue class (`Fixed.encode_eq_iff`).
    * `Leb128.decodeUnsigned_eq_ok_iff`, `Leb128.decodeSigned_eq_ok_iff`: a piece ends at the first
      byte below `0x80`.  The encoders write pieces that read back as the value they were given, and
      these are the shortest ones (`Leb128.shortest_unsigned_iff`, `Leb128.shortest_signed_iff`).
-/
import DwarfExpr.Encoding
import DwarfExpr.Proofs.Value

namespace DwarfExpr

/-! ### Fixed width -/

namespace ByteOrder

@[simp] theorem length_arrange (order : ByteOrder) (bytes : List UInt8) :
    (order.arrange bytes).length = bytes.length := by
  cases order <;> simp [arrange]

@[simp] theorem arrange_arrange (order : ByteOrder) (bytes : List UInt8) :
    order.arrange (order.arrange bytes) = bytes := by
  cases order <;> simp [arrange]

end ByteOrder

theorem two_pow_eight_mul (n : Nat) : (2 : Int) ^ (8 * n) = 256 ^ n := by
  rw [pow_mul]
  norm_num

namespace Fixed

/-- **What a fixed-width decoder takes**: a piece of the given length, whatever follows it. -/
theorem decode_eq_ok_iff {order : ByteOrder} {signed : Bool} {length : Nat}
    {input rest : List UInt8} {v : Value} :
    decode order signed length input = .ok (v, rest) ↔
      ∃ piece, input = piece ++ rest ∧ piece.length = length ∧
        v = Value.ofBytes signed (order.arrange piece) := by
  unfold decode
  constructor
  · intro h
    split at h
    · next hle =>
      simp only [Except.ok.injEq, Prod.mk.injEq] at h
      obtain ⟨rfl, rfl⟩ := h
      exact ⟨input.take length, (List.take_append_drop length input).symm,
        List.length_take_of_le hle, rfl⟩
    · simp at h
  · rintro ⟨piece, rfl, rfl, rfl⟩
    simp

theorem length_encode (order : ByteOrder) (n : Nat) (v : Value) :
    (encode order (8 * n) v).length = n := by
  simp only [encode, ByteOrder.length_arrange, Value.length_bits]
  omega

theorem toNat_encode (order : ByteOrder) (n : Nat) (v : Value) :
    (Magnitude.toNat (order.arrange (encode order (8 * n) v)) : Int) = v.toInt % 256 ^ n := by
  rw [encode, ByteOrder.arrange_arrange, Value.toNat_bits, pow_mul]
  norm_num

/-- **A value is written as the one piece of its residue class.** -/
theorem encode_eq_iff {order : ByteOrder} {n : Nat} {v : Value} {piece : List UInt8}
    (h : piece.length = n) :
    encode order (8 * n) v = piece ↔
      v.toInt % 256 ^ n = Magnitude.toNat (order.arrange piece) := by
  constructor
  · rintro rfl
    exact (toNat_encode order n v).symm
  · intro hresidue
    have hnat := (toNat_encode order n v).trans hresidue
    have harrange : order.arrange (encode order (8 * n) v) = order.arrange piece := by
      apply Magnitude.eq_of_toNat_eq
      · rw [ByteOrder.length_arrange, ByteOrder.length_arrange, length_encode, h]
      · exact_mod_cast hnat
    rw [← ByteOrder.arrange_arrange order (encode order (8 * n) v), harrange,
      ByteOrder.arrange_arrange]

/-- The value of a piece is written as that piece. -/
theorem encode_ofBytes (order : ByteOrder) (signed : Bool) (piece : List UInt8) :
    encode order (8 * piece.length) (Value.ofBytes signed (order.arrange piece)) = piece := by
  rw [encode_eq_iff rfl]
  have h := Value.emod_toInt_ofBytes signed (order.arrange piece)
  rwa [ByteOrder.length_arrange] at h

end Fixed

/-! ### The shape of LEB128 numbers -/

namespace Leb128

/-- Bytes that are one LEB128 number: all but the last have their top bit set. -/
def Terminated (bytes : List UInt8) : Prop :=
  ∃ init last, bytes = init ++ [last] ∧ (∀ b ∈ init, 0x80 ≤ b) ∧ last < 0x80

/-- The number that the lower seven bits of bytes spell, the first byte being the lowest. -/
def payload : List UInt8 → Nat
  | [] => 0
  | b :: bytes => b.toNat % 128 + 128 * payload bytes

theorem not_terminated_nil : ¬ Terminated [] := by
  rintro ⟨init, last, h, -, -⟩
  simp at h

theorem terminated_cons_iff (b : UInt8) (bytes : List UInt8) :
    Terminated (b :: bytes) ↔ (bytes = [] ∧ b < 0x80) ∨ (0x80 ≤ b ∧ Terminated bytes) := by
  constructor
  · rintro ⟨init, last, h, hinit, hlast⟩
    cases init with
    | nil =>
      simp only [List.nil_append, List.cons.injEq] at h
      exact Or.inl ⟨h.2, h.1 ▸ hlast⟩
    | cons c init =>
      simp only [List.cons_append, List.cons.injEq] at h
      refine Or.inr ⟨h.1 ▸ hinit c (by simp), init, last, h.2, ?_, hlast⟩
      intro d hd
      exact hinit d (by simp [hd])
  · rintro (⟨rfl, hb⟩ | ⟨hb, init, last, rfl, hinit, hlast⟩)
    · exact ⟨[], b, rfl, by simp, hb⟩
    · refine ⟨b :: init, last, rfl, ?_, hlast⟩
      intro d hd
      rcases List.mem_cons.1 hd with rfl | hd
      · exact hb
      · exact hinit d hd

theorem Terminated.length_pos {bytes : List UInt8} (h : Terminated bytes) : 0 < bytes.length := by
  cases bytes with
  | nil => exact absurd h not_terminated_nil
  | cons b bytes => simp

theorem payload_lt (bytes : List UInt8) : payload bytes < 128 ^ bytes.length := by
  induction bytes with
  | nil => simp [payload]
  | cons b bytes ih =>
    simp only [payload, List.length_cons, pow_succ]
    omega

theorem payload_append (l m : List UInt8) :
    payload (l ++ m) = payload l + 128 ^ l.length * payload m := by
  induction l with
  | nil => simp [payload]
  | cons b l ih =>
    simp only [List.cons_append, payload, List.length_cons, ih, pow_succ]
    ring

/-- Numbers of one length are told apart by what they spell. -/
theorem Terminated.eq_of_payload_eq {l m : List UInt8} (hl : Terminated l) (hm : Terminated m)
    (hlen : l.length = m.length) (h : payload l = payload m) : l = m := by
  induction l generalizing m with
  | nil => exact absurd hl not_terminated_nil
  | cons b l ih =>
    cases m with
    | nil => simp at hlen
    | cons c m =>
      have hlen' : l.length = m.length := by simpa using hlen
      simp only [payload] at h
      simp only [terminated_cons_iff, UInt8.lt_iff_toNat_lt, UInt8.le_iff_toNat_le,
        UInt8.reduceToNat] at hl hm
      have hb := b.toNat_lt
      have hc := c.toNat_lt
      rcases hl with ⟨rfl, hl⟩ | ⟨hb', hl⟩
      · have hnil : m = [] := List.length_eq_zero_iff.1 (by simpa using hlen'.symm)
        subst hnil
        have hm' : c.toNat < 128 := by
          rcases hm with ⟨-, hm⟩ | ⟨-, hm⟩
          · exact hm
          · exact absurd hm not_terminated_nil
        rw [UInt8.toNat_inj.1 (by omega : b.toNat = c.toNat)]
      · rcases hm with ⟨rfl, -⟩ | ⟨hc', hm⟩
        · have hpos := hl.length_pos
          rw [hlen'] at hpos
          simp at hpos
        · rw [UInt8.toNat_inj.1 (by omega : b.toNat = c.toNat), ih hl hm hlen' (by omega)]

/-- **Where a LEB128 number ends**: at its first byte below `0x80`, whatever follows. -/
theorem split_eq_some_iff {input groups rest : List UInt8} :
    split input = some (groups, rest) ↔
      ∃ piece, input = piece ++ rest ∧ Terminated piece ∧ groups = piece.map (· &&& 0x7f) := by
  induction input generalizing groups with
  | nil =>
    simp only [split, reduceCtorEq, false_iff]
    rintro ⟨piece, h, hpiece, -⟩
    obtain ⟨rfl, -⟩ := List.append_eq_nil_iff.1 h.symm
    exact not_terminated_nil hpiece
  | cons b input ih =>
    unfold split
    split
    · next hb =>
      have hlow : b &&& 0x7f = b := by
        apply UInt8.toNat_inj.1
        rw [UInt8.lt_iff_toNat_lt] at hb
        rw [UInt8.toNat_and]
        exact (Nat.and_two_pow_sub_one_eq_mod b.toNat 7).trans (Nat.mod_eq_of_lt hb)
      constructor
      · intro h
        simp only [Option.some.injEq, Prod.mk.injEq] at h
        obtain ⟨rfl, rfl⟩ := h
        exact ⟨[b], rfl, (terminated_cons_iff b []).2 (Or.inl ⟨rfl, hb⟩), by simp [hlow]⟩
      · rintro ⟨piece, h, hpiece, rfl⟩
        cases piece with
        | nil => exact absurd hpiece not_terminated_nil
        | cons c piece =>
          simp only [List.cons_append, List.cons.injEq] at h
          obtain ⟨rfl, rfl⟩ := h
          rcases (terminated_cons_iff b piece).1 hpiece with ⟨rfl, -⟩ | ⟨hb', -⟩
          · simp [hlow]
          · exact absurd hb (UInt8.not_lt.2 hb')
    · next hb =>
      have hb' : 0x80 ≤ b := UInt8.not_lt.1 hb
      constructor
      · intro h
        simp only [Option.map_eq_some_iff, Prod.mk.injEq] at h
        obtain ⟨⟨gs, r⟩, hs, rfl, rfl⟩ := h
        obtain ⟨piece, rfl, hpiece, rfl⟩ := ih.1 hs
        exact ⟨b :: piece, rfl, (terminated_cons_iff b piece).2 (Or.inr ⟨hb', hpiece⟩), rfl⟩
      · rintro ⟨piece, h, hpiece, rfl⟩
        cases piece with
        | nil => exact absurd hpiece not_terminated_nil
        | cons c piece =>
          simp only [List.cons_append, List.cons.injEq] at h
          obtain ⟨rfl, rfl⟩ := h
          rcases (terminated_cons_iff b piece).1 hpiece with ⟨-, hlt⟩ | ⟨-, htail⟩
          · exact absurd hlt hb
          · rw [ih.2 ⟨piece, rfl, htail, rfl⟩]
            rfl

/-- An input without a byte below `0x80` holds no number. -/
theorem split_eq_none_iff {input : List UInt8} : split input = none ↔ ∀ b ∈ input, 0x80 ≤ b := by
  induction input with
  | nil => simp [split]
  | cons b input ih =>
    unfold split
    split
    · next hb =>
      simp only [reduceCtorEq, false_iff]
      intro hall
      exact absurd hb (UInt8.not_lt.2 (hall b (by simp)))
    · next hb =>
      rw [Option.map_eq_none_iff, ih, List.forall_mem_cons]
      exact (and_iff_right (UInt8.not_lt.1 hb)).symm

/-! ### What LEB128 numbers stand for -/

/-- The value that a piece stands for as an unsigned number. -/
def unsignedOf (piece : List UInt8) : Value :=
  .ofMagnitude false (spell (piece.map (· &&& 0x7f)))

/-- The value that a piece stands for in two's complement. -/
def signedOf (piece : List UInt8) : Value := signedValue (piece.map (· &&& 0x7f))

/-- What a decoder takes that reads its value from the groups of a number. -/
theorem ofGroups_eq_ok_iff (read : List UInt8 → Value) {input rest : List UInt8} {v : Value} :
    (match split input with
      | some (groups, rest) => (.ok (read groups, rest) : Decoded Value)
      | none => .error (.unterminated input.length)) = .ok (v, rest) ↔
      ∃ piece, input = piece ++ rest ∧ Terminated piece ∧ v = read (piece.map (· &&& 0x7f)) := by
  constructor
  · intro h
    split at h
    · next groups rest' hs =>
      simp only [Except.ok.injEq, Prod.mk.injEq] at h
      obtain ⟨rfl, rfl⟩ := h
      obtain ⟨piece, rfl, hpiece, rfl⟩ := split_eq_some_iff.1 hs
      exact ⟨piece, rfl, hpiece, rfl⟩
    · simp at h
  · rintro ⟨piece, rfl, hpiece, rfl⟩
    rw [split_eq_some_iff.2 ⟨piece, rfl, hpiece, rfl⟩]

/-- When a decoder that reads its value from the groups of a number refuses its input. -/
theorem ofGroups_eq_error_iff (read : List UInt8 → Value) {input : List UInt8}
    {fault : DecodeFault} :
    (match split input with
      | some (groups, rest) => (.ok (read groups, rest) : Decoded Value)
      | none => .error (.unterminated input.length)) = .error fault ↔
      fault = .unterminated input.length ∧ ∀ b ∈ input, 0x80 ≤ b := by
  rw [← split_eq_none_iff]
  cases split input with
  | none => simp [eq_comm]
  | some found => simp

theorem decodeUnsigned_eq_ok_iff {input rest : List UInt8} {v : Value} :
    decodeUnsigned input = .ok (v, rest) ↔
      ∃ piece, input = piece ++ rest ∧ Terminated piece ∧ v = unsignedOf piece :=
  ofGroups_eq_ok_iff fun groups => .ofMagnitude false (spell groups)

theorem decodeSigned_eq_ok_iff {input rest : List UInt8} {v : Value} :
    decodeSigned input = .ok (v, rest) ↔
      ∃ piece, input = piece ++ rest ∧ Terminated piece ∧ v = signedOf piece :=
  ofGroups_eq_ok_iff signedValue

theorem decodeUnsigned_eq_error_iff {input : List UInt8} {fault : DecodeFault} :
    decodeUnsigned input = .error fault ↔
      fault = .unterminated input.length ∧ ∀ b ∈ input, 0x80 ≤ b :=
  ofGroups_eq_error_iff fun groups => .ofMagnitude false (spell groups)

theorem decodeSigned_eq_error_iff {input : List UInt8} {fault : DecodeFault} :
    decodeSigned input = .error fault ↔
      fault = .unterminated input.length ∧ ∀ b ∈ input, 0x80 ≤ b :=
  ofGroups_eq_error_iff signedValue

theorem toNat_and_low (b : UInt8) : (b &&& 0x7f).toNat = b.toNat % 128 := by
  rw [UInt8.toNat_and]
  exact Nat.and_two_pow_sub_one_eq_mod b.toNat 7

theorem toNat_spell (groups : List UInt8) (h : ∀ g ∈ groups, g.toNat < 128) :
    (spell groups).toNat = payload groups := by
  induction groups with
  | nil => rfl
  | cons g groups ih =>
    have hg : g.toNat < 128 := h g (by simp)
    have htail := ih fun b hb => h b (by simp [hb])
    simp only [spell, List.foldr_cons, payload] at htail ⊢
    rw [Magnitude.toNat_mulAdd (by decide) _ (by rw [UInt8.toNat_toUInt32]; omega), htail,
      UInt8.toNat_toUInt32, Nat.mod_eq_of_lt hg]
    simp only [UInt32.reduceToNat]
    omega

theorem payload_map_low (piece : List UInt8) :
    payload (piece.map (· &&& 0x7f)) = payload piece := by
  induction piece with
  | nil => rfl
  | cons b piece ih => simp only [List.map_cons, payload, ih, toNat_and_low, Nat.mod_mod]

theorem low_lt {piece : List UInt8} {g : UInt8} (h : g ∈ piece.map (· &&& 0x7f)) :
    g.toNat < 128 := by
  obtain ⟨b, -, rfl⟩ := List.mem_map.1 h
  rw [toNat_and_low]
  omega

theorem toInt_unsignedOf (piece : List UInt8) : (unsignedOf piece).toInt = payload piece := by
  rw [unsignedOf, Value.toInt_ofMagnitude, toNat_spell _ fun _ => low_lt, payload_map_low]
  simp

/-- Groups and their complements add up to one less than a power of 128. -/
theorem payload_map_complement (groups : List UInt8) (h : ∀ g ∈ groups, g.toNat < 128) :
    payload (groups.map (0x7f - ·)) + payload groups + 1 = 128 ^ groups.length := by
  induction groups with
  | nil => rfl
  | cons g groups ih =>
    have hg : g.toNat < 128 := h g (by simp)
    have htail := ih fun b hb => h b (by simp [hb])
    simp only [List.map_cons, payload, List.length_cons, pow_succ, UInt8.toNat_sub,
      UInt8.reduceToNat]
    omega

/-- The last group is in the upper half exactly if the number is. -/
theorem top_lt_iff {groups : List UInt8} {top : UInt8} (h : ∀ g ∈ groups, g.toNat < 128)
    (htop : groups.getLast? = some top) :
    top < 0x40 ↔ 2 * payload groups < 128 ^ groups.length := by
  induction groups with
  | nil => simp at htop
  | cons g groups ih =>
    have hg : g.toNat < 128 := h g (by simp)
    cases groups with
    | nil =>
      simp only [List.getLast?_singleton, Option.some.injEq] at htop
      subst htop
      simp only [UInt8.lt_iff_toNat_lt, UInt8.reduceToNat, payload, List.length_singleton]
      omega
    | cons g' groups =>
      rw [List.getLast?_cons_cons] at htop
      have htail := ih (fun b hb => h b (by simp [hb])) htop
      rw [htail]
      simp only [payload, List.length_cons, pow_succ]
      omega

/-- **Signed numbers**: the upper half of the range stands for negative numbers. -/
theorem toInt_signedOf {piece : List UInt8} (h : piece ≠ []) :
    (signedOf piece).toInt =
      if 2 * payload piece < 128 ^ piece.length then (payload piece : Int)
      else payload piece - 128 ^ piece.length := by
  obtain ⟨groups, hgroups⟩ : ∃ gs, gs = piece.map (· &&& 0x7f) := ⟨_, rfl⟩
  have hlow : ∀ g ∈ groups, g.toNat < 128 := fun g hg => low_lt (hgroups ▸ hg)
  have hpayload : payload groups = payload piece := hgroups ▸ payload_map_low piece
  have hlen : groups.length = piece.length := by simp [hgroups]
  obtain ⟨top, htop⟩ : ∃ top, groups.getLast? = some top := by
    rw [← Option.ne_none_iff_exists', ne_eq, List.getLast?_eq_none_iff]
    simpa [hgroups] using h
  have hiff := top_lt_iff hlow htop
  rw [hpayload, hlen] at hiff
  rw [signedOf, ← hgroups, signedValue, htop]
  by_cases hhalf : 2 * payload piece < 128 ^ piece.length
  · simp only [hiff.2 hhalf, hhalf, if_true, Value.toInt_ofMagnitude, toNat_spell groups hlow,
      hpayload]
    rfl
  · -- the complement of the groups plus one is what is missing to the power of 128
    have hsum := payload_map_complement groups hlow
    have hcomplement : ∀ g ∈ groups.map (0x7f - ·), g.toNat < 128 := by
      intro g hg
      obtain ⟨b, hb, rfl⟩ := List.mem_map.1 hg
      have := hlow b hb
      rw [UInt8.toNat_sub]
      simp only [UInt8.reduceToNat]
      omega
    have hmissing : (Magnitude.mulAdd 1 1 (spell (groups.map (0x7f - ·)))).toNat + payload piece =
        128 ^ piece.length := by
      rw [Magnitude.toNat_mulAdd (by decide) _ (by decide), toNat_spell _ hcomplement]
      rw [hpayload, hlen] at hsum
      simp only [UInt32.reduceToNat]
      omega
    have hnot : ¬ top < 0x40 := fun hlt => hhalf (hiff.1 hlt)
    have hcast : ((128 ^ piece.length : Nat) : Int) = 128 ^ piece.length := by norm_cast
    simp only [hnot, hhalf, if_false, Value.toInt_ofMagnitude, if_true]
    omega

/-! ### What the encoders write -/

@[simp] theorem length_groups (count : Nat) (v : Value) : (groups count v).length = count := by
  simp [groups]

/-- Base-128 digits of a number spell it. -/
theorem payload_map_range {n : Nat} {f : Nat → UInt8} {count : Nat}
    (h : ∀ i < count, (f i).toNat = n / 128 ^ i % 128) :
    payload ((List.range count).map f) = n % 128 ^ count := by
  induction count with
  | zero => simp [payload, Nat.mod_one]
  | succ count ih =>
    have htail := ih fun i hi => h i (by omega)
    rw [List.range_succ, List.map_append, payload_append, htail, Nat.pow_succ, Nat.mod_mul]
    simp [payload, h count (by omega)]

theorem toNat_group (count : Nat) (v : Value) (i : Nat) :
    ((v.bits (7 * count)).window (7 * i) 7).toNat =
      (v.toInt % 128 ^ count).toNat / 128 ^ i % 128 := by
  have hbits := Value.toNat_bits v (7 * count)
  rw [pow_mul] at hbits
  norm_num at hbits
  rw [BitPattern.toNat_window _ _ (by omega), pow_mul, ← hbits, Int.toNat_natCast]
  norm_num

theorem payload_groups (count : Nat) (v : Value) :
    (payload (groups count v) : Int) = v.toInt % 128 ^ count := by
  have hnonneg : 0 ≤ v.toInt % 128 ^ count := Int.emod_nonneg _ (by positivity)
  have hlt : v.toInt % 128 ^ count < 128 ^ count := Int.emod_lt_of_pos _ (by positivity)
  have hspell : payload (groups count v) = (v.toInt % 128 ^ count).toNat % 128 ^ count :=
    payload_map_range fun i _ => toNat_group count v i
  have hcast : ((128 ^ count : Nat) : Int) = 128 ^ count := by norm_cast
  rw [hspell, Nat.mod_eq_of_lt (by omega)]
  omega

theorem group_lt {count : Nat} {v : Value} {g : UInt8} (h : g ∈ groups count v) :
    g.toNat < 128 := by
  obtain ⟨i, -, rfl⟩ := List.mem_map.1 h
  rw [toNat_group]
  omega

@[simp] theorem length_join (gs : List UInt8) : (join gs).length = gs.length := by
  induction gs using join.induct with
  | case1 => rfl
  | case2 g => rfl
  | case3 g h gs ih => simpa [join] using ih

theorem toNat_or_top (g : UInt8) : (g ||| 0x80).toNat % 128 = g.toNat % 128 := by
  rw [UInt8.toNat_or]
  have hmod := Nat.or_mod_two_pow (a := g.toNat) (b := 128) (n := 7)
  simpa using hmod

theorem le_or_top (g : UInt8) : 0x80 ≤ g ||| 0x80 := by
  rw [UInt8.le_iff_toNat_le, UInt8.toNat_or]
  exact Nat.right_le_or

theorem payload_join (gs : List UInt8) : payload (join gs) = payload gs := by
  induction gs using join.induct with
  | case1 => rfl
  | case2 g => rfl
  | case3 g h gs ih =>
    simp only [join, payload] at ih ⊢
    rw [ih, toNat_or_top g]

theorem terminated_join {gs : List UInt8} (hne : gs ≠ []) (h : ∀ g ∈ gs, g.toNat < 128) :
    Terminated (join gs) := by
  induction gs using join.induct with
  | case1 => exact absurd rfl hne
  | case2 g =>
    have hg : g < 0x80 := UInt8.lt_iff_toNat_lt.2 (h g (by simp))
    exact (terminated_cons_iff g []).2 (Or.inl ⟨rfl, hg⟩)
  | case3 g g' gs ih =>
    have htail := ih (by simp) fun b hb => h b (by simp [hb])
    exact (terminated_cons_iff _ _).2 (Or.inr ⟨le_or_top g, htail⟩)

theorem length_pos (bits : Nat) : 0 < length bits := by
  unfold length
  omega

/-- A number of `count` groups holds `bits` bits exactly if `length bits` is at most `count`. -/
theorem length_le_iff {bits count : Nat} (h : 0 < count) :
    length bits ≤ count ↔ bits ≤ 7 * count := by
  unfold length
  omega

/-- What an encoder writes for a value in a given number of groups. -/
theorem terminated_join_groups {count : Nat} (h : 0 < count) (v : Value) :
    Terminated (join (groups count v)) := by
  apply terminated_join
  · intro hnil
    have hlen := length_groups count v
    rw [hnil] at hlen
    simp at hlen
    omega
  · intro g hg
    exact group_lt hg

theorem payload_join_groups (count : Nat) (v : Value) :
    (payload (join (groups count v)) : Int) = v.toInt % 128 ^ count := by
  rw [payload_join, payload_groups]

/-! ### Round trip and shortest numbers -/

theorem terminated_encodeUnsigned (v : Value) : Terminated (encodeUnsigned v) :=
  terminated_join_groups (length_pos _) v

theorem terminated_encodeSigned (v : Value) : Terminated (encodeSigned v) :=
  terminated_join_groups (length_pos _) v

theorem length_encodeUnsigned (v : Value) : (encodeUnsigned v).length = length v.bitLength := by
  simp [encodeUnsigned]

theorem length_encodeSigned (v : Value) : (encodeSigned v).length = length v.signedWidth := by
  simp [encodeSigned]

/-- **Unsigned numbers are read back.** -/
theorem unsignedOf_encodeUnsigned {v : Value} (h : 0 ≤ v.toInt) :
    unsignedOf (encodeUnsigned v) = v := by
  have hlen := (length_le_iff (length_pos v.bitLength)).1 (le_refl (length v.bitLength))
  have hbound := (Value.bitLength_le_iff v _).1 hlen
  rw [pow_mul] at hbound
  norm_num at hbound
  have hcast : ((128 ^ length v.bitLength : Nat) : Int) = 128 ^ length v.bitLength := by norm_cast
  apply Value.toInt_injective
  rw [toInt_unsignedOf, encodeUnsigned, payload_join_groups]
  exact Int.emod_eq_of_lt h (by omega)

/-- **Signed numbers are read back.** -/
theorem signedOf_encodeSigned (v : Value) : signedOf (encodeSigned v) = v := by
  obtain ⟨count, hcount⟩ : ∃ n, n = length v.signedWidth := ⟨_, rfl⟩
  have hpos : 0 < count := hcount ▸ length_pos _
  have hlen : v.signedWidth ≤ 7 * count :=
    (length_le_iff hpos).1 (le_of_eq hcount.symm)
  have hbound := (Value.signedWidth_le_iff v (7 * count - 1)).1 (by omega)
  have hhalf : (128 : Int) ^ count = 2 * 2 ^ (7 * count - 1) := by
    rw [show (128 : Int) = 2 ^ 7 by norm_num, ← pow_mul, ← pow_succ']
    congr 1
    omega
  have hpiece : encodeSigned v = join (groups count v) := by rw [encodeSigned, ← hcount]
  have hpayload := payload_join_groups count v
  have hne : join (groups count v) ≠ [] := by
    intro hnil
    exact not_terminated_nil (hnil ▸ terminated_join_groups hpos v)
  have hcast : ((128 ^ count : Nat) : Int) = 128 ^ count := by norm_cast
  apply Value.toInt_injective
  rw [hpiece, toInt_signedOf hne, length_join, length_groups]
  rcases lt_or_ge v.toInt 0 with hneg | hnonneg
  · have hmod : v.toInt % 128 ^ count = v.toInt + 128 ^ count := by
      rw [← Int.add_emod_right]
      exact Int.emod_eq_of_lt (by omega) (by omega)
    rw [if_neg (by omega)]
    omega
  · have hmod : v.toInt % 128 ^ count = v.toInt := Int.emod_eq_of_lt hnonneg (by omega)
    rw [if_pos (by omega)]
    omega

/-- No other number with the same reading is shorter. -/
def Shortest (read : List UInt8 → Value) (piece : List UInt8) : Prop :=
  ∀ other, Terminated other → read other = read piece → piece.length ≤ other.length

theorem length_encodeUnsigned_le {piece : List UInt8} (h : Terminated piece) :
    (encodeUnsigned (unsignedOf piece)).length ≤ piece.length := by
  rw [length_encodeUnsigned, length_le_iff h.length_pos, Value.bitLength_le_iff, toInt_unsignedOf,
    Int.natAbs_natCast, pow_mul]
  exact payload_lt piece

theorem length_encodeSigned_le {piece : List UInt8} (h : Terminated piece) :
    (encodeSigned (signedOf piece)).length ≤ piece.length := by
  have hpos := h.length_pos
  have hlt := payload_lt piece
  have hne : piece ≠ [] := List.length_pos_iff.1 hpos
  have hhalf : (128 : Int) ^ piece.length = 2 * 2 ^ (7 * piece.length - 1) := by
    rw [show (128 : Int) = 2 ^ 7 by norm_num, ← pow_mul, ← pow_succ']
    congr 1
    omega
  have hcast : ((128 ^ piece.length : Nat) : Int) = 128 ^ piece.length := by norm_cast
  have hwidth : (signedOf piece).signedWidth ≤ 7 * piece.length - 1 + 1 := by
    rw [Value.signedWidth_le_iff, toInt_signedOf hne]
    split <;> omega
  rw [length_encodeSigned, length_le_iff hpos]
  omega

theorem payload_unsigned_eq {l m : List UInt8} (h : unsignedOf l = unsignedOf m) :
    payload l = payload m := by
  have hint := congrArg Value.toInt h
  rw [toInt_unsignedOf, toInt_unsignedOf] at hint
  exact_mod_cast hint

/-- Signed numbers of one length with the same reading spell the same. -/
theorem payload_signed_eq {l m : List UInt8} (hl : Terminated l) (hm : Terminated m)
    (hlen : l.length = m.length) (h : signedOf l = signedOf m) : payload l = payload m := by
  have hint := congrArg Value.toInt h
  have hlt := payload_lt l
  have hlt' := payload_lt m
  have hcast : ((128 ^ m.length : Nat) : Int) = 128 ^ m.length := by norm_cast
  rw [toInt_signedOf (List.length_pos_iff.1 hl.length_pos),
    toInt_signedOf (List.length_pos_iff.1 hm.length_pos), hlen] at hint
  rw [hlen] at hlt
  split at hint <;> split at hint <;> omega

/-- A signed number is known by its length and its reading. -/
theorem Terminated.eq_of_signedOf_eq {l m : List UInt8} (hl : Terminated l) (hm : Terminated m)
    (hlen : l.length = m.length) (h : signedOf l = signedOf m) : l = m :=
  hl.eq_of_payload_eq hm hlen (payload_signed_eq hl hm hlen h)

/-- **The unsigned encoder writes the shortest number**, and it is the only one. -/
theorem shortest_unsigned_iff {piece : List UInt8} (h : Terminated piece) :
    Shortest unsignedOf piece ↔ encodeUnsigned (unsignedOf piece) = piece := by
  have hread : unsignedOf (encodeUnsigned (unsignedOf piece)) = unsignedOf piece :=
    unsignedOf_encodeUnsigned (by rw [toInt_unsignedOf]; omega)
  constructor
  · intro hshort
    have hle := hshort _ (terminated_encodeUnsigned _) hread
    exact (terminated_encodeUnsigned _).eq_of_payload_eq h
      (Nat.le_antisymm (length_encodeUnsigned_le h) hle) (payload_unsigned_eq hread)
  · intro heq other hother hsame
    rw [← heq, ← hsame]
    exact length_encodeUnsigned_le hother

/-- **The signed encoder writes the shortest number**, and it is the only one. -/
theorem shortest_signed_iff {piece : List UInt8} (h : Terminated piece) :
    Shortest signedOf piece ↔ encodeSigned (signedOf piece) = piece := by
  have hread : signedOf (encodeSigned (signedOf piece)) = signedOf piece :=
    signedOf_encodeSigned _
  constructor
  · intro hshort
    have hle := hshort _ (terminated_encodeSigned _) hread
    have hlen := Nat.le_antisymm (length_encodeSigned_le h) hle
    exact (terminated_encodeSigned _).eq_of_signedOf_eq h hlen hread
  · intro heq other hother hsame
    rw [← heq, ← hsame]
    exact length_encodeSigned_le hother

end Leb128

end DwarfExpr
