/-
  DwarfExpr/Proofs/Operand.lean
  =============================
  **Which literals an operand takes, and what becomes of them.** `OperandKind.Admits` gives the
  range of every kind, `OperandKind.write` the bytes.  A literal is encoded exactly if it is in
  range (`Literal.encode_eq_ok_iff`), and its bytes are then a piece of the right shape.

  They are read back as the literal, except that a literal of a signed kind which uses the sign bit
  comes back as a negative number (`OperandKind.readBack`).

  The encoder takes the size of a block from the literal before it, the decoder from the bytes
  before it.  The two agree because no operation has a signed operand just before a block.
-/
import DwarfExpr.Call.Encode
import DwarfExpr.Proofs.Except
import DwarfExpr.Proofs.Segment

namespace DwarfExpr

theorem Width.bits_eq (w : Width) : w.bits = 8 * w.bytes := by
  cases w <;> rfl

/-! ### Numbers of a fixed width are read back -/

namespace Fixed

theorem toInt_ofBytes_false_encode (order : ByteOrder) {n : Nat} {v : Value} (hnonneg : 0 ≤ v.toInt)
    (hlt : v.toInt < 256 ^ n) :
    (Value.ofBytes false (order.arrange (encode order (8 * n) v))).toInt = v.toInt := by
  rw [Value.toInt_ofBytes_false, toNat_encode, Int.emod_eq_of_lt hnonneg hlt]

theorem toInt_ofBytes_true_encode (order : ByteOrder) {n : Nat} {v : Value}
    (hge : -256 ^ n ≤ 2 * v.toInt) (hlt : v.toInt < 256 ^ n) :
    (Value.ofBytes true (order.arrange (encode order (8 * n) v))).toInt =
      if 256 ^ n ≤ 2 * v.toInt then v.toInt - 256 ^ n else v.toInt := by
  have hnat := toNat_encode order n v
  rw [Value.toInt_ofBytes_true, ByteOrder.length_arrange, length_encode, hnat]
  have hcast : ((256 ^ n : Nat) : Int) = 256 ^ n := by norm_cast
  have hpos : (0 : Int) < 256 ^ n := by positivity
  by_cases hneg : v.toInt < 0
  · have hmod : v.toInt % 256 ^ n = v.toInt + 256 ^ n := by
      rw [← Int.add_emod_right]
      exact Int.emod_eq_of_lt (by omega) (by omega)
    rw [if_pos (by omega), if_neg (by omega), hmod]
    omega
  · have hmod := Int.emod_eq_of_lt (by omega) hlt
    by_cases htop : 256 ^ n ≤ 2 * v.toInt
    · rw [if_pos (by omega), if_pos htop, hmod]
    · rw [if_neg (by omega), if_neg htop, hmod]

end Fixed

/-! ### Ranges and bytes -/

/-- The host has room for a block of so many bytes. -/
def Host.Holds [Host] (bytes : Nat) : Prop :=
  Host.addressable bytes = true ∧ Host.allocatable bytes = true

namespace OperandKind

/-- The literals that an operand of a kind takes; `size` is the literal before it. -/
def Admits [Host] (t : Target) (size : Nat) : OperandKind → Int → Prop
  | uleb128, v => 0 ≤ v ∧ v < 2 ^ 64
  | sleb128, v => -2 ^ 63 < v ∧ v < 2 ^ 64
  | signed w, v => -2 ^ (w.bits - 1) < v ∧ v < 2 ^ w.bits
  | unsigned w, v => 0 ≤ v ∧ v < 2 ^ w.bits
  | address, v => 0 ≤ v ∧ v < 2 ^ t.address.bits
  | word, v => 0 ≤ v ∧ v < 2 ^ t.word.width.bits
  | block, v => (0 ≤ v ∧ v < 2 ^ (size * 8)) ∧ Host.Holds size

/-- The bytes of a literal as an operand of a kind. -/
def write (t : Target) (size : Nat) (v : Value) : OperandKind → List UInt8
  | uleb128 => Leb128.encodeUnsigned v
  | sleb128 => Leb128.encodeSigned v
  | signed w | unsigned w => Fixed.encode t.order w.bits v
  | address => Fixed.encode t.order t.address.bits v
  | word => Fixed.encode t.order t.word.width.bits v
  | block => Fixed.encode t.order (size * 8) v

/-- What a literal is read back as. -/
def readBack : OperandKind → Int → Int
  | signed w, v => if 2 ^ (w.bits - 1) ≤ v then v - 2 ^ w.bits else v
  | _, v => v

/-- As many literals as kinds, each of them in range; the size of a block is the literal before. -/
def AdmitsAll [Host] (t : Target) (size : Nat) : List OperandKind → List Value → Prop
  | [], [] => True
  | kind :: kinds, v :: vs => kind.Admits t size v.toInt ∧ AdmitsAll t v.toInt.toNat kinds vs
  | _, _ => False

/-- The pieces of literals. -/
def writeAll (t : Target) (size : Nat) : List OperandKind → List Value → List (List UInt8)
  | kind :: kinds, v :: vs => kind.write t size v :: writeAll t v.toInt.toNat kinds vs
  | _, _ => []

theorem readBack_of_not_isSigned {kind : OperandKind} (h : kind.isSigned = false) (v : Int) :
    kind.readBack v = v := by
  cases kind with
  | signed w => simp [isSigned] at h
  | _ => rfl

theorem Admits.nonneg [Host] {t : Target} {size : Nat} {kind : OperandKind} {v : Int}
    (h : kind.Admits t size v) (hkind : kind.isSigned = false) : 0 ≤ v := by
  cases kind with
  | sleb128 => simp [isSigned] at hkind
  | signed w => simp [isSigned] at hkind
  | uleb128 => exact h.1
  | unsigned w => exact h.1
  | address => exact h.1
  | word => exact h.1
  | block => exact h.1.1

end OperandKind

/-! ### When a literal is encoded -/

namespace Literal

theorem checkSign_eq_ok_iff {kind : OperandKind} {l : Literal} {u : Unit} :
    l.checkSign kind = .ok u ↔ kind.isSigned = true ∨ 0 ≤ l.value.toInt := by
  rw [← Value.not_negative_iff, checkSign]
  cases kind.isSigned <;> cases l.value.negative <;> simp

theorem checkWidth_eq_ok_iff {width : Nat} {l : Literal} {u : Unit} :
    l.checkWidth width = .ok u ↔ (0 ≤ l.value.toInt ∧ l.value.toInt < 2 ^ width) ∨
      (-2 ^ (width - 1) < l.value.toInt ∧ l.value.toInt < 0) := by
  rw [← Value.literalWidth_le_iff, checkWidth]
  split <;> simp [*]

theorem encodeFixed_eq_ok_iff {t : Target} {width : Nat} {l : Literal} {bytes : List UInt8} :
    l.encodeFixed t width = .ok bytes ↔
      ((0 ≤ l.value.toInt ∧ l.value.toInt < 2 ^ width) ∨
        (-2 ^ (width - 1) < l.value.toInt ∧ l.value.toInt < 0)) ∧
      bytes = Fixed.encode t.order width l.value := by
  simp only [encodeFixed, bind_eq_ok_iff, checkWidth_eq_ok_iff, exists_const, pure_eq_ok_iff]

theorem encodeBlock_eq_ok_iff [Host] {t : Target} {size : Nat} {l : Literal} {bytes : List UInt8} :
    l.encodeBlock t size = .ok bytes ↔
      (((0 ≤ l.value.toInt ∧ l.value.toInt < 2 ^ (size * 8)) ∨
        (-2 ^ (size * 8 - 1) < l.value.toInt ∧ l.value.toInt < 0)) ∧ Host.Holds size) ∧
      bytes = Fixed.encode t.order (size * 8) l.value := by
  rw [encodeBlock, Host.Holds]
  cases Host.addressable size with
  | false => simp
  | true =>
    simp only [Bool.not_true, Bool.false_eq_true, if_false, bind_eq_ok_iff, checkWidth_eq_ok_iff,
      exists_const]
    cases Host.allocatable size with
    | false => simp
    | true => simp [pure_eq_ok_iff]

/-- What the two checks leave of the range of an unsigned operand. -/
theorem unsigned_range_iff {v least bound : Int} {P : Prop} :
    0 ≤ v ∧ ((0 ≤ v ∧ v < bound) ∨ (least < v ∧ v < 0)) ∧ P ↔ 0 ≤ v ∧ v < bound ∧ P := by
  constructor
  · rintro ⟨hnonneg, hin | hin, hp⟩
    · exact ⟨hnonneg, hin.2, hp⟩
    · omega
  · rintro ⟨hnonneg, hlt, hp⟩
    exact ⟨hnonneg, .inl ⟨hnonneg, hlt⟩, hp⟩

/-- What the width leaves of the range of a signed operand. -/
theorem signed_range_iff {v least bound : Int} (hleast : least < 0) (hbound : 0 < bound) :
    ((0 ≤ v ∧ v < bound) ∨ (least < v ∧ v < 0)) ↔ least < v ∧ v < bound := by
  omega

/-- **A literal is encoded exactly if its operand takes it.** -/
theorem encode_eq_ok_iff [Host] {t : Target} {size : Nat} {kind : OperandKind} {l : Literal}
    {bytes : List UInt8} :
    l.encode t size kind = .ok bytes ↔
      kind.Admits t size l.value.toInt ∧ bytes = kind.write t size l.value := by
  have hleast (n : Nat) : -(2 : Int) ^ n < 0 := by
    have hpos : (0 : Int) < 2 ^ n := by positivity
    omega
  have hbound (n : Nat) : (0 : Int) < 2 ^ n := by positivity
  cases kind with
  | sleb128 =>
    simp only [encode, bind_eq_ok_iff, checkSign_eq_ok_iff, checkWidth_eq_ok_iff, pure_eq_ok_iff,
      exists_const, OperandKind.isSigned, true_or, true_and, OperandKind.Admits, OperandKind.write,
      signed_range_iff (hleast _) (hbound _)]
  | signed w =>
    simp only [encode, bind_eq_ok_iff, checkSign_eq_ok_iff, encodeFixed_eq_ok_iff, exists_const,
      OperandKind.isSigned, true_or, true_and, OperandKind.Admits, OperandKind.write,
      signed_range_iff (hleast _) (hbound _)]
  | _ =>
    simp only [encode, bind_eq_ok_iff, checkSign_eq_ok_iff, checkWidth_eq_ok_iff, pure_eq_ok_iff,
      encodeFixed_eq_ok_iff, encodeBlock_eq_ok_iff, exists_const, OperandKind.isSigned,
      Bool.false_eq_true, false_or, OperandKind.Admits, OperandKind.write, and_assoc,
      unsigned_range_iff]

end Literal

/-! ### The bytes of a literal are a piece -/

namespace OperandKind

variable [Host] {t : Target}

/-- The two sizes that a block is given have to agree. -/
theorem Admits.shape_write {kind : OperandKind} {n : Nat} {size v : Value}
    (h : kind.Admits t n v.toInt) (hsize : kind = .block → size.toInt = n) :
    kind.Shape t size (kind.write t n v) := by
  cases kind with
  | uleb128 => exact Leb128.terminated_encodeUnsigned v
  | sleb128 => exact Leb128.terminated_encodeSigned v
  | signed w => simp only [Shape, write, w.bits_eq, Fixed.length_encode]
  | unsigned w => simp only [Shape, write, w.bits_eq, Fixed.length_encode]
  | address => simp only [Shape, write, Width.bits_eq, Fixed.length_encode]
  | word => simp only [Shape, write, Width.bits_eq, Fixed.length_encode]
  | block =>
    have haddress : n * 8 < 2 ^ 64 := by simpa [Host.addressable] using h.2.1
    simp only [Shape, write, Nat.mul_comm n 8, Fixed.length_encode]
    exact ⟨hsize rfl, by omega⟩

/-- **A literal is read back** from its bytes, up to the sign bit of a signed operand. -/
theorem Admits.toInt_valueOf_write {kind : OperandKind} {n : Nat} {v : Value}
    (h : kind.Admits t n v.toInt) :
    (kind.valueOf t (kind.write t n v)).toInt = kind.readBack v.toInt := by
  cases kind with
  | uleb128 => exact congrArg Value.toInt (Leb128.unsignedOf_encodeUnsigned h.1)
  | sleb128 => exact congrArg Value.toInt (Leb128.signedOf_encodeSigned v)
  | signed w =>
    have hhalf : (256 : Int) ^ w.bytes = 2 * 2 ^ (w.bits - 1) := by
      cases w <;> norm_num [Width.bytes, Width.bits]
    have hbits : (2 : Int) ^ w.bits = 256 ^ w.bytes := by rw [w.bits_eq, two_pow_eight_mul]
    obtain ⟨hge, hlt⟩ := h
    rw [hbits] at hlt
    simp only [valueOf, write, readBack, hbits]
    rw [w.bits_eq, Fixed.toInt_ofBytes_true_encode t.order (by omega) hlt, ← w.bits_eq]
    by_cases htop : (2 : Int) ^ (w.bits - 1) ≤ v.toInt
    · rw [if_pos (by omega), if_pos htop]
    · rw [if_neg (by omega), if_neg htop]
  | unsigned w =>
    simp only [Admits, valueOf, write, w.bits_eq, two_pow_eight_mul] at h ⊢
    exact Fixed.toInt_ofBytes_false_encode t.order h.1 h.2
  | address =>
    simp only [Admits, valueOf, write, Width.bits_eq, two_pow_eight_mul] at h ⊢
    exact Fixed.toInt_ofBytes_false_encode t.order h.1 h.2
  | word =>
    simp only [Admits, valueOf, write, Width.bits_eq, two_pow_eight_mul] at h ⊢
    exact Fixed.toInt_ofBytes_false_encode t.order h.1 h.2
  | block =>
    simp only [Admits, valueOf, write, Nat.mul_comm n 8, two_pow_eight_mul] at h ⊢
    exact Fixed.toInt_ofBytes_false_encode t.order h.1.1 h.1.2

/-! ### Lists of operands -/

/-- What the encoder writes is what the decoder expects.  The sizes of blocks stay in step: the
    literal before a block is not of a signed kind, so it is read back as it is. -/
theorem AdmitsAll.shapes_writeAll {kinds : List OperandKind} {n : Nat} {size : Value}
    {vs : List Value} (h : AdmitsAll t n kinds vs) (hchain : kinds.IsChain Precedes)
    (hsize : kinds.head? = some .block → size.toInt = n) :
    Shapes t size kinds (writeAll t n kinds vs) := by
  induction kinds generalizing n size vs with
  | nil =>
    cases vs with
    | nil => trivial
    | cons v vs => exact h.elim
  | cons kind kinds ih =>
    cases vs with
    | nil => exact h.elim
    | cons v vs =>
      refine ⟨h.1.shape_write (fun hkind => hsize (by rw [hkind]; rfl)), ?_⟩
      refine ih h.2 hchain.of_cons fun hhead => ?_
      have hkind := (sizes_of_isChain hchain hhead).1
      rw [h.1.toInt_valueOf_write, readBack_of_not_isSigned hkind]
      exact (Int.toNat_of_nonneg (h.1.nonneg hkind)).symm

theorem AdmitsAll.toInt_valueOf_writeAll {kinds : List OperandKind} {n : Nat} {vs : List Value}
    (h : AdmitsAll t n kinds vs) :
    (List.zipWith (valueOf t) kinds (writeAll t n kinds vs)).map Value.toInt =
      List.zipWith readBack kinds (vs.map Value.toInt) := by
  induction kinds generalizing n vs with
  | nil => rfl
  | cons kind kinds ih =>
    cases vs with
    | nil => exact h.elim
    | cons v vs =>
      simp only [writeAll, List.zipWith_cons_cons, List.map_cons, h.1.toInt_valueOf_write, ih h.2]

theorem AdmitsAll.length_eq {kinds : List OperandKind} {n : Nat} {vs : List Value}
    (h : AdmitsAll t n kinds vs) : kinds.length = vs.length := by
  induction kinds generalizing n vs with
  | nil =>
    cases vs with
    | nil => rfl
    | cons v vs => exact h.elim
  | cons kind kinds ih =>
    cases vs with
    | nil => exact h.elim
    | cons v vs => simp [ih h.2]

end OperandKind

/-- **When the literals of a call are encoded**, there being as many as the operation takes. -/
theorem encodeOperands_eq_ok_iff [Host] {t : Target} {size : Nat} {kinds : List OperandKind}
    {ls : List Literal} {bytes : List UInt8} (hlen : kinds.length = ls.length) :
    encodeOperands t size kinds ls = .ok bytes ↔
      OperandKind.AdmitsAll t size kinds (ls.map (·.value)) ∧
        bytes = (OperandKind.writeAll t size kinds (ls.map (·.value))).flatten := by
  induction kinds generalizing size ls bytes with
  | nil =>
    obtain rfl : ls = [] := List.length_eq_zero_iff.1 hlen.symm
    simp [encodeOperands, OperandKind.AdmitsAll, OperandKind.writeAll, eq_comm]
  | cons kind kinds ih =>
    cases ls with
    | nil => simp at hlen
    | cons l ls =>
      have hrest {bytes : List UInt8} := @ih l.value.toInt.toNat ls bytes (Nat.succ.inj hlen)
      rw [encodeOperands]
      cases hl : l.encode t size kind with
      | error fault =>
        have hnot : ¬ kind.Admits t size l.value.toInt := by
          intro hadmits
          rw [Literal.encode_eq_ok_iff.2 ⟨hadmits, rfl⟩] at hl
          simp at hl
        simp [OperandKind.AdmitsAll, hnot]
      | ok piece =>
        obtain ⟨hadmits, rfl⟩ := Literal.encode_eq_ok_iff.1 hl
        simp only [List.map_cons, OperandKind.AdmitsAll, OperandKind.writeAll, List.flatten_cons,
          map_eq_ok_iff, hrest, hadmits, true_and]
        constructor
        · rintro ⟨rest, ⟨hall, rfl⟩, rfl⟩
          exact ⟨hall, rfl⟩
        · rintro ⟨hall, rfl⟩
          exact ⟨_, ⟨hall, rfl⟩, rfl⟩

end DwarfExpr
