/-
  DwarfExpr/Proofs/Table.lean
  ===========================
  **The table of operations is sound.** An operation is found again by its code and by its name,
  every name can be read as one piece of source text, and the size of a block is never taken from a
  signed operand or another block.  These are the only facts about the table that other modules use.
-/
import DwarfExpr.Operation.Table
import DwarfExpr.Piece
import Mathlib.Data.List.Nodup

namespace DwarfExpr

/-- A letter or an underscore, and any number of letters, digits and underscores. -/
def Piece.isName : List Char → Bool
  | [] => false
  | c :: cs => isNameStart c && cs.all isNamePart

namespace OperandKind

/-- A kind that may stand before another one: the size of a block is not signed, and it is not a
    block itself. -/
def Precedes (kind next : OperandKind) : Prop :=
  next = .block → kind.isSigned = false ∧ kind ≠ .block

instance (kind next : OperandKind) : Decidable (kind.Precedes next) :=
  inferInstanceAs (Decidable (_ → _))

theorem sizes_of_isChain {kind : OperandKind} {kinds : List OperandKind}
    (hchain : (kind :: kinds).IsChain Precedes) (hhead : kinds.head? = some .block) :
    kind.isSigned = false ∧ kind ≠ .block := by
  cases kinds with
  | nil => simp at hhead
  | cons next kinds => exact (List.isChain_cons_cons.1 hchain).1 (by simpa using hhead)

end OperandKind

namespace Operation

/-! ### Codes -/

/-- The table is in the order of codes. -/
theorem codes_increasing : (all.map (·.code.toNat)).IsChain (· < ·) := by decide +kernel

theorem nodup_codes : (all.map (·.code.toNat)).Nodup :=
  (List.isChain_iff_pairwise.1 codes_increasing).imp Nat.ne_of_lt

/-- A key that tells the entries of a list apart finds each of them. -/
theorem find?_of_nodup_map {α β : Type} [BEq β] [LawfulBEq β] {l : List α} {key : α → β} {a : α}
    (hnodup : (l.map key).Nodup) (h : a ∈ l) : l.find? (key · == key a) = some a := by
  induction l with
  | nil => simp at h
  | cons b l ih =>
    rw [List.map_cons, List.nodup_cons] at hnodup
    rcases List.mem_cons.1 h with rfl | h
    · simp
    · have hne : key b ≠ key a := by
        intro heq
        exact hnodup.1 (heq ▸ List.mem_map_of_mem h)
      rw [List.find?_cons_of_neg (by simpa using hne)]
      exact ih hnodup.2 h

theorem ofCode?_of_mem {op : Operation} (h : op ∈ all) : ofCode? op.code = some op := by
  have hfind := find?_of_nodup_map nodup_codes h
  have hkey : (fun o : Operation => o.code.toNat == op.code.toNat) = (·.code == op.code) := by
    funext o
    rw [Bool.eq_iff_iff, beq_iff_eq, beq_iff_eq, UInt8.toNat_inj]
  rwa [hkey] at hfind

theorem ofCode?_eq_some {code : UInt8} {op : Operation} (h : ofCode? code = some op) :
    op ∈ all ∧ op.code = code :=
  ⟨List.mem_of_find?_eq_some h, by simpa using List.find?_some h⟩

/-! ### Names -/

/-- A number for a text, by its characters in base 128. -/
def nameKey (name : List Char) : Nat := name.foldl (fun n c => n * 128 + c.toNat) 0

/-- Whether all numbers of a list are different. -/
def distinct : List Nat → Bool
  | [] => true
  | k :: ks => ks.all (fun l => !Nat.beq l k) && distinct ks

theorem nodup_of_distinct {ks : List Nat} (h : distinct ks = true) : ks.Nodup := by
  induction ks with
  | nil => exact List.nodup_nil
  | cons k ks ih =>
    simp only [distinct, Bool.and_eq_true, List.all_eq_true] at h
    refine List.nodup_cons.2 ⟨?_, ih h.2⟩
    intro hk
    simpa using h.1 k hk

theorem map_name_family (name : String) (first : UInt8) (kinds : List OperandKind) :
    (family name first kinds).map (·.name.toList) =
      (List.range 32).map fun i => "DW_OP_".toList ++ name.toList ++ Nat.toDigits 10 i := by
  simp [family, op]

/-- Both facts about names, so that the names are written out only once. -/
theorem names_sound :
    distinct ((all.map (·.name.toList)).map nameKey) = true ∧
      (all.map (·.name.toList)).all Piece.isName = true := by
  simp only [all, List.map_append, map_name_family, basics, locations, typed, extensions, op,
    List.map_cons, List.map_nil, String.toList_append, String.reduceToList]
  decide +kernel

theorem nodup_names : (all.map (·.name)).Nodup := by
  have hnodup := nodup_of_distinct names_sound.1
  rw [List.map_map] at hnodup
  exact (List.map_map (f := Operation.name) (g := nameKey ∘ String.toList) ▸ hnodup).of_map _

theorem ofName?_of_mem {op : Operation} (h : op ∈ all) : ofName? op.name = some op :=
  find?_of_nodup_map nodup_names h

theorem mem_of_ofName? {name : String} {op : Operation} (h : ofName? name = some op) : op ∈ all :=
  List.mem_of_find?_eq_some h

theorem isName_name {op : Operation} (h : op ∈ all) : Piece.isName op.name.toList = true :=
  List.all_eq_true.1 names_sound.2 _ (List.mem_map_of_mem h)

/-! ### Operands -/

/-- The size of a block is never a signed operand, nor a block. -/
theorem isChain_operands {op : Operation} (h : op ∈ all) :
    op.operands.IsChain OperandKind.Precedes := by
  have hall : ∀ op ∈ all, op.operands.IsChain OperandKind.Precedes := by decide +kernel
  exact hall op h

/-- No operation begins with a block: there is always an operand that gives its size. -/
theorem head?_operands_ne_block {op : Operation} (h : op ∈ all) :
    op.operands.head? ≠ some .block := by
  have hall : ∀ op ∈ all, op.operands.head? ≠ some .block := by decide +kernel
  exact hall op h

end Operation

end DwarfExpr
