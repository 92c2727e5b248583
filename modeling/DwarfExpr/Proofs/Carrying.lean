/-
  DwarfExpr/Proofs/Carrying.lean
  ==============================
  **The encoder carries nothing over.** It keeps the last operand from one call to the next
  (`encodeCarrying`).  No operation begins with a block, and the operand before a block is neither
  signed nor a block, so that a literal which is encoded there is a 64-bit number
  (`OperandKind.Admits.isSize`).  So whatever the encoder is left with, it does what an encoder does
  that begins anew with each call (`encodeCarrying_eq`, `assembleCarrying_eq`).

  It follows that some of its faults never occur (`EncodeFault.impossible`): a block has an operand
  before it, and one that is a size; a kind that needs a width has one; and the operations of a
  source are found by their codes.
-/
import DwarfExpr.Carrying
import DwarfExpr.Proofs.Log
import DwarfExpr.Proofs.Printing
import DwarfExpr.Proofs.SyntaxError

namespace DwarfExpr

/-! ### Operands -/

/-- There is an operand, and it is a 64-bit number. -/
def IsSize (last : Option Value) : Prop :=
  ∃ v, last = some v ∧ 0 ≤ v.toInt ∧ v.toInt < 2 ^ 64

/-- What an operand says about the size of a block; without an operand it is nothing. -/
def carriedSize (last : Option Value) : Nat := (last.map fun v => v.toInt.toNat).getD 0

theorem IsSize.blockSize_eq {last : Option Value} (h : IsSize last) :
    blockSize last = .ok (carriedSize last) := by
  obtain ⟨v, rfl, hnonneg, hlt⟩ := h
  have hsize : (UInt64.ofNat v.toInt.toNat).toNat = v.toInt.toNat := by
    rw [UInt64.toNat_ofNat', Nat.mod_eq_of_lt (by omega)]
  have hword : v.toUInt64? = some (UInt64.ofNat v.toInt.toNat) := by
    rw [Value.toUInt64?_eq_some_iff, hsize, Int.toNat_of_nonneg hnonneg]
  simp only [blockSize, hword, hsize]
  rfl

/-- A literal before a block is a size, if it can be encoded. -/
theorem OperandKind.Admits.isSize [Host] {t : Target} {size : Nat} {kind : OperandKind} {v : Value}
    (h : kind.Admits t size v.toInt) (hkind : kind.isSigned = false ∧ kind ≠ .block) :
    IsSize (some v) := by
  have hwidth (w : Width) : (2 : Int) ^ w.bits ≤ 2 ^ 64 := by cases w <;> decide
  refine ⟨v, rfl, h.nonneg hkind.1, ?_⟩
  cases kind with
  | uleb128 => exact h.2
  | unsigned w => exact lt_of_lt_of_le h.2 (hwidth w)
  | address => exact lt_of_lt_of_le h.2 (hwidth t.address)
  | word => exact lt_of_lt_of_le h.2 (hwidth t.word.width)
  | sleb128 => cases hkind.1
  | signed w => cases hkind.1
  | block => exact absurd rfl hkind.2

section Encoding

variable [Host] {t : Target} {last : Option Value}

/-- **One operand.** The one before it matters to a block only. -/
theorem Literal.encodeCarrying_eq {kind : OperandKind} (h : kind = .block → IsSize last)
    (l : Literal) : l.encodeCarrying t last kind = l.encode t (carriedSize last) kind := by
  cases kind with
  | block =>
    rw [encodeCarrying, encode, (h rfl).blockSize_eq]
    rfl
  | _ => rfl

theorem Literal.encode_size (t : Target) {kind : OperandKind} (h : kind ≠ .block)
    (size size' : Nat) (l : Literal) : l.encode t size kind = l.encode t size' kind := by
  cases kind with
  | block => exact absurd rfl h
  | _ => rfl

/-- No list begins with a block, so the literal before it, if any, does not matter. -/
theorem encodeOperands_size (t : Target) {op : Operation} (h : op ∈ Operation.all)
    (size size' : Nat) (ls : List Literal) :
    encodeOperands t size op.operands ls = encodeOperands t size' op.operands ls := by
  have hhead := Operation.head?_operands_ne_block h
  cases hkinds : op.operands with
  | nil => cases ls <;> rfl
  | cons kind kinds =>
    cases ls with
    | nil => rfl
    | cons l ls =>
      have hkind : kind ≠ .block := by
        rintro rfl
        simp [hkinds] at hhead
      rw [encodeOperands, encodeOperands, l.encode_size t hkind size size']

theorem encodeOperandsCarrying_eq {kinds : List OperandKind}
    (hchain : kinds.IsChain OperandKind.Precedes)
    (hhead : kinds.head? = some .block → IsSize last) (ls : List Literal) :
    (encodeOperandsCarrying t last kinds ls).map Prod.fst =
      encodeOperands t (carriedSize last) kinds ls := by
  -- the invariant: a block that comes next has a size before it
  induction kinds generalizing last ls with
  | nil => cases ls <;> rfl
  | cons kind kinds ih =>
    cases ls with
    | nil => rfl
    | cons l ls =>
      have hfirst : l.encodeCarrying t last kind = l.encode t (carriedSize last) kind :=
        l.encodeCarrying_eq fun hkind => hhead (by rw [hkind, List.head?_cons])
      rw [encodeOperandsCarrying, encodeOperands, hfirst]
      cases hencode : l.encode t (carriedSize last) kind with
      | error fault => rfl
      | ok bytes =>
        have hadmits := (Literal.encode_eq_ok_iff.1 hencode).1
        have hrest := ih hchain.of_cons
          (fun hblock => hadmits.isSize (OperandKind.sizes_of_isChain hchain hblock)) ls
        have hsize : carriedSize (some l.value) = l.value.toInt.toNat := rfl
        rw [hsize] at hrest
        simp only [← hrest]
        cases encodeOperandsCarrying t (some l.value) kinds ls <;> rfl

/-- **One list of literals**, whatever is before it. -/
theorem encodeOperandsCarrying_of_mem {op : Operation} (h : op ∈ Operation.all)
    (ls : List Literal) :
    (encodeOperandsCarrying t last op.operands ls).map Prod.fst =
      encodeOperands t 0 op.operands ls := by
  rw [encodeOperandsCarrying_eq (Operation.isChain_operands h)
    (fun hblock => absurd hblock (Operation.head?_operands_ne_block h)), encodeOperands_size t h]

/-! ### Calls -/

theorem Call.encodeCarrying_eq {c : Call} (h : c.operation ∈ Operation.all) (following : Span) :
    (c.encodeCarrying t last following).map Prod.fst = c.encode t following := by
  have hlist := @encodeOperandsCarrying_of_mem _ t last _ h
  simp only [encodeCarrying, encode, Operation.ofCode?_of_mem h]
  cases harguments : c.arguments with
  | none => cases hkinds : c.operation.operands <;> rfl
  | some a =>
    specialize hlist a.operands
    cases hkinds : c.operation.operands with
    | nil => rfl
    | cons kind kinds =>
      rw [hkinds] at hlist
      simp only [← hlist]
      cases encodeOperandsCarrying t last (kind :: kinds) a.operands with
      | error fault => rfl
      | ok found =>
        by_cases hfew : a.operands.length < kinds.length + 1
        · simp [Except.map, hfew]
        · simp only [Except.map, if_neg hfew]
          cases a.operands.drop (kinds.length + 1) <;> rfl

theorem OpenCall.checkCarrying_eq {c : OpenCall} (h : c.operation ∈ Operation.all) :
    c.checkCarrying t last = c.check t := by
  have hlist := @encodeOperandsCarrying_of_mem _ t last _ h c.operands
  simp only [checkCarrying, check, Operation.ofCode?_of_mem h, ← hlist]
  cases encodeOperandsCarrying t last c.operation.operands c.operands <;> rfl

/-- **All calls, and an open list behind them.** -/
theorem encodeCarrying_eq {calls : List Call} {stop : Span} {incomplete : Option OpenCall}
    (hcalls : ∀ c ∈ calls, c.operation ∈ Operation.all)
    (hopen : ∀ c, incomplete = some c → c.operation ∈ Operation.all) :
    encodeCarrying t last stop incomplete calls =
      Reading.progress t ⟨calls, stop, incomplete⟩ := by
  induction calls generalizing last with
  | nil =>
    cases incomplete with
    | none => rfl
    | some c =>
      simp only [encodeCarrying, OpenCall.checkCarrying_eq (hopen c rfl), Reading.progress,
        Reading.openFault, encodeCalls, Option.bind_some]
      cases c.check t <;> rfl
  | cons c calls ih =>
    obtain ⟨hc, hrest⟩ := List.forall_mem_cons.1 hcalls
    rw [Reading.progress_cons, encodeCarrying, ← Call.encodeCarrying_eq hc]
    cases c.encodeCarrying t last ((calls.head?.map Call.span).getD stop) with
    | error fault => rfl
    | ok found =>
      simp only [Except.map, ih hrest]

end Encoding

/-! ### Sources -/

/-- The operations of tokens that break off are among the tokens. -/
theorem known_of_parse_eq_error {source : String} {length : Nat} {tokens : List (Spanned Token)}
    {e : SyntaxError} (htokens : tokenize source = .ok tokens)
    (h : parse length tokens = .error e) :
    (∀ c ∈ e.calls, c.operation ∈ Operation.all) ∧
      ∀ c, e.incomplete = some c → c.operation ∈ Operation.all := by
  obtain ⟨before, after, complete, place, rfl, hreaches, -, hcalls, -, -, he, -⟩ :=
    exists_break_of_parse_eq_error h
  obtain ⟨hsound, hlayout⟩ := hreaches.layout trivial
  have hknown {op : Operation} (span : Span)
      (hop : (Token.operation op, some span) ∈
        complete.flatMap Call.layout ++ place.state.pending) : op ∈ Operation.all := by
    rw [← hlayout] at hop
    obtain ⟨x, hx, hplaced⟩ := List.mem_map.1 hop
    apply known_of_tokenize htokens
    refine List.mem_map.2 ⟨x, List.mem_append_left _ hx, ?_⟩
    rw [← x.fst_placed, hplaced]
  constructor
  · intro c hc
    rw [hcalls] at hc
    apply hknown c.span
    rcases List.mem_append.1 hc with hc | hc
    · exact List.mem_append_left _ (List.mem_flatMap.2 ⟨c, hc, List.mem_cons_self⟩)
    · have hclosed : place.state.openCall? = none := by
        by_contra hne
        obtain ⟨c', hopen⟩ := Option.ne_none_iff_exists'.1 hne
        rw [State.finished_of_openCall hopen] at hc
        cases hc
      rw [State.pending_of_openCall_eq_none hclosed]
      exact List.mem_append_right _ (List.mem_flatMap.2 ⟨c, hc, List.mem_cons_self⟩)
  · intro c hc
    rw [he] at hc
    obtain ⟨c', hc', rfl⟩ := Option.map_eq_some_iff.1 hc
    obtain ⟨hopen, -⟩ := Option.filter_eq_some_iff.1 hc'
    apply hknown c'.span
    rcases State.pending_of_openCall hsound hopen with hpending | ⟨-, hpending⟩ <;>
      simp [hpending, OpenCall.layout]

/-- **Assembling does not depend on what the encoder is left with from before.** -/
theorem assembleCarrying_eq [Host] (t : Target) (last : Option Value) (source : String) :
    assembleCarrying t last source = assemble t source := by
  cases htokens : tokenize source with
  | error fault => simp only [assembleCarrying, assemble, assembly, Assembly.ofSource, htokens]
  | ok tokens =>
    simp only [assemble_eq htokens, assembleCarrying, htokens, Reading.ofTokens]
    cases hparse : parse source.utf8ByteSize tokens with
    | ok calls =>
      have hnone : ∀ c, (none : Option OpenCall) = some c → c.operation ∈ Operation.all := by simp
      have hprogress := @encodeCarrying_eq _ t last _ (endOfSource source) _
        (known_of_parse htokens hparse) hnone
      cases hfault : (Reading.progress t ⟨calls, endOfSource source, none⟩).fault <;>
        simp only [hprogress, hfault]
    | error e =>
      obtain ⟨hcalls, hopen⟩ := known_of_parse_eq_error htokens hparse
      cases hfault : (Reading.progress t ⟨e.calls, e.stop, e.incomplete⟩).fault <;>
        simp only [encodeCarrying_eq hcalls hopen, hfault]

/-! ### Faults that never occur -/

/-- What the table and the lexer rule out. -/
def EncodeFault.impossible : EncodeFault → Bool
  | noSize | sizeTooLarge | noWidth _ | noOperation _ => true
  | missingList _ | needlessList | tooFew .. | tooMany .. | tooManySoFar .. | negative _
  | tooWide .. | unaddressable _ | unallocatable _ => false

section Faults

variable {α β : Type}

/-- A computation does not end in a fault that is ruled out. -/
def Possible (x : Except EncodeFault α) : Prop := ∀ fault, x = .error fault → ¬ fault.impossible

theorem possible_ok (a : α) : Possible (.ok a) := by
  intro fault h
  cases h

theorem possible_error {fault : EncodeFault} (h : fault.impossible = false) :
    Possible (.error fault : Except EncodeFault α) := by
  rintro _ ⟨⟩
  simp [h]

theorem Possible.bind {x : Except EncodeFault α} {f : α → Except EncodeFault β} (hx : Possible x)
    (hf : ∀ a, Possible (f a)) : Possible (x >>= f) := by
  cases x with
  | error fault => exact fun fault' h => hx fault' (by cases h; rfl)
  | ok a => exact hf a

namespace Literal

theorem possible_checkSign (kind : OperandKind) (l : Literal) : Possible (l.checkSign kind) := by
  unfold checkSign
  split
  · exact possible_error rfl
  · exact possible_ok ()

theorem possible_checkWidth (width : Nat) (l : Literal) : Possible (l.checkWidth width) := by
  unfold checkWidth
  split
  · exact possible_ok ()
  · exact possible_error rfl

theorem possible_encodeFixed (t : Target) (width : Nat) (l : Literal) :
    Possible (l.encodeFixed t width) :=
  (l.possible_checkWidth width).bind fun _ => possible_ok _

theorem possible_encodeBlock [Host] (t : Target) (size : Nat) (l : Literal) :
    Possible (l.encodeBlock t size) := by
  unfold encodeBlock
  split
  · exact possible_error rfl
  · refine (l.possible_checkWidth _).bind fun _ => ?_
    split
    · exact possible_error rfl
    · exact possible_ok _

theorem possible_encode [Host] (t : Target) (size : Nat) (kind : OperandKind) (l : Literal) :
    Possible (l.encode t size kind) := by
  refine (l.possible_checkSign kind).bind fun _ => ?_
  cases kind with
  | uleb128 => exact (l.possible_checkWidth 64).bind fun _ => possible_ok _
  | sleb128 => exact (l.possible_checkWidth 64).bind fun _ => possible_ok _
  | signed w => exact l.possible_encodeFixed t w.bits
  | unsigned w => exact l.possible_encodeFixed t w.bits
  | address => exact l.possible_encodeFixed t t.address.bits
  | word => exact l.possible_encodeFixed t t.word.width.bits
  | block => exact l.possible_encodeBlock t size

end Literal

end Faults

section Refusals

variable [Host] {t : Target} {fault : Spanned EncodeFault}

theorem possible_of_encodeOperands {size : Nat} {kinds : List OperandKind} {ls : List Literal}
    (h : encodeOperands t size kinds ls = .error fault) : ¬ fault.value.impossible := by
  induction kinds generalizing size ls with
  | nil => cases ls <;> cases h
  | cons kind kinds ih =>
    cases ls with
    | nil => cases h
    | cons l ls =>
      rw [encodeOperands] at h
      cases hencode : l.encode t size kind with
      | error fault' =>
        rw [hencode] at h
        cases h
        exact l.possible_encode t size kind fault' hencode
      | ok bytes =>
        simp only [hencode] at h
        exact ih (map_eq_error_iff.1 h)

theorem possible_of_encode {c : Call} {following : Span}
    (h : c.encode t following = .error fault) : ¬ fault.value.impossible := by
  simp only [Call.encode] at h
  split at h
  · cases h
  · cases h
    simp [EncodeFault.impossible]
  · cases h
    simp [EncodeFault.impossible]
  · split at h
    · cases h
      exact possible_of_encodeOperands ‹_›
    · split at h
      · cases h
        simp [EncodeFault.impossible]
      · split at h
        · cases h
          simp [EncodeFault.impossible]
        · cases h

theorem possible_of_check {c : OpenCall} (h : c.check t = .error fault) :
    ¬ fault.value.impossible := by
  simp only [OpenCall.check] at h
  split at h
  · cases h
    exact possible_of_encodeOperands ‹_›
  · split at h
    · cases h
      simp [EncodeFault.impossible]
    · cases h

theorem Reading.Refused.possible {r : Reading} (h : r.Refused t fault) :
    ¬ fault.value.impossible := by
  induction h with
  | call h => exact possible_of_encode h
  | later _ _ ih => exact ih
  | openList h => exact possible_of_check h

/-- **No source has a fault that the table rules out**, whatever the encoder is left with. -/
theorem assembleCarrying_possible {last : Option Value} {source : String} {d : Diagnostic}
    {fault : EncodeFault} (h : assembleCarrying t last source = .error d)
    (hcause : d.cause = .encoding fault) : ¬ fault.impossible := by
  rw [assembleCarrying_eq] at h
  cases htokens : tokenize source with
  | error e =>
    simp only [assemble, assembly, Assembly.ofSource, htokens] at h
    cases h
    cases hcause
  | ok tokens =>
    rw [assemble_eq htokens] at h
    cases hfault : ((Reading.ofTokens source tokens).progress t).fault with
    | some refused =>
      rw [hfault] at h
      cases h
      cases hcause
      exact (Reading.fault_eq_some_iff.1 hfault).possible
    | none =>
      rw [hfault] at h
      cases hparse : parse source.utf8ByteSize tokens with
      | ok calls => simp [hparse] at h
      | error e =>
        simp only [hparse] at h
        cases h
        rw [SyntaxError.diagnostic] at hcause
        cases hneedless : e.needless <;> simp only [hneedless, Diagnostic.ofSource] at hcause <;>
          cases hcause
        simp [EncodeFault.impossible]

end Refusals

end DwarfExpr
