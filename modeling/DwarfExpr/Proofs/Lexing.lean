/-
  DwarfExpr/Proofs/Lexing.lean
  ============================
  **Written calls are read back as their tokens.** A lexeme is cut off as one piece if the text
  after it cannot make it longer.  In the text of a call a name is followed by a parenthesis or the
  end of the line, and a number by a comma or a parenthesis; so the text of calls, a line each, has
  exactly the tokens of the calls (`tokenize_source`).
-/
import DwarfExpr.Call
import DwarfExpr.Proofs.Numeral
import DwarfExpr.Proofs.Table

namespace DwarfExpr

namespace Piece

/-! ### Character classes by code point -/

theorem isNameStart_iff (c : Char) : isNameStart c = true ↔
    (65 ≤ c.toNat ∧ c.toNat ≤ 90) ∨ (97 ≤ c.toNat ∧ c.toNat ≤ 122) ∨ c.toNat = 95 := by
  have hunderscore : c = '_' ↔ c.toNat = 95 := Char.toNat_inj.symm
  change ((decide (c.val ≥ 65 ∧ c.val ≤ 90) ||
    (decide (c.val ≥ 97) && decide (c.val ≤ 122))) || c == '_') = true ↔ _
  simp only [Bool.or_eq_true, Bool.and_eq_true, decide_eq_true_eq, beq_iff_eq, hunderscore,
    ge_iff_le, UInt32.le_iff_toNat_le]
  change ((65 ≤ c.toNat ∧ c.toNat ≤ 90) ∨ (97 ≤ c.toNat ∧ c.toNat ≤ 122)) ∨ c.toNat = 95 ↔ _
  omega

theorem isNamePart_iff (c : Char) : isNamePart c = true ↔
    isNameStart c = true ∨ (48 ≤ c.toNat ∧ c.toNat ≤ 57) := by
  simp only [isNamePart, isNameStart, Char.isAlphanum, Char.isDigit, Bool.or_eq_true,
    Bool.and_eq_true, decide_eq_true_eq, ge_iff_le, UInt32.le_iff_toNat_le]
  change (_ ∨ (48 ≤ c.toNat ∧ c.toNat ≤ 57)) ∨ _ ↔ _
  tauto

theorem isDigit_iff (r : Radix) (c : Char) : isDigit r c = true ↔
    (48 ≤ c.toNat ∧ c.toNat ≤ 57) ∨
      (r = .hexadecimal ∧
        ((97 ≤ c.toNat ∧ c.toNat ≤ 102) ∨ (65 ≤ c.toNat ∧ c.toNat ≤ 70))) := by
  simp only [isDigit, Radix.digit?, Option.isSome_iff_exists, Option.ite_none_right_eq_some,
    Char.le_def, UInt32.le_iff_toNat_le]
  change (∃ _, (if 48 ≤ c.toNat ∧ c.toNat ≤ 57 then c.toNat - 48
      else if 97 ≤ c.toNat ∧ c.toNat ≤ 102 then c.toNat - 97 + 10
      else if 65 ≤ c.toNat ∧ c.toNat ≤ 70 then c.toNat - 65 + 10 else 16) < r.base ∧ _) ↔ _
  rw [exists_and_left]
  cases r with
  | decimal =>
    simp only [Radix.base]
    split <;> grind
  | hexadecimal =>
    simp only [Radix.base]
    split <;> grind

theorem isNamePart_of_isDigit {r : Radix} {c : Char} (h : isDigit r c = true) :
    isNamePart c = true := by
  rw [isDigit_iff] at h
  rw [isNamePart_iff, isNameStart_iff]
  omega

/-- Neither names nor numbers begin like blanks and comments. -/
theorem not_blank_of_isNamePart {c : Char} (h : isNamePart c = true) :
    isBlank c = false ∧ c ≠ '#' := by
  constructor
  · rw [← Bool.not_eq_true]
    intro hblank
    simp only [isBlank, Bool.or_eq_true, beq_iff_eq] at hblank
    rcases hblank with ((((rfl | rfl) | rfl) | rfl) | rfl) | rfl <;> exact absurd h (by decide)
  · rintro rfl
    exact absurd h (by decide)

theorem not_isNameStart_of_isDigit {c : Char} (h : isDigit .decimal c = true) :
    isNameStart c = false := by
  rw [isDigit_iff] at h
  rw [← Bool.not_eq_true, isNameStart_iff]
  simp only [reduceCtorEq, false_and, or_false] at h
  omega

/-! ### Cutting off one piece -/

/-- A text that does not go on with a character of a class. -/
def Stops (goesOn : Char → Bool) (rest : List Char) : Prop :=
  ∀ c, rest.head? = some c → goesOn c = false

theorem stops_nil (goesOn : Char → Bool) : Stops goesOn [] := by
  intro c hc
  simp at hc

theorem stops_cons {goesOn : Char → Bool} {c : Char} (h : goesOn c = false) (rest : List Char) :
    Stops goesOn (c :: rest) := by
  intro d hd
  obtain rfl : c = d := by simpa using hd
  exact h

theorem run_eq_of_stops {goesOn : Char → Bool} {body rest : List Char} (shape : Shape)
    (lead : List Char) (hbody : ∀ c ∈ body, goesOn c = true) (hrest : Stops goesOn rest) :
    run shape lead goesOn (body ++ rest) = (⟨shape, lead ++ body⟩, rest) := by
  have htake : rest.takeWhile goesOn = [] := by
    cases rest with
    | nil => rfl
    | cons c rest => simp [hrest c rfl]
  have hdrop : rest.dropWhile goesOn = rest := by
    cases rest with
    | nil => rfl
    | cons c rest => simp [hrest c rfl]
  simp only [run, List.takeWhile_append_of_pos hbody, List.dropWhile_append_of_pos hbody, htake,
    hdrop, List.append_nil]

theorem Stops.digits {rest : List Char} (r : Radix) (h : Stops isNamePart rest) :
    Stops (isDigit r) rest := by
  intro c hc
  rw [← Bool.not_eq_true]
  intro hdigit
  have hpart := isNamePart_of_isDigit hdigit
  rw [h c hc] at hpart
  exact absurd hpart (by simp)

theorem first_name {c : Char} {cs rest : List Char} (h : isName (c :: cs) = true)
    (hrest : Stops isNamePart rest) :
    first c (cs ++ rest) = (⟨.name, c :: cs⟩, rest) := by
  simp only [isName, Bool.and_eq_true, List.all_eq_true] at h
  obtain ⟨hblank, hcomment⟩ := not_blank_of_isNamePart ((isNamePart_iff c).2 (Or.inl h.1))
  simp only [first, hblank, hcomment, h.1, if_true, if_false, Bool.false_eq_true]
  exact run_eq_of_stops .name [c] h.2 hrest

/-- A number in decimal is not mistaken for one in hexadecimal: no letter follows its digits. -/
theorem number_decimal (sign : List Char) {digits rest : List Char} (hne : digits ≠ [])
    (hdigits : ∀ c ∈ digits, isDigit .decimal c = true) (hrest : Stops isNamePart rest) :
    number sign (digits ++ rest) = (⟨.number .decimal, sign ++ digits⟩, rest) := by
  have hsecond : ∀ c d text, digits ++ rest = c :: d :: text →
      isDigit .decimal d = true ∨ isNamePart d = false := by
    intro c d text htext
    cases digits with
    | nil => exact absurd rfl hne
    | cons c' digits =>
      cases digits with
      | nil =>
        simp only [List.cons_append, List.nil_append, List.cons.injEq] at htext
        exact Or.inr (hrest d (by simp [htext.2]))
      | cons d' digits =>
        simp only [List.cons_append, List.cons.injEq] at htext
        exact Or.inl (hdigits d (by simp [htext.2.1]))
  unfold number
  split
  · next htext => rcases hsecond _ _ _ htext with h | h <;> exact absurd h (by decide)
  · next htext => rcases hsecond _ _ _ htext with h | h <;> exact absurd h (by decide)
  · exact run_eq_of_stops _ sign hdigits (hrest.digits .decimal)

theorem number_hexadecimal (sign : List Char) {digits rest : List Char}
    (hdigits : ∀ c ∈ digits, isDigit .hexadecimal c = true) (hrest : Stops isNamePart rest) :
    number sign ('0' :: 'x' :: (digits ++ rest)) =
      (⟨.number .hexadecimal, sign ++ ['0', 'x'] ++ digits⟩, rest) :=
  run_eq_of_stops _ _ hdigits (hrest.digits .hexadecimal)

theorem first_of_isDigit {c : Char} (text : List Char) (h : isDigit .decimal c = true) :
    first c text = number [] (c :: text) := by
  obtain ⟨hblank, hcomment⟩ := not_blank_of_isNamePart (isNamePart_of_isDigit h)
  simp only [first, hblank, hcomment, not_isNameStart_of_isDigit h, h, if_true, if_false,
    Bool.false_eq_true]

theorem first_minus {text : List Char} (h : startsNumber text = true) :
    first '-' text = number ['-'] text := by
  have hblank : isBlank '-' = false := by decide
  have hname : isNameStart '-' = false := by decide
  have hdigit : isDigit .decimal '-' = false := by decide
  simp [first, hblank, hname, hdigit, h]

/-- **The text of a value is one piece.** -/
theorem first_text {r : Radix} {v : Value} {rest : List Char} (h : r = .hexadecimal → 0 ≤ v.toInt)
    (hrest : Stops isNamePart rest) :
    ∃ c cs, (v.text r).toList = c :: cs ∧
      first c (cs ++ rest) = (⟨.number r, c :: cs⟩, rest) := by
  have hdigits : ∀ c ∈ v.digits r, isDigit r c = true := (Value.number_digits r v).2
  have hne := Value.digits_ne_nil r v
  rw [Value.toList_text]
  cases r with
  | hexadecimal =>
    have hv : v.negative = false := (Value.not_negative_iff v).2 (h rfl)
    refine ⟨'0', 'x' :: v.digits .hexadecimal, by simp [hv, Radix.mark], ?_⟩
    rw [first_of_isDigit _ (by decide)]
    exact number_hexadecimal [] hdigits hrest
  | decimal =>
    obtain ⟨d, ds, hds⟩ := List.exists_cons_of_ne_nil hne
    have hd : isDigit .decimal d = true := hdigits d (by simp [hds])
    cases hv : v.negative with
    | true =>
      refine ⟨'-', v.digits .decimal, by simp [Radix.mark], ?_⟩
      rw [first_minus (by rw [hds]; exact hd)]
      exact number_decimal ['-'] hne hdigits hrest
    | false =>
      refine ⟨d, ds, by simp [Radix.mark, hds], ?_⟩
      rw [first_of_isDigit _ hd, ← List.cons_append, ← hds]
      exact number_decimal [] hne hdigits hrest

/-- A blank begins nothing but a run of blanks. -/
theorem not_isBlank_of_first {c : Char} {text rest : List Char} {p : Piece}
    (h : first c text = (p, rest)) (hshape : p.shape ≠ .blank) : isBlank c = false := by
  rw [← Bool.not_eq_true]
  intro hblank
  rw [first, if_pos hblank] at h
  exact hshape (congrArg (fun q : Piece × List Char => q.1.shape) h).symm

theorem pieces_cons {c : Char} {text rest : List Char} {p : Piece}
    (h : first c text = (p, rest)) : pieces (c :: text) = p :: pieces rest := by
  rw [pieces, h]

end Piece

/-! ### The tokens of a text -/

namespace Token

/-- A text has these tokens, wherever it begins. -/
def Scans (text : List Char) (tokens : List Token) : Prop :=
  ∀ start, ∃ spanned, ofPieces start (Piece.pieces text) = .ok spanned ∧
    spanned.map (·.value) = tokens

theorem scans_nil : Scans [] [] := by
  intro start
  exact ⟨[], by simp [Piece.pieces, ofPieces], rfl⟩

/-- A piece that is skipped leaves the tokens as they are. -/
theorem Scans.skip {c : Char} {text rest : List Char} {p : Piece} {tokens : List Token}
    (hfirst : Piece.first c text = (p, rest)) (hpiece : ofPiece p = .ok none)
    (h : Scans rest tokens) : Scans (c :: text) tokens := by
  intro start
  obtain ⟨spanned, hok, hvalues⟩ := h (start + byteLength p.text)
  refine ⟨spanned, ?_, hvalues⟩
  rw [Piece.pieces_cons hfirst, ofPieces, hpiece]
  exact hok

/-- A piece that is a token comes before the tokens of the text after it. -/
theorem Scans.token {c : Char} {text rest : List Char} {p : Piece} {token : Token}
    {tokens : List Token} (hfirst : Piece.first c text = (p, rest))
    (hpiece : ofPiece p = .ok (some token)) (h : Scans rest tokens) :
    Scans (c :: text) (token :: tokens) := by
  intro start
  obtain ⟨spanned, hok, hvalues⟩ := h (start + byteLength p.text)
  refine ⟨⟨token, ⟨start, start + byteLength p.text⟩⟩ :: spanned, ?_, ?_⟩
  · rw [Piece.pieces_cons hfirst, ofPieces, hpiece]
    simp only [hok]
    rfl
  · rw [List.map_cons, hvalues]

theorem Scans.blank {c : Char} {rest : List Char} {tokens : List Token}
    (hc : Piece.isBlank c = true) (hrest : Piece.Stops Piece.isBlank rest) (h : Scans rest tokens) :
    Scans (c :: rest) tokens := by
  have hrun : Piece.first c rest = (⟨.blank, [c]⟩, rest) := by
    rw [Piece.first, if_pos hc]
    exact @Piece.run_eq_of_stops Piece.isBlank [] rest .blank [c] (by simp) hrest
  exact h.skip hrun rfl

theorem Scans.leftParen {rest : List Char} {tokens : List Token} (h : Scans rest tokens) :
    Scans ('(' :: rest) (.leftParen :: tokens) :=
  h.token (p := ⟨.leftParen, ['(']⟩) rfl rfl

theorem Scans.rightParen {rest : List Char} {tokens : List Token} (h : Scans rest tokens) :
    Scans (')' :: rest) (.rightParen :: tokens) :=
  h.token (p := ⟨.rightParen, [')']⟩) rfl rfl

theorem Scans.comma {rest : List Char} {tokens : List Token} (h : Scans rest tokens) :
    Scans (',' :: rest) (.comma :: tokens) :=
  h.token (p := ⟨.comma, [',']⟩) rfl rfl

theorem Scans.operation {op : Operation} {rest : List Char} {tokens : List Token}
    (hop : op ∈ Operation.all) (hrest : Piece.Stops Piece.isNamePart rest)
    (h : Scans rest tokens) : Scans (op.name.toList ++ rest) (.operation op :: tokens) := by
  have hname := Operation.isName_name hop
  cases hcs : op.name.toList with
  | nil => simp [hcs, Piece.isName] at hname
  | cons c cs =>
    rw [hcs] at hname
    have htext : String.ofList (c :: cs) = op.name := by rw [← hcs, String.ofList_toList]
    refine h.token (Piece.first_name hname hrest) ?_
    simp only [ofPiece, htext, Operation.ofName?_of_mem hop]

theorem Scans.number {r : Radix} {v : Value} {rest : List Char} {tokens : List Token}
    (hv : r = .hexadecimal → 0 ≤ v.toInt) (hrest : Piece.Stops Piece.isNamePart rest)
    (h : Scans rest tokens) : Scans ((v.text r).toList ++ rest) (.number r v :: tokens) := by
  obtain ⟨c, cs, hcs, hfirst⟩ := Piece.first_text hv hrest
  rw [hcs]
  refine h.token hfirst ?_
  have hread := Value.read_text hv
  rw [hcs] at hread
  simp only [ofPiece, hread]

end Token

/-! ### The text of calls -/

/-- A literal that can be written: a hexadecimal one is not negative. -/
def Literal.Writable (l : Literal) : Prop := l.radix = .hexadecimal → 0 ≤ l.value.toInt

/-- A call that can be written: its operation is in the table, and so are its literals writable. -/
structure Call.Writable (c : Call) : Prop where
  known : c.operation ∈ Operation.all
  literals : ∀ a, c.arguments = some a → ∀ l ∈ a.operands, l.Writable

theorem Literal.Writable.stops_isBlank {l : Literal} (h : l.Writable) (rest : List Char) :
    Piece.Stops Piece.isBlank (l.text.toList ++ rest) := by
  obtain ⟨c, cs, hcs, hfirst⟩ := Piece.first_text h (Piece.stops_nil _)
  rw [Literal.text, hcs]
  exact Piece.stops_cons (Piece.not_isBlank_of_first hfirst (by simp)) _

theorem stops_isBlank_name {op : Operation} (h : op ∈ Operation.all) (rest : List Char) :
    Piece.Stops Piece.isBlank (op.name.toList ++ rest) := by
  have hname := Operation.isName_name h
  cases hcs : op.name.toList with
  | nil => simp [hcs, Piece.isName] at hname
  | cons c cs =>
    rw [hcs] at hname
    have hfirst := Piece.first_name hname (Piece.stops_nil _)
    exact Piece.stops_cons (Piece.not_isBlank_of_first hfirst (by simp)) _

/-- Joined texts begin with the first of them. -/
theorem exists_toList_intercalate_cons (separator text : String) (texts : List String) :
    ∃ rest, (separator.intercalate (text :: texts)).toList = text.toList ++ rest := by
  cases texts with
  | nil => exact ⟨[], by simp⟩
  | cons t texts => exact ⟨_, by simp [String.intercalate_cons_cons, List.append_assoc]; rfl⟩

/-- The text of literals between parentheses. -/
theorem scans_literals {ls : List Literal} {rest : List Char} {tokens : List Token}
    (hls : ∀ l ∈ ls, l.Writable) (h : Token.Scans (')' :: rest) tokens) :
    Token.Scans ((", ".intercalate (ls.map Literal.text)).toList ++ ')' :: rest)
      (Literal.tokens ls ++ tokens) := by
  induction ls with
  | nil => simpa [Literal.tokens] using h
  | cons l ls ih =>
    have hl := hls l (by simp)
    cases ls with
    | nil =>
      simpa [Literal.tokens, Literal.text, Literal.token] using
        h.number hl (Piece.stops_cons (by decide) rest)
    | cons m ls =>
      have htail := ih fun l' hl' => hls l' (by simp [hl'])
      have hstops : Piece.Stops Piece.isBlank
          ((", ".intercalate ((m :: ls).map Literal.text)).toList ++ ')' :: rest) := by
        obtain ⟨more, hmore⟩ :=
          exists_toList_intercalate_cons ", " m.text (ls.map Literal.text)
        rw [List.map_cons, hmore, List.append_assoc]
        exact (hls m (by simp)).stops_isBlank _
      have hcomma := (htail.blank (c := ' ') (by decide) hstops).comma
      have hnumber := hcomma.number hl (Piece.stops_cons (by decide) _)
      simpa [Literal.tokens, Literal.text, Literal.token] using hnumber

theorem scans_call {c : Call} {rest : List Char} {tokens : List Token} (hc : c.Writable)
    (hrest : Piece.Stops Piece.isNamePart rest) (h : Token.Scans rest tokens) :
    Token.Scans (c.text.toList ++ rest) (c.tokens ++ tokens) := by
  unfold Call.text Call.tokens
  cases ha : c.arguments with
  | none => exact h.operation hc.known hrest
  | some a =>
    have hliterals := (scans_literals (hc.literals a ha) h.rightParen).leftParen
    have hname := hliterals.operation hc.known (Piece.stops_cons (by decide) _)
    simpa [Arguments.text, Arguments.tokens] using hname

/-- **The text of calls has the tokens of the calls.** -/
theorem scans_source {calls : List Call} (h : ∀ c ∈ calls, c.Writable) :
    Token.Scans ("\n".intercalate (calls.map Call.text)).toList (calls.flatMap Call.tokens) := by
  induction calls with
  | nil => simpa using Token.scans_nil
  | cons c calls ih =>
    have hc := h c (by simp)
    cases calls with
    | nil => simpa using scans_call hc (Piece.stops_nil _) Token.scans_nil
    | cons d calls =>
      have htail := ih fun c' hc' => h c' (by simp [hc'])
      have hstops : Piece.Stops Piece.isBlank
          ("\n".intercalate ((d :: calls).map Call.text)).toList := by
        obtain ⟨more, hmore⟩ := exists_toList_intercalate_cons "\n" d.text (calls.map Call.text)
        obtain ⟨list, hlist⟩ : ∃ list, d.text.toList = d.operation.name.toList ++ list := by
          unfold Call.text
          cases d.arguments with
          | none => exact ⟨[], by simp⟩
          | some a => exact ⟨a.text.toList, by simp⟩
        rw [List.map_cons, hmore, hlist, List.append_assoc]
        exact stops_isBlank_name (h d (by simp)).known _
      have hline := htail.blank (c := '\n') (by decide) hstops
      have hcall := scans_call hc (Piece.stops_cons (by decide) _) hline
      simpa using hcall

/-- Written calls have the tokens of the calls, at some spans. -/
theorem tokenize_source {calls : List Call} (h : ∀ c ∈ calls, c.Writable) :
    ∃ tokens, tokenize ("\n".intercalate (calls.map Call.text)) = .ok tokens ∧
      tokens.map (·.value) = calls.flatMap Call.tokens :=
  scans_source h 0

/-! ### Operations in a source -/

namespace Token

theorem known_of_ofPiece {p : Piece} {op : Operation}
    (h : ofPiece p = .ok (some (.operation op))) : op ∈ Operation.all := by
  unfold ofPiece at h
  cases hshape : p.shape with
  | name =>
    rw [hshape] at h
    cases hname : Operation.ofName? (String.ofList p.text) with
    | none => simp [hname] at h
    | some op' =>
      obtain rfl : op' = op := by simpa [hname] using h
      exact Operation.mem_of_ofName? hname
  | number radix =>
    rw [hshape] at h
    cases hread : Value.read radix p.text <;> simp [hread] at h
  | _ => simp [hshape] at h

theorem known_of_ofPieces {start : Nat} {ps : List Piece} {tokens : List (Spanned Token)}
    (h : ofPieces start ps = .ok tokens) {op : Operation}
    (hop : Token.operation op ∈ tokens.map (·.value)) : op ∈ Operation.all := by
  induction ps generalizing start tokens with
  | nil =>
    obtain rfl : [] = tokens := by simpa [ofPieces] using h
    simp at hop
  | cons p ps ih =>
    rw [ofPieces] at h
    cases hp : ofPiece p with
    | error fault => simp [hp] at h
    | ok found =>
      cases found with
      | none => exact ih (by simpa [hp] using h) hop
      | some token =>
        simp only [hp] at h
        cases hrest : ofPieces (start + byteLength p.text) ps with
        | error fault => simp [hrest, Except.map] at h
        | ok rest =>
          simp only [hrest, Except.map, Except.ok.injEq] at h
          subst h
          rw [List.map_cons, List.mem_cons] at hop
          rcases hop with hop | hop
          · obtain rfl : token = .operation op := hop.symm
            exact known_of_ofPiece hp
          · exact ih hrest hop

end Token

/-- The operations of a source are in the table. -/
theorem known_of_tokenize {source : String} {tokens : List (Spanned Token)}
    (h : tokenize source = .ok tokens) {op : Operation}
    (hop : Token.operation op ∈ tokens.map (·.value)) : op ∈ Operation.all :=
  Token.known_of_ofPieces h hop

end DwarfExpr
