/-
  DwarfExpr/Proofs/Lexeme.lean
  ============================
  **Tokens are longest matches.** `Lexeme` is the lexical grammar: a pattern for blanks, one for
  comments, and one for each kind of token.  A text is cut (`Cuts`) by taking, again and again, the
  longest match of any pattern; for blanks and comments this is the whole run, up to the first
  character that does not belong to it.

  Patterns overlap: `0` is a decimal number and the beginning of `0x1f`, and a comment may hold
  anything.  Still the scanner finds the longest match by looking at one or two characters:

    * no pattern matches more than the first piece, and only the pattern of the piece matches all
      of it (`Lexeme.covers`);
    * so the pieces of a text are its one and only cut (`Cuts.pieces_eq`, `cuts_of_pieces`);
    * a text has tokens exactly if it can be cut, its names are in the table, and its hexadecimal
      numbers have digits and no sign (`tokenize_longest_match`).
-/
import DwarfExpr.Proofs.Lexing
import Mathlib.Data.List.TakeWhile

namespace DwarfExpr

/-! ### Patterns -/

/-- What may stand before the digits of a number. -/
def IsSign (sign : List Char) : Prop := sign = [] ∨ sign = ['-']

/-- The texts that the pattern of a shape matches.  Nothing matches a stray character. -/
inductive Lexeme : Shape → List Char → Prop
  | blank (c : Char) (cs : List Char) (h : ∀ b ∈ c :: cs, Piece.isBlank b = true) :
      Lexeme .blank (c :: cs)
  | comment (body : List Char) (h : ∀ c ∈ body, Piece.inComment c = true) :
      Lexeme .comment ('#' :: body)
  | name (c : Char) (cs : List Char) (hc : Piece.isNameStart c = true)
      (hcs : ∀ d ∈ cs, Piece.isNamePart d = true) : Lexeme .name (c :: cs)
  | decimal (sign : List Char) (d : Char) (ds : List Char) (hsign : IsSign sign)
      (hds : ∀ c ∈ d :: ds, Piece.isDigit .decimal c = true) :
      Lexeme (.number .decimal) (sign ++ d :: ds)
  | hexadecimal (sign : List Char) (x : Char) (ds : List Char) (hsign : IsSign sign)
      (hx : x = 'x' ∨ x = 'X') (hds : ∀ c ∈ ds, Piece.isDigit .hexadecimal c = true) :
      Lexeme (.number .hexadecimal) (sign ++ '0' :: x :: ds)
  | leftParen : Lexeme .leftParen ['(']
  | rightParen : Lexeme .rightParen [')']
  | comma : Lexeme .comma [',']

namespace Piece

/-- The piece matches its pattern, and no pattern matches more of the text where it stands; `rest`
    is what follows the piece. -/
structure Longest (p : Piece) (rest : List Char) : Prop where
  matched : Lexeme p.shape p.text
  longest : ∀ shape text, Lexeme shape text → text <+: p.text ++ rest → text.length ≤ p.text.length

/-- A text is cut into longest matches, up to a rest that is left over. -/
inductive Cuts : List Char → List Piece → List Char → Prop
  | done (rest : List Char) : Cuts rest [] rest
  | piece {p : Piece} {tail rest : List Char} {ps : List Piece} (hp : p.Longest tail)
      (htail : Cuts tail ps rest) : Cuts (p.text ++ tail) (p :: ps) rest

/-! ### What the scanner does -/

theorem number_of_mark {x : Char} (hx : x = 'x' ∨ x = 'X') (sign text : List Char) :
    number sign ('0' :: x :: text) =
      run (.number .hexadecimal) (sign ++ ['0', x]) (isDigit .hexadecimal) text := by
  rcases hx with rfl | rfl <;> rfl

/-- The two ways to read a number: with a mark in front, or else as decimal digits. -/
theorem number_cases (sign text : List Char) :
    (∃ x rest, (x = 'x' ∨ x = 'X') ∧ text = '0' :: x :: rest) ∨
      number sign text = run (.number .decimal) sign (isDigit .decimal) text := by
  unfold number
  split
  · exact Or.inl ⟨'x', _, Or.inl rfl, rfl⟩
  · exact Or.inl ⟨'X', _, Or.inr rfl, rfl⟩
  · exact Or.inr rfl

theorem lexeme_number {sign text : List Char} (hsign : IsSign sign)
    (htext : startsNumber text = true) :
    Lexeme (number sign text).1.shape (number sign text).1.text := by
  rcases number_cases sign text with ⟨x, rest, hx, rfl⟩ | hrun
  · rw [number_of_mark hx]
    have hdigits := Lexeme.hexadecimal sign x (rest.takeWhile (isDigit .hexadecimal)) hsign hx
      fun c hc => List.mem_takeWhile_imp hc
    simpa [run] using hdigits
  · rw [hrun]
    cases text with
    | nil => simp [startsNumber] at htext
    | cons d text =>
      have hd : isDigit .decimal d = true := htext
      have hdigits := Lexeme.decimal sign d (text.takeWhile (isDigit .decimal)) hsign (by
        intro c hc
        rcases List.mem_cons.1 hc with rfl | hc
        · exact hd
        · exact List.mem_takeWhile_imp hc)
      simpa [run, hd] using hdigits

/-- The first piece of a text matches its pattern, unless it is a stray character. -/
theorem lexeme_first (c : Char) (text : List Char) :
    Lexeme (first c text).1.shape (first c text).1.text ∨
      (first c text).1 = ⟨.stray c, [c]⟩ := by
  unfold first
  split
  · next hc =>
    refine Or.inl (Lexeme.blank c _ ?_)
    intro b hb
    rcases List.mem_cons.1 hb with rfl | hb
    · exact hc
    · exact List.mem_takeWhile_imp hb
  split
  · next hc =>
    subst hc
    exact Or.inl (Lexeme.comment _ fun d hd => List.mem_takeWhile_imp hd)
  split
  · next hc => exact Or.inl (Lexeme.name c _ hc fun d hd => List.mem_takeWhile_imp hd)
  split
  · next hc => exact Or.inl (lexeme_number (Or.inl rfl) hc)
  split
  · next hc => exact Or.inl (lexeme_number (Or.inr (by rw [hc.1])) hc.2)
  split
  · next hc => exact Or.inl (hc ▸ Lexeme.leftParen)
  split
  · next hc => exact Or.inl (hc ▸ Lexeme.rightParen)
  split
  · next hc => exact Or.inl (hc ▸ Lexeme.comma)
  · exact Or.inr rfl

/-! ### No pattern matches more -/

/-- The piece begins with a lexeme, and has the shape of the lexeme if it is no longer. -/
def Covers (p : Piece) (shape : Shape) (lexeme : List Char) : Prop :=
  lexeme <+: p.text ∧ (lexeme = p.text → p.shape = shape)

theorem covers_run {goesOn : Char → Bool} {body text : List Char} (shape : Shape)
    (lead : List Char) (hbody : ∀ c ∈ body, goesOn c = true) (h : body <+: text) :
    (run shape lead goesOn text).1.Covers shape (lead ++ body) := by
  obtain ⟨rest, rfl⟩ := h
  refine ⟨?_, fun _ => rfl⟩
  simp only [run, List.takeWhile_append_of_pos hbody]
  exact (List.prefix_append_right_inj lead).2 (List.prefix_append body _)

/-- The digits before a mark are only its zero. -/
theorem eq_zero_of_prefix_mark {x d : Char} {ds rest : List Char} (hx : x = 'x' ∨ x = 'X')
    (hds : ∀ c ∈ d :: ds, isDigit .decimal c = true) (h : d :: ds <+: '0' :: x :: rest) :
    d = '0' ∧ ds = [] := by
  obtain ⟨hd, hbegins⟩ := List.cons_prefix_cons.1 h
  refine ⟨hd, ?_⟩
  cases ds with
  | nil => rfl
  | cons e ds =>
    obtain ⟨rfl, -⟩ := List.cons_prefix_cons.1 hbegins
    have hdigit := hds e (by simp)
    rcases hx with rfl | rfl <;> exact absurd hdigit (by decide)

theorem covers_number_decimal (sign : List Char) {d : Char} {ds text : List Char}
    (hds : ∀ c ∈ d :: ds, isDigit .decimal c = true) (h : d :: ds <+: text) :
    (number sign text).1.Covers (.number .decimal) (sign ++ d :: ds) := by
  rcases number_cases sign text with ⟨x, rest, hx, rfl⟩ | hrun
  · -- a hexadecimal number is longer than the zero that it begins with
    obtain ⟨rfl, rfl⟩ := eq_zero_of_prefix_mark hx hds h
    rw [number_of_mark hx]
    refine ⟨⟨x :: rest.takeWhile (isDigit .hexadecimal), by simp [run]⟩, ?_⟩
    intro heq
    simp [run] at heq
  · rw [hrun]
    exact covers_run _ sign hds h

theorem covers_number_hexadecimal (sign : List Char) {x : Char} {ds text : List Char}
    (hx : x = 'x' ∨ x = 'X') (hds : ∀ c ∈ ds, isDigit .hexadecimal c = true)
    (h : '0' :: x :: ds <+: text) :
    (number sign text).1.Covers (.number .hexadecimal) (sign ++ '0' :: x :: ds) := by
  obtain ⟨rest, rfl⟩ := h
  have hcovers := covers_run (.number .hexadecimal) (sign ++ ['0', x]) hds
    (List.prefix_append ds rest)
  rw [List.cons_append, List.cons_append, number_of_mark hx]
  simpa using hcovers

/-- A number is read from its sign on. -/
theorem first_of_sign {sign digits text : List Char} {c : Char} (hsign : IsSign sign)
    (hdigits : startsNumber digits = true) (h : sign ++ digits <+: c :: text) :
    ∃ text', digits <+: text' ∧ first c text = number sign text' := by
  cases digits with
  | nil => simp [startsNumber] at hdigits
  | cons d ds =>
    rcases hsign with rfl | rfl
    · obtain ⟨rfl, -⟩ := List.cons_prefix_cons.1 h
      exact ⟨d :: text, h, first_of_isDigit text hdigits⟩
    · obtain ⟨rfl, hbegins⟩ := List.cons_prefix_cons.1 h
      have hstart : startsNumber text = true := by
        obtain ⟨rest, rfl⟩ := hbegins
        exact hdigits
      exact ⟨text, hbegins, first_minus hstart⟩

end Piece

/-- **No pattern matches more than the first piece**, and only its own pattern matches all of it. -/
theorem Lexeme.covers {shape : Shape} {lexeme : List Char} (hlexeme : Lexeme shape lexeme)
    {c : Char} {text : List Char} (h : lexeme <+: c :: text) :
    (Piece.first c text).1.Covers shape lexeme := by
  cases hlexeme with
  | blank b bs hbs =>
    obtain ⟨rfl, hbegins⟩ := List.cons_prefix_cons.1 h
    rw [Piece.first, if_pos (hbs b (by simp))]
    exact Piece.covers_run .blank [b] (fun d hd => hbs d (by simp [hd])) hbegins
  | comment body hbody =>
    obtain ⟨rfl, hbegins⟩ := List.cons_prefix_cons.1 h
    exact Piece.covers_run .comment ['#'] hbody hbegins
  | name d ds hd hds =>
    obtain ⟨rfl, hbegins⟩ := List.cons_prefix_cons.1 h
    obtain ⟨hblank, hcomment⟩ :=
      Piece.not_blank_of_isNamePart ((Piece.isNamePart_iff d).2 (Or.inl hd))
    simp only [Piece.first, hblank, hcomment, hd, if_true, if_false, Bool.false_eq_true]
    exact Piece.covers_run .name [d] hds hbegins
  | decimal sign d ds hsign hds =>
    have hstart : Piece.startsNumber (d :: ds) = true := hds d (by simp)
    obtain ⟨text', hbegins, hfirst⟩ := Piece.first_of_sign hsign hstart h
    rw [hfirst]
    exact Piece.covers_number_decimal sign hds hbegins
  | hexadecimal sign x ds hsign hx hds =>
    have hstart : Piece.startsNumber ('0' :: x :: ds) = true := rfl
    obtain ⟨text', hbegins, hfirst⟩ := Piece.first_of_sign hsign hstart h
    rw [hfirst]
    exact Piece.covers_number_hexadecimal sign hx hds hbegins
  | leftParen =>
    obtain ⟨rfl, -⟩ := List.cons_prefix_cons.1 h
    exact ⟨List.prefix_rfl, fun _ => rfl⟩
  | rightParen =>
    obtain ⟨rfl, -⟩ := List.cons_prefix_cons.1 h
    exact ⟨List.prefix_rfl, fun _ => rfl⟩
  | comma =>
    obtain ⟨rfl, -⟩ := List.cons_prefix_cons.1 h
    exact ⟨List.prefix_rfl, fun _ => rfl⟩

theorem Lexeme.ne_nil {shape : Shape} {lexeme : List Char} (h : Lexeme shape lexeme) :
    lexeme ≠ [] := by
  cases h <;> simp

namespace Piece

theorem longest_first {c : Char} {text : List Char} (h : ∀ d, (first c text).1.shape ≠ .stray d) :
    (first c text).1.Longest (first c text).2 := by
  rcases lexeme_first c text with hlexeme | hstray
  · refine ⟨hlexeme, ?_⟩
    intro shape lexeme hmatch hbegins
    rw [first_append] at hbegins
    exact (hmatch.covers hbegins).1.length_le
  · exact absurd (congrArg Piece.shape hstray) (h c)

/-- Only the first piece of a text is a longest match at its beginning. -/
theorem Longest.first_eq {p : Piece} {c : Char} {text rest : List Char} (hp : p.Longest rest)
    (h : c :: text = p.text ++ rest) : first c text = (p, rest) := by
  obtain ⟨hbegins, hshape⟩ := hp.matched.covers (h ▸ List.prefix_append p.text rest)
  have hle : (first c text).1.text.length ≤ p.text.length := by
    rcases lexeme_first c text with hlexeme | hstray
    · refine hp.longest _ _ hlexeme ?_
      rw [← h, ← first_append c text]
      exact List.prefix_append _ _
    · rw [hstray]
      exact List.length_pos_iff.2 hp.matched.ne_nil
  have htext : p.text = (first c text).1.text := hbegins.eq_of_length_le hle
  have hrest : (first c text).2 = rest := by
    have hall := first_append c text
    rw [h, ← htext] at hall
    exact List.append_cancel_left hall
  have hpiece : (first c text).1 = ⟨(first c text).1.shape, (first c text).1.text⟩ := rfl
  rw [← htext, hshape htext] at hpiece
  exact Prod.ext hpiece hrest

/-! ### The cut of a text -/

/-- **A cut is what the scanner finds**, and so there is only one. -/
theorem Cuts.pieces_eq {text rest : List Char} {ps : List Piece} (h : Cuts text ps rest) :
    pieces text = ps ++ pieces rest := by
  induction h with
  | done rest => rfl
  | @piece p tail rest ps hp _ ih =>
    obtain ⟨c, cs, hcs⟩ := List.exists_cons_of_ne_nil hp.matched.ne_nil
    have hfirst : first c (cs ++ tail) = (p, tail) := by
      apply hp.first_eq
      rw [hcs, List.cons_append]
    rw [hcs, List.cons_append, pieces_cons hfirst, ih, List.cons_append]

/-- The pieces before the first stray character are a cut. -/
theorem cuts_of_pieces {text : List Char} {ps qs : List Piece} (h : pieces text = ps ++ qs)
    (hps : ∀ p ∈ ps, ∀ d, p.shape ≠ .stray d) : Cuts text ps (qs.flatMap Piece.text) := by
  induction ps generalizing text with
  | nil =>
    have hjoin := flatMap_pieces text
    rw [h, List.nil_append] at hjoin
    rw [hjoin]
    exact .done text
  | cons p ps ih =>
    cases text with
    | nil => simp [pieces] at h
    | cons c text =>
      rw [pieces, List.cons_append, List.cons.injEq] at h
      obtain ⟨rfl, hrest⟩ := h
      have hlongest := longest_first (hps _ List.mem_cons_self)
      rw [← first_append c text]
      exact .piece hlongest (ih hrest fun q hq => hps q (List.mem_cons_of_mem _ hq))

/-- What is left over does not matter to a cut: a shorter rest has fewer matches. -/
theorem Cuts.truncate {text rest : List Char} {ps : List Piece} (h : Cuts text ps rest) :
    Cuts (ps.flatMap Piece.text) ps [] ∧ text = ps.flatMap Piece.text ++ rest := by
  induction h with
  | done rest => exact ⟨.done [], rfl⟩
  | @piece p tail rest ps hp _ ih =>
    obtain ⟨hcuts, rfl⟩ := ih
    have hlongest : p.Longest (ps.flatMap Piece.text) := by
      refine ⟨hp.matched, ?_⟩
      intro shape lexeme hlexeme hbegins
      apply hp.longest shape lexeme hlexeme
      rw [← List.append_assoc]
      exact List.prefix_append_of_prefix hbegins
    rw [List.flatMap_cons, List.append_assoc]
    exact ⟨.piece hlongest hcuts, rfl⟩

theorem Cuts.matched {text rest : List Char} {ps : List Piece} (h : Cuts text ps rest) :
    ∀ p ∈ ps, Lexeme p.shape p.text := by
  induction h with
  | done rest => simp
  | piece hp _ ih => exact List.forall_mem_cons.2 ⟨hp.matched, ih⟩

end Piece

/-! ### Lexemes as tokens -/

/-- The number that the lexeme of a number spells: in decimal after its sign, in hexadecimal after
    its mark. -/
def Radix.integer : Radix → List Char → Int
  | .decimal, '-' :: digits => -(Radix.decimal.number digits : Int)
  | .decimal, digits => Radix.decimal.number digits
  | .hexadecimal, text => Radix.hexadecimal.number (text.drop 2)

/-- A name is in the table; a hexadecimal number has digits and no sign. -/
def Piece.Sound (p : Piece) : Prop :=
  match p.shape with
  | .name => ∃ op ∈ Operation.all, op.name.toList = p.text
  | .number .hexadecimal => ∃ x d ds, p.text = '0' :: x :: d :: ds
  | _ => True

/-- Blanks and comments. -/
def Piece.Skipped (p : Piece) : Prop := p.shape = .blank ∨ p.shape = .comment

namespace Token

/-- The token that a lexeme stands for. -/
def SpelledBy (p : Piece) : Token → Prop
  | operation op => p.shape = .name ∧ op ∈ Operation.all ∧ op.name.toList = p.text
  | number radix value => p.shape = .number radix ∧ value.toInt = radix.integer p.text
  | leftParen => p.shape = .leftParen
  | rightParen => p.shape = .rightParen
  | comma => p.shape = .comma

/-- The tokens of pieces with their spans; the pieces stand one after another from a byte offset
    on. -/
inductive Reads : Nat → List Piece → List (Spanned Token) → Prop
  | nil (start : Nat) : Reads start [] []
  | skip {start : Nat} {p : Piece} {ps : List Piece} {tokens : List (Spanned Token)}
      (hp : p.Skipped) (htail : Reads (start + byteLength p.text) ps tokens) :
      Reads start (p :: ps) tokens
  | token {start : Nat} {p : Piece} {ps : List Piece} {token : Token}
      {tokens : List (Spanned Token)} (hp : token.SpelledBy p)
      (htail : Reads (start + byteLength p.text) ps tokens) :
      Reads start (p :: ps) (⟨token, ⟨start, start + byteLength p.text⟩⟩ :: tokens)

end Token

/-! ### When a lexeme is a token -/

theorem Value.read_eq_ok_iff {r : Radix} {text : List Char} {v w : Value}
    (h : Value.read r text = .ok w) : Value.read r text = .ok v ↔ v.toInt = w.toInt := by
  rw [h, Except.ok.injEq]
  constructor
  · rintro rfl
    rfl
  · intro hint
    exact Value.toInt_injective hint.symm

/-- A decimal number can always be read. -/
theorem Value.read_decimal_iff {sign ds : List Char} {d : Char} {v : Value} (hsign : IsSign sign)
    (hds : ∀ c ∈ d :: ds, Piece.isDigit .decimal c = true) :
    Value.read .decimal (sign ++ d :: ds) = .ok v ↔
      v.toInt = Radix.decimal.integer (sign ++ d :: ds) := by
  obtain ⟨m, hread, hnat⟩ := Value.readDigits_eq_ok .decimal hds
  rcases hsign with rfl | rfl
  · have hd : d ≠ '-' := by
      rintro rfl
      exact absurd (hds '-' (by simp)) (by decide)
    have hinteger : Radix.decimal.integer (d :: ds) = Radix.decimal.number (d :: ds) := by
      unfold Radix.integer
      split <;> simp_all
    have hvalue : Value.read .decimal (d :: ds) = .ok (.ofMagnitude false m) := by
      simp [Value.read, Value.splitSign_of_digit ds (hds d (by simp)), Value.dropMark, hread,
        Except.map]
    rw [List.nil_append, Value.read_eq_ok_iff hvalue, hinteger, Value.toInt_ofMagnitude, hnat]
    rfl
  · have hvalue : Value.read .decimal ('-' :: d :: ds) = .ok (.ofMagnitude true m) := by
      simp [Value.read, Value.splitSign, Value.dropMark, hread, Except.map]
    rw [List.singleton_append, Value.read_eq_ok_iff hvalue, Value.toInt_ofMagnitude, hnat]
    rfl

/-- A hexadecimal number can be read if it has digits and no sign. -/
theorem Value.read_hexadecimal_iff {sign ds : List Char} {x : Char} {v : Value}
    (hsign : IsSign sign) (hx : x = 'x' ∨ x = 'X')
    (hds : ∀ c ∈ ds, Piece.isDigit .hexadecimal c = true) :
    Value.read .hexadecimal (sign ++ '0' :: x :: ds) = .ok v ↔
      (∃ x' d' ds', sign ++ '0' :: x :: ds = '0' :: x' :: d' :: ds') ∧
        v.toInt = Radix.hexadecimal.integer (sign ++ '0' :: x :: ds) := by
  rcases hsign with rfl | rfl
  · have hmark : Value.dropMark .hexadecimal ('0' :: x :: ds) = ds := by
      rcases hx with rfl | rfl <;> rfl
    rw [List.nil_append]
    cases ds with
    | nil => simp [Value.read, Value.splitSign, hmark]
    | cons d ds =>
      obtain ⟨m, hread, hnat⟩ := Value.readDigits_eq_ok .hexadecimal hds
      have hvalue : Value.read .hexadecimal ('0' :: x :: d :: ds) = .ok (.ofMagnitude false m) := by
        simp [Value.read, Value.splitSign, hmark, hread, Except.map]
      rw [Value.read_eq_ok_iff hvalue, Value.toInt_ofMagnitude, hnat]
      simp [Radix.integer]
  · simp [Value.read, Value.splitSign]

theorem Operation.ofName?_eq_some_iff {text : List Char} {op : Operation} :
    Operation.ofName? (String.ofList text) = some op ↔
      op ∈ Operation.all ∧ op.name.toList = text := by
  constructor
  · intro h
    have hname : op.name = String.ofList text := by simpa using List.find?_some h
    exact ⟨Operation.mem_of_ofName? h, by rw [hname, String.toList_ofList]⟩
  · rintro ⟨hmem, rfl⟩
    rw [String.ofList_toList]
    exact Operation.ofName?_of_mem hmem

namespace Token

theorem ofPiece_eq_none_iff (p : Piece) : ofPiece p = .ok none ↔ p.Skipped := by
  obtain ⟨shape, text⟩ := p
  cases shape with
  | name =>
    cases hname : Operation.ofName? (String.ofList text) <;>
      simp [ofPiece, Piece.Skipped, hname]
  | number radix =>
    cases hread : Value.read radix text <;> simp [ofPiece, Piece.Skipped, hread]
  | _ => simp [ofPiece, Piece.Skipped]

theorem ofPiece_name {text : List Char} {token : Token} :
    ofPiece ⟨.name, text⟩ = .ok (some token) ↔ token.SpelledBy ⟨.name, text⟩ := by
  cases hname : Operation.ofName? (String.ofList text) with
  | none =>
    have hnot : ∀ op ∈ Operation.all, op.name.toList ≠ text := by
      intro op hop htext
      rw [Operation.ofName?_eq_some_iff.2 ⟨hop, htext⟩] at hname
      simp at hname
    cases token with
    | operation op => simpa [ofPiece, hname, SpelledBy] using hnot op
    | _ => simp [ofPiece, hname, SpelledBy]
  | some found =>
    cases token with
    | operation op => simp [ofPiece, SpelledBy, ← Operation.ofName?_eq_some_iff, hname]
    | _ => simp [ofPiece, hname, SpelledBy]

theorem ofPiece_number {radix : Radix} {text : List Char} {token : Token} :
    ofPiece ⟨.number radix, text⟩ = .ok (some token) ↔
      ∃ v, token = .number radix v ∧ Value.read radix text = .ok v := by
  cases hread : Value.read radix text with
  | error reason => simp [ofPiece, hread]
  | ok v => simp [ofPiece, hread, eq_comm]

/-- **When a lexeme is a token, and which.** -/
theorem ofPiece_eq_some_iff {p : Piece} {token : Token} (h : Lexeme p.shape p.text) :
    ofPiece p = .ok (some token) ↔ p.Sound ∧ token.SpelledBy p := by
  obtain ⟨shape, text⟩ := p
  dsimp only at h
  cases h with
  | name c cs hc hcs =>
    rw [ofPiece_name]
    constructor
    · intro hspelled
      cases token with
      | operation op => exact ⟨⟨op, hspelled.2⟩, hspelled⟩
      | _ => simp [SpelledBy] at hspelled
    · exact And.right
  | decimal sign d ds hsign hds =>
    rw [ofPiece_number]
    cases token with
    | number radix v =>
      cases radix <;> simp [Piece.Sound, SpelledBy, Value.read_decimal_iff hsign hds]
    | _ => simp [SpelledBy]
  | hexadecimal sign x ds hsign hx hds =>
    rw [ofPiece_number]
    cases token with
    | number radix v =>
      cases radix with
      | decimal => simp [SpelledBy]
      | hexadecimal =>
        have hread := @Value.read_hexadecimal_iff sign ds x v hsign hx hds
        simpa [Piece.Sound, SpelledBy] using hread
    | _ => simp [SpelledBy]
  | _ => cases token <;> simp [ofPiece, Piece.Sound, SpelledBy]

/-- A sound lexeme is skipped or is a token. -/
theorem skipped_or_spelledBy {p : Piece} (h : Lexeme p.shape p.text) (hsound : p.Sound) :
    p.Skipped ∨ ∃ token : Token, token.SpelledBy p := by
  obtain ⟨shape, text⟩ := p
  dsimp only at h
  cases h with
  | blank c cs hcs => exact Or.inl (Or.inl rfl)
  | comment body hbody => exact Or.inl (Or.inr rfl)
  | name c cs hc hcs =>
    obtain ⟨op, hop⟩ := hsound
    exact Or.inr ⟨.operation op, rfl, hop⟩
  | decimal sign d ds hsign hds =>
    exact Or.inr ⟨.number .decimal (.ofInt (Radix.decimal.integer (sign ++ d :: ds))), rfl,
      Value.toInt_ofInt _⟩
  | hexadecimal sign x ds hsign hx hds =>
    exact Or.inr
      ⟨.number .hexadecimal (.ofInt (Radix.hexadecimal.integer (sign ++ '0' :: x :: ds))), rfl,
        Value.toInt_ofInt _⟩
  | leftParen => exact Or.inr ⟨.leftParen, rfl⟩
  | rightParen => exact Or.inr ⟨.rightParen, rfl⟩
  | comma => exact Or.inr ⟨.comma, rfl⟩

theorem sound_of_skipped {p : Piece} (h : p.Skipped) : p.Sound := by
  rcases h with h | h <;> simp [Piece.Sound, h]

/-! ### The tokens of a cut -/

/-- One step of reading tokens off pieces. -/
theorem ofPieces_cons_iff {start : Nat} {p : Piece} {ps : List Piece}
    {tokens : List (Spanned Token)} :
    ofPieces start (p :: ps) = .ok tokens ↔
      (ofPiece p = .ok none ∧ ofPieces (start + byteLength p.text) ps = .ok tokens) ∨
      ∃ token rest, ofPiece p = .ok (some token) ∧
        ofPieces (start + byteLength p.text) ps = .ok rest ∧
        tokens = ⟨token, ⟨start, start + byteLength p.text⟩⟩ :: rest := by
  rw [ofPieces]
  cases hp : ofPiece p with
  | error fault => simp
  | ok found =>
    cases found with
    | none => simp
    | some token =>
      cases hrest : ofPieces (start + byteLength p.text) ps with
      | error fault => simp [Except.map]
      | ok rest => simp [Except.map, eq_comm]

theorem reads_cons_iff {start : Nat} {p : Piece} {ps : List Piece}
    {tokens : List (Spanned Token)} :
    Reads start (p :: ps) tokens ↔
      (p.Skipped ∧ Reads (start + byteLength p.text) ps tokens) ∨
      ∃ token rest, token.SpelledBy p ∧ Reads (start + byteLength p.text) ps rest ∧
        tokens = ⟨token, ⟨start, start + byteLength p.text⟩⟩ :: rest := by
  constructor
  · intro h
    cases h with
    | skip hp htail => exact Or.inl ⟨hp, htail⟩
    | token hp htail => exact Or.inr ⟨_, _, hp, htail, rfl⟩
  · rintro (⟨hp, htail⟩ | ⟨token, rest, hp, htail, rfl⟩)
    · exact .skip hp htail
    · exact .token hp htail

/-- **The tokens of lexemes**: every lexeme has to be sound. -/
theorem ofPieces_eq_ok_iff {start : Nat} {ps : List Piece} {tokens : List (Spanned Token)}
    (h : ∀ p ∈ ps, Lexeme p.shape p.text) :
    ofPieces start ps = .ok tokens ↔ (∀ p ∈ ps, p.Sound) ∧ Reads start ps tokens := by
  induction ps generalizing start tokens with
  | nil =>
    constructor
    · intro hok
      obtain rfl : [] = tokens := by simpa [ofPieces] using hok
      exact ⟨by simp, .nil start⟩
    · rintro ⟨-, hreads⟩
      cases hreads
      rfl
  | cons p ps ih =>
    obtain ⟨hp, hps⟩ := List.forall_mem_cons.1 h
    rw [ofPieces_cons_iff, reads_cons_iff, List.forall_mem_cons]
    constructor
    · rintro (⟨hnone, htail⟩ | ⟨token, rest, hsome, htail, rfl⟩)
      · have hskip := (ofPiece_eq_none_iff p).1 hnone
        obtain ⟨hsound, hreads⟩ := (ih hps).1 htail
        exact ⟨⟨sound_of_skipped hskip, hsound⟩, Or.inl ⟨hskip, hreads⟩⟩
      · obtain ⟨hsoundHead, hspelled⟩ := (ofPiece_eq_some_iff hp).1 hsome
        obtain ⟨hsound, hreads⟩ := (ih hps).1 htail
        exact ⟨⟨hsoundHead, hsound⟩, Or.inr ⟨token, rest, hspelled, hreads, rfl⟩⟩
    · rintro ⟨⟨hsoundHead, hsound⟩, ⟨hskip, hreads⟩ | ⟨token, rest, hspelled, hreads, rfl⟩⟩
      · exact Or.inl ⟨(ofPiece_eq_none_iff p).2 hskip, (ih hps).2 ⟨hsound, hreads⟩⟩
      · exact Or.inr ⟨token, rest, (ofPiece_eq_some_iff hp).2 ⟨hsoundHead, hspelled⟩,
          (ih hps).2 ⟨hsound, hreads⟩, rfl⟩

theorem exists_reads {ps : List Piece} (h : ∀ p ∈ ps, Lexeme p.shape p.text)
    (hsound : ∀ p ∈ ps, p.Sound) (start : Nat) : ∃ tokens, Reads start ps tokens := by
  induction ps generalizing start with
  | nil => exact ⟨[], .nil start⟩
  | cons p ps ih =>
    obtain ⟨hp, hps⟩ := List.forall_mem_cons.1 h
    obtain ⟨hsoundHead, hsoundTail⟩ := List.forall_mem_cons.1 hsound
    obtain ⟨tokens, htail⟩ := ih hps hsoundTail (start + byteLength p.text)
    rcases skipped_or_spelledBy hp hsoundHead with hskip | ⟨token, hspelled⟩
    · exact ⟨tokens, .skip hskip htail⟩
    · exact ⟨_, .token hspelled htail⟩

theorem ne_stray_of_ofPieces {start : Nat} {ps : List Piece} {tokens : List (Spanned Token)}
    (h : ofPieces start ps = .ok tokens) : ∀ p ∈ ps, ∀ d, p.shape ≠ .stray d := by
  induction ps generalizing start tokens with
  | nil => simp
  | cons p ps ih =>
    rw [List.forall_mem_cons]
    rcases ofPieces_cons_iff.1 h with ⟨hp, htail⟩ | ⟨token, rest, hp, htail, -⟩
    · refine ⟨?_, ih htail⟩
      intro d hd
      simp [ofPiece, hd] at hp
    · refine ⟨?_, ih htail⟩
      intro d hd
      simp [ofPiece, hd] at hp

end Token

/-! ### Byte offsets -/

theorem byteLength_cons (c : Char) (text : List Char) :
    byteLength (c :: text) = c.utf8Size + byteLength text := rfl

theorem byteLength_append (l m : List Char) :
    byteLength (l ++ m) = byteLength l + byteLength m := by
  induction l with
  | nil => simp [byteLength]
  | cons c l ih => rw [List.cons_append, byteLength_cons, byteLength_cons, ih, Nat.add_assoc]

theorem byteLength_pos {text : List Char} (h : text ≠ []) : 0 < byteLength text := by
  cases text with
  | nil => exact absurd rfl h
  | cons c text =>
    have hc := c.utf8Size_pos
    rw [byteLength_cons]
    omega

theorem utf8ByteSize_ofList (text : List Char) :
    (String.ofList text).utf8ByteSize = byteLength text := by
  induction text with
  | nil => rfl
  | cons c text ih =>
    rw [String.ofList_cons, String.utf8ByteSize_append, String.utf8ByteSize_singleton, ih,
      byteLength_cons]

namespace Token

/-- The first piece that is no token ends the tokens of the pieces before it, and is where the error
    is. -/
theorem exists_of_ofPieces_eq_error {start : Nat} {ps : List Piece} {fault : Spanned LexicalFault}
    (h : ofPieces start ps = .error fault) :
    ∃ before p after tokens, ps = before ++ p :: after ∧ ofPieces start before = .ok tokens ∧
      ofPiece p = .error fault.value ∧
      fault.span.start = start + byteLength (before.flatMap Piece.text) ∧
      fault.span.stop = fault.span.start + byteLength p.text := by
  induction ps generalizing start with
  | nil => simp [ofPieces] at h
  | cons p ps ih =>
    cases hp : ofPiece p with
    | error found =>
      obtain rfl : ⟨found, ⟨start, start + byteLength p.text⟩⟩ = fault := by
        simpa [ofPieces, hp] using h
      exact ⟨[], p, ps, [], rfl, rfl, hp, rfl, rfl⟩
    | ok found =>
      have htail : ofPieces (start + byteLength p.text) ps = .error fault := by
        cases found with
        | none => simpa [ofPieces, hp] using h
        | some token =>
          cases hrest : ofPieces (start + byteLength p.text) ps with
          | error other => simpa [ofPieces, hp, hrest, Except.map] using h
          | ok rest => simp [ofPieces, hp, hrest, Except.map] at h
      obtain ⟨before, q, after, tokens, rfl, hok, hq, hstart, hstop⟩ := ih htail
      have hspan : fault.span.start =
          start + byteLength ((p :: before).flatMap Piece.text) := by
        rw [hstart, List.flatMap_cons, byteLength_append, Nat.add_assoc]
      cases found with
      | none =>
        exact ⟨p :: before, q, after, tokens, rfl,
          ofPieces_cons_iff.2 (Or.inl ⟨hp, hok⟩), hq, hspan, hstop⟩
      | some token =>
        exact ⟨p :: before, q, after, _, rfl,
          ofPieces_cons_iff.2 (Or.inr ⟨token, tokens, hp, hok, rfl⟩), hq, hspan, hstop⟩

/-- Spans lie between the ends of the pieces, are not empty, and follow one another. -/
theorem Reads.spans {start : Nat} {ps : List Piece} {tokens : List (Spanned Token)}
    (h : Reads start ps tokens) (hps : ∀ p ∈ ps, Lexeme p.shape p.text) :
    (∀ x ∈ tokens, start ≤ x.span.start ∧ x.span.start < x.span.stop ∧
      x.span.stop ≤ start + byteLength (ps.flatMap Piece.text)) ∧
    tokens.Pairwise fun x y => x.span.stop ≤ y.span.start := by
  induction h with
  | nil start => simp
  | @skip start p ps tokens hp _ ih =>
    obtain ⟨hbounds, hpairwise⟩ := ih (List.forall_mem_cons.1 hps).2
    refine ⟨?_, hpairwise⟩
    intro x hx
    have hx' := hbounds x hx
    rw [List.flatMap_cons, byteLength_append]
    omega
  | @token start p ps token tokens hp _ ih =>
    obtain ⟨hhead, htail⟩ := List.forall_mem_cons.1 hps
    obtain ⟨hbounds, hpairwise⟩ := ih htail
    have hpos := byteLength_pos hhead.ne_nil
    rw [List.flatMap_cons, byteLength_append, List.pairwise_cons, List.forall_mem_cons]
    refine ⟨⟨?_, ?_⟩, ?_, hpairwise⟩
    · dsimp only
      omega
    · intro x hx
      have hx' := hbounds x hx
      omega
    · intro x hx
      exact (hbounds x hx).1

end Token

/-! ### The tokens of a source -/

theorem tokenize_eq_ok_iff {source : String} {tokens : List (Spanned Token)} :
    tokenize source = .ok tokens ↔
      ∃ ps, Piece.Cuts source.toList ps [] ∧ (∀ p ∈ ps, p.Sound) ∧ Token.Reads 0 ps tokens := by
  constructor
  · intro h
    have hcuts := Piece.cuts_of_pieces (List.append_nil _).symm (Token.ne_stray_of_ofPieces h)
    exact ⟨Piece.pieces source.toList, hcuts, (Token.ofPieces_eq_ok_iff hcuts.matched).1 h⟩
  · rintro ⟨ps, hcuts, hreads⟩
    have hpieces := hcuts.pieces_eq
    rw [Piece.pieces, List.append_nil] at hpieces
    rw [tokenize, hpieces]
    exact (Token.ofPieces_eq_ok_iff hcuts.matched).2 hreads

/-- The spans of tokens are not empty, follow one another, and lie in the source. -/
theorem spans_of_tokenize {source : String} {tokens : List (Spanned Token)}
    (h : tokenize source = .ok tokens) :
    (∀ x ∈ tokens, x.span.start < x.span.stop ∧ x.span.stop ≤ source.utf8ByteSize) ∧
      tokens.Pairwise fun x y => x.span.stop ≤ y.span.start := by
  obtain ⟨ps, hcuts, -, hreads⟩ := tokenize_eq_ok_iff.1 h
  obtain ⟨hbounds, hpairwise⟩ := hreads.spans hcuts.matched
  have hjoined : source.toList = ps.flatMap Piece.text := by
    rw [hcuts.truncate.2, List.append_nil]
  have hsize : source.utf8ByteSize = byteLength (ps.flatMap Piece.text) := by
    rw [← hjoined, ← utf8ByteSize_ofList, String.ofList_toList]
  refine ⟨?_, hpairwise⟩
  intro x hx
  have hx' := hbounds x hx
  omega

/-- No two tokens have the same span. -/
theorem nodup_spans {source : String} {tokens : List (Spanned Token)}
    (h : tokenize source = .ok tokens) : (tokens.map (·.span)).Nodup := by
  obtain ⟨hbounds, hpairwise⟩ := spans_of_tokenize h
  rw [List.Nodup, List.pairwise_map]
  refine hpairwise.imp_of_mem ?_
  intro x y hx hy hle heq
  have hx' := (hbounds x hx).1
  rw [heq] at hle hx'
  omega

/-- The source up to a lexical error has tokens: its cut ends where the error begins. -/
theorem exists_tokenize_of_error {source : String} {fault : Spanned LexicalFault}
    (h : tokenize source = .error fault) :
    ∃ before after : String, source = before ++ after ∧
      before.utf8ByteSize = fault.span.start ∧ ∃ tokens, tokenize before = .ok tokens := by
  obtain ⟨ps, q, qs, tokens, hpieces, hok, -, hstart, -⟩ := Token.exists_of_ofPieces_eq_error h
  have hcuts := Piece.cuts_of_pieces hpieces (Token.ne_stray_of_ofPieces hok)
  obtain ⟨hbefore, hjoined⟩ := hcuts.truncate
  refine ⟨String.ofList (ps.flatMap Piece.text), String.ofList ((q :: qs).flatMap Piece.text), ?_,
    ?_, tokens, ?_⟩
  · rw [← String.ofList_append, ← hjoined, String.ofList_toList]
  · rw [utf8ByteSize_ofList, hstart, Nat.zero_add]
  · have hpieces' := hbefore.pieces_eq
    rw [Piece.pieces, List.append_nil] at hpieces'
    rw [tokenize, String.toList_ofList, hpieces', hok]

/-- **Tokens are the one and only cut into longest matches.** A source has tokens exactly if it can
    be cut into longest matches that are sound; there is one cut, and the tokens are those of its
    lexemes, with their byte offsets.  A source that has none has tokens up to the error. -/
theorem tokenize_longest_match (source : String) :
    (∀ tokens, tokenize source = .ok tokens ↔
      ∃ ps, Piece.Cuts source.toList ps [] ∧ (∀ p ∈ ps, p.Sound) ∧ Token.Reads 0 ps tokens) ∧
    ((∃ tokens, tokenize source = .ok tokens) ↔
      ∃ ps, Piece.Cuts source.toList ps [] ∧ ∀ p ∈ ps, p.Sound) ∧
    (∀ ps ps', Piece.Cuts source.toList ps [] → Piece.Cuts source.toList ps' [] → ps = ps') ∧
    (∀ tokens, tokenize source = .ok tokens →
      (∀ x ∈ tokens, x.span.start < x.span.stop) ∧
      tokens.Pairwise fun x y => x.span.stop ≤ y.span.start) ∧
    ∀ fault, tokenize source = .error fault →
      ∃ before after : String, source = before ++ after ∧
        before.utf8ByteSize = fault.span.start ∧ ∃ tokens, tokenize before = .ok tokens := by
  refine ⟨fun tokens => tokenize_eq_ok_iff, ?_, ?_, ?_, fun fault => exists_tokenize_of_error⟩
  · constructor
    · rintro ⟨tokens, h⟩
      obtain ⟨ps, hcuts, hsound, -⟩ := tokenize_eq_ok_iff.1 h
      exact ⟨ps, hcuts, hsound⟩
    · rintro ⟨ps, hcuts, hsound⟩
      obtain ⟨tokens, hreads⟩ := Token.exists_reads hcuts.matched hsound 0
      exact ⟨tokens, tokenize_eq_ok_iff.2 ⟨ps, hcuts, hsound, hreads⟩⟩
  · intro ps ps' hps hps'
    exact List.append_cancel_right (hps.pieces_eq.symm.trans hps'.pieces_eq)
  · intro tokens h
    obtain ⟨hbounds, hpairwise⟩ := spans_of_tokenize h
    exact ⟨fun x hx => (hbounds x hx).1, hpairwise⟩

/-- The sign belongs to the number, the form feed to the comment, and the mark lacks its digits. -/
theorem tokenize_longest_match_mark :
    tokenize "-1#é\x0c\n0x" = .error ⟨.malformedNumber "0x" .empty, ⟨7, 9⟩⟩ ∧
      tokenize "-1#é\x0c\n" = .ok [⟨.number .decimal (.ofInt (-1)), ⟨0, 2⟩⟩] ∧
      (∃ ps, Piece.Cuts "-1#é\x0c\n".toList ps [] ∧ (∀ p ∈ ps, p.Sound) ∧
        Token.Reads 0 ps [⟨.number .decimal (.ofInt (-1)), ⟨0, 2⟩⟩]) ∧
      ∃ before after : String, "-1#é\x0c\n0x" = before ++ after ∧ before.utf8ByteSize = 7 ∧
        ∃ tokens, tokenize before = .ok tokens := by
  have herror : tokenize "-1#é\x0c\n0x" = .error ⟨.malformedNumber "0x" .empty, ⟨7, 9⟩⟩ := by
    decide +kernel
  have hok : tokenize "-1#é\x0c\n" = .ok [⟨.number .decimal (.ofInt (-1)), ⟨0, 2⟩⟩] := by
    decide +kernel
  exact ⟨herror, hok, ((tokenize_longest_match _).1 _).1 hok,
    (tokenize_longest_match _).2.2.2.2 _ herror⟩

end DwarfExpr
