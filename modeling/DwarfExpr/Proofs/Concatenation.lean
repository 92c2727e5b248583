/-
  DwarfExpr/Proofs/Concatenation.lean
  ===================================
  **Sources one after the other.** A source that is assembled can be put on the lines before another
  one: the bytecode of both is joined, and an error of the second one is still reported, further
  right (`assemble_lines`).

    * A line ending is a blank and belongs to no token and to no comment.  So the tokens of the
      first source stay as they are, and those of the second are moved (`tokenize_lines`).
    * Behind complete calls, reading goes on with an operation as it does at the beginning
      (`State.run_append_of_run_eq_none`).
    * Encoding carries nothing over from one call to the next (`assembleCarrying_eq`), and calls
      that are admitted do not change the first fault (`firstFault_append_of_admitted`).
-/
import DwarfExpr.Proofs.Carrying
import DwarfExpr.Proofs.Relocation

namespace DwarfExpr

/-- The span so many bytes further right. -/
def Span.shift (n : Nat) (s : Span) : Span := ⟨s.start + n, s.stop + n⟩

/-! ### Line endings -/

/-- A line ending belongs to nothing but a run of blanks. -/
theorem Lexeme.eq_blank_of_newline_mem {shape : Shape} {text : List Char} (h : Lexeme shape text)
    (hmem : '\n' ∈ text) : shape = .blank := by
  cases h with
  | blank c cs hcs => rfl
  | comment body hbody =>
    rcases List.mem_cons.1 hmem with hmark | hmem
    · exact absurd hmark (by decide)
    · exact absurd (hbody _ hmem) (by decide)
  | name c cs hc hcs =>
    rcases List.mem_cons.1 hmem with rfl | hmem
    · exact absurd hc (by decide)
    · exact absurd (hcs _ hmem) (by decide)
  | decimal sign d ds hsign hds =>
    rcases List.mem_append.1 hmem with hmem | hmem
    · rcases hsign with rfl | rfl <;> simp at hmem
    · exact absurd (hds _ hmem) (by decide)
  | hexadecimal sign x ds hsign hx hds =>
    rcases List.mem_append.1 hmem with hmem | hmem
    · rcases hsign with rfl | rfl <;> simp at hmem
    · rcases List.mem_cons.1 hmem with hzero | hmem
      · exact absurd hzero (by decide)
      rcases List.mem_cons.1 hmem with rfl | hmem
      · exact absurd hx (by decide)
      · exact absurd (hds _ hmem) (by decide)
  | leftParen => simp at hmem
  | rightParen => simp at hmem
  | comma => simp at hmem

theorem Lexeme.isBlank_of_eq_blank {shape : Shape} {text : List Char} (h : Lexeme shape text)
    (hshape : shape = .blank) : ∀ c ∈ text, Piece.isBlank c = true := by
  cases h with
  | blank c cs hcs => exact hcs
  | _ => simp at hshape

namespace Piece

theorem Longest.not_isBlank {p : Piece} {rest : List Char} (hp : p.Longest rest)
    (hshape : p.shape ≠ .blank) : ∃ c cs, p.text = c :: cs ∧ isBlank c = false := by
  obtain ⟨c, cs, hcs⟩ := List.exists_cons_of_ne_nil hp.matched.ne_nil
  have hfirst : first c (cs ++ rest) = (p, rest) := hp.first_eq (by rw [hcs, List.cons_append])
  exact ⟨c, cs, hcs, not_isBlank_of_first hfirst hshape⟩

/-- **A line ending makes no match longer**, save for a run of blanks. -/
theorem Longest.append_newline {p : Piece} {rest : List Char} (hp : p.Longest rest)
    (hshape : p.shape ≠ .blank) (more : List Char) : p.Longest (rest ++ '\n' :: more) := by
  refine ⟨hp.matched, ?_⟩
  intro shape text hlexeme hbegins
  have hnewline : '\n' ∉ text := by
    intro hmem
    obtain rfl := hlexeme.eq_blank_of_newline_mem hmem
    obtain ⟨c, cs, hcs, hc⟩ := hp.not_isBlank hshape
    cases hlexeme with
    | blank b bs hbs =>
      rw [hcs, List.cons_append, List.cons_prefix_cons] at hbegins
      obtain ⟨rfl, -⟩ := hbegins
      simp [hbs b List.mem_cons_self] at hc
  apply hp.longest shape text hlexeme
  rw [← List.append_assoc] at hbegins
  rcases List.prefix_or_prefix_of_prefix hbegins (List.prefix_append _ _) with h | ⟨tail, rfl⟩
  · exact h
  -- the match would go beyond the text before the line ending, and so hold it
  cases tail with
  | nil => simp
  | cons c tail =>
    obtain ⟨rfl, -⟩ := List.cons_prefix_cons.1 ((List.prefix_append_right_inj _).1 hbegins)
    simp at hnewline

end Piece

/-! ### Tokens of joined texts -/

namespace Token

/-- Pieces that stand further right have the same tokens further right. -/
theorem ofPieces_add (start n : Nat) (ps : List Piece) :
    ofPieces (start + n) ps =
      ((ofPieces start ps).map (List.map (Spanned.mapSpan (Span.shift n)))).mapError
        (Spanned.mapSpan (Span.shift n)) := by
  induction ps generalizing start with
  | nil => rfl
  | cons p ps ih =>
    have hrest := ih (start + byteLength p.text)
    rw [Nat.add_right_comm] at hrest
    rw [ofPieces, ofPieces]
    dsimp only
    rw [hrest, Nat.add_right_comm]
    cases ofPiece p with
    | error fault => rfl
    | ok found =>
      cases found with
      | none => rfl
      | some token => cases ofPieces (start + byteLength p.text) ps <;> rfl

theorem ofPieces_dropWhile_isBlank (start : Nat) (text : List Char) :
    ofPieces (start + byteLength (text.takeWhile Piece.isBlank))
        (Piece.pieces (text.dropWhile Piece.isBlank)) =
      ofPieces start (Piece.pieces text) := by
  cases text with
  | nil => rfl
  | cons c text =>
    by_cases hc : Piece.isBlank c = true
    · have hfirst : Piece.first c text = _ := if_pos hc
      rw [Piece.pieces_cons hfirst, List.takeWhile_cons_of_pos hc, List.dropWhile_cons_of_pos hc]
      rfl
    · rw [List.takeWhile_cons_of_neg hc, List.dropWhile_cons_of_neg hc]
      rfl

/-- Blanks before a text are skipped, whether or not the text begins with blanks, too. -/
theorem ofPieces_append_of_isBlank {blanks : List Char}
    (h : ∀ c ∈ blanks, Piece.isBlank c = true) (start : Nat) (text : List Char) :
    ofPieces start (Piece.pieces (blanks ++ text)) =
      ofPieces (start + byteLength blanks) (Piece.pieces text) := by
  rw [← ofPieces_dropWhile_isBlank start, ← ofPieces_dropWhile_isBlank (start + byteLength blanks),
    List.takeWhile_append_of_pos h, List.dropWhile_append_of_pos h, byteLength_append,
    Nat.add_assoc]

/-- **The tokens of a text are followed by those of the text after its line ending.** -/
theorem ofPieces_append_newline {text : List Char} {ps : List Piece} (hcuts : Piece.Cuts text ps [])
    {start : Nat} {tokens : List (Spanned Token)} (h : ofPieces start ps = .ok tokens)
    (more : List Char) :
    ofPieces start (Piece.pieces (text ++ '\n' :: more)) =
      (ofPieces (start + byteLength text) (Piece.pieces ('\n' :: more))).map (tokens ++ ·) := by
  generalize hrest : ([] : List Char) = rest at hcuts
  induction hcuts generalizing start tokens with
  | done rest =>
    subst hrest
    obtain rfl : [] = tokens := by simpa [ofPieces] using h
    exact (id_map (ofPieces start (Piece.pieces ('\n' :: more)))).symm
  | @piece p tail rest ps hp _ ih =>
    rw [List.append_assoc, byteLength_append, ← Nat.add_assoc]
    by_cases hblank : p.shape = .blank
    · -- the blanks may go on behind the line ending, and are one piece with it then
      have hskip : ofPiece p = .ok none := (ofPiece_eq_none_iff p).2 (Or.inl hblank)
      have htail : ofPieces (start + byteLength p.text) ps = .ok tokens := by
        simpa [ofPieces, hskip] using h
      rw [ofPieces_append_of_isBlank (hp.matched.isBlank_of_eq_blank hblank), ih htail hrest]
    · have hpieces := (Piece.Cuts.piece (hp.append_newline hblank more) (.done _)).pieces_eq
      rw [hpieces, List.singleton_append, ofPieces]
      rcases ofPieces_cons_iff.1 h with ⟨hskip, htail⟩ | ⟨token, found, htoken, htail, rfl⟩
      · rw [hskip]
        exact ih htail hrest
      · rw [htoken]
        dsimp only
        rw [ih htail hrest]
        cases ofPieces (start + byteLength p.text + byteLength tail)
          (Piece.pieces ('\n' :: more)) <;> rfl

end Token

/-- **The tokens of a source stay, and those of the source after it are moved.** -/
theorem tokenize_lines {source : String} {tokens : List (Spanned Token)}
    (h : tokenize source = .ok tokens) (source' : String) :
    tokenize (source ++ "\n" ++ source') =
      ((tokenize source').map fun tokens' =>
        tokens ++ tokens'.map (Spanned.mapSpan (Span.shift (source.utf8ByteSize + 1)))).mapError
        (Spanned.mapSpan (Span.shift (source.utf8ByteSize + 1))) := by
  have hcuts := Piece.cuts_of_pieces (List.append_nil _).symm (Token.ne_stray_of_ofPieces h)
  have hsize : source.utf8ByteSize = byteLength source.toList := by
    rw [← utf8ByteSize_ofList, String.ofList_toList]
  have htext : (source ++ "\n" ++ source').toList = source.toList ++ '\n' :: source'.toList := by
    simp
  have hblank : ∀ c ∈ ['\n'], Piece.isBlank c = true := List.forall_mem_singleton.2 rfl
  have hnewline (start : Nat) : Token.ofPieces start (Piece.pieces ('\n' :: source'.toList)) =
      Token.ofPieces (start + 1) (Piece.pieces source'.toList) :=
    Token.ofPieces_append_of_isBlank hblank start source'.toList
  rw [tokenize, htext, Token.ofPieces_append_newline hcuts h, hnewline, hsize, Nat.add_assoc,
    Token.ofPieces_add, tokenize]
  cases Token.ofPieces 0 (Piece.pieces source'.toList) <;> rfl

/-! ### Reading on -/

namespace State

theorem run_operation_of_openCall_eq_none {s : State} (h : s.openCall? = none) (op : Operation)
    (span : Span) (rest : List (Spanned Token)) :
    s.run (⟨.operation op, span⟩ :: rest) =
      (s.finished ++ (between.run (⟨.operation op, span⟩ :: rest)).1,
        (between.run (⟨.operation op, span⟩ :: rest)).2) := by
  cases s with
  | between => rfl
  | named op' span' => rfl
  | _ => simp [openCall?] at h

/-- **Behind complete calls, an operation is read as at the beginning.** -/
theorem run_append_of_run_eq_none {s : State} {tokens : List (Spanned Token)} {calls : List Call}
    (h : s.run tokens = (calls, none)) (op : Operation) (span : Span)
    (rest : List (Spanned Token)) :
    s.run (tokens ++ ⟨.operation op, span⟩ :: rest) =
      (calls ++ (between.run (⟨.operation op, span⟩ :: rest)).1,
        (between.run (⟨.operation op, span⟩ :: rest)).2) := by
  obtain ⟨complete, s', hreaches, hclosed, rfl⟩ := exists_reaches_of_run_eq_none h
  rw [hreaches.run_append, run_operation_of_openCall_eq_none hclosed, List.append_assoc]

end State

/-! ### Encoding on -/

theorem firstFault_append_of_admitted [Host] {t : Target} {eos ending : Span} {calls : List Call}
    (h : ∀ c ∈ calls, c.Admitted t) (calls' : List Call) (broken : Option Break) :
    firstFault t eos ending (calls ++ calls', broken) =
      firstFault t eos ending (calls', broken) := by
  induction calls with
  | nil => rfl
  | cons c calls ih =>
    obtain ⟨hc, hcalls⟩ := List.forall_mem_cons.1 h
    rw [List.cons_append, firstFault_cons_of_admitted hc, ih hcalls]

/-- **Behind admitted calls, the first fault is that of the tokens that follow.** -/
theorem firstFault_run_append [Host] {t : Target} {tokens : List (Spanned Token)}
    {calls : List Call} (hrun : State.between.run tokens = (calls, none))
    (hadmitted : ∀ c ∈ calls, c.Admitted t) (f : Span → Span) (eos ending : Span) (op : Operation)
    (span : Span) (rest : List (Spanned Token)) :
    firstFault t (f eos) (f ending)
        (State.between.run (tokens ++ (⟨.operation op, span⟩ :: rest).map (Spanned.mapSpan f))) =
      (firstFault t eos ending (State.between.run (⟨.operation op, span⟩ :: rest))).map
        (Spanned.mapSpan f) := by
  have hread := State.run_append_of_run_eq_none hrun op (f span) (rest.map (Spanned.mapSpan f))
  have hmoved := State.between.run_mapSpan f (⟨.operation op, span⟩ :: rest)
  rw [List.map_cons, Spanned.mapSpan, hread, firstFault_append_of_admitted hadmitted]
  rw [List.map_cons, Spanned.mapSpan, State.mapSpan] at hmoved
  rw [hmoved, firstFault_mapSpan]

/-! ### Assembling -/

theorem utf8ByteSize_lines (source source' : String) :
    (source ++ "\n" ++ source').utf8ByteSize =
      source'.utf8ByteSize + (source.utf8ByteSize + 1) := by
  have hnewline : "\n".utf8ByteSize = 1 := by decide +kernel
  rw [String.utf8ByteSize_append, String.utf8ByteSize_append, hnewline, Nat.add_comm]

theorem endOfSource_lines (source source' : String) :
    endOfSource (source ++ "\n" ++ source') =
      (endOfSource source').shift (source.utf8ByteSize + 1) := by
  rw [endOfSource, utf8ByteSize_lines]
  rfl

/-- The last token decides where the input ends. -/
theorem endOfInput_append_shift (n length : Nat) (tokens : List (Spanned Token))
    {tokens' : List (Spanned Token)} (h : tokens' ≠ []) :
    endOfInput (length + n) (tokens ++ tokens'.map (Spanned.mapSpan (Span.shift n))) =
      (endOfInput length tokens').shift n := by
  have hlast := List.getLast?_eq_some_getLast h
  have hmoved : (tokens ++ tokens'.map (Spanned.mapSpan (Span.shift n))).getLast? =
      some ((tokens'.getLast h).mapSpan (Span.shift n)) := by
    rw [List.getLast?_append, List.getLast?_map, hlast]
    rfl
  rw [endOfInput, endOfInput, hmoved, hlast]
  rfl

section Lines

variable [Host] {t : Target} {source source' : String}

theorem assemble_of_tokenize_eq_error {fault : Spanned LexicalFault}
    (h : tokenize source = .error fault) :
    assemble t source = .error (.ofSource source (.lexical fault.value) fault.span) := by
  simp only [assemble, assembly, Assembly.ofSource, h]

/-- The bytecode of both sources is joined. -/
theorem assemble_lines_of_ok {b b' : List UInt8} (h : assemble t source = .ok b)
    (h' : assemble t source' = .ok b') :
    assemble t (source ++ "\n" ++ source') = .ok (b ++ b') := by
  obtain ⟨tokens, calls, htokens, hcalls, hadmitted, rfl⟩ := assemble_eq_ok_iff.1 h
  obtain ⟨tokens', calls', htokens', hcalls', hadmitted', rfl⟩ := assemble_eq_ok_iff.1 h'
  have hlines := tokenize_lines htokens source'
  rw [htokens'] at hlines
  have hvalues :
      (tokens ++ tokens'.map (Spanned.mapSpan (Span.shift (source.utf8ByteSize + 1)))).map
        (·.value) = (calls ++ calls').flatMap Call.tokens := by
    rw [List.flatMap_append, ← tokens_of_parse hcalls, ← tokens_of_parse hcalls']
    simp [Spanned.mapSpan]
  obtain ⟨joined, hjoined, hwritten⟩ :=
    parse_of_tokens (source ++ "\n" ++ source').utf8ByteSize hvalues
  obtain ⟨hsame, hbytes⟩ := Call.forall_admitted_congr t hwritten
  refine assemble_eq_ok_iff.2 ⟨_, joined, hlines, hjoined, hsame.2 ?_, ?_⟩
  · intro c hc
    rcases List.mem_append.1 hc with hc | hc
    · exact hadmitted c hc
    · exact hadmitted' c hc
  · rw [hbytes, List.flatMap_append]

/-- An error of the second source is reported, further right. -/
theorem assemble_lines_of_error {b : List UInt8} {d : Diagnostic} (h : assemble t source = .ok b)
    {op : Operation} {span : Span} {rest : List (Spanned Token)}
    (htokens' : tokenize source' = .ok (⟨.operation op, span⟩ :: rest))
    (h' : assemble t source' = .error d) :
    assemble t (source ++ "\n" ++ source') =
      .error (.ofSource (source ++ "\n" ++ source') d.cause
        (d.span.shift (source.utf8ByteSize + 1))) := by
  obtain ⟨tokens, calls, htokens, hcalls, hadmitted, -⟩ := assemble_eq_ok_iff.1 h
  obtain ⟨fault, hfault, rfl⟩ := (assemble_eq_error_iff htokens').1 h'
  have hlines := tokenize_lines htokens source'
  rw [htokens'] at hlines
  refine (assemble_eq_error_iff hlines).2
    ⟨fault.mapSpan (Span.shift (source.utf8ByteSize + 1)), ?_, rfl⟩
  rw [endOfSource_lines, utf8ByteSize_lines, endOfInput_append_shift _ _ _ (by simp),
    firstFault_run_append (parse_eq_ok_iff.1 hcalls) hadmitted, hfault]
  rfl

end Lines

/-- **Assembly is compositional.** A source that is assembled may be put on the lines before
    another one.  If that is assembled, too, the bytecode is joined.  If it is not, and it has a
    lexical error or begins with an operation, then its error is reported, with the same kind and
    text, by as much further right as the first source and the line ending take.  It makes no
    difference that the encoder carries the last operand over from one operation to the next. -/
theorem assemble_lines [Host] (t : Target) {source : String} {b : List UInt8}
    (h : assemble t source = .ok b) (source' : String) :
    (∀ b', assemble t source' = .ok b' →
      assemble t (source ++ "\n" ++ source') = .ok (b ++ b')) ∧
    (∀ d, assemble t source' = .error d →
      ((∃ fault, tokenize source' = .error fault) ∨
        ∃ op span rest, tokenize source' = .ok (⟨.operation op, span⟩ :: rest)) →
      ∃ d', assemble t (source ++ "\n" ++ source') = .error d' ∧ d'.kind = d.kind ∧
        d'.text = d.text ∧ d'.span = d.span.shift (source.utf8ByteSize + 1)) ∧
    ∀ last, assembleCarrying t last (source ++ "\n" ++ source') =
      assemble t (source ++ "\n" ++ source') := by
  refine ⟨fun b' h' => assemble_lines_of_ok h h', ?_, fun last => assembleCarrying_eq t last _⟩
  rintro d h' (⟨fault, hfault⟩ | ⟨op, span, rest, htokens'⟩)
  · obtain ⟨tokens, calls, htokens, -⟩ := assemble_eq_ok_iff.1 h
    have hlines := tokenize_lines htokens source'
    rw [hfault] at hlines
    rw [assemble_of_tokenize_eq_error hfault, Except.error.injEq] at h'
    subst h'
    exact ⟨_, assemble_of_tokenize_eq_error hlines, rfl, rfl, rfl⟩
  · exact ⟨_, assemble_lines_of_error h htokens' h', rfl, rfl, rfl⟩

/-- Behind a comment that ends in a character of two bytes: a call, a list that breaks off before
    blanks, and a mark without digits. -/
theorem assemble_lines_behind_comment :
    assemble {} "DW_OP_dup # é" = .ok [0x12] ∧
    assemble {} ("DW_OP_dup # é" ++ "\n" ++ "DW_OP_const1u(7)") = .ok [0x12, 0x08, 0x07] ∧
    (∃ d, assemble {} ("DW_OP_dup # é" ++ "\n" ++ "DW_OP_const1u(25, ") = .error d ∧
      d.kind = .parse ∧ d.text = "expected numeric literal, found end of input" ∧
      d.span = ⟨33, 32⟩) ∧
    ∃ d, assemble {} ("DW_OP_dup # é" ++ "\n" ++ "0x") = .error d ∧ d.kind = .lexical ∧
      d.text = "malformed numeric literal '0x': numeric literal has no digits" ∧
      d.span = ⟨15, 17⟩ := by
  have hok : assemble {} "DW_OP_dup # é" = .ok [0x12] := by decide +kernel
  have hcall : assemble {} "DW_OP_const1u(7)" = .ok [0x08, 0x07] := by decide +kernel
  have hlist : assemble {} "DW_OP_const1u(25, " =
      .error ⟨.grammar ⟨[.literal], none⟩, ⟨18, 17⟩, ⟨1, 19⟩⟩ := by decide +kernel
  have htokens : tokenize "DW_OP_const1u(25, " =
      .ok [⟨.operation ⟨"DW_OP_const1u", 0x08, [.unsigned .bits8]⟩, ⟨0, 13⟩⟩,
        ⟨.leftParen, ⟨13, 14⟩⟩, ⟨.number .decimal (.ofNat 25), ⟨14, 16⟩⟩, ⟨.comma, ⟨16, 17⟩⟩] := by
    decide +kernel
  have hmark : assemble {} "0x" =
      .error ⟨.lexical (.malformedNumber "0x" .empty), ⟨0, 2⟩, ⟨1, 1⟩⟩ := by decide +kernel
  have hlexical : tokenize "0x" = .error ⟨.malformedNumber "0x" .empty, ⟨0, 2⟩⟩ := by
    decide +kernel
  refine ⟨hok, (assemble_lines {} hok _).1 _ hcall, ?_, ?_⟩
  · exact (assemble_lines {} hok _).2.1 _ hlist (.inr ⟨_, _, _, htokens⟩)
  · exact (assemble_lines {} hok _).2.1 _ hmark (.inl ⟨_, hlexical⟩)

end DwarfExpr
