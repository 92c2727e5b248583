/-
  DwarfExpr/Proofs/Diagnostics.lean
  =================================
  **A diagnostic points at text of the source.** Diagnostics are made in many places: where the
  source is cut into tokens, where the tokens break off, and where a call or an open list is
  encoded.  Their spans are handed on from the tokens, and so they should all be places where
  something stands:

    * a lexical error is at a piece of the source, behind all tokens that were read before it
      (`exists_piece_of_tokenize_eq_error`);
    * any other is at one of the tokens, or at the end of the source (`fault_at_token_or_end`).

  There is one exception, and it is the only one (`assemble_error_points_iff`).  If a list is still
  open when the input ends, and blanks or a comment stand behind the last token, then the span
  begins at the end of the source and stops at the end of that token: it runs backwards.
-/
import DwarfExpr.Proofs.Concatenation
import DwarfExpr.Proofs.Spelling
import DwarfExpr.Proofs.SyntaxError

namespace DwarfExpr

/-! ### Offsets between characters -/

theorem isValid_byteLength {source : String} {before after : List Char}
    (h : source.toList = before ++ after) :
    String.Pos.Raw.IsValid source ⟨byteLength before⟩ := by
  rw [String.Pos.Raw.isValid_iff_exists_append]
  refine ⟨String.ofList before, String.ofList after, ?_, ?_⟩
  · rw [← String.ofList_append, ← h, String.ofList_toList]
  · rw [← utf8ByteSize_ofList]
    rfl

theorem byteLength_toList (source : String) : byteLength source.toList = source.utf8ByteSize := by
  rw [← utf8ByteSize_ofList, String.ofList_toList]

/-- The span does not run backwards, and its ends are between characters of the source. -/
structure Span.Within (source : String) (s : Span) : Prop where
  le : s.start ≤ s.stop
  le_size : s.stop ≤ source.utf8ByteSize
  start : String.Pos.Raw.IsValid source ⟨s.start⟩
  stop : String.Pos.Raw.IsValid source ⟨s.stop⟩

theorem within_endOfSource (source : String) : (endOfSource source).Within source := by
  have hend : String.Pos.Raw.IsValid source ⟨source.utf8ByteSize⟩ := by
    rw [← byteLength_toList]
    exact isValid_byteLength (List.append_nil _).symm
  exact ⟨le_refl _, le_refl _, hend, hend⟩

/-- A piece of a source is within it. -/
theorem within_of_piece {source : String} {before after : List Piece} {p : Piece} {s : Span}
    (h : source.toList = (before ++ p :: after).flatMap Piece.text)
    (hstart : s.start = byteLength (before.flatMap Piece.text))
    (hstop : s.stop = s.start + byteLength p.text) : s.Within source := by
  have hjoined : source.toList =
      (before.flatMap Piece.text ++ p.text) ++ after.flatMap Piece.text := by
    rw [h, List.flatMap_append, List.flatMap_cons, List.append_assoc]
  have hstop' : s.stop = byteLength (before.flatMap Piece.text ++ p.text) := by
    rw [hstop, hstart, byteLength_append]
  constructor
  · omega
  · rw [hstop', ← byteLength_toList, hjoined, byteLength_append _ (after.flatMap Piece.text)]
    exact Nat.le_add_right _ _
  · rw [hstart]
    apply isValid_byteLength
    rw [hjoined, List.append_assoc]
  · rw [hstop']
    exact isValid_byteLength hjoined

/-! ### Where the tokens of a source stand -/

theorem Piece.text_ne_nil_of_mem {text : List Char} {p : Piece} (h : p ∈ pieces text) :
    p.text ≠ [] := by
  fun_induction pieces text with
  | case1 => simp at h
  | case2 c text ih =>
    rcases List.mem_cons.1 h with rfl | h
    · exact first_text_ne_nil c text
    · exact ih h

namespace Token

theorem Reads.exists_piece {start : Nat} {ps : List Piece} {tokens : List (Spanned Token)}
    (h : Reads start ps tokens) {x : Spanned Token} (hx : x ∈ tokens) :
    ∃ before p after, ps = before ++ p :: after ∧
      x.span.start = start + byteLength (before.flatMap Piece.text) ∧
      x.span.stop = x.span.start + byteLength p.text := by
  induction h with
  | nil start => simp at hx
  | @skip start p ps tokens hp htail ih =>
    obtain ⟨before, q, after, rfl, hstart, hstop⟩ := ih hx
    refine ⟨p :: before, q, after, rfl, ?_, hstop⟩
    rw [hstart, List.flatMap_cons, byteLength_append, Nat.add_assoc]
  | @token start p ps token tokens hp htail ih =>
    rcases List.mem_cons.1 hx with rfl | hx
    · exact ⟨[], p, ps, rfl, rfl, rfl⟩
    · obtain ⟨before, q, after, rfl, hstart, hstop⟩ := ih hx
      refine ⟨p :: before, q, after, rfl, ?_, hstop⟩
      rw [hstart, List.flatMap_cons, byteLength_append, Nat.add_assoc]

/-- The tokens of pieces up to the first that is none. -/
def readUpTo (start : Nat) : List Piece → List (Spanned Token)
  | [] => []
  | p :: ps =>
    let span : Span := ⟨start, start + byteLength p.text⟩
    match ofPiece p with
    | .error _ => []
    | .ok none => readUpTo span.stop ps
    | .ok (some token) => ⟨token, span⟩ :: readUpTo span.stop ps

theorem readUpTo_append {start : Nat} {before : List Piece} {tokens : List (Spanned Token)}
    (h : ofPieces start before = .ok tokens) (after : List Piece) :
    readUpTo start (before ++ after) =
      tokens ++ readUpTo (start + byteLength (before.flatMap Piece.text)) after := by
  induction before generalizing start tokens with
  | nil =>
    obtain rfl : [] = tokens := by simpa [ofPieces] using h
    rfl
  | cons p ps ih =>
    rw [List.flatMap_cons, byteLength_append, ← Nat.add_assoc]
    rcases ofPieces_cons_iff.1 h with ⟨hp, htail⟩ | ⟨token, rest, hp, htail, rfl⟩
    · rw [List.cons_append, readUpTo, hp]
      exact ih htail
    · rw [List.cons_append, readUpTo, hp, List.cons_append, ← ih htail]

end Token

/-- The tokens of a source that are read before the first lexical error, or all of them. -/
def tokensRead (source : String) : List (Spanned Token) :=
  Token.readUpTo 0 (Piece.pieces source.toList)

theorem within_of_tokenize {source : String} {tokens : List (Spanned Token)}
    (h : tokenize source = .ok tokens) {x : Spanned Token} (hx : x ∈ tokens) :
    x.span.Within source := by
  obtain ⟨ps, hcuts, -, hreads⟩ := tokenize_eq_ok_iff.1 h
  obtain ⟨before, p, after, rfl, hstart, hstop⟩ := hreads.exists_piece hx
  rw [Nat.zero_add] at hstart
  have hjoined := hcuts.truncate.2
  rw [List.append_nil] at hjoined
  exact within_of_piece hjoined hstart hstop

/-- **A lexical error is at a piece of the source**, behind the tokens that were read. -/
theorem exists_piece_of_tokenize_eq_error {source : String} {fault : Spanned LexicalFault}
    (h : tokenize source = .error fault) :
    fault.span.Within source ∧ fault.span.start < fault.span.stop ∧
      ∀ x ∈ tokensRead source, x.span.stop ≤ fault.span.start := by
  obtain ⟨before, p, after, tokens, hpieces, hok, hp, hstart, hstop⟩ :=
    Token.exists_of_ofPieces_eq_error h
  rw [Nat.zero_add] at hstart
  have hjoined : source.toList = (before ++ p :: after).flatMap Piece.text := by
    rw [← hpieces, Piece.flatMap_pieces]
  refine ⟨within_of_piece hjoined hstart hstop, ?_, ?_⟩
  · have hmem : p ∈ Piece.pieces source.toList := by simp [hpieces]
    have hpos := byteLength_pos (Piece.text_ne_nil_of_mem hmem)
    omega
  · have hread : tokensRead source = tokens := by
      rw [tokensRead, hpieces, Token.readUpTo_append hok, Token.readUpTo, hp, List.append_nil]
    -- the pieces before the error are lexemes, so that their tokens lie between them
    have hmatched := (Piece.cuts_of_pieces hpieces (Token.ne_stray_of_ofPieces hok)).matched
    have hreads := ((Token.ofPieces_eq_ok_iff hmatched).1 hok).2
    intro x hx
    rw [hread] at hx
    have hbounds := (hreads.spans hmatched).1 x hx
    rw [hstart]
    omega

/-! ### Where the other errors are -/

section Fault

variable [Host] {t : Target} {source : String} {tokens : List (Spanned Token)}
  {fault : Spanned Cause}

theorem span_of_foundEnd {eos ending : Span} {read : List Call × Option Break}
    (h : firstFault t eos ending read = some fault) (hend : fault.value.foundEnd = true) :
    fault.span = ending := by
  unfold firstFault at h
  split at h
  · obtain rfl := Option.some.inj h
    simp [Spanned.cause, Cause.foundEnd] at hend
  · obtain ⟨place, -, rfl⟩ := Option.map_eq_some_iff.1 h
    rw [Break.fault] at hend ⊢
    split at hend
    · simp [Spanned.cause, Cause.foundEnd] at hend
    · have hfound : place.found = none := by
        simpa [Cause.foundEnd, Break.syntaxFault] using hend
      simp [Break.syntaxFault, Break.span, hfound]

/-- **Any other error is at one of the tokens, or at the end of the source.** -/
theorem fault_at_token_or_end (htokens : tokenize source = .ok tokens)
    (hfault : firstFault t (endOfSource source) (endOfInput source.utf8ByteSize tokens)
      (State.between.run tokens) = some fault) :
    (fault.value.foundEnd = false ∧ ∃ x ∈ tokens, fault.span = x.span) ∨
      fault.span = if fault.value.foundEnd then endOfInput source.utf8ByteSize tokens
        else endOfSource source := by
  have hclean : State.between.Faultless t := State.faultless_of_openCall_eq_none rfl
  rcases hclean.run tokens with ⟨before, x, after, cause, rfl, hcause⟩ | hend
  · left
    have hrefused := hcause (endOfSource source)
      (endOfInput source.utf8ByteSize (before ++ x :: after)) after
    rw [hfault, Option.map_some, Option.some.injEq] at hrefused
    have hspan : fault.span = x.span := congrArg Spanned.span hrefused
    refine ⟨?_, x, by simp, hspan⟩
    -- the end of the input lies behind every token
    rw [← Bool.not_eq_true]
    intro hfound
    have hx := (spans_of_tokenize htokens).1 x (by simp)
    have hstart := congrArg Span.start (span_of_foundEnd hfault hfound)
    rw [hspan, start_endOfInput] at hstart
    omega
  · exact .inr (hend _ _ fault hfault)

end Fault

/-! ### Every diagnostic -/

namespace Diagnostic

/-- The diagnostic points at text of the source.  A lexical error is what keeps the source from
    having tokens, at a text behind those that were read; any other error is at one token or at the
    end of the source. -/
structure Points (source : String) (d : Diagnostic) : Prop where
  lexical_iff : d.kind = .lexical ↔ ∃ fault, tokenize source = .error fault
  within : d.span.Within source
  lexical : d.kind = .lexical →
    d.span.start < d.span.stop ∧ ∀ x ∈ tokensRead source, x.span.stop ≤ d.span.start
  parse : d.kind = .parse → ∃ tokens, tokenize source = .ok tokens ∧
    ((tokens.map (·.span)).count d.span = 1 ∨ d.span = endOfSource source)
  location : d.location = Location.ofOffset source d.span.start

/-- The input ends where it may not, and there is more source behind its last token. -/
structure EndsBehind (source : String) (last : Spanned Token) (d : Diagnostic) : Prop where
  foundEnd : d.cause.foundEnd = true
  isLast : ∃ tokens, tokenize source = .ok tokens ∧ tokens.getLast? = some last
  more : last.span.stop < source.utf8ByteSize

end Diagnostic

theorem points_of_tokenize_eq_error {source : String} {fault : Spanned LexicalFault}
    (h : tokenize source = .error fault) :
    (Diagnostic.ofSource source (.lexical fault.value) fault.span).Points source := by
  obtain ⟨hwithin, hlt, hread⟩ := exists_piece_of_tokenize_eq_error h
  exact ⟨iff_of_true rfl ⟨fault, h⟩, hwithin, fun _ => ⟨hlt, hread⟩, by rintro ⟨⟩, rfl⟩

/-- What is left to say of an error in the tokens: that its span is that of one token or of the end
    of the source. -/
theorem points_of_span {source : String} {tokens : List (Spanned Token)}
    (htokens : tokenize source = .ok tokens) {d : Diagnostic} (hkind : d.kind = .parse)
    (hlocation : d.location = Location.ofOffset source d.span.start)
    (hspan : (∃ x ∈ tokens, d.span = x.span) ∨ d.span = endOfSource source) :
    d.Points source := by
  have hlexical : d.kind ≠ .lexical := by
    rw [hkind]
    rintro ⟨⟩
  refine ⟨iff_of_false hlexical (by simp [htokens]), ?_, fun h => absurd h hlexical, ?_, hlocation⟩
  · rcases hspan with ⟨x, hx, hspan⟩ | hspan
    · rw [hspan]
      exact within_of_tokenize htokens hx
    · rw [hspan]
      exact within_endOfSource source
  · intro _
    refine ⟨tokens, htokens, hspan.imp_left ?_⟩
    rintro ⟨x, hx, hspan⟩
    rw [hspan]
    exact List.count_eq_one_of_mem (nodup_spans htokens) (List.mem_map_of_mem hx)

section Fault

variable [Host] {t : Target} {source : String} {tokens : List (Spanned Token)}
  {fault : Spanned Cause}

theorem span_of_endsBehind (htokens : tokenize source = .ok tokens)
    (hfault : firstFault t (endOfSource source) (endOfInput source.utf8ByteSize tokens)
      (State.between.run tokens) = some fault) {last : Spanned Token}
    (h : (Diagnostic.ofSource source fault.value fault.span).EndsBehind source last) :
    last ∈ tokens ∧ fault.span = ⟨source.utf8ByteSize, last.span.stop⟩ := by
  obtain ⟨hend, ⟨tokens', htokens', hlast⟩, -⟩ := h
  obtain rfl : tokens = tokens' := by simpa [htokens] using htokens'
  refine ⟨List.mem_of_getLast? hlast, ?_⟩
  rw [span_of_foundEnd hfault hend, endOfInput, hlast]

theorem span_of_not_endsBehind (htokens : tokenize source = .ok tokens)
    (hfault : firstFault t (endOfSource source) (endOfInput source.utf8ByteSize tokens)
      (State.between.run tokens) = some fault)
    (h : ¬ ∃ last, (Diagnostic.ofSource source fault.value fault.span).EndsBehind source last) :
    (∃ x ∈ tokens, fault.span = x.span) ∨ fault.span = endOfSource source := by
  rcases fault_at_token_or_end htokens hfault with ⟨-, hx⟩ | hspan
  · exact .inl hx
  · right
    cases hend : fault.value.foundEnd with
    | false => rwa [hend] at hspan
    | true =>
      rw [hend, if_pos rfl] at hspan
      rw [hspan]
      apply endOfInput_eq_iff.2
      intro last hlast
      have hle := ((spans_of_tokenize htokens).1 last (List.mem_of_getLast? hlast)).2
      by_contra hne
      exact h ⟨last, hend, ⟨tokens, htokens, hlast⟩, Nat.lt_of_le_of_ne hle hne⟩

end Fault

/-- **A diagnostic points at text of the source**, unless the input ends where it may not and there
    is more source behind its last token.  The span begins at the end of the source then and stops
    at the end of that token, so that it runs backwards; it is between characters all the same, and
    the line and column are those of the end of the source. -/
theorem assemble_error_points_iff [Host] {t : Target} {source : String} {d : Diagnostic}
    (h : assemble t source = .error d) :
    (d.Points source ↔ ¬ ∃ last, d.EndsBehind source last) ∧
    ∀ last, d.EndsBehind source last →
      d.kind = .parse ∧ d.span = ⟨source.utf8ByteSize, last.span.stop⟩ ∧
        String.Pos.Raw.IsValid source ⟨last.span.stop⟩ ∧
        d.location = Location.ofOffset source source.utf8ByteSize := by
  cases htokens : tokenize source with
  | error fault =>
    rw [assemble_of_tokenize_eq_error htokens, Except.error.injEq] at h
    subst h
    have hnot : ∀ last, ¬ (Diagnostic.ofSource source (.lexical fault.value) fault.span).EndsBehind
        source last := by
      rintro last ⟨hend, -, -⟩
      cases hend
    refine ⟨iff_of_true (points_of_tokenize_eq_error htokens) ?_, ?_⟩
    · rintro ⟨last, hlast⟩
      exact hnot last hlast
    · intro last hlast
      exact absurd hlast (hnot last)
  | ok tokens =>
    obtain ⟨fault, hfault, rfl⟩ := (assemble_eq_error_iff htokens).1 h
    have hkind := kind_of_firstFault hfault source
    refine ⟨⟨?_, ?_⟩, ?_⟩
    · rintro hpoints ⟨last, hbehind⟩
      have hle : fault.span.start ≤ fault.span.stop := hpoints.within.le
      rw [(span_of_endsBehind htokens hfault hbehind).2] at hle
      exact absurd hbehind.more (Nat.not_lt.2 hle)
    · intro hnot
      exact points_of_span htokens hkind rfl (span_of_not_endsBehind htokens hfault hnot)
    · intro last hbehind
      obtain ⟨hmem, hspan⟩ := span_of_endsBehind htokens hfault hbehind
      refine ⟨hkind, hspan, (within_of_tokenize htokens hmem).stop, ?_⟩
      simp only [Diagnostic.ofSource, hspan]

/-- A stray character of two bytes, behind a token. -/
theorem assemble_error_points_iff_stray :
    ∃ d, assemble {} "DW_OP_lit1 é" = .error d ∧ d.span = ⟨11, 13⟩ ∧ d.Points "DW_OP_lit1 é" := by
  have herror : assemble {} "DW_OP_lit1 é" =
      .error ⟨.lexical (.strayCharacter 'é'), ⟨11, 13⟩, ⟨1, 12⟩⟩ := by
    decide +kernel
  refine ⟨_, herror, rfl, (assemble_error_points_iff herror).1.2 ?_⟩
  rintro ⟨last, hend, -, -⟩
  cases hend

/-- A list is open when the input ends, and a blank stands behind its parenthesis. -/
theorem assemble_error_points_backwards :
    ∃ d, assemble {} "DW_OP_const1u( " = .error d ∧ d.span = ⟨15, 14⟩ ∧
      ¬ d.Points "DW_OP_const1u( " := by
  have herror : assemble {} "DW_OP_const1u( " =
      .error ⟨.grammar ⟨[.rightParen, .literal], none⟩, ⟨15, 14⟩, ⟨1, 16⟩⟩ := by
    decide +kernel
  refine ⟨_, herror, rfl, ?_⟩
  intro hpoints
  exact absurd hpoints.within.le (by decide)

end DwarfExpr
