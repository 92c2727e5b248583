/-
  DwarfExpr/Proofs/Location.lean
  ==============================
  **Lines and columns are exact, and tell places apart.** A location is found by reading a text from
  the left, where CR LF is taken for one ending.  Here it is described by the text that was read, as
  a whole:

    * one more character moves a location on by a line or by a column, except an LF behind a CR,
      which belongs to an ending that has been counted (`after_concat`).  Everything else follows
      from this step, character by character;
    * the line counts the endings of the text and the column what stands behind the last of them
      (`after_first`);
    * a longer text has a later location, or the same if it is longer by such an LF only
      (`after_append_eq_iff`).

  Offsets come in through the characters that start before them.  Between characters, they are the
  lengths of the beginnings of the source.
-/
import DwarfExpr.Proofs.Diagnostics
import Mathlib.Data.List.DropRight
import Mathlib.Data.Prod.Lex

namespace DwarfExpr

namespace Location

/-! ### The order of locations -/

/-- Locations are in the order of their lines, and on one line in the order of their columns. -/
instance : PartialOrder Location :=
  PartialOrder.lift (fun l => toLex (l.line, l.column)) <| by
    rintro ⟨line, column⟩ ⟨line', column'⟩ h
    simpa using h

theorem le_iff {l m : Location} :
    l ≤ m ↔ l.line < m.line ∨ l.line = m.line ∧ l.column ≤ m.column :=
  Prod.Lex.toLex_le_toLex

theorem lt_nextLine (l : Location) : l < l.nextLine :=
  Prod.Lex.toLex_lt_toLex.2 (.inl (Nat.lt_succ_self l.line))

theorem lt_nextColumn (l : Location) : l < l.nextColumn :=
  Prod.Lex.toLex_lt_toLex.2 (.inr ⟨rfl, Nat.lt_succ_self l.column⟩)

/-! ### One more character -/

/-- The location behind one more character, which stands behind `previous`. -/
def advance (l : Location) (previous : Option Char) (c : Char) : Location :=
  if previous = some '\r' ∧ c = '\n' then l
  else if endsLine c then l.nextLine
  else l.nextColumn

theorem lt_advance {l : Location} {previous : Option Char} {c : Char}
    (h : ¬ (previous = some '\r' ∧ c = '\n')) : l < l.advance previous c := by
  rw [advance, if_neg h]
  split
  · exact l.lt_nextLine
  · exact l.lt_nextColumn

theorem le_advance (l : Location) (previous : Option Char) (c : Char) :
    l ≤ l.advance previous c := by
  by_cases h : previous = some '\r' ∧ c = '\n'
  · rw [advance, if_pos h]
  · exact le_of_lt (lt_advance h)

/-- **One more character.** -/
theorem after_concat (l : Location) (text : List Char) (c : Char) :
    l.after (text ++ [c]) = (l.after text).advance text.getLast? c := by
  fun_induction after l text with
  | case1 l =>
    rw [List.nil_append, after]
    · simp [after, advance]
    · rintro rest - ⟨⟩
  | case2 l text ih =>
    rw [List.cons_append, List.cons_append, after, ih]
    cases text with
    | nil => simp [advance]
    | cons d text => simp [List.getLast?_cons_cons]
  | case3 l d text hpair ih =>
    by_cases hend : text = [] ∧ d = '\r' ∧ c = '\n'
    · -- the ending that the CR began goes on, and nothing stands behind it
      obtain ⟨rfl, rfl, rfl⟩ := hend
      rfl
    · rw [List.cons_append, after, ih]
      · cases text with
        | nil => simp_all [advance]
        | cons d' text => simp [List.getLast?_cons_cons]
      · intro rest hd hrest
        cases text with
        | nil => simp_all
        | cons d' text =>
          simp only [List.cons_append, List.cons.injEq] at hrest
          exact hpair text hd (by rw [hrest.1])

/-! ### Endings and columns of a text -/

/-- How often an LF stands right behind a CR. -/
def pairs (text : List Char) : Nat := (text.zip text.tail).count ('\r', '\n')

/-- The number of line endings of a text: LF, CR and VT are one each, and CR LF is one, not two. -/
def lineEndings (text : List Char) : Nat :=
  text.count '\n' + text.count '\r' + text.count '\x0b' - pairs text

/-- What stands behind the last line ending of a text. -/
def lastLine (text : List Char) : List Char :=
  text.rtakeWhile fun c => c ≠ '\n' ∧ c ≠ '\r' ∧ c ≠ '\x0b'

theorem endsLine_iff {c : Char} :
    endsLine c = true ↔ c = '\n' ∨ c = '\r' ∨ c = '\x0b' := by
  simp [endsLine, or_assoc]

theorem pairs_concat (text : List Char) (c : Char) :
    pairs (text ++ [c]) =
      pairs text + if text.getLast? = some '\r' ∧ c = '\n' then 1 else 0 := by
  induction text with
  | nil => simp [pairs]
  | cons d text ih =>
    cases text with
    | nil => simp [pairs, List.count_singleton]
    | cons d' text =>
      rw [List.getLast?_cons_cons]
      simp only [pairs, List.cons_append, List.tail_cons, List.zip_cons_cons,
        List.count_cons] at ih ⊢
      omega

/-- Every pair has an LF of its own. -/
theorem pairs_le (text : List Char) : pairs text ≤ text.count '\n' := by
  induction text using List.reverseRecOn with
  | nil => simp [pairs]
  | append_singleton text c ih =>
    rw [pairs_concat, List.count_append]
    by_cases h : text.getLast? = some '\r' ∧ c = '\n'
    · rw [if_pos h, h.2, List.count_singleton_self]
      omega
    · rw [if_neg h]
      omega

theorem lineEndings_concat (text : List Char) (c : Char) :
    lineEndings (text ++ [c]) =
      if text.getLast? = some '\r' ∧ c = '\n' then lineEndings text
      else if endsLine c then lineEndings text + 1
      else lineEndings text := by
  have hpairs := pairs_le text
  rw [lineEndings, pairs_concat, lineEndings]
  simp only [List.count_append, List.count_singleton, beq_iff_eq]
  by_cases hend : endsLine c = true
  · rcases endsLine_iff.1 hend with rfl | rfl | rfl
    · by_cases hcr : text.getLast? = some '\r'
      · simp [hcr]
        omega
      · simp [hcr, hend]
        omega
    · simp [hend]
      omega
    · simp [hend]
      omega
  · have hother := endsLine_iff.not.1 hend
    simp only [not_or] at hother
    simp [hend, hother]

theorem lastLine_concat (text : List Char) (c : Char) :
    lastLine (text ++ [c]) = if endsLine c then [] else lastLine text ++ [c] := by
  rw [lastLine, lastLine, List.rtakeWhile_concat]
  by_cases hend : endsLine c = true
  · rw [if_pos hend, if_neg]
    rcases endsLine_iff.1 hend with rfl | rfl | rfl <;> simp
  · have hother := endsLine_iff.not.1 hend
    simp only [not_or] at hother
    rw [if_neg hend, if_pos]
    simp [hother]

theorem lineEndings_le (text : List Char) : lineEndings text ≤ text.length := by
  induction text using List.reverseRecOn with
  | nil => simp [lineEndings]
  | append_singleton text c ih =>
    rw [lineEndings_concat, List.length_append, List.length_singleton]
    split
    · omega
    · split <;> omega

theorem length_lastLine_le (text : List Char) : (lastLine text).length ≤ text.length :=
  (List.rtakeWhile_suffix _ _).length_le

/-- Behind a CR there is nothing on the last line. -/
theorem lastLine_of_getLast? {text : List Char} (h : text.getLast? = some '\r') :
    lastLine text = [] := by
  obtain ⟨before, rfl⟩ := List.getLast?_eq_some_iff.1 h
  rw [lastLine_concat, if_pos (by decide)]

/-- **The location of a text**, by its line endings and its last line. -/
theorem after_first (text : List Char) :
    first.after text = ⟨1 + lineEndings text, 1 + (lastLine text).length⟩ := by
  induction text using List.reverseRecOn with
  | nil => rfl
  | append_singleton text c ih =>
    rw [after_concat, ih, lineEndings_concat, lastLine_concat, advance]
    by_cases hpair : text.getLast? = some '\r' ∧ c = '\n'
    · obtain ⟨hcr, rfl⟩ := hpair
      simp [hcr, lastLine_of_getLast? hcr, endsLine]
    · rw [if_neg hpair, if_neg hpair]
      split
      · rfl
      · simp [nextColumn, Nat.add_assoc]

/-! ### Longer texts -/

theorem after_le_append (l : Location) (text more : List Char) :
    l.after text ≤ l.after (text ++ more) := by
  induction more using List.reverseRecOn with
  | nil => rw [List.append_nil]
  | append_singleton more c ih =>
    rw [← List.append_assoc, after_concat]
    exact le_trans ih (le_advance _ _ c)

/-- **A longer text has a later location**, unless it is longer by the LF of a CR LF only. -/
theorem after_append_eq_iff (l : Location) (text more : List Char) :
    l.after (text ++ more) = l.after text ↔
      more = [] ∨ more = ['\n'] ∧ text.getLast? = some '\r' := by
  constructor
  · induction more using List.reverseRecOn with
    | nil => exact fun _ => .inl rfl
    | append_singleton more c ih =>
      intro h
      rw [← List.append_assoc, after_concat] at h
      have hstep := le_advance (l.after (text ++ more)) (text ++ more).getLast? c
      rw [h] at hstep
      -- the location has not moved on, neither with this character nor before it
      have hsame : l.after (text ++ more) = l.after text :=
        le_antisymm hstep (after_le_append l text more)
      have hpair : (text ++ more).getLast? = some '\r' ∧ c = '\n' := by
        by_contra hnot
        have hlt := lt_advance (l := l.after (text ++ more)) hnot
        rw [h, hsame] at hlt
        exact lt_irrefl _ hlt
      obtain ⟨hcr, rfl⟩ := hpair
      rcases ih hsame with rfl | ⟨rfl, -⟩
      · rw [List.append_nil] at hcr
        exact .inr ⟨rfl, hcr⟩
      · rw [List.getLast?_concat] at hcr
        cases hcr
  · rintro (rfl | ⟨rfl, hcr⟩)
    · rw [List.append_nil]
    · rw [after_concat, advance, if_pos ⟨hcr, rfl⟩]

/-! ### Offsets -/

/-- The characters of a text, each with the byte offset where it starts; the text itself starts at
    `start`. -/
def starts (start : Nat) : List Char → List (Nat × Char)
  | [] => []
  | c :: text => (start, c) :: starts (start + c.utf8Size) text

/-- The characters of a text that start before an offset. -/
def startingBefore (offset : Nat) (text : List Char) : List Char :=
  ((starts 0 text).filter fun x => x.1 < offset).map Prod.snd

theorem le_of_mem_starts {start : Nat} {text : List Char} {x : Nat × Char}
    (h : x ∈ starts start text) : start ≤ x.1 := by
  induction text generalizing start with
  | nil => simp [starts] at h
  | cons c text ih =>
    rcases List.mem_cons.1 h with rfl | h
    · exact le_refl _
    · exact le_trans (Nat.le_add_right _ _) (ih h)

theorem before_sub_eq (offset start : Nat) (text : List Char) :
    before (offset - start) text =
      ((starts start text).filter fun x => x.1 < offset).map Prod.snd := by
  induction text generalizing start with
  | nil => rfl
  | cons c text ih =>
    by_cases h : start < offset
    · have hpos : offset - start ≠ 0 := by omega
      rw [before, if_neg hpos, Nat.sub_sub, ih, starts, List.filter_cons_of_pos (by simpa using h),
        List.map_cons]
    · have hnone : (starts start (c :: text)).filter (fun x => x.1 < offset) = [] := by
        rw [List.filter_eq_nil_iff]
        intro x hx
        have hle := le_of_mem_starts hx
        simp only [decide_eq_true_eq]
        omega
      rw [hnone, before, if_pos (by omega)]
      rfl

theorem before_eq (offset : Nat) (text : List Char) :
    before offset text = startingBefore offset text :=
  before_sub_eq offset 0 text

theorem exists_before_eq_append {p q : Nat} (h : p ≤ q) (text : List Char) :
    ∃ more, before q text = before p text ++ more := by
  induction text generalizing p q with
  | nil => exact ⟨[], rfl⟩
  | cons c text ih =>
    by_cases hp : p = 0
    · have hnone : before p (c :: text) = [] := by rw [before, if_pos hp]
      exact ⟨before q (c :: text), by rw [hnone, List.nil_append]⟩
    · obtain ⟨more, hmore⟩ := @ih (p - c.utf8Size) (q - c.utf8Size) (by omega)
      refine ⟨more, ?_⟩
      rw [before, before, if_neg hp, if_neg (by omega), hmore, List.cons_append]

theorem before_of_le {offset : Nat} {text : List Char} (h : byteLength text ≤ offset) :
    before offset text = text := by
  induction text generalizing offset with
  | nil => rfl
  | cons c text ih =>
    have hpos := c.utf8Size_pos
    rw [byteLength_cons] at h
    rw [before, if_neg (by omega), ih (by omega)]

theorem length_before_le (offset : Nat) (text : List Char) :
    (before offset text).length ≤ text.length := by
  obtain ⟨more, hmore⟩ := exists_before_eq_append (Nat.le_max_left offset (byteLength text)) text
  rw [before_of_le (Nat.le_max_right _ _)] at hmore
  have hlength := congrArg List.length hmore
  rw [List.length_append] at hlength
  omega

/-- The offset behind the beginning of a source has the location of that text. -/
theorem ofOffset_byteLength {source : String} {text rest : List Char}
    (h : source.toList = text ++ rest) : ofOffset source (byteLength text) = first.after text := by
  rw [ofOffset, h, before_append (le_refl _), before_of_le (le_refl _)]

theorem ofOffset_eq (source : String) (p : Nat) :
    ofOffset source p =
      ⟨1 + lineEndings (startingBefore p source.toList),
        1 + (lastLine (startingBefore p source.toList)).length⟩ := by
  rw [ofOffset, after_first, before_eq]

theorem monotone_ofOffset (source : String) : Monotone (ofOffset source) := by
  intro p q h
  obtain ⟨more, hmore⟩ := exists_before_eq_append h source.toList
  rw [ofOffset, ofOffset, hmore]
  exact after_le_append _ _ _

theorem ofOffset_lt {source : String} {bound : Nat} (h : source.length + 1 < bound) (p : Nat) :
    (ofOffset source p).line < bound ∧ (ofOffset source p).column < bound := by
  have hshort := length_before_le p source.toList
  rw [before_eq, String.length_toList] at hshort
  have hlines := lineEndings_le (startingBefore p source.toList)
  have hcolumns := length_lastLine_le (startingBefore p source.toList)
  rw [ofOffset_eq]
  constructor <;> dsimp only <;> omega

/-! ### Offsets between characters -/

theorem exists_of_isValid {source : String} {p : Nat}
    (h : String.Pos.Raw.IsValid source ⟨p⟩) :
    ∃ text rest, source.toList = text ++ rest ∧ p = byteLength text := by
  obtain ⟨text, rest, rfl, hp⟩ := String.Pos.Raw.isValid_iff_exists_append.1 h
  refine ⟨text.toList, rest.toList, String.toList_append, ?_⟩
  rw [byteLength_toList]
  exact congrArg String.Pos.Raw.byteIdx hp

/-- Of two offsets between characters, the later one has more text before it. -/
theorem exists_of_isValid_of_lt {source : String} {p q : Nat} (h : p < q)
    (hp : String.Pos.Raw.IsValid source ⟨p⟩) (hq : String.Pos.Raw.IsValid source ⟨q⟩) :
    ∃ text more rest, source.toList = text ++ (more ++ rest) ∧ more ≠ [] ∧
      p = byteLength text ∧ q = byteLength (text ++ more) := by
  obtain ⟨text, rest, htext, rfl⟩ := exists_of_isValid hp
  obtain ⟨longer, rest', hlonger, rfl⟩ := exists_of_isValid hq
  rw [htext] at hlonger
  rcases List.append_eq_append_iff.1 hlonger with ⟨more, rfl, rfl⟩ | ⟨less, rfl, -⟩
  · refine ⟨text, more, rest', htext, ?_, rfl, rfl⟩
    rintro rfl
    rw [List.append_nil] at h
    exact lt_irrefl _ h
  · rw [byteLength_append] at h
    omega

/-- What stands from `p` to `q` is the LF of a CR LF. -/
def InPair (source : String) (p q : Nat) : Prop :=
  ∃ text rest, source.toList = text ++ '\r' :: '\n' :: rest ∧
    p = byteLength (text ++ ['\r']) ∧ q = byteLength (text ++ ['\r', '\n'])

/-- The CR has been counted, and the LF behind it does not move the location on. -/
theorem ofOffset_eq_of_inPair {source : String} {p q : Nat} (h : InPair source p q) :
    ofOffset source p = ofOffset source q := by
  obtain ⟨text, rest, hsource, rfl, rfl⟩ := h
  have hcr : source.toList = (text ++ ['\r']) ++ '\n' :: rest := by simp [hsource]
  have hlf : source.toList = (text ++ ['\r', '\n']) ++ rest := by simp [hsource]
  have hpair := after_append_eq_iff first (text ++ ['\r']) ['\n']
  rw [List.append_assoc] at hpair
  rw [ofOffset_byteLength hcr, ofOffset_byteLength hlf]
  exact (hpair.2 (.inr ⟨rfl, List.getLast?_concat⟩)).symm

theorem inPair_of_ofOffset_eq {source : String} {p q : Nat} (h : p < q)
    (hp : String.Pos.Raw.IsValid source ⟨p⟩) (hq : String.Pos.Raw.IsValid source ⟨q⟩)
    (hsame : ofOffset source p = ofOffset source q) : InPair source p q := by
  obtain ⟨text, more, rest, hsource, hne, rfl, rfl⟩ := exists_of_isValid_of_lt h hp hq
  have hlonger : source.toList = (text ++ more) ++ rest := by rw [hsource, List.append_assoc]
  rw [ofOffset_byteLength hsource, ofOffset_byteLength hlonger] at hsame
  rcases (after_append_eq_iff first text more).1 hsame.symm with rfl | ⟨rfl, hcr⟩
  · exact absurd rfl hne
  · obtain ⟨line, rfl⟩ := List.getLast?_eq_some_iff.1 hcr
    exact ⟨line, rest, by simp [hsource], rfl, by simp⟩

/-- **Locations are exact and tell places apart.** The line and the column of an offset count the
    line endings before it and the characters behind the last of these.  A later offset has no
    earlier location.  Two offsets between characters have the same location exactly if what stands
    between them is the LF of a CR LF.  In a source of fewer than `2 ^ 32 - 1` characters, lines and
    columns are 32-bit words. -/
theorem ofOffset_exact (source : String) :
    (∀ p, ofOffset source p =
      ⟨1 + lineEndings (startingBefore p source.toList),
        1 + (lastLine (startingBefore p source.toList)).length⟩) ∧
    (∀ p q, p ≤ q → (ofOffset source p).line < (ofOffset source q).line ∨
      (ofOffset source p).line = (ofOffset source q).line ∧
        (ofOffset source p).column ≤ (ofOffset source q).column) ∧
    (∀ p q, p < q → String.Pos.Raw.IsValid source ⟨p⟩ → String.Pos.Raw.IsValid source ⟨q⟩ →
      (ofOffset source p = ofOffset source q ↔ InPair source p q)) ∧
    (source.length < 2 ^ 32 - 1 →
      ∀ p, (ofOffset source p).line < 2 ^ 32 ∧ (ofOffset source p).column < 2 ^ 32) := by
  refine ⟨ofOffset_eq source, ?_, ?_, ?_⟩
  · intro p q h
    exact le_iff.1 (monotone_ofOffset source h)
  · intro p q h hp hq
    exact ⟨inPair_of_ofOffset_eq h hp hq, ofOffset_eq_of_inPair⟩
  · intro hlength p
    exact ofOffset_lt (by omega) p

/-- A character of two bytes, a CR LF, and a character behind it.  The offsets before and behind the
    LF have one location, on the line behind that of the CR. -/
theorem ofOffset_exact_pair :
    3 < 4 ∧ String.Pos.Raw.IsValid "é\r\nx" ⟨3⟩ ∧ String.Pos.Raw.IsValid "é\r\nx" ⟨4⟩ ∧
      ofOffset "é\r\nx" 3 = ofOffset "é\r\nx" 4 ∧
      (ofOffset "é\r\nx" 2).line < (ofOffset "é\r\nx" 3).line ∧
      "é\r\nx".length < 2 ^ 32 - 1 ∧ (ofOffset "é\r\nx" 5).column < 2 ^ 32 := by
  obtain ⟨-, hmono, hiff, hword⟩ := ofOffset_exact "é\r\nx"
  have hthree : String.Pos.Raw.IsValid "é\r\nx" ⟨3⟩ :=
    @isValid_byteLength "é\r\nx" ['é', '\r'] ['\n', 'x'] (by decide +kernel)
  have hfour : String.Pos.Raw.IsValid "é\r\nx" ⟨4⟩ :=
    @isValid_byteLength "é\r\nx" ['é', '\r', '\n'] ['x'] (by decide +kernel)
  have hpair : InPair "é\r\nx" 3 4 := ⟨['é'], ['x'], by decide +kernel, rfl, rfl⟩
  have hshort : "é\r\nx".length < 2 ^ 32 - 1 := by decide +kernel
  have hline : (ofOffset "é\r\nx" 2).line ≠ (ofOffset "é\r\nx" 3).line := by decide +kernel
  exact ⟨by decide, hthree, hfour, (hiff 3 4 (by decide) hthree hfour).2 hpair,
    (hmono 2 3 (by decide)).resolve_right fun h => hline h.1, hshort, (hword hshort 5).2⟩

end Location

end DwarfExpr
