-- A report shows the line that a fault is on, with a caret under the fault. The caret's own line
-- starts with a gutter of a fixed width, and the line's number needs no more up to line 9999.
import TagDialect.Report
import TagDialect.Proofs.FailurePlaces
import TagDialect.Proofs.RelaidTexts
import TagDialect.Proofs.SourceLines
import TagDialect.Proofs.UnclosedQuotes

namespace TagDialect

/-! ## The place of a fault -/

/-- The line and the column of the fault, when it is in the text. -/
def Fault.lineColumn? : Fault → Option (Nat × Nat)
  | .lexical e => some (e.line, e.column)
  | .grammatical e => some (e.line, e.column)
  | .outside _ => none

/-- The fault is behind a part of the text, and says on which line and column. -/
structure Fault.Behind (fault : Fault) (before : List Char) : Prop where
  offset : fault.offset? = some (byteLength before)
  lineColumn : fault.lineColumn? =
    some ((Place.first.past before).line, (Place.first.past before).column)

theorem head?_ne_of_visible {w : Lexeme} {rest : List Char} (hv : w.isVisible = true)
    (h : w = .finish ∧ rest = [] ∨
      firstPiece (w.text.toList ++ rest) = .ok (w.kind, w.text.toList.length)) :
    (w.text.toList ++ rest).head? ≠ some '\n' := by
  rcases h with ⟨rfl, rfl⟩ | hpiece
  · simp [Lexeme.finish]
  · intro hhead
    obtain ⟨cs, hcs⟩ := List.head?_eq_some_iff.mp hhead
    -- a line feed is a blank, and a piece of blanks is hidden
    rw [hcs, firstPiece, pieceAt, if_pos (by decide), Except.ok.injEq, Prod.mk.injEq] at hpiece
    rw [Lexeme.isVisible, ← hpiece.1] at hv
    exact absurd hv (by decide)

/-- A fault is behind a part of its text, and no line feed comes right behind that part. -/
theorem place_of_parse {text : String} {fault : Fault} (h : parse text = .error fault) :
    ∃ before rest, text.toList = before ++ rest ∧ rest.head? ≠ some '\n' ∧ fault.Behind before := by
  rcases fault_of_parse h with ⟨e, rfl, htokens⟩ | ⟨e, tokens, rfl, htokens⟩
  · obtain ⟨before, quote, rest, u, hcut, hunclosed, rfl⟩ := unclosed_of_tokenize htokens
    refine ⟨before, quote :: rest, hcut, ?_, congrArg some (Place.offset_first before), rfl⟩
    rcases hunclosed.kind with (rfl | rfl) | rfl <;> simp
  · obtain ⟨t, ht, hoffset, hline, hcolumn, -⟩ := token_of_grammatical htokens h
    obtain ⟨before, rest, hcut, hspan, hvisible, hpiece⟩ := cut_of_token htokens ht
    have hhead := head?_ne_of_visible (w := t.lexeme) hvisible hpiece
    refine ⟨before, t.text.toList ++ rest, hcut, hhead, ?_, ?_⟩
    · rw [Fault.offset?, hoffset, hspan]
      exact congrArg some (Place.offset_first before)
    · rw [Fault.lineColumn?, hline, hcolumn, hspan]
      rfl

/-! ## The parts of a report -/

/-- A part of one line, with no caret in it. -/
def Clear (s : String) : Prop := ∀ c ∈ s.toList, c ≠ '\n' ∧ c ≠ '^'

theorem Clear.append {s t : String} (hs : Clear s) (ht : Clear t) : Clear (s ++ t) := by
  intro c hc
  rw [String.toList_append] at hc
  exact (List.mem_append.mp hc).elim (hs c) (ht c)

theorem clear_blanks (n : Nat) : Clear (String.ofList (List.replicate n ' ')) := by
  intro c hc
  rw [String.toList_ofList] at hc
  rw [List.eq_of_mem_replicate hc]
  decide

theorem clear_number (n : Nat) : Clear (toString n) := by
  intro c hc
  rw [Nat.toString_eq_repr, Nat.toList_repr] at hc
  have hdigit := Nat.isDigit_of_mem_toDigits (by omega) (Nat.le_refl 10) hc
  constructor
  · rintro rfl
    exact absurd hdigit (by decide)
  · rintro rfl
    exact absurd hdigit (by decide)

theorem length_padLeft (width : Nat) (s : String) :
    (padLeft width s).length = max width s.length := by
  rw [padLeft, String.length_append, String.length_ofList, List.length_replicate]
  omega

/-- What comes before the source line in a report. -/
def numberGutter (line : Nat) : String := padLeft 4 (toString line) ++ " | "

/-- What comes before the caret in a report, with so many characters on the fault's left. -/
def caretGutter (width : Nat) : String :=
  "     | " ++ String.ofList (List.replicate width ' ')

theorem clear_numberGutter (line : Nat) : Clear (numberGutter line) :=
  ((clear_blanks _).append (clear_number line)).append (by simp [Clear])

theorem clear_caretGutter (width : Nat) : Clear (caretGutter width) :=
  Clear.append (by simp [Clear]) (clear_blanks width)

theorem length_numberGutter (line : Nat) :
    (numberGutter line).length = max 4 (toString line).length + 3 := by
  rw [numberGutter, String.length_append, length_padLeft]
  rfl

theorem length_caretGutter (width : Nat) : (caretGutter width).length = 7 + width := by
  have hbar : "     | ".length = 7 := rfl
  rw [caretGutter, String.length_append, hbar, String.length_ofList, List.length_replicate]

/-- Up to line 9999 the two gutters are of one width. -/
theorem length_numberGutter_eq_seven (line : Nat) :
    (numberGutter line).length = 7 ↔ line ≤ 9999 := by
  have hdigits : (toString line).length ≤ 4 ↔ line < 10 ^ 4 := by
    rw [Nat.toString_eq_repr]
    exact Nat.length_repr_le_iff (by decide)
  rw [length_numberGutter]
  omega

/-- A report of three lines: the fault's line and column, a source line behind a gutter, and the
first caret of the third line behind a mark. -/
structure Fault.Reported (fault : Fault) (report : String) (line column : Nat)
    (source : List Char) (gutter mark : String) : Prop where
  lines : report = fault.heading ++ " at " ++ toString line ++ ":" ++ toString column ++ "\n" ++
    (gutter ++ String.ofList source) ++ "\n" ++ (mark ++ "^ " ++ fault.detail)
  clear_gutter : Clear gutter
  clear_mark : Clear mark

/-- The report on a fault shows its place and its source line. -/
theorem reported_caretReport {text : String} {fault : Fault} {above left right below : List Char}
    (hline : LineAt text.toList above (left ++ right) below) (h : fault.Behind (above ++ left)) :
    fault.lineColumn? = some (above.count '\n' + 1, left.length + 1) ∧
    fault.Reported (caretReport text fault) (above.count '\n' + 1) (left.length + 1)
      (left ++ right) (numberGutter (above.count '\n' + 1)) (caretGutter left.length) := by
  have hleft : '\n' ∉ left := fun hmem => hline.inside (List.mem_append_left _ hmem)
  obtain ⟨hnumber, hcolumn⟩ := Place.on_line hline.above hleft
  have hplace : lineColumn text (byteLength (above ++ left)) =
      (above.count '\n' + 1, left.length + 1) := by
    have hcount := countTo_past .first (above ++ left) (right ++ below)
    rw [hnumber, hcolumn] at hcount
    rw [lineColumn, hline.cut, ← hcount]
    simp only [List.append_assoc]
    rfl
  refine ⟨by rw [h.lineColumn, hnumber, hcolumn], ?_, clear_numberGutter _, clear_caretGutter _⟩
  unfold caretReport
  rw [h.offset]
  simp only [hplace, hline.lineContent?, Nat.add_sub_cancel, numberGutter, caretGutter,
    String.append_assoc]

/-! ## The law -/

/-- The caret is under the fault up to line 9999. The report on a fault that the parser finds in a
text begins with the fault's line and column; its second line ends with the whole source line that
the fault is on, without a break; and the first caret of the third line comes behind as many
characters as there are before the fault in the second, as long as the line's number has no more
than four digits. A longer number moves the source line to the right, and the caret stays. -/
theorem the_caret_is_under_the_fault_up_to_line_9999 {text : String} {fault : Fault}
    (h : parse text = .error fault) :
    ∃ (above left right below : List Char) (line column : Nat) (gutter mark : String),
      LineAt text.toList above (left ++ right) below ∧
      fault.offset? = some (byteLength (above ++ left)) ∧
      fault.lineColumn? = some (line, column) ∧
      fault.Reported (caretReport text fault) line column (left ++ right) gutter mark ∧
      (mark.length = gutter.length + left.length ↔ line ≤ 9999) ∧
      (9999 < line → mark.length < gutter.length + left.length) := by
  obtain ⟨before, rest, hcut, hhead, hbehind⟩ := place_of_parse h
  have hplaced : ¬ (before.getLast? = some '\r' ∧ rest.head? = some '\n') :=
    fun hbreak => hhead hbreak.2
  obtain ⟨above, left, right, below, rfl, rfl, hline⟩ := exists_lineAt hplaced
  rw [← hcut] at hline
  obtain ⟨hplace, hreport⟩ := reported_caretReport hline hbehind
  have hwidth := length_numberGutter_eq_seven (above.count '\n' + 1)
  have hlength := length_numberGutter (above.count '\n' + 1)
  refine ⟨above, left, right, below, _, _, _, _, hline, hbehind.offset, hplace, hreport, ?_, ?_⟩
  · rw [← hwidth, length_caretGutter]
    omega
  · rw [length_caretGutter]
    omega

/-- An open quote on the second line. -/
theorem the_caret_is_under_an_open_quote :
    let fault := Fault.lexical ⟨"unterminated string literal", '\'', 1, 2, 1, (1, 3)⟩
    parse "\n'é" = .error fault ∧
      caretReport "\n'é" fault =
        "lex error at 2:1\n   2 | 'é\n     | ^ unterminated string literal" ∧
      ∃ (left right : List Char) (gutter mark : String),
        (∃ above below, LineAt "\n'é".toList above (left ++ right) below) ∧
        mark.length = gutter.length + left.length := by
  intro fault
  have hparse : parse "\n'é" = .error fault := by
    have htokens : tokenize "\n'é" =
        .error ⟨"unterminated string literal", '\'', 1, 2, 1, (1, 3)⟩ := by
      unfold tokenize
      rw [Lexer.collect_of_token rfl (by simp), Lexer.collect_of_failure rfl]
      rfl
    unfold parse
    rw [htokens]
  obtain ⟨above, left, right, below, line, column, gutter, mark, hline, -, hplace, -, hwidth, -⟩ :=
    the_caret_is_under_the_fault_up_to_line_9999 hparse
  obtain ⟨rfl, rfl⟩ : 2 = line ∧ 1 = column := by simpa [Fault.lineColumn?, fault] using hplace
  exact ⟨hparse, rfl, left, right, gutter, mark, ⟨above, below, hline⟩, hwidth.mpr (by omega)⟩

/-! ## A line whose number has five digits -/

/-- A word alone on its line, below so many empty lines. -/
def wordBelow (n : Nat) : String := String.ofList (List.replicate n '\n') ++ "x"

theorem blanks_feeds (n : Nat) : Blanks (String.ofList (List.replicate n '\n')) := by
  intro c hc
  rw [String.toList_ofList] at hc
  rw [List.eq_of_mem_replicate hc]
  rfl

theorem past_feeds (n : Nat) :
    Place.first.past (List.replicate n '\n') = ⟨n, n, n + 1, 1⟩ := by
  induction n with
  | zero => rfl
  | succ n ih =>
    rw [List.replicate_succ', Place.past_append, ih]
    rfl

theorem lineAt_wordBelow (n : Nat) :
    LineAt (wordBelow n).toList (List.replicate n '\n') ([] ++ ['x']) [] := by
  refine ⟨?_, ?_, by decide, .finish⟩
  · rw [wordBelow, String.toList_append, String.toList_ofList]
    rfl
  · cases n with
    | zero => exact .inl rfl
    | succ n => exact .inr (by simp [List.getLast?_replicate])

theorem tokenize_wordBelow (n : Nat) :
    tokenize (wordBelow n) = .ok [⟨.identifier, "x", ⟨n, n + 1, n + 1, 1⟩⟩,
      ⟨.endOfInput, "", ⟨n + 1, n + 1, n + 1, 2⟩⟩] := by
  have hword : Pieces [⟨.identifier, "x"⟩] [] := ⟨by simp, rfl, trivial⟩
  have hgap : Pieces (gapLexemes (String.ofList (List.replicate n '\n'))) "x".toList := by
    refine pieces_gap (blanks_feeds n) ?_
    rintro c ⟨⟩
    rfl
  have hhidden : ((placed .first (gapLexemes (String.ofList (List.replicate n '\n')))).filter
      fun t => t.lexeme.isVisible) = [] := by
    unfold gapLexemes
    split <;> rfl
  refine tokenize_eq_ok.mpr ⟨_, Pieces.append_iff.mpr ⟨hgap, hword⟩, ?_, ?_⟩
  · rw [chars_append, chars_gapLexemes, wordBelow, String.toList_append]
    rfl
  · rw [List.append_assoc, placed_append, chars_gapLexemes, String.toList_ofList, past_feeds,
      List.filter_append, hhidden]
    rfl

theorem parse_wordBelow (n : Nat) :
    parse (wordBelow n) =
      .error (.grammatical ⟨"CALL, SHOW or ALTER", "'x'", n, n + 1, 1, (n, 1)⟩) := by
  have hrun : Parse.whole.run [⟨.identifier, "x", ⟨n, n + 1, n + 1, 1⟩⟩,
      ⟨.endOfInput, "", ⟨n + 1, n + 1, n + 1, 2⟩⟩] =
        .error ⟨"CALL, SHOW or ALTER", "'x'", n, n + 1, 1, (n, n + 1 - n)⟩ := rfl
  rw [Nat.add_sub_cancel_left] at hrun
  unfold parse
  rw [tokenize_wordBelow]
  simp only [hrun]

/-- The caret is under the fault on no line whose number has five digits. The number of line 10000
takes one character more than the gutter has room for, so the source line stands one character to
the right of where it would be; and the caret, which is put at the fault's column behind a gutter
for four digits, is not under the first character but before it. -/
theorem the_caret_is_too_far_left_on_line_10000 :
    let fault := Fault.grammatical ⟨"CALL, SHOW or ALTER", "'x'", 9999, 10000, 1, (9999, 1)⟩
    let source := "10000 | x"
    let caret := "     | ^ expected CALL, SHOW or ALTER, found 'x'"
    parse (wordBelow 9999) = .error fault ∧
      caretReport (wordBelow 9999) fault = "parse error at 10000:1\n" ++ source ++ "\n" ++ caret ∧
      source.toList.idxOf? 'x' = some 8 ∧ caret.toList.idxOf? '^' = some 7 := by
  intro fault source caret
  have hbehind : fault.Behind (List.replicate 9999 '\n' ++ []) := by
    rw [List.append_nil]
    exact ⟨by rw [← Place.offset_first, past_feeds]; rfl, by rw [past_feeds]; rfl⟩
  have hreport := (reported_caretReport (lineAt_wordBelow 9999) hbehind).2.lines
  rw [List.count_replicate_self] at hreport
  exact ⟨parse_wordBelow 9999, hreport.trans rfl, by decide, by decide⟩

end TagDialect
