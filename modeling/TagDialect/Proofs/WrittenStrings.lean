-- A written string reads back, whatever comes behind it. Written strings that stand side by side,
-- with blanks between them or without, are one constant.
import TagDialect.Proofs.CanonicalTexts
import TagDialect.Proofs.RelaidTexts
import TagDialect.Proofs.RuleReadings

namespace TagDialect

/-! ## Strings side by side -/

/-- The values as written strings, each with a gap before it. -/
def sideBySide (written : List (String × String)) : String :=
  String.join (written.map fun p => p.1 ++ quoteString p.2)

/-- A value as the lexeme of its written string. -/
def stringLexeme (value : String) : Lexeme := ⟨.string, quoteString value⟩

theorem stringValue_stringLexeme (value : String) : (stringLexeme value).stringValue = value := by
  unfold Lexeme.stringValue stringLexeme
  rw [stringValue?_quoteString]
  rfl

theorem sideBySide_cons (gap value : String) (written : List (String × String)) (rest : String) :
    (sideBySide ((gap, value) :: written) ++ rest).toList =
      gap.toList ++ ((quoteString value).toList ++ (sideBySide written ++ rest).toList) := by
  simp [sideBySide, String.toList_append, String.toList_join]

/-! ## The pieces of a text behind a string and behind a gap -/

theorem pieces_string (value : String) {ws : List Lexeme} (h : Pieces ws []) :
    Pieces (stringLexeme value :: ws) [] := by
  refine ⟨by simp [stringLexeme], ?_, h⟩
  exact (heads_string value (chars ws ++ [])).firstPiece

/-- Each text is blanks with something behind them that starts with none. -/
theorem exists_blanks (cs : List Char) :
    ∃ gap rest, cs = gap.toList ++ rest ∧ Blanks gap ∧ Unblank rest := by
  refine ⟨String.ofList (cs.takeWhile isBlank), cs.dropWhile isBlank, ?_, ?_, ?_⟩
  · rw [String.toList_ofList, List.takeWhile_append_dropWhile]
  · intro c hc
    rw [String.toList_ofList] at hc
    exact List.mem_takeWhile_imp hc
  · intro c hc
    have hfirst := List.head?_dropWhile_not isBlank cs
    rw [hc] at hfirst
    exact hfirst

/-- Blanks in front of a text change no piece of it that is visible. -/
theorem pieces_behind_gap {gap : String} (hblank : Blanks gap) {ws : List Lexeme}
    (h : Pieces ws []) :
    ∃ vs, Pieces vs [] ∧ chars vs = gap.toList ++ chars ws ∧
      vs.filter Lexeme.isVisible = ws.filter Lexeme.isVisible := by
  -- the blanks that the text begins with go into one piece with the gap
  obtain ⟨inner, rest, hcut, hinner, hrest⟩ := exists_blanks (chars ws)
  rw [← chars_gapLexemes] at hcut
  obtain ⟨us, rfl, hus, rfl⟩ := (pieces_gap hinner hrest).start h hcut
  have hwide : Blanks (gap ++ inner) := by
    intro c hc
    rw [String.toList_append] at hc
    exact (List.mem_append.mp hc).elim (hblank c) (hinner c)
  refine ⟨gapLexemes (gap ++ inner) ++ us, Pieces.append_iff.mpr ⟨?_, hus⟩, ?_, ?_⟩
  · rw [List.append_nil]
    exact pieces_gap hwide hrest
  · simp only [chars_append, chars_gapLexemes, String.toList_append, List.append_assoc]
  · rw [List.filter_append, List.filter_append, visible_gapLexemes, visible_gapLexemes]

/-- Strings in front of a text are pieces of their own. -/
theorem pieces_sideBySide {written : List (String × String)} (hblank : ∀ p ∈ written, Blanks p.1)
    {rest : String} {ws : List Lexeme} (h : Pieces ws []) (hchars : chars ws = rest.toList) :
    ∃ vs, Pieces vs [] ∧ chars vs = (sideBySide written ++ rest).toList ∧
      vs.filter Lexeme.isVisible =
        written.map (fun p => stringLexeme p.2) ++ ws.filter Lexeme.isVisible := by
  induction written with
  | nil => exact ⟨ws, h, by simp [sideBySide, hchars], rfl⟩
  | cons p written ih =>
    obtain ⟨gap, value⟩ := p
    obtain ⟨hgap, hgaps⟩ := List.forall_mem_cons.mp hblank
    obtain ⟨us, hus, hcut, hvisible⟩ := ih hgaps
    obtain ⟨vs, hvs, hcut', hvisible'⟩ := pieces_behind_gap hgap (pieces_string value hus)
    refine ⟨vs, hvs, ?_, ?_⟩
    · rw [hcut', sideBySide_cons, chars_cons, hcut]
      rfl
    · rw [hvisible', List.filter_cons_of_pos rfl, hvisible]
      rfl

theorem lexemes_sideBySide {written : List (String × String)}
    (hblank : ∀ p ∈ written, Blanks p.1) {rest : String} {ts : List Token}
    (h : tokenize rest = .ok ts) :
    ∃ tokens, tokenize (sideBySide written ++ rest) = .ok tokens ∧
      tokens.map Token.lexeme =
        written.map (fun p => stringLexeme p.2) ++ ts.map Token.lexeme := by
  obtain ⟨ws, hws, hchars, rfl⟩ := tokenize_eq_ok.mp h
  obtain ⟨vs, hvs, hcut, hvisible⟩ := pieces_sideBySide hblank hws hchars
  refine ⟨_, tokenize_eq_ok.mpr ⟨vs, hvs, hcut, rfl⟩, ?_⟩
  rw [lexemes_visible, lexemes_visible, List.filter_append, List.filter_append, hvisible,
    List.append_assoc]

/-! ## One constant -/

/-- The parser takes strings side by side for one string with their values joined. -/
theorem constant_of_strings {c : Cursor} {values : List String} {rest : List Lexeme}
    (hne : values ≠ []) (hcut : c.lexemes = values.map stringLexeme ++ rest)
    (hrest : Finished rest) (hnext : kindAt rest 0 ≠ .string) :
    ∃ span d, Parse.constant c = .ok (.string (String.join values) span) d ∧ d.lexemes = rest := by
  have hstrings : values.map stringLexeme ≠ [] := by simpa using hne
  have hkinds : ∀ w ∈ values.map stringLexeme, w.kind = .string := by
    intro w hw
    obtain ⟨value, -, rfl⟩ := List.mem_map.mp hw
    rfl
  have hvalues : (values.map stringLexeme).map Lexeme.stringValue = values := by
    simp [Function.comp_def, stringValue_stringLexeme]
  have hderives := @Constant.Derives.strings _ .origin hstrings hkinds
  obtain ⟨b, hb, d, hd, hlexemes⟩ := Parse.constant_complete hrest hcut hderives hnext
  rw [hvalues] at hb
  cases b with
  | string joined span =>
    obtain rfl : joined = String.join values := by simpa [Constant.erase] using hb
    exact ⟨span, d, hd, hlexemes⟩
  | _ => simp [Constant.erase] at hb

/-! ## The law -/

/-- A written string reads back in every context. Whatever text comes behind it, the lexer takes
it for one string with just that text, and its value is the one that was written. So the parser
reads any number of written strings side by side, with blanks between them or without, as one
constant with their values joined, and goes on with the tokens behind them. -/
theorem written_strings_are_read_back :
    (∀ (value : String) (rest : List Char) (l : Lexer),
      l.rest = (quoteString value).toList ++ rest →
        ∃ t l', l.next = .ok (t, l') ∧ t.kind = .string ∧ t.text = quoteString value ∧
          l'.rest = rest ∧ stringValue? t.text = some value) ∧
    ∀ (written : List (String × String)) (rest : String) (ts : List Token),
      written ≠ [] → (∀ p ∈ written, Blanks p.1) → tokenize rest = .ok ts →
      (ts.head?.map Token.kind) ≠ some .string →
        ∃ tokens span d, tokenize (sideBySide written ++ rest) = .ok tokens ∧
          Parse.constant (.ofTokens tokens) =
            .ok (.string (String.join (written.map Prod.snd)) span) d ∧
          d.lexemes = ts.map Token.lexeme := by
  constructor
  · intro value rest l hrest
    have hpiece := heads_string value rest l.comments l.place.index
    rw [← hrest] at hpiece
    have hnext := Lexer.next_of_pieceAt hpiece
    rw [hrest, List.take_left, List.drop_left, String.ofList_toList] at hnext
    exact ⟨_, _, hnext, rfl, rfl, rfl, stringValue?_quoteString value⟩
  · intro written rest ts hne hblank hts hnext
    obtain ⟨tokens, htokens, hlexemes⟩ := lexemes_sideBySide hblank hts
    have hkind : kindAt (ts.map Token.lexeme) 0 ≠ .string := by
      cases ts with
      | nil => simp [kindAt]
      | cons t ts => simpa [Token.lexeme] using hnext
    have hcut : (Cursor.ofTokens tokens).lexemes =
        (written.map Prod.snd).map stringLexeme ++ ts.map Token.lexeme := by
      rw [List.map_map]
      exact hlexemes
    obtain ⟨span, d, hd, hrest⟩ :=
      constant_of_strings (by simpa using hne) hcut (closed_tokenize hts).finished hkind
    exact ⟨tokens, span, d, htokens, hd, hrest⟩

/-- A digit comes right behind a zero character, and the second string holds a quote. -/
theorem two_strings_over_a_line_feed_are_one :
    tokenize ")" = .ok [⟨.rightParen, ")", ⟨0, 1, 1, 1⟩⟩, ⟨.endOfInput, "", ⟨1, 1, 1, 2⟩⟩] ∧
      sideBySide [("", "\x007"), ("\n", "é'")] ++ ")" = "'\\u00007'\n'é\\'')" ∧
      ∃ tokens span d, tokenize "'\\u00007'\n'é\\'')" = .ok tokens ∧
        Parse.constant (.ofTokens tokens) = .ok (.string "\x007é'" span) d ∧
        d.kind = .rightParen := by
  have hparen : tokenize ")" =
      .ok [⟨.rightParen, ")", ⟨0, 1, 1, 1⟩⟩, ⟨.endOfInput, "", ⟨1, 1, 1, 2⟩⟩] := by
    unfold tokenize
    refine Lexer.collect_of_kept rfl (by simp) rfl ?_
    exact Lexer.collect_of_end rfl rfl
  have htext : sideBySide [("", "\x007"), ("\n", "é'")] ++ ")" = "'\\u00007'\n'é\\'')" := by
    decide
  obtain ⟨tokens, span, d, htokens, hd, hrest⟩ := written_strings_are_read_back.2
    [("", "\x007"), ("\n", "é'")] ")" _ (by simp) (by simp [Blanks, isBlank]) hparen (by simp)
  rw [htext] at htokens
  exact ⟨hparen, htext, tokens, span, d, htokens, hd, Parse.kind_of_lexemes hrest⟩

end TagDialect
