-- Semicolons and blanks behind a text. They change no piece of the text, but for the
-- blanks or the line comment that go up to its end, and close no quote in it. So the
-- same statement is read off the text with them and without.
import TagDialect.Proofs.StatementTails
import TagDialect.Proofs.TrailingWhite
import TagDialect.Proofs.UnclosedQuotes
import TagDialect.Proofs.WrittenStrings

namespace TagDialect

/-! ## Pieces of semicolons and blanks -/

/-- Semicolons and blanks, and nothing else. -/
def Trailing (cs : List Char) : Prop := ∀ c ∈ cs, c ∈ [';', ' ', '\t', '\r', '\n']

theorem Trailing.semicolon_or_blank {cs : List Char} (h : Trailing cs) {c : Char} (hc : c ∈ cs) :
    c = ';' ∨ isBlank c = true := by
  simpa [isBlank, or_assoc] using h c hc

theorem Trailing.inert {cs : List Char} (h : Trailing cs) : Inert cs := by
  intro c hc
  rcases h.semicolon_or_blank hc with rfl | hblank
  · exact ⟨by decide, by simp⟩
  · exact stops_of_isWhite (isWhite_of_isBlank hblank)

/-- All pieces of the text that a statement's meaning depends on are semicolons. -/
def OnlyMarks (ws : List Lexeme) : Prop := ∀ w ∈ ws, w.isVisible = true → w.kind = .semicolon

theorem OnlyMarks.cons {w : Lexeme} {ws : List Lexeme}
    (hw : w.isVisible = true → w.kind = .semicolon) (h : OnlyMarks ws) : OnlyMarks (w :: ws) :=
  List.forall_mem_cons.mpr ⟨hw, h⟩

theorem OnlyMarks.of_visible {ws vs : List Lexeme} (h : OnlyMarks ws)
    (hsame : vs.filter Lexeme.isVisible = ws.filter Lexeme.isVisible) : OnlyMarks vs := by
  intro v hv hvisible
  have hmem : v ∈ ws.filter Lexeme.isVisible := hsame ▸ List.mem_filter.mpr ⟨hv, hvisible⟩
  exact h v (List.mem_filter.mp hmem).1 hvisible

/-- Each semicolon is a piece of its own. -/
theorem Trailing.pieces {cs : List Char} (h : Trailing cs) :
    ∃ ws, Pieces ws [] ∧ chars ws = cs ∧ OnlyMarks ws := by
  induction cs with
  | nil => exact ⟨[], trivial, rfl, by simp [OnlyMarks]⟩
  | cons c cs ih =>
    obtain ⟨ws, hws, rfl, hmarks⟩ := ih fun d hd => h d (List.mem_cons_of_mem c hd)
    rcases h.semicolon_or_blank List.mem_cons_self with rfl | hblank
    · have hmark : Heads .semicolon [';'] (chars ws ++ []) :=
        heads_mark _ .semicolon (by simp) (by decide)
      exact ⟨⟨.semicolon, ";"⟩ :: ws, ⟨by simp, hmark.firstPiece, hws⟩, rfl,
        .cons (fun _ => rfl) hmarks⟩
    · have hgap : Blanks (String.singleton c) := by simpa [Blanks] using hblank
      obtain ⟨vs, hvs, hchars, hvisible⟩ := pieces_behind_gap hgap hws
      exact ⟨vs, hvs, by simp [hchars], hmarks.of_visible hvisible⟩

/-! ## Pieces that go on -/

theorem bestMatch_of_openEnded {w rest : List Char} {kind : TokenKind} (hne : w ≠ [])
    (h : firstPiece (w ++ rest) = .ok (kind, w.length)) (hk : OpenEnded kind) :
    BestMatch kind w rest := by
  obtain ⟨c, cs, rfl⟩ := List.exists_cons_of_ne_nil hne
  have hplain : kind ≠ .unrecognized ∧ kind ≠ .blockComment ∧ kind ≠ .string ∧
      kind ≠ .backquoted := by
    rcases hk with rfl | rfl <;> simp
  rcases bestMatch_or_special h with hbest | hkind | ⟨hkind, -⟩ | ⟨hkind, -⟩ | ⟨hkind, -⟩
  · exact hbest
  · exact absurd hkind hplain.1
  · exact absurd hkind hplain.2.1
  · exact absurd hkind hplain.2.2.1
  · exact absurd hkind hplain.2.2.2

/-- Blanks and line comments that go up to the end of a text go on into what comes behind it, up
to some place. -/
theorem BestMatch.goes_on {kind : TokenKind} {w : List Char} (h : BestMatch kind w [])
    (hk : OpenEnded kind) (tail : List Char) :
    ∃ v rest kind', tail = v ++ rest ∧ OpenEnded kind' ∧
      firstPiece (w ++ v ++ rest) = .ok (kind', (w ++ v).length) := by
  have hfits : RuleMatch kind w tail := by
    apply h.fits.before
    rintro k rfl
    rcases hk with hk | hk <;> cases hk
  obtain ⟨c, cs, rfl, hbegins⟩ := h.fits.begins
  have hc : (c ≠ '\'' ∧ c ≠ '"' ∧ c ≠ '`') ∧ c ≠ '/' := by
    refine ⟨⟨?_, ?_, ?_⟩, ?_⟩ <;> rintro rfl <;> rcases hk with rfl | rfl <;>
      cases hbegins <;> contradiction
  have hopens := opens_of_ne (cs ++ tail) hc.2
  obtain ⟨kind', n, hpiece, hchosen⟩ :=
    chosen_pieceAt (.ofText (c :: (cs ++ tail))) 0 hc.1 hopens
  rcases hchosen with ⟨u, rest, hcut, rfl, hbest⟩ | ⟨-, -, hno⟩
  · -- what is chosen in front of the tail is no shorter
    have hlength := hbest.best kind (c :: cs) tail hcut.symm hfits
    obtain ⟨v, rfl⟩ : c :: cs <+: u := by
      refine List.prefix_of_prefix_length_le (List.prefix_append (c :: cs) tail) ?_ (by omega)
      rw [List.cons_append, hcut]
      exact List.prefix_append u rest
    have hcut' : c :: cs ++ tail = c :: cs ++ (v ++ rest) := hcut.trans (List.append_assoc ..)
    obtain rfl := List.append_cancel_left hcut'
    refine ⟨v, rest, kind', rfl, hfits.openEnded hk hbest.fits, ?_⟩
    rw [List.append_assoc]
    exact hpiece
  · exact absurd hfits (hno kind (c :: cs) tail rfl)

/-- Behind a text come its own pieces, but for a last one that goes on, and then semicolons and
hidden pieces. -/
theorem Pieces.before_trailing {ws : List Lexeme} (h : Pieces ws []) {tail : List Char}
    (htail : Trailing tail) :
    ∃ vs us us', ws = vs ++ us ∧ Pieces (vs ++ us') [] ∧ chars us' = chars us ++ tail ∧
      OnlyMarks us ∧ OnlyMarks us' := by
  by_cases hlast : ∃ vs m, ws = vs ++ [m] ∧ OpenEnded m.kind
  · obtain ⟨vs, m, rfl, hm⟩ := hlast
    obtain ⟨hvs, hpiece⟩ := Pieces.append_iff.mp h
    have hne := hpiece.text_ne_nil List.mem_cons_self
    have hbest := bestMatch_of_openEnded hne hpiece.2.1 hm
    obtain ⟨v, rest, kind, rfl, hkind, hfirst⟩ := hbest.goes_on hm tail
    have hrest : Trailing rest := fun c hc => htail c (List.mem_append_right v hc)
    obtain ⟨us, hus, rfl, hmarks⟩ := hrest.pieces
    let joined : Lexeme := ⟨kind, String.ofList (m.text.toList ++ v)⟩
    have hchars : chars (joined :: us) = chars [m] ++ (v ++ chars us) := by simp [joined]
    refine ⟨vs, [m], joined :: us, rfl, ?_, hchars, ?_, ?_⟩
    · refine Pieces.append_iff.mpr ⟨?_, ?_, ?_, hus⟩
      · rw [hchars, List.append_nil]
        rw [List.append_nil] at hvs
        refine hvs.before_inert ?_ htail.inert
        simp [hne]
      · rcases hkind with hk | hk <;> simp [joined, hk]
      · simpa [joined] using hfirst
    · refine .cons ?_ (by simp [OnlyMarks])
      intro hvisible
      exact absurd hm (not_openEnded_of_isVisible hvisible)
    · refine .cons ?_ hmarks
      intro hvisible
      exact absurd hkind (not_openEnded_of_isVisible hvisible)
  · obtain ⟨us, hus, rfl, hmarks⟩ := htail.pieces
    refine ⟨ws, [], us, (List.append_nil ws).symm, Pieces.append_iff.mpr ⟨?_, hus⟩, rfl, ?_, hmarks⟩
    · rw [List.append_nil]
      refine h.before_inert ?_ htail.inert
      intro _ w hw hk
      obtain ⟨vs, rfl⟩ := List.getLast?_eq_some_iff.mp hw
      exact hlast ⟨vs, w, rfl, hk⟩
    · simp [OnlyMarks]

/-! ## Tokens of a text with semicolons and blanks behind it -/

theorem OnlyMarks.ending {ws : List Lexeme} (h : OnlyMarks ws) (p : Place) :
    Parse.Ending ((placed p (ws ++ [.finish])).filter fun t => t.lexeme.isVisible) := by
  induction ws generalizing p with
  | nil => exact .finish rfl
  | cons w ws ih =>
    obtain ⟨hw, hws⟩ := List.forall_mem_cons.mp h
    have hrest := ih hws (p.past w.text.toList)
    rw [List.cons_append, placed, List.filter_cons]
    split
    · rename_i hvisible
      exact .semicolon (hw hvisible) hrest
    · exact hrest

/-- The tokens of a text come again, with another ending behind them. -/
theorem tokenize_before_trailing {text tail : String} {tokens : List Token}
    (h : tokenize text = .ok tokens) (htail : Trailing tail.toList) :
    ∃ shared ys ys', Parse.Ending ys ∧ Parse.Ending ys' ∧ tokens = shared ++ ys ∧
      tokenize (text ++ tail) = .ok (shared ++ ys') := by
  obtain ⟨ws, hws, hchars, rfl⟩ := tokenize_eq_ok.mp h
  obtain ⟨vs, us, us', rfl, hpieces, hcut, hmarks, hmarks'⟩ := hws.before_trailing htail
  have hsplit (us : List Lexeme) :
      ((placed .first (vs ++ us ++ [.finish])).filter fun t => t.lexeme.isVisible) =
        ((placed .first vs).filter fun t => t.lexeme.isVisible) ++
          (placed (Place.first.past (chars vs)) (us ++ [.finish])).filter fun t =>
            t.lexeme.isVisible := by
    rw [List.append_assoc, placed_append, List.filter_append]
  refine ⟨_, _, _, hmarks.ending _, hmarks'.ending _, hsplit us,
    tokenize_eq_ok.mpr ⟨_, hpieces, ?_, (hsplit us').symm⟩⟩
  rw [chars_append, hcut, ← List.append_assoc, ← chars_append, hchars, String.toList_append]

/-! ## Quotes that stay open -/

/-- A quote that is closed in front of an inert text is closed before that text starts. -/
theorem exists_cut_before_inert {quote : Char} {inner after rest tail : List Char}
    (hq : quote ∉ tail) (h : rest ++ tail = inner ++ quote :: after) :
    ∃ v, rest = inner ++ quote :: v ∧ after = v ++ tail := by
  rcases List.append_eq_append_iff.mp h with ⟨v, -, hv⟩ | ⟨v, rfl, hv⟩
  · exact absurd (by simp [hv]) hq
  · cases v with
    | nil =>
      rw [List.nil_append] at hv
      exact absurd (by simp [← hv]) hq
    | cons d v =>
      obtain ⟨rfl, rfl⟩ := List.cons.inj hv
      exact ⟨v, rfl, rfl⟩

theorem Unclosed.before_inert {quote : Char} {rest tail : List Char} (h : Unclosed quote rest)
    (htail : Inert tail) : Unclosed quote (rest ++ tail) := by
  refine ⟨h.kind, ?_⟩
  intro hclosed
  have hquote : quote ∉ tail := by
    rcases h.kind with (rfl | rfl) | rfl <;> exact htail.not_mem (by decide)
  generalize hcut : rest ++ tail = cs at hclosed
  cases hclosed with
  | string hq hinner =>
    obtain ⟨v, rfl, -⟩ := exists_cut_before_inert hquote hcut
    exact h.never (.string hq hinner)
  | name hinner hhead =>
    obtain ⟨v, rfl, rfl⟩ := exists_cut_before_inert hquote hcut
    refine h.never (.name hinner ?_)
    cases v with
    | nil => simp
    | cons d v => exact hhead

/-- Where a text is left to be cut, the lexer comes to the same place in the longer text. -/
theorem Lexer.Reaches.before_inert {text tail : String} {l : Lexer} (h : Reaches text l)
    (htail : Inert tail.toList) :
    ∃ before rest, text.toList = before ++ rest ∧ l = behind text before rest ∧
      (rest ≠ [] →
        Reaches (text ++ tail) (behind (text ++ tail) before (rest ++ tail.toList))) := by
  induction h with
  | start =>
    refine ⟨[], text.toList, rfl, rfl, fun _ => ?_⟩
    rw [← String.toList_append]
    exact .start
  | @next l l' t _ hnext ih =>
    obtain ⟨before, rest, hcut, rfl, hreaches⟩ := ih
    have hfound := found_next hcut
    rw [hnext] at hfound
    cases hfound with
    | finish => exact ⟨before, [], hcut, rfl, fun hne => absurd rfl hne⟩
    | @token kind w rest hw _ hpiece =>
      refine ⟨before ++ w, rest, by rw [hcut, List.append_assoc], rfl, fun hne => ?_⟩
      have hpiece' := firstPiece_before_inert hw hpiece (fun hnil => absurd hnil hne) htail
      have hcut' : (text ++ tail).toList = before ++ (w ++ (rest ++ tail.toList)) := by
        simp [hcut]
      have hreaches' := hreaches (by simp [hw])
      rw [List.append_assoc] at hreaches'
      exact hreaches'.next (next_of_firstPiece hcut' hpiece')

/-- A text that cannot be cut into tokens cannot be cut with an inert text behind it either. -/
theorem tokenize_error_before_inert {text tail : String} {e : LexError}
    (h : tokenize text = .error e) (htail : Inert tail.toList) :
    ∃ e', tokenize (text ++ tail) = .error e' := by
  obtain ⟨l, hl, hnext⟩ := tokenize_eq_error.mp h
  obtain ⟨quote, rest, u, hrest, hunclosed, -, -⟩ := hl.failure hnext
  obtain ⟨before, rest', hcut, rfl, hreaches⟩ := hl.before_inert htail
  obtain rfl : rest' = quote :: rest := hrest
  have hreaches' := hreaches (List.cons_ne_nil quote rest)
  obtain ⟨e', hnext'⟩ := hreaches'.next_of_unclosed rfl (hunclosed.before_inert htail)
  exact ⟨e', tokenize_eq_error.mpr ⟨_, hreaches', hnext'⟩⟩

/-! ## The law -/

/-- Semicolons and blanks behind a text never change the result, whatever the text ends in. With
them the text parses just when it parses without them, and then to the same statement with the
same spans. -/
theorem trailing_semicolons_and_blanks_change_nothing (text tail : String)
    (htail : ∀ c ∈ tail.toList, c ∈ [';', ' ', '\t', '\r', '\n']) (s : Statement) :
    parse (text ++ tail) = .ok s ↔ parse text = .ok s := by
  cases htokens : tokenize text with
  | ok tokens =>
    obtain ⟨shared, ys, ys', hys, hys', rfl, htokens'⟩ := tokenize_before_trailing htokens htail
    exact parse_of_ending htokens htokens' hys hys' s
  | error e =>
    obtain ⟨e', htokens'⟩ := tokenize_error_before_inert htokens (Trailing.inert htail)
    simp [parse, htokens, htokens']

/-- A backslash at the end of a comment takes the line feed, and then the semicolon, into it. -/
theorem a_comment_takes_the_semicolon_behind_it :
    let s : Statement :=
      ⟨⟨[⟨"t", false, ⟨10, 11, 1, 11⟩⟩], ⟨10, 11, 1, 11⟩⟩, .showTags, ⟨0, 11, 1, 1⟩⟩
    parse "SHOW TAGS t --\\" = .ok s ∧ parse ("SHOW TAGS t --\\" ++ "\n;\t") = .ok s := by
  intro s
  let ws : List Lexeme := [⟨.keyword .show, "SHOW"⟩, ⟨.whitespace, " "⟩, ⟨.keyword .tags, "TAGS"⟩,
    ⟨.whitespace, " "⟩, ⟨.identifier, "t"⟩, ⟨.whitespace, " "⟩, ⟨.lineComment, "--\\"⟩]
  have htokens : tokenize "SHOW TAGS t --\\" =
      .ok ((placed .first (ws ++ [.finish])).filter fun t => t.lexeme.isVisible) :=
    tokenize_eq_ok.mpr ⟨ws, by decide, rfl, rfl⟩
  have hparse : parse "SHOW TAGS t --\\" = .ok s := (parse_eq_ok htokens).mpr ⟨_, rfl⟩
  have htail := trailing_semicolons_and_blanks_change_nothing "SHOW TAGS t --\\" "\n;\t"
    (by simp) s
  exact ⟨hparse, htail.mpr hparse⟩

end TagDialect
