-- The token that a fault names. All tokens before it begin some statement, and
-- with the token behind it, it rules every statement out.
import TagDialect.Proofs.ViablePrefixes
import TagDialect.Proofs.SharedPrefixes
import TagDialect.Proofs.TokenPlaces

namespace TagDialect

/-- The parser accepts the tokens, of which the last one and no other is the end of the input. -/
def Accepted (tokens : List Token) : Prop :=
  Parse.Closed (tokens.map Token.lexeme) ∧ ∃ s, Parse.whole.run tokens = .ok s

namespace Parse

theorem run_eq_ok {α : Type} {rule : Parse α} {tokens : List Token} {a : α} :
    rule.run tokens = .ok a ↔ ∃ d, rule (.ofTokens tokens) = .ok a d := by
  unfold run
  cases rule (.ofTokens tokens) with
  | ok b d => simp
  | error e d => simp

theorem accepted_of_derivesWhole {tokens : List Token} {s : Statement}
    (hclosed : Closed (tokens.map Token.lexeme)) (h : s.DerivesWhole (tokens.map Token.lexeme)) :
    Accepted tokens := by
  obtain ⟨t, d, -, hd⟩ := whole_complete (c := .ofTokens tokens) h
  exact ⟨hclosed, t, run_eq_ok.mpr ⟨d, hd⟩⟩

/-- No lexeme before another one is the end of the input. -/
theorem Closed.inner {ws vs : List Lexeme} (h : Closed (ws ++ vs)) (hv : Finished vs) :
    Inner ws := by
  obtain ⟨us, e, hcut, -, hus⟩ := h
  obtain ⟨vs, e', rfl, -⟩ := hv
  rw [← List.append_assoc] at hcut
  obtain ⟨rfl, -⟩ := List.append_inj' hcut rfl
  intro w hw
  exact hus w (List.mem_append_left _ hw)

theorem closed_append {ws : List Lexeme} {e : Lexeme} (hw : Inner ws) (he : e.kind = .endOfInput) :
    Closed (ws ++ [e]) := ⟨ws, e, rfl, he, hw⟩

/-- What a failing run has passed begins tokens that are accepted. -/
theorem viable_of_error {us ts : List Token} {d : Cursor} {e : ParseError}
    (hc : Closed ((us ++ ts).map Token.lexeme)) (h : whole (.ofTokens (us ++ ts)) = .error e d)
    (hwalk : Cursor.Walks (.ofTokens (us ++ ts)) us d) : ∃ more, Accepted (us ++ more) := by
  obtain ⟨ws, vs, hpass, hvs, s, hs⟩ := whole_stops (c := .ofTokens (us ++ ts)) hc.finished h
  obtain rfl := hwalk.eq_of_passes hpass
  have hus : Inner (us.map Token.lexeme) := by
    have hcut := hpass.cut
    exact Closed.inner (hcut ▸ hc) hpass.finished
  have hlexemes : (us ++ tokensOf (vs ++ [TokenKind.endOfInput.spelled])).map Token.lexeme =
      us.map Token.lexeme ++ vs ++ [TokenKind.endOfInput.spelled] := by
    rw [List.map_append, List.append_assoc]
    exact congrArg _ (lexemes_tokensOf _)
  refine ⟨_, accepted_of_derivesWhole ?_ (hlexemes ▸ hs)⟩
  rw [hlexemes]
  exact closed_append (by simp [hus, hvs]) rfl

/-- A failing run has seen one token behind the place where it failed, and no other end of the
tokens makes it succeed. -/
theorem not_accepted_of_error {us ts : List Token} {t u : Token} {d : Cursor} {e : ParseError}
    (h : whole (.ofTokens (us ++ t :: u :: ts)) = .error e d) (hd : d.ahead = t :: u :: ts)
    (more : List Token) : ¬ Accepted (us ++ [t, u] ++ more) := by
  rintro ⟨-, s, hs⟩
  obtain ⟨d', hd'⟩ := run_eq_ok.mp hs
  have hnear : Near (ts.map Token.lexeme) (more.map Token.lexeme)
      (.ofTokens (us ++ t :: u :: ts)) (.ofTokens (us ++ [t, u] ++ more)) :=
    ⟨(us ++ [t, u]).map Token.lexeme, by simp [Cursor.lexemes, Cursor.ofTokens],
      by simp [Cursor.lexemes, Cursor.ofTokens]⟩
  have halike := whole_same _ _ hnear
  rw [h, hd'] at halike
  cases halike with
  | far hfar => simp [Far, endOf, Cursor.lexemes, hd] at hfar

end Parse

theorem parse_eq_grammatical {text : String} {tokens : List Token} {e : ParseError}
    (h : tokenize text = .ok tokens) (he : parse text = .error (.grammatical e)) :
    ∃ d, Parse.whole (.ofTokens tokens) = .error e d := by
  unfold parse Parse.run at he
  simp only [h] at he
  cases hrun : Parse.whole (.ofTokens tokens) with
  | ok t d => simp [hrun] at he
  | error e' d => exact ⟨d, by simpa [hrun] using he⟩

/-- A fault that the parser finds is one of the lexer or one of its own. -/
theorem fault_of_parse {text : String} {fault : Fault} (h : parse text = .error fault) :
    (∃ e, fault = .lexical e ∧ tokenize text = .error e) ∨
      ∃ e tokens, fault = .grammatical e ∧ tokenize text = .ok tokens := by
  unfold parse at h
  cases htokens : tokenize text with
  | error e =>
    obtain rfl : Fault.lexical e = fault := by simpa [htokens] using h
    exact .inl ⟨e, rfl, rfl⟩
  | ok tokens =>
    cases hrun : Parse.whole.run tokens with
    | error e => exact .inr ⟨e, tokens, by simpa [htokens, hrun] using h.symm, rfl⟩
    | ok s => simp [htokens, hrun] at h

/-- The parser finds fault where one of the tokens starts. -/
theorem token_of_grammatical {text : String} {tokens : List Token} {e : ParseError}
    (h : tokenize text = .ok tokens) (he : parse text = .error (.grammatical e)) :
    ∃ t ∈ tokens, e.offset = t.span.start ∧ e.line = t.span.line ∧ e.column = t.span.column ∧
      e.extent = (t.span.start, t.span.length) := by
  obtain ⟨d, hd⟩ := parse_eq_grammatical h he
  have hends := Parse.orderly_whole.ends (.ofTokens tokens)
  rw [hd] at hends
  cases hends with
  | @error us x _ hwalk =>
    obtain ⟨ws, vs, hpass, -, -⟩ :=
      Parse.whole_stops (c := .ofTokens tokens) (closed_tokenize h).finished hd
    have hahead : tokens = us ++ d.ahead := hwalk.ahead
    cases hrest : d.ahead with
    | nil =>
      obtain ⟨zs, z, hlast, -⟩ := hpass.finished
      simp [Cursor.lexemes, hrest] at hlast
    | cons t ts =>
      have hcurrent : d.current = t := by simp [Cursor.current, Cursor.peek, hrest]
      refine ⟨t, by simp [hahead, hrest], ?_⟩
      rw [← hcurrent]
      exact ⟨rfl, rfl, rfl, rfl⟩

/-- A fault is found where it is. When the parser finds fault with the tokens of a text, it
names the place and the words of one of them. The tokens before that one begin a sequence that
is accepted; but with it and the one behind it, when it is not the end, no sequence that starts
so is accepted. -/
theorem a_fault_names_the_token_that_rules_a_statement_out {text : String} {tokens : List Token}
    {e : ParseError} (h : tokenize text = .ok tokens)
    (he : parse text = .error (.grammatical e)) :
    ∃ k t, tokens[k]? = some t ∧
      (e.offset = t.span.start ∧ e.line = t.span.line ∧ e.column = t.span.column ∧
        e.extent = (t.span.start, t.span.length) ∧ e.found = t.describe) ∧
      (∃ more, Accepted (tokens.take k ++ more)) ∧
      (t.kind ≠ .endOfInput → ∀ more, ¬ Accepted (tokens.take (k + 2) ++ more)) := by
  have hclosed := closed_tokenize h
  obtain ⟨d, hd⟩ := parse_eq_grammatical h he
  have hends := Parse.orderly_whole.ends (.ofTokens tokens)
  rw [hd] at hends
  cases hends with
  | @error us x _ hwalk =>
    obtain ⟨ws, vs, hpass, -, -⟩ := Parse.whole_stops (c := .ofTokens tokens) hclosed.finished hd
    have hahead : tokens = us ++ d.ahead := hwalk.ahead
    subst hahead
    cases hrest : d.ahead with
    | nil =>
      obtain ⟨zs, z, hlast, -⟩ := hpass.finished
      simp [Cursor.lexemes, hrest] at hlast
    | cons t ts =>
      have hcurrent : d.current = t := by simp [Cursor.current, Cursor.peek, hrest]
      refine ⟨us.length, t, by simp, ?_, ?_, ?_⟩
      · rw [← hcurrent]
        exact ⟨rfl, rfl, rfl, rfl, rfl⟩
      · rw [List.take_left]
        exact Parse.viable_of_error hclosed hd hwalk
      · intro hend more
        have hfinished : Finished (ts.map Token.lexeme) := by
          have hcut : d.lexemes = t.lexeme :: ts.map Token.lexeme := by
            rw [Cursor.lexemes, hrest, List.map_cons]
          exact (hcut ▸ hpass.finished).tail hend
        cases ts with
        | nil =>
          obtain ⟨zs, z, hlast, -⟩ := hfinished
          simp at hlast
        | cons u ts =>
          rw [hrest] at hd
          have htake : (us ++ t :: u :: ts).take (us.length + 2) = us ++ [t, u] := by
            rw [List.take_append, List.take_of_length_le (by omega)]
            simp
          rw [htake]
          exact Parse.not_accepted_of_error hd hrest more

/-- `IF` is taken for the tag's name when `EXISTS` does not come behind `NOT`. The fault is found
at `NOT`, and not at the word behind it. -/
theorem a_condition_without_its_last_word_fails_at_the_word_before :
    let tokens : List Token := [⟨.keyword .alter, "alter", ⟨0, 5, 1, 1⟩⟩,
      ⟨.keyword .table, "table", ⟨6, 11, 1, 7⟩⟩, ⟨.identifier, "t", ⟨12, 13, 1, 13⟩⟩,
      ⟨.keyword .create, "create", ⟨14, 20, 1, 15⟩⟩, ⟨.keyword .tag, "tag", ⟨21, 24, 1, 22⟩⟩,
      ⟨.keyword .if, "if", ⟨25, 27, 1, 26⟩⟩, ⟨.keyword .not, "not", ⟨28, 31, 1, 29⟩⟩,
      ⟨.identifier, "x", ⟨32, 33, 1, 33⟩⟩, ⟨.endOfInput, "", ⟨33, 33, 1, 34⟩⟩]
    tokenize "alter table t create tag if not x" = .ok tokens ∧
    parse "alter table t create tag if not x" =
      .error (.grammatical ⟨"';' or end of input", "'not'", 28, 1, 29, (28, 3)⟩) ∧
    ∃ k t, tokens[k]? = some t ∧ t.span.start = 28 ∧ (∃ more, Accepted (tokens.take k ++ more)) ∧
      (t.kind ≠ .endOfInput → ∀ more, ¬ Accepted (tokens.take (k + 2) ++ more)) := by
  intro tokens
  have htokens : tokenize "alter table t create tag if not x" = .ok tokens := by
    refine tokenize_eq_ok.mpr ⟨[⟨.keyword .alter, "alter"⟩, ⟨.whitespace, " "⟩,
      ⟨.keyword .table, "table"⟩, ⟨.whitespace, " "⟩, ⟨.identifier, "t"⟩, ⟨.whitespace, " "⟩,
      ⟨.keyword .create, "create"⟩, ⟨.whitespace, " "⟩, ⟨.keyword .tag, "tag"⟩,
      ⟨.whitespace, " "⟩, ⟨.keyword .if, "if"⟩, ⟨.whitespace, " "⟩, ⟨.keyword .not, "not"⟩,
      ⟨.whitespace, " "⟩, ⟨.identifier, "x"⟩], ?_, rfl, rfl⟩
    simp only [Pieces, ne_eq, reduceCtorEq, not_false_eq_true, true_and, and_true]
    exact ⟨rfl, rfl, rfl, rfl, rfl, rfl, rfl, rfl, rfl, rfl, rfl, rfl, rfl, rfl, rfl⟩
  have hparse : parse "alter table t create tag if not x" =
      .error (.grammatical ⟨"';' or end of input", "'not'", 28, 1, 29, (28, 3)⟩) := by
    unfold parse
    rw [htokens]
    rfl
  obtain ⟨k, t, ht, hplace, hviable, hruled⟩ :=
    a_fault_names_the_token_that_rules_a_statement_out htokens hparse
  exact ⟨htokens, hparse, k, t, ht, hplace.1.symm, hviable, hruled⟩

end TagDialect
