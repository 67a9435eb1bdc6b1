-- The case of keywords. Keywords may be spelled in any case: the text keeps its
-- tokens and their spans, and the statement only the case of names that are
-- keywords. A number takes a `D` or an `F` that comes right behind its exponent.
import TagDialect.Proofs.RelaidTexts
import TagDialect.Proofs.RespeltPieces
import TagDialect.Proofs.RespeltRules
import TagDialect.Proofs.SpanOrder

namespace TagDialect

/-! ## Places of tokens spelled anew -/

theorem past_toUpper (p : Place) (cs : List Char) : p.past (cs.map Char.toUpper) = p.past cs := by
  induction cs generalizing p with
  | nil => rfl
  | cons c cs ih =>
    have hstep (d : Char) (ds : List Char) : p.past (d :: ds) = (p.after d).past ds := rfl
    have hfeed : c.toUpper = '\n' ↔ c = '\n' := toUpper_eq_mark (by decide)
    have hafter : p.after c.toUpper = p.after c := by
      simp only [Place.after, utf8Size_toUpper, hfeed]
    rw [List.map_cons, hstep, hstep, hafter, ih]

theorem placed_respelt {p : Place} {respelt : List (Token × String)} {ws : List Lexeme}
    (h : respelt.map Prod.fst = placed p ws) (hcase : ∀ q ∈ respelt, Respelt q) :
    respelt.map respeltToken = placed p (respelt.map respeltLexeme) := by
  induction respelt generalizing p ws with
  | nil => rfl
  | cons q qs ih =>
    cases ws with
    | nil => simp [placed] at h
    | cons w ws =>
      obtain ⟨hq, hqs⟩ := List.forall_mem_cons.mp hcase
      rw [List.map_cons, placed] at h
      obtain ⟨hhead, htail⟩ := List.cons.inj h
      have htext : q.1.text = w.text := by rw [hhead]
      have hpast : p.past w.text.toList = p.past q.2.toList := by
        rw [← htext, ← hq.sameLetters.apply (past_toUpper p)]
      rw [hpast] at hhead htail
      have htoken : respeltToken q =
          ⟨(respeltLexeme q).kind, q.2, p.spanTo (p.past q.2.toList)⟩ := by
        rw [respeltLexeme, respeltToken, hhead]
      rw [List.map_cons, List.map_cons, placed, ih htail hqs, htoken]
      rfl

/-- Of two tokens with one span, the keyword is the other one too. -/
theorem eq_of_span {respelt : List (Token × String)} {ws : List Lexeme}
    (h : respelt.map Prod.fst = placed .first (ws ++ [.finish])) (hpieces : Pieces ws [])
    {p q : Token × String} (hp : p ∈ respelt) (hq : q ∈ respelt)
    (hk : p.1.kind.isKeyword = true) (hspan : p.1.span = q.1.span) : p = q := by
  have hnonempty : p.1.span.start < p.1.span.stop := by
    obtain ⟨us, vs, hcut, hplace⟩ := mem_placed (h ▸ List.mem_map_of_mem hp : p.1 ∈ _)
    have hmem : p.1.lexeme ∈ ws ++ [.finish] := by
      rw [hcut]
      simp
    have hw : p.1.lexeme ∈ ws := by
      refine (List.mem_append.mp hmem).resolve_right fun hlast => ?_
      have hkind := congrArg Lexeme.kind (List.mem_singleton.mp hlast)
      simp [Token.lexeme, Lexeme.finish] at hkind
      simp [hkind, TokenKind.isKeyword] at hk
    obtain ⟨c, cs, hcs⟩ := List.exists_cons_of_ne_nil (hpieces.text_ne_nil hw)
    have hpos := c.utf8Size_pos
    have htext : p.1.text.toList = c :: cs := hcs
    simp only [hplace, Place.spanTo, Place.offset_first, byteLength_append, htext, byteLength]
    omega
  have hordered := (ordered_placed .first (ws ++ [.finish])).apart
  rw [← h, List.pairwise_map] at hordered
  obtain ⟨xs, ys, rfl⟩ := List.mem_iff_append.mp hp
  obtain ⟨-, hbehind, hbefore⟩ := List.pairwise_append.mp hordered
  rcases List.mem_append.mp hq with hq | hq
  · have hle := hbefore q hq p List.mem_cons_self
    rw [← hspan] at hle
    omega
  · rcases List.mem_cons.mp hq with rfl | hq
    · rfl
    · have hle := (List.pairwise_cons.mp hbehind).1 q hq
      rw [← hspan] at hle
      omega

/-! ## The new spelling of a word -/

/-- The new spelling of the keyword with this span and this text, or else the old one. -/
def spelling (respelt : List (Token × String)) (span : Span) (word : String) : String :=
  match respelt.find? fun p => p.1.kind.isKeyword && (p.1.span == span && p.1.text == word) with
  | some p => p.2
  | none => word

theorem spelling_cases (respelt : List (Token × String)) (span : Span) (word : String) :
    spelling respelt span word = word ∨ ∃ p ∈ respelt, p.1.kind.isKeyword = true ∧
      p.1.span = span ∧ p.1.text = word ∧ spelling respelt span word = p.2 := by
  unfold spelling
  split
  · rename_i p hp
    have hfound := List.find?_some hp
    simp only [Bool.and_eq_true, beq_iff_eq] at hfound
    exact .inr ⟨p, List.mem_of_find?_eq_some hp, hfound.1, hfound.2.1, hfound.2.2, rfl⟩
  · exact .inl rfl

/-- A keyword is found by its span and its text: no other token has that span. -/
theorem spelling_of_keyword {respelt : List (Token × String)} {ws : List Lexeme}
    (h : respelt.map Prod.fst = placed .first (ws ++ [.finish])) (hpieces : Pieces ws [])
    {p : Token × String} (hp : p ∈ respelt) (hk : p.1.kind.isKeyword = true) :
    spelling respelt p.1.span p.1.text = p.2 := by
  unfold spelling
  split
  · rename_i q hq
    have hfound := List.find?_some hq
    simp only [Bool.and_eq_true, beq_iff_eq] at hfound
    rw [eq_of_span h hpieces (List.mem_of_find?_eq_some hq) hp hfound.1 hfound.2.1]
  · rename_i hnone
    have hno := List.find?_eq_none.mp hnone p hp
    simp [hk] at hno

/-- Each token in its new spelling is the token that the parser reads the new words off. -/
theorem respell_spelling {respelt : List (Token × String)} {ws : List Lexeme}
    (h : respelt.map Prod.fst = placed .first (ws ++ [.finish])) (hpieces : Pieces ws [])
    (hcase : ∀ p ∈ respelt, Respelt p) :
    respelt.map respeltToken = (respelt.map Prod.fst).map (Token.respell (spelling respelt)) := by
  rw [List.map_map]
  refine List.map_congr_left fun q hq => ?_
  show respeltToken q = q.1.respell (spelling respelt)
  by_cases hk : q.1.kind.isKeyword = true
  · have hword : q.1.kind.isWord = true := by
      cases hkind : q.1.kind <;> simp_all [TokenKind.isKeyword, TokenKind.isWord]
    rw [Token.respell, if_pos hword, spelling_of_keyword h hpieces hq hk]
    rfl
  · have hsame : q.2 = q.1.text := (hcase q hq).resolve_right fun hword => hk hword.1
    have htext : spelling respelt q.1.span q.1.text = q.1.text := by
      rcases spelling_cases respelt q.1.span q.1.text with hold | ⟨p, hp, hkeyword, hspan, -, -⟩
      · exact hold
      · exact absurd (eq_of_span h hpieces hp hq hkeyword hspan ▸ hkeyword) hk
    rw [Token.respell, htext, respeltToken, hsame, ite_self]

/-- Tokens whose words have other texts are read as the statement with these words. -/
theorem parse_respell {r : Span → String → String} {text text' : String} {tokens : List Token}
    {s : Statement} (h : tokenizeAll text = .ok tokens)
    (h' : tokenizeAll text' = .ok (tokens.map (Token.respell r))) (hparse : parse text = .ok s) :
    parse text' = .ok (s.respell r) := by
  have hvisible : tokenize text = .ok (tokens.filter fun t => !t.kind.isHidden) := by
    simp only [tokenize_eq_filter, h, Except.map]
  have hvisible' : tokenize text' =
      .ok ((tokens.filter fun t => !t.kind.isHidden).map (Token.respell r)) := by
    simp only [tokenize_eq_filter, h', Except.map, List.filter_map, Function.comp_def,
      Token.kind_respell]
  obtain ⟨d, hd⟩ := (parse_eq_ok hvisible).mp hparse
  have hrun := (Parse.whole_follows (r := r)).run hd
  exact (parse_eq_ok hvisible').mpr ⟨d.respell r, hrun⟩

/-! ## The law -/

/-- The case of keywords does not matter, but for one letter behind a number. Spell the keywords
of a text that parses in any case, blanks and comments and all other tokens left as they are,
and let none of them begin with `D` or `F` right behind a number with an exponent, which would
take that letter as its suffix. The new text has the same tokens at the same spans, and the
parser reads the same statement off it, with the same spans, but for those names that are
keywords: each of these has the new spelling of its keyword, and no other name changes. -/
theorem keywords_may_be_spelled_in_any_case {text : String} {s : Statement}
    {respelt : List (Token × String)} (h : tokenizeAll text = .ok (respelt.map Prod.fst))
    (hparse : parse text = .ok s) (hcase : ∀ p ∈ respelt, Respelt p)
    (hsuffix : Unsuffixed respelt) :
    tokenizeAll (String.join (respelt.map Prod.snd)) = .ok (respelt.map respeltToken) ∧
    parse (String.join (respelt.map Prod.snd)) = .ok (s.respell (spelling respelt)) ∧
    (∀ p ∈ respelt, p.1.kind.isKeyword = true → spelling respelt p.1.span p.1.text = p.2) ∧
    ∀ span word, spelling respelt span word = word ∨ ∃ p ∈ respelt, p.1.kind.isKeyword = true ∧
      p.1.span = span ∧ p.1.text = word ∧ spelling respelt span word = p.2 := by
  obtain ⟨ws, hws, hchars, hplaced⟩ := tokenizeAll_eq_ok.mp h
  have hknown := known_of_parse hparse hws hchars
  have hsame := respell_spelling hplaced hws hcase
  have hkeyword : ∀ p ∈ respelt, p.1.kind.isKeyword = true →
      spelling respelt p.1.span p.1.text = p.2 := fun p hp => spelling_of_keyword hplaced hws hp
  have hnew := placed_respelt hplaced hcase
  -- The end of the input is the last token, and stays empty.
  obtain ⟨ps, es, rfl, hps, hes⟩ : ∃ ps es, respelt = ps ++ es ∧
      ps.map Prod.fst = placed .first ws ∧
      es.map Prod.fst = placed (Place.first.past (chars ws)) [.finish] := by
    rw [placed_append] at hplaced
    exact List.map_eq_append_iff.mp hplaced
  obtain ⟨e, rfl, he⟩ := List.map_eq_singleton_iff.mp hes
  have hfinish : respeltLexeme e = .finish := by
    have hkept := (hcase e (by simp)).resolve_right fun hword => by
      simp [he, TokenKind.isKeyword, Lexeme.finish] at hword
    rw [respeltLexeme, hkept, he]
  have hold : ps.map (fun p => p.1.lexeme) = ws := by
    rw [← lexemes_placed .first ws, ← hps, List.map_map]
    rfl
  have hpieces : Pieces (ps.map respeltLexeme) [] := by
    refine Pieces.respelt (hold ▸ hws) (fun p hp => ?_) (fun p hp => hcase p (by simp [hp]))
      hsuffix.left_of_append
    refine hknown p.1.lexeme ?_
    rw [← hold]
    exact List.mem_map_of_mem (f := fun p : Token × String => p.1.lexeme) hp
  have hall : tokenizeAll (String.join ((ps ++ [e]).map Prod.snd)) =
      .ok ((ps ++ [e]).map respeltToken) := by
    refine tokenizeAll_eq_ok.mpr ⟨_, hpieces, ?_, ?_⟩
    · have hempty : e.2 = "" := congrArg Lexeme.text hfinish
      simp [chars, List.flatMap_map, String.toList_join, respeltLexeme, hempty]
    · rw [hnew, List.map_append, List.map_singleton, hfinish]
  exact ⟨hall, parse_respell h (hsame ▸ hall) hparse, hkeyword, spelling_cases _⟩

/-- A table whose name is a keyword is called `Map` when its name is spelled so, and a unit in
capitals that is no suffix stays what it was behind the number. -/
theorem a_unit_and_a_table_in_capitals_are_read_again :
    ∃ s t : Statement,
      parse "alter table map create tag x retain 1E+5hours" = .ok s ∧
      parse "ALTER TABLE Map create Tag x RETAIN 1E+5HOURS" = .ok t ∧
      s.target.parts.map Identifier.value = ["map"] ∧
      t.target.parts.map Identifier.value = ["Map"] ∧
      t.target.span = s.target.span ∧ t.action = s.action ∧ t.span = s.span := by
  let ws : List Lexeme := [⟨.keyword .alter, "alter"⟩, ⟨.whitespace, " "⟩,
    ⟨.keyword .table, "table"⟩, ⟨.whitespace, " "⟩, ⟨.keyword .map, "map"⟩, ⟨.whitespace, " "⟩,
    ⟨.keyword .create, "create"⟩, ⟨.whitespace, " "⟩, ⟨.keyword .tag, "tag"⟩, ⟨.whitespace, " "⟩,
    ⟨.identifier, "x"⟩, ⟨.whitespace, " "⟩, ⟨.keyword .retain, "retain"⟩, ⟨.whitespace, " "⟩,
    ⟨.number .exponent, "1E+5"⟩, ⟨.keyword .hours, "hours"⟩]
  let words : List String := ["ALTER", " ", "TABLE", " ", "Map", " ", "create", " ", "Tag", " ",
    "x", " ", "RETAIN", " ", "1E+5", "HOURS", ""]
  let respelt := (placed .first (ws ++ [.finish])).zip words
  have hws : Pieces ws [] := by decide
  have hall : tokenizeAll "alter table map create tag x retain 1E+5hours" =
      .ok (respelt.map Prod.fst) := tokenizeAll_eq_ok.mpr ⟨ws, hws, rfl, rfl⟩
  have htokens : tokenize "alter table map create tag x retain 1E+5hours" =
      .ok ((placed .first (ws ++ [.finish])).filter fun t => t.lexeme.isVisible) :=
    tokenize_eq_ok.mpr ⟨ws, hws, rfl, rfl⟩
  have hparse := (parse_eq_ok htokens).mpr ⟨_, rfl⟩
  obtain ⟨-, hnew, hkeyword, -⟩ :=
    keywords_may_be_spelled_in_any_case hall hparse (by decide) (by decide)
  have htable : spelling respelt ⟨12, 15, 1, 13⟩ "map" = "Map" :=
    hkeyword (⟨.keyword .map, "map", ⟨12, 15, 1, 13⟩⟩, "Map") (by decide) rfl
  exact ⟨_, _, hparse, hnew, rfl, congrArg (fun word => [word]) htable, rfl, by decide, rfl⟩

/-- In capitals the first letter of a unit is the suffix of the number right before it, and the
statement is lost. -/
theorem a_unit_in_capitals_is_lost_behind_an_exponent :
    ∃ respelt : List (Token × String),
      tokenizeAll "ALTER TABLE t CREATE TAG x RETAIN 1E+5days" = .ok (respelt.map Prod.fst) ∧
      (∃ s, parse "ALTER TABLE t CREATE TAG x RETAIN 1E+5days" = .ok s) ∧
      (∀ p ∈ respelt, Respelt p) ∧
      String.join (respelt.map Prod.snd) = "ALTER TABLE t CREATE TAG x RETAIN 1E+5DAYS" ∧
      ∀ s, parse "ALTER TABLE t CREATE TAG x RETAIN 1E+5DAYS" ≠ .ok s := by
  let head : List Lexeme := [⟨.keyword .alter, "ALTER"⟩, ⟨.whitespace, " "⟩,
    ⟨.keyword .table, "TABLE"⟩, ⟨.whitespace, " "⟩, ⟨.identifier, "t"⟩, ⟨.whitespace, " "⟩,
    ⟨.keyword .create, "CREATE"⟩, ⟨.whitespace, " "⟩, ⟨.keyword .tag, "TAG"⟩, ⟨.whitespace, " "⟩,
    ⟨.identifier, "x"⟩, ⟨.whitespace, " "⟩, ⟨.keyword .retain, "RETAIN"⟩, ⟨.whitespace, " "⟩]
  let old : List Lexeme := head ++ [⟨.number .exponent, "1E+5"⟩, ⟨.keyword .days, "days"⟩]
  let new : List Lexeme := head ++ [⟨.number .double, "1E+5D"⟩, ⟨.identifier, "AYS"⟩]
  have hold : Pieces old [] := by decide
  have hnew : Pieces new [] := by decide
  refine ⟨(placed .first (old ++ [.finish])).map fun t =>
    (t, if t.text = "days" then "DAYS" else t.text), ?_, ?_, by decide, rfl, ?_⟩
  · exact tokenizeAll_eq_ok.mpr ⟨old, hold, rfl, rfl⟩
  · exact ⟨_, (parse_eq_ok (tokenize_eq_ok.mpr ⟨old, hold, rfl, rfl⟩)).mpr ⟨_, rfl⟩⟩
  · intro s h
    obtain ⟨d, hd⟩ := (parse_eq_ok (tokenize_eq_ok.mpr ⟨new, hnew, rfl, rfl⟩)).mp h
    cases hd

end TagDialect
