-- The round trip: what a well-formed statement is written as is read back as the
-- same statement, up to spans and to the ticks of its names.
import TagDialect.Proofs.PrintedPieces

namespace TagDialect

/-! ## Printed parts -/

/-- The pieces are read as a derivation of the part that they were made of, up to what
`erase` takes away. -/
def Prints {α β : Type} (ps : List Piece) (production : List Lexeme → α → Prop) (erase : α → β)
    (a : α) : Prop :=
  ∃ ws b, Written ps ws ∧ production ws b ∧ erase b = erase a

theorem written_keywords (ks : List Keyword) : Written (keywords ks) (ks.map Keyword.lexeme) := by
  induction ks with
  | nil => exact .nil
  | cons k ks ih => exact .word (readAs_keyword k) ih

theorem spell_keywords (ks : List Keyword) :
    Spell (ks.map TokenKind.keyword) (ks.map Keyword.lexeme) := by
  simp [Spell, Keyword.lexeme, Function.comp_def]

/-- Keywords that may be left out. -/
theorem written_optional (b : Bool) (ks : List Keyword) :
    ∃ ws, Written (if b then keywords ks else []) ws ∧
      Optionally (ks.map TokenKind.keyword) ws b := by
  cases b with
  | false => exact ⟨[], .nil, .absent⟩
  | true => exact ⟨_, written_keywords ks, .present (spell_keywords ks)⟩

section
variable {α β : Type} {production : List Lexeme → α → Prop} {erase : α → β}
  {item : α → List Piece}

/-- Items between commas are read as a list with commas. -/
theorem prints_items {a : α} {as : List α}
    (h : ∀ x ∈ a :: as, Prints (item x) production erase x) :
    Prints ([Piece.comma].intercalate ((a :: as).map item)) (Separated .comma production)
      (List.map erase) (a :: as) := by
  induction as generalizing a with
  | nil =>
    obtain ⟨ws, b, hw, hp, hb⟩ := h a List.mem_cons_self
    refine ⟨ws ++ [], [b], ?_, .items hp .nil, by simp [hb]⟩
    simpa using hw
  | cons a' as ih =>
    obtain ⟨ws, b, hw, hp, hb⟩ := h a List.mem_cons_self
    obtain ⟨vs, bs, hvs, hsep, hbs⟩ := ih fun x hx => h x (List.mem_cons_of_mem _ hx)
    cases hsep with
    | @items us us' b' bs hb' hled =>
      have hcomma : (⟨.comma, ","⟩ : Lexeme).kind = .comma := rfl
      refine ⟨_, b :: b' :: bs, ?_, .items hp (.cons hcomma hb' hled), ?_⟩
      · have hall := hw.append (.comma hvs)
        simpa [List.intercalate_cons_cons] using hall
      · simp only [List.map_cons, List.cons.injEq] at hbs ⊢
        exact ⟨hb, hbs⟩

end

/-! ## Values and arguments -/

theorem prints_constant {c : Constant} (h : c.WellFormed) :
    Prints [.word c.format] Constant.Derives (Constant.erase Identifier.plain) c := by
  obtain ⟨ws, d, hread, hderives, hplain⟩ := readAs_constant h
  exact ⟨ws, d, .single hread, hderives, hplain⟩

theorem prints_expression {e : Expression} (h : e.WellFormed) :
    Prints e.pieces Expression.Derives (Expression.erase Identifier.plain) e := by
  cases e with
  | constant c =>
    obtain ⟨ws, d, hw, hderives, hplain⟩ := prints_constant h
    exact ⟨ws, .constant d, hw, .constant hderives, by simp only [Expression.erase, hplain]⟩
  | map entries span =>
    obtain ⟨hne, hall⟩ := h
    obtain ⟨c, cs, rfl⟩ := List.exists_cons_of_ne_nil hne
    obtain ⟨ws, ds, hw, hsep, hplain⟩ := prints_items fun x hx => prints_constant (hall x hx)
    refine ⟨_, .map ds .origin, ?_, .map (m := Keyword.lexeme .map) (o := ⟨.leftParen, "("⟩)
      (c := ⟨.rightParen, ")"⟩) rfl rfl hsep rfl, by simp only [Expression.erase, hplain]⟩
    have hlist := Written.opening (hw.append (.closing .nil))
    simpa [Expression.pieces, listPieces] using (written_keywords [.map]).append hlist

theorem prints_argument {a : Argument} (h : a.value.WellFormed) :
    Prints a.pieces Argument.Derives (Argument.erase Identifier.plain) a := by
  obtain ⟨ws, e, hw, hderives, hplain⟩ := prints_expression h
  obtain ⟨name, value⟩ := a
  cases name with
  | none =>
    refine ⟨ws, ⟨none, e⟩, ?_, .positional hderives, ?_⟩
    · simpa [Argument.pieces] using hw
    · simp only [Argument.erase, hplain, Option.map_none]
  | some i =>
    obtain ⟨v, j, hread, hname, hplain'⟩ := readAs_identifier i
    refine ⟨_, ⟨some j, e⟩, ?_, .named (w := ⟨.arrow, "=>"⟩) hname rfl hderives, ?_⟩
    · exact .word hread.readAs (.word readAs_arrow hw)
    · simp only [Argument.erase, hplain, hplain', Option.map_some]

theorem prints_arguments {as : List Argument} (h : ∀ a ∈ as, a.value.WellFormed) :
    Prints (listPieces Argument.pieces as) Argument.DeriveAll
      (List.map (Argument.erase Identifier.plain)) as := by
  cases as with
  | nil =>
    refine ⟨_, [], ?_, .none (o := ⟨.leftParen, "("⟩) (c := ⟨.rightParen, ")"⟩) rfl rfl, rfl⟩
    exact .opening (.closing .nil)
  | cons a as =>
    obtain ⟨ws, bs, hw, hsep, hplain⟩ := prints_items fun x hx => prints_argument (h x hx)
    refine ⟨_, bs, ?_, .some (o := ⟨.leftParen, "("⟩) (c := ⟨.rightParen, ")"⟩) rfl hsep rfl,
      hplain⟩
    have hlist := Written.opening (hw.append (.closing .nil))
    simpa [listPieces] using hlist

/-! ## Tags -/

theorem prints_number {n : Number} (h : n.WellFormed) :
    Prints [.word n.format] Number.Derives Number.bare n := by
  obtain ⟨ws, m, hread, hderives, hbare⟩ := readAs_number h
  exact ⟨ws, m, .single hread, hderives, hbare⟩

theorem prints_version (version : Option Number) :
    (∀ n, version = some n → n.WellFormed) →
      Prints
        (match version with
          | some n => keywords [.as, .of, .version] ++ [.word n.format]
          | none => [])
        TagOptions.DeriveVersion (Option.map Number.bare) version := by
  intro h
  cases version with
  | none => exact ⟨[], none, .nil, .none, rfl⟩
  | some n =>
    obtain ⟨ws, m, hw, hderives, hbare⟩ := prints_number (h n rfl)
    refine ⟨_, some m, (written_keywords _).append hw,
      .some (spell_keywords [.as, .of, .version]) hderives, ?_⟩
    rw [Option.map_some, Option.map_some, hbare]

theorem prints_retain (retain : Option Retention) :
    (∀ r, retain = some r → r.amount.WellFormed) →
      Prints
        (match retain with
          | some r => keywords [.retain] ++ [.word r.amount.format] ++ keywords [r.unit.keyword]
          | none => [])
        TagOptions.DeriveRetain (Option.map Retention.bare) retain := by
  intro h
  cases retain with
  | none => exact ⟨[], none, .nil, .none, rfl⟩
  | some r =>
    obtain ⟨ws, m, hw, hderives, hbare⟩ := prints_number (h r rfl)
    refine ⟨_, some ⟨m, r.unit⟩, ((written_keywords _).append hw).append (written_keywords _),
      .some (k := Keyword.lexeme .retain) (u := r.unit.keyword.lexeme) rfl hderives rfl, ?_⟩
    simp only [Option.map_some, Retention.bare, hbare]

theorem prints_options {o : TagOptions} (h : o.WellFormed) :
    Prints o.pieces TagOptions.Derives TagOptions.bare o := by
  obtain ⟨ws, v, hw, hv, hvbare⟩ := prints_version o.version h.version
  obtain ⟨us, r, hu, hr, hrbare⟩ := prints_retain o.retain h.retain
  exact ⟨_, ⟨v, r⟩, hw.append hu, .options hv hr, by simp only [TagOptions.bare, hvbare, hrbare]⟩

/-- A name as a word of its own. -/
theorem prints_identifier (i : Identifier) :
    Prints [.word i.format] Identifier.Derives Identifier.plain i := by
  obtain ⟨w, j, hread, hderives, hplain⟩ := readAs_identifier i
  exact ⟨[w], j, .single hread.readAs, hderives, hplain⟩

theorem prints_clause {c : TagClause} (h : c.options.WellFormed) :
    Prints c.pieces TagClause.Derives (TagClause.erase Identifier.plain) c := by
  obtain ⟨us, o, hu, hoptions, hobare⟩ := prints_options h
  cases c with
  | create ifNotExists name options =>
    obtain ⟨ws, j, hw, hname, hplain⟩ := prints_identifier name
    obtain ⟨cs, hc, hoptional⟩ := written_optional ifNotExists [.if, .not, .exists]
    refine ⟨_, .create ifNotExists j o,
      (((written_keywords [.create, .tag]).append hc).append hw).append hu,
      .create (spell_keywords [.create, .tag]) hoptional hname hoptions, ?_⟩
    have hobare' : o.bare = options.bare := hobare
    simp only [TagClause.erase, hplain, hobare']
  | replace createIfMissing name options =>
    obtain ⟨ws, j, hw, hname, hplain⟩ := prints_identifier name
    obtain ⟨cs, hc, hoptional⟩ := written_optional createIfMissing [.create, .or]
    refine ⟨_, .replace createIfMissing j o,
      ((hc.append (written_keywords [.replace, .tag])).append hw).append hu,
      .replace hoptional (spell_keywords [.replace, .tag]) hname hoptions, ?_⟩
    have hobare' : o.bare = options.bare := hobare
    simp only [TagClause.erase, hplain, hobare']

/-! ## Statements -/

/-- The words before a target, the target, and what is done to the tags of the table. -/
theorem prints_alter {s : Statement} (hs : s.action.opening = [.alter, .table])
    (htarget : s.target.parts ≠ [])
    (h : Prints s.action.pieces (fun ws a => a.DeriveTagAction ws) (Action.erase Identifier.plain)
      s.action) :
    Prints s.pieces (fun ws t => t.Derives ws) Statement.plain s := by
  obtain ⟨ws, n, hread, hname, hplain⟩ := readAs_name htarget
  obtain ⟨vs, a, hv, ha, haplain⟩ := h
  refine ⟨_, ⟨n, a, .origin⟩, ?_, .alter (spell_keywords [.alter, .table]) hname ha, ?_⟩
  · unfold Statement.pieces
    rw [hs]
    exact ((written_keywords _).append (.single hread.readAs)).append hv
  · simp only [Statement.plain, Statement.erase, hplain, haplain]

theorem prints_statement {s : Statement} (h : s.WellFormed) :
    Prints s.pieces (fun ws t => t.Derives ws) Statement.plain s := by
  obtain ⟨htarget, haction⟩ := h
  obtain ⟨target, action, span⟩ := s
  cases action with
  | call arguments =>
    obtain ⟨ws, n, hread, hname, hplain⟩ := readAs_name htarget
    obtain ⟨vs, as, hv, ha, haplain⟩ := prints_arguments haction
    refine ⟨_, ⟨n, .call as, .origin⟩,
      ((written_keywords [.call]).append (.single hread.readAs)).append hv,
      .call (k := Keyword.lexeme .call) rfl hname ha, ?_⟩
    simp only [Statement.plain, Statement.erase, Action.erase, hplain, haplain]
  | showTags =>
    obtain ⟨ws, n, hread, hname, hplain⟩ := readAs_name htarget
    refine ⟨_, ⟨n, .showTags, .origin⟩,
      ((written_keywords [.show, .tags]).append (.single hread.readAs)).append .nil,
      ?_, ?_⟩
    · rw [List.append_nil]
      exact .showTags (spell_keywords [.show, .tags]) hname
    · simp only [Statement.plain, Statement.erase, Action.erase, hplain]
  | putTag clause =>
    obtain ⟨ws, c, hw, hclause, hplain⟩ := prints_clause haction
    exact prints_alter rfl htarget
      ⟨ws, .putTag c, hw, .putTag hclause, by simp only [Action.erase, hplain]⟩
  | deleteTag ifExists tag =>
    obtain ⟨ws, j, hw, hname, hplain⟩ := prints_identifier tag
    obtain ⟨cs, hc, hoptional⟩ := written_optional ifExists [.if, .exists]
    exact prints_alter rfl htarget ⟨_, .deleteTag ifExists j,
      ((written_keywords [.delete, .tag]).append hc).append hw,
      .deleteTag (spell_keywords [.delete, .tag]) hoptional hname,
      by simp only [Action.erase, hplain]⟩
  | renameTag old new =>
    obtain ⟨ws, j, hw, hold, hplain⟩ := prints_identifier old
    obtain ⟨vs, j', hv, hnew, hplain'⟩ := prints_identifier new
    refine prints_alter rfl htarget ⟨_, .renameTag j j',
      (((written_keywords [.rename, .tag]).append hw).append (written_keywords [.to])).append hv,
      ?_, by simp only [Action.erase, hplain, hplain']⟩
    have hto := Action.DeriveTagAction.renameTag (t := Keyword.lexeme .to)
      (spell_keywords [.rename, .tag]) hold rfl hnew
    simpa using hto

/-- The canonical text is tokenized into the lexemes of its pieces. -/
theorem tokenize_format {s : Statement} {ws : List Lexeme} (h : Written s.pieces ws) :
    ∃ tokens, tokenize s.format = .ok tokens ∧
      tokens.map Token.lexeme = ws ++ [⟨.endOfInput, ""⟩] := by
  apply tokenize_of_lexes
  have hchars : s.format.toList = Piece.chars true s.pieces := Piece.toList_line s.pieces
  rw [hchars]
  exact h.lexes true

theorem parse_format {s : Statement} (h : s.WellFormed) :
    ∃ t, parse s.format = .ok t ∧ t.plain = s.plain := by
  obtain ⟨ws, b, hw, hderives, hplain⟩ := prints_statement h
  obtain ⟨tokens, htokens, hmap⟩ := tokenize_format hw
  have hwhole : b.DerivesWhole (Cursor.ofTokens tokens).lexemes := by
    show b.DerivesWhole (tokens.map Token.lexeme)
    rw [hmap, ← List.append_nil ws]
    exact .single hderives (by simp) rfl
  obtain ⟨t, d, ht, hd⟩ := Parse.whole_complete hwhole
  exact ⟨t, (parse_eq_ok htokens).mpr ⟨d, hd⟩, (Statement.plain_eq_of_bare_eq ht).trans hplain⟩

/-! ## The law -/

/-- Formatting a well-formed statement and parsing the text gives the statement back, up to
spans and ticks. Whatever the parser returns is well-formed, so this holds of it, and
well-formed statements with one text are the same statement. -/
theorem formatting_then_parsing_gives_the_statement_back :
    (∀ s : Statement, s.WellFormed → ∃ t, parse s.format = .ok t ∧ t.plain = s.plain) ∧
    (∀ (text : String) (s : Statement), parse text = .ok s →
      s.WellFormed ∧ ∃ t, parse s.format = .ok t ∧ t.plain = s.plain) ∧
    (∀ s t : Statement, s.WellFormed → t.WellFormed → s.format = t.format → s.plain = t.plain) := by
  refine ⟨fun s hs => parse_format hs, ?_, ?_⟩
  · intro text s h
    have hs := wellFormed_of_parse h
    exact ⟨hs, parse_format hs⟩
  · intro s t hs ht heq
    obtain ⟨s', hparse, hplain⟩ := parse_format hs
    obtain ⟨t', hparse', hplain'⟩ := parse_format ht
    rw [← heq, hparse, Except.ok.injEq] at hparse'
    rw [← hplain, ← hplain', hparse']

/-- A name with a blank, a reserved word as a parameter and a negative number all come back. -/
theorem a_call_with_a_reserved_parameter_comes_back :
    (⟨⟨[⟨"a b", false, .origin⟩], .origin⟩,
      .call [⟨some ⟨"to", false, .origin⟩, .constant (.number ⟨.decimal, ".5", true, .origin⟩)⟩],
      .origin⟩ : Statement).WellFormed ∧
    ∃ t, parse "CALL `a b`(`to` => -.5)" = .ok t ∧ t.plain = ⟨⟨[⟨"a b", false, .origin⟩], .origin⟩,
      .call [⟨some ⟨"to", false, .origin⟩, .constant (.number ⟨.decimal, ".5", true, .origin⟩)⟩],
      .origin⟩ := by
  have hnumber : IsNumeral .decimal ".5" := by
    refine ⟨⟨.number .decimal, ".5", ⟨0, 2, 1, 1⟩⟩, ⟨.endOfInput, "", ⟨2, 2, 1, 3⟩⟩, ?_, rfl, rfl⟩
    unfold tokenize
    refine Lexer.collect_of_kept rfl (by simp) rfl ?_
    exact Lexer.collect_of_end rfl rfl
  have hwell : (⟨⟨[⟨"a b", false, .origin⟩], .origin⟩,
      .call [⟨some ⟨"to", false, .origin⟩, .constant (.number ⟨.decimal, ".5", true, .origin⟩)⟩],
      .origin⟩ : Statement).WellFormed :=
    ⟨List.cons_ne_nil _ _, List.forall_mem_singleton.mpr hnumber⟩
  have hformat : (⟨⟨[⟨"a b", false, .origin⟩], .origin⟩,
      .call [⟨some ⟨"to", false, .origin⟩, .constant (.number ⟨.decimal, ".5", true, .origin⟩)⟩],
      .origin⟩ : Statement).format = "CALL `a b`(`to` => -.5)" := rfl
  refine ⟨hwell, ?_⟩
  obtain ⟨t, ht, hplain⟩ := formatting_then_parsing_gives_the_statement_back.1 _ hwell
  rw [hformat] at ht
  exact ⟨t, ht, hplain⟩

end TagDialect
