-- Canonical texts. They end in no white space, they have no comments and no
-- semicolons, and a text is canonical exactly when it is one of them with
-- blanks behind it. So formatting once is enough.
import TagDialect.Proofs.RoundTrip
import TagDialect.Proofs.RelaidTexts
import TagDialect.Proofs.TrailingWhite

namespace TagDialect

/-! ## The end of a line -/

/-- The last character is neither white space nor a semicolon. -/
def EndsFirm (cs : List Char) : Prop :=
  ∃ us c, cs = us ++ [c] ∧ isWhite c = false ∧ c ≠ ';'

theorem EndsFirm.behind {vs : List Char} (us : List Char) (h : EndsFirm vs) :
    EndsFirm (us ++ vs) := by
  obtain ⟨ws, c, rfl, hc⟩ := h
  exact ⟨us ++ ws, c, (List.append_assoc ..).symm, hc⟩

/-- Words and numbers end firm, since all of their characters are firm. -/
theorem endsFirm_of_forall {cs : List Char} (hne : cs ≠ [])
    (h : ∀ c ∈ cs, isWhite c = false ∧ c ≠ ';') : EndsFirm cs :=
  ⟨cs.dropLast, cs.getLast hne, (List.dropLast_append_getLast hne).symm,
    h _ (List.getLast_mem hne)⟩

theorem endsFirm_of_words {cs : List Char} (hne : cs ≠ [])
    (h : ∀ c ∈ cs, isWordChar c = true) : EndsFirm cs := by
  refine endsFirm_of_forall hne fun c hc => ⟨isWhite_of_isWordChar (h c hc), ?_⟩
  rintro rfl
  exact absurd (h ';' hc) (by decide)

theorem endsFirm_keyword (k : Keyword) : EndsFirm k.text.toList := by
  obtain ⟨c, cs, htext, -, hall⟩ := text_of_keyword k
  rw [htext]
  exact endsFirm_of_words (List.cons_ne_nil c cs) (List.all_eq_true.mp hall)

theorem endsFirm_writeName (value : String) : EndsFirm (writeName value).toList := by
  unfold writeName
  split
  · rw [String.toList_ofList]
    exact ⟨'`' :: doubleTicks value.toList, '`', rfl, by decide, by decide⟩
  · rename_i hbare
    obtain ⟨⟨c, cs, hcs, -⟩, hall, -⟩ := needsTicks_eq_false (Bool.not_eq_true _ ▸ hbare)
    exact endsFirm_of_words (by rw [hcs]; exact List.cons_ne_nil c cs) hall

theorem endsFirm_name {n : Name} (h : n.parts ≠ []) : EndsFirm n.format.toList := by
  obtain ⟨parts, span⟩ := n
  obtain ⟨i, is, rfl⟩ := List.exists_cons_of_ne_nil h
  rw [toList_format_name]
  rcases List.eq_nil_or_concat is with rfl | ⟨js, j, rfl⟩
  · simpa [dotted, Identifier.format] using endsFirm_writeName i.value
  · have hlast := (endsFirm_writeName j.value).behind (i.format.toList ++ dotted js ++ ['.'])
    simpa [dotted, Identifier.format, List.append_assoc] using hlast

theorem endsFirm_number {n : Number} (h : n.WellFormed) : EndsFirm n.format.toList := by
  obtain ⟨⟨pointed, hword⟩, -⟩ := number_of_match (best_of_isNumeral h).fits
  have hfirm : EndsFirm n.text.toList := by
    refine endsFirm_of_forall ?_ fun c hc => ⟨?_, ?_⟩
    · obtain ⟨c, cs, hcs, -⟩ := hword.head
      rw [hcs]
      exact List.cons_ne_nil c cs
    · rw [← Bool.not_eq_true]
      intro hwhite
      have hnot : isWordChar c = false := by
        rw [← Bool.not_eq_true]
        intro hc
        simp [isWhite_of_isWordChar hc] at hwhite
      refine not_mem_number hword hnot ?_ hc
      refine ⟨?_, ?_, ?_⟩ <;> rintro rfl <;> exact absurd hwhite (by decide)
    · rintro rfl
      exact not_mem_number hword (by decide) (by decide) hc
  unfold Number.format
  split
  · rw [String.toList_append]
    exact hfirm.behind _
  · exact hfirm

/-- The last piece of a line ends firm, wherever it stands. -/
def LastFirm (ps : List Piece) : Prop :=
  ∃ qs p, ps = qs ++ [p] ∧ ∀ glued, EndsFirm (Piece.chars glued [p])

theorem LastFirm.behind {qs : List Piece} (ps : List Piece) (h : LastFirm qs) :
    LastFirm (ps ++ qs) := by
  obtain ⟨rs, p, rfl, hp⟩ := h
  exact ⟨ps ++ rs, p, (List.append_assoc ..).symm, hp⟩

theorem lastFirm_word {text : String} (h : EndsFirm text.toList) : LastFirm [.word text] := by
  refine ⟨[], .word text, rfl, fun glued => ?_⟩
  rw [Piece.chars_word]
  simpa [Piece.chars, Piece.stretches] using h.behind (if glued then [] else [' '])

theorem lastFirm_list {α : Type} (item : α → List Piece) (as : List α) :
    LastFirm (listPieces item as) :=
  ⟨_, .attached ")", rfl, fun _ => ⟨[], ')', rfl, by decide, by decide⟩⟩

/-- Options end firm, unless there are none. -/
theorem lastFirm_options {o : TagOptions} (h : o.WellFormed) :
    o.pieces = [] ∨ LastFirm o.pieces := by
  obtain ⟨version, retain⟩ := o
  cases retain with
  | some r =>
    right
    have hunit : LastFirm (keywords [r.unit.keyword]) := lastFirm_word (endsFirm_keyword _)
    exact (hunit.behind _).behind _
  | none =>
    cases version with
    | none => exact .inl rfl
    | some n =>
      right
      have hnumber := lastFirm_word (endsFirm_number (h.version n rfl))
      have hpieces := hnumber.behind (keywords [.as, .of, .version])
      rwa [← List.append_nil (keywords _ ++ _)] at hpieces

theorem lastFirm_clause {c : TagClause} (h : c.options.WellFormed) : LastFirm c.pieces := by
  have hend (ps : List Piece) (name : Identifier) {o : TagOptions} (ho : o.WellFormed) :
      LastFirm (ps ++ [.word name.format] ++ o.pieces) := by
    rcases lastFirm_options ho with hnone | hsome
    · rw [hnone, List.append_nil]
      exact (lastFirm_word (endsFirm_writeName name.value)).behind ps
    · exact hsome.behind _
  cases c with
  | create _ name _ => exact hend _ name h
  | replace _ name _ => exact hend _ name h

theorem lastFirm_statement {s : Statement} (h : s.WellFormed) : LastFirm s.pieces := by
  obtain ⟨htarget, haction⟩ := h
  obtain ⟨target, action, span⟩ := s
  unfold Statement.pieces
  cases action with
  | call arguments => exact (lastFirm_list _ _).behind _
  | showTags =>
    rw [show Action.pieces .showTags = [] from rfl, List.append_nil]
    exact (lastFirm_word (endsFirm_name htarget)).behind _
  | putTag clause => exact (lastFirm_clause haction).behind _
  | deleteTag ifExists tag =>
    exact ((lastFirm_word (endsFirm_writeName tag.value)).behind _).behind _
  | renameTag old new =>
    exact ((lastFirm_word (endsFirm_writeName new.value)).behind _).behind _

theorem Piece.chars_append (glued : Bool) (ps qs : List Piece) :
    ∃ glued', chars glued (ps ++ qs) = chars glued ps ++ chars glued' qs := by
  induction ps generalizing glued with
  | nil => exact ⟨glued, rfl⟩
  | cons p ps ih =>
    have hcons (q : Piece) : ∃ stretch next, ∀ rs,
        chars glued (q :: rs) = stretch ++ chars next rs := by
      cases q with
      | word text => exact ⟨_, false, fun rs => List.flatMap_cons⟩
      | attached text => exact ⟨_, false, fun rs => List.flatMap_cons⟩
      | opening text => exact ⟨_, true, fun rs => List.flatMap_cons⟩
      | comma => exact ⟨_, false, fun rs => List.flatMap_cons⟩
    obtain ⟨stretch, next, hnext⟩ := hcons p
    obtain ⟨glued', hrest⟩ := ih next
    exact ⟨glued', by rw [List.cons_append, hnext, hnext, hrest, List.append_assoc]⟩

/-- A canonical text ends in no white space and in no semicolon. -/
theorem endsFirm_format {s : Statement} (h : s.WellFormed) : EndsFirm s.format.toList := by
  obtain ⟨qs, p, hpieces, hfirm⟩ := lastFirm_statement h
  obtain ⟨glued, hchars⟩ := Piece.chars_append true qs [p]
  rw [Statement.format, Piece.toList_line, hpieces, hchars]
  exact (hfirm glued).behind _

/-! ## The pieces of a canonical text -/

theorem Heads.firstPiece {kind : TokenKind} {w rest : List Char} (h : Heads kind w rest) :
    firstPiece (w ++ rest) = .ok (kind, w.length) := h _ 0

/-- A text of known lexemes is cut into these and into spaces. -/
theorem Lexes.pieces {cs : List Char} {ws : List Lexeme} (h : Lexes cs ws) :
    ∃ qs, Pieces qs [] ∧ chars qs = cs ∧ ws = qs.filter Lexeme.isVisible ++ [.finish] ∧
      ∀ q ∈ qs, q.isVisible = true ∨ q = ⟨.whitespace, " "⟩ := by
  induction h with
  | finish => exact ⟨[], trivial, rfl, rfl, by simp⟩
  | space hheads _ ih =>
    obtain ⟨qs, hqs, rfl, rfl, hall⟩ := ih
    refine ⟨⟨.whitespace, " "⟩ :: qs, ⟨by simp, ?_, hqs⟩, rfl, rfl, by simpa using hall⟩
    rw [List.append_nil]
    exact hheads.firstPiece
  | @visible kind w _ _ hheads hk hend _ ih =>
    obtain ⟨qs, hqs, rfl, rfl, hall⟩ := ih
    have hv : Lexeme.isVisible ⟨kind, String.ofList w⟩ = true := by simp [Lexeme.isVisible, hk]
    refine ⟨⟨kind, String.ofList w⟩ :: qs, ⟨hend, ?_, hqs⟩, by simp, ?_, by simpa [hv] using hall⟩
    · rw [List.append_nil, String.toList_ofList]
      exact hheads.firstPiece
    · rw [List.filter_cons_of_pos hv, List.cons_append]

/-- The canonical text of a well-formed statement has no comments, nothing unknown and no white
space at its end, and derives the statement. -/
theorem trimmed_format {s : Statement} (h : s.WellFormed) :
    ∃ (qs : List Lexeme) (t : Statement), Trimmed qs ∧ chars qs = s.format.toList ∧
      t.Derives (qs.filter Lexeme.isVisible) ∧ t.plain = s.plain := by
  obtain ⟨ws, t, hw, hderives, hplain⟩ := prints_statement h
  have hlexes : Lexes s.format.toList (ws ++ [.finish]) := by
    rw [Statement.format, Piece.toList_line]
    exact hw.lexes true
  obtain ⟨qs, hqs, hchars, hfilter, hall⟩ := hlexes.pieces
  obtain rfl := List.append_cancel_right hfilter
  refine ⟨qs, t, ⟨hqs, ?_, ?_⟩, hchars, hderives, hplain⟩
  · intro q hq
    rcases hall q hq with hv | rfl
    · refine .inl ⟨hv, fun hunknown => ?_⟩
      have hplace := hderives.placed q (List.mem_filter.mpr ⟨hq, hv⟩)
      simp [hunknown, TokenKind.hasPlace] at hplace
    · exact .inr rfl
  · intro q hq
    rcases hall q (List.mem_of_getLast? hq) with hv | rfl
    · exact hv
    · obtain ⟨us, c, hformat, hwhite, -⟩ := endsFirm_format h
      obtain ⟨rs, rfl⟩ := List.getLast?_eq_some_iff.mp hq
      rw [← hchars, chars_append] at hformat
      have hblank : chars [Lexeme.mk .whitespace " "] = [' '] := rfl
      rw [hblank] at hformat
      obtain ⟨-, hc⟩ := List.append_inj' hformat rfl
      rw [← List.cons.inj hc |>.1] at hwhite
      exact absurd hwhite (by decide)

/-! ## One text for one statement -/

theorem TagOptions.pieces_bare (o : TagOptions) : o.bare.pieces = o.pieces := by
  obtain ⟨version, retain⟩ := o
  cases version <;> cases retain <;> rfl

section
variable {f : Identifier → Identifier} (hf : ∀ i, (f i).value = i.value)
include hf

theorem Identifier.format_apply (i : Identifier) : (f i).format = i.format := by
  simp only [Identifier.format, hf]

theorem Name.format_erase (n : Name) : (n.erase f).format = n.format := by
  simp only [Name.format, Name.erase, List.map_map, Function.comp_def, Identifier.format_apply hf]

theorem Constant.format_erase (c : Constant) : (c.erase f).format = c.format := by
  cases c with
  | boolean value span => cases value <;> rfl
  | typed type value span => simp only [Constant.erase, Constant.format, Identifier.format_apply hf]
  | _ => rfl

theorem Expression.pieces_erase (e : Expression) : (e.erase f).pieces = e.pieces := by
  cases e <;> simp only [Expression.erase, Expression.pieces, listPieces, List.map_map,
    Function.comp_def, Constant.format_erase hf]

theorem Argument.pieces_erase (a : Argument) : (a.erase f).pieces = a.pieces := by
  obtain ⟨name, value⟩ := a
  cases name <;> simp only [Argument.erase, Argument.pieces, Option.map_none, Option.map_some,
    Expression.pieces_erase hf, Identifier.format_apply hf]

theorem TagClause.pieces_erase (c : TagClause) : (c.erase f).pieces = c.pieces := by
  cases c with
  | create ifNotExists name options =>
    have hoptions := options.pieces_bare
    simp only [TagClause.erase, TagClause.pieces, hoptions, Identifier.format_apply hf]
  | replace createIfMissing name options =>
    have hoptions := options.pieces_bare
    simp only [TagClause.erase, TagClause.pieces, hoptions, Identifier.format_apply hf]

theorem Action.pieces_erase (a : Action) :
    (a.erase f).opening = a.opening ∧ (a.erase f).pieces = a.pieces := by
  cases a with
  | call arguments =>
    refine ⟨rfl, ?_⟩
    simp only [Action.erase, Action.pieces, listPieces, List.map_map, Function.comp_def,
      Argument.pieces_erase hf]
  | showTags => exact ⟨rfl, rfl⟩
  | putTag clause => exact ⟨rfl, TagClause.pieces_erase hf clause⟩
  | deleteTag ifExists tag =>
    refine ⟨rfl, ?_⟩
    simp only [Action.erase, Action.pieces, Identifier.format_apply hf]
  | renameTag old new =>
    refine ⟨rfl, ?_⟩
    simp only [Action.erase, Action.pieces, Identifier.format_apply hf]

theorem Statement.format_erase (s : Statement) : (s.erase f).format = s.format := by
  obtain ⟨hopening, hpieces⟩ := Action.pieces_erase hf s.action
  simp only [Statement.format, Statement.pieces, Statement.erase, hopening, hpieces,
    Name.format_erase hf]

end

/-- Neither spans nor ticks make a difference to the canonical text. -/
theorem format_eq_of_plain_eq {s t : Statement} (h : s.plain = t.plain) : s.format = t.format := by
  have hplain (u : Statement) : u.plain.format = u.format :=
    Statement.format_erase (f := Identifier.plain) (fun _ => rfl) u
  rw [← hplain s, ← hplain t, h]

/-! ## White space at the end -/

theorem trimEnd_append_white (cs : List Char) {ds : List Char} (h : ∀ c ∈ ds, isWhite c = true) :
    trimEnd (cs ++ ds) = trimEnd cs := by
  induction cs with
  | nil =>
    rw [List.nil_append]
    induction ds with
    | nil => rfl
    | cons d ds ih =>
      have hnil := ih fun c hc => h c (List.mem_cons_of_mem d hc)
      simp [trimEnd, hnil, h d List.mem_cons_self]
  | cons c cs ih => rw [List.cons_append, trimEnd, trimEnd, ih]

theorem trimEnd_of_endsFirm {cs : List Char} (h : EndsFirm cs) : trimEnd cs = cs := by
  obtain ⟨us, c, rfl, hwhite, -⟩ := h
  induction us with
  | nil => simp [trimEnd, hwhite]
  | cons u us ih => rw [List.cons_append, trimEnd, ih]; cases us <;> rfl

theorem trimEnd_cut (cs : List Char) :
    ∃ ds, cs = trimEnd cs ++ ds ∧ ∀ c ∈ ds, isWhite c = true := by
  induction cs with
  | nil => exact ⟨[], rfl, by simp⟩
  | cons c cs ih =>
    obtain ⟨ds, hcut, hwhite⟩ := ih
    rw [trimEnd]
    split
    · rename_i hnil
      rw [hnil, List.nil_append] at hcut
      subst hcut
      split
      · rename_i hc
        exact ⟨c :: cs, rfl, List.forall_mem_cons.mpr ⟨hc, hwhite⟩⟩
      · exact ⟨cs, rfl, hwhite⟩
    · exact ⟨ds, by rw [List.cons_append, ← hcut], hwhite⟩

/-! ## Canonical texts with blanks behind them -/

theorem blanks_empty : Blanks "" := by simp [Blanks]

/-- Blanks behind a canonical text are one more piece of it, or none. -/
theorem pieces_trailing {qs : List Lexeme} (h : Trimmed qs) {blanks : String} (hb : Blanks blanks) :
    Pieces (qs ++ gapLexemes blanks) [] := by
  refine Pieces.append_iff.mpr ⟨?_, pieces_gap hb (by simp [Unblank])⟩
  rw [chars_gapLexemes, List.append_nil]
  exact h.before_white fun c hc => isWhite_of_isBlank (hb c hc)

/-- A canonical text is read back as its statement, whatever blanks stand behind it. -/
theorem parse_trailing {s : Statement} (h : s.WellFormed) {blanks : String} (hb : Blanks blanks) :
    ∃ t, parse (s.format ++ blanks) = .ok t ∧ t.plain = s.plain := by
  obtain ⟨qs, u, hqs, hchars, hderives, hplain⟩ := trimmed_format h
  have htokens : tokenize (s.format ++ blanks) = .ok ((placed .first
      (qs ++ gapLexemes blanks ++ [.finish])).filter fun t => t.lexeme.isVisible) := by
    refine tokenize_eq_ok.mpr ⟨_, pieces_trailing hqs hb, ?_, rfl⟩
    rw [chars_append, chars_gapLexemes, hchars, String.toList_append]
  have hwhole : u.DerivesWhole (qs.filter Lexeme.isVisible ++ [] ++ [.finish]) :=
    .single hderives (by simp) rfl
  obtain ⟨t, ht, hbare⟩ := (exists_parse_iff htokens u.bare).mpr ⟨u, by
    rwa [lexemes_visible, List.filter_append, List.filter_append, visible_gapLexemes], rfl⟩
  exact ⟨t, ht, (Statement.plain_eq_of_bare_eq hbare).trans hplain⟩

/-- Such a text is formatted to the canonical text alone. -/
theorem format_trailing {s : Statement} (h : s.WellFormed) {blanks : String} (hb : Blanks blanks) :
    format (s.format ++ blanks) = .ok s.format := by
  obtain ⟨t, ht, hplain⟩ := parse_trailing h hb
  rw [format, ht]
  exact congrArg Except.ok (format_eq_of_plain_eq hplain)

theorem check_trailing {s : Statement} (h : s.WellFormed) {blanks : String} (hb : Blanks blanks) :
    check (s.format ++ blanks) = .ok true := by
  have htrim : trimEnd (s.format ++ blanks).toList = s.format.toList := by
    rw [String.toList_append, trimEnd_append_white _ fun c hc => isWhite_of_isBlank (hb c hc),
      trimEnd_of_endsFirm (endsFirm_format h)]
  rw [check, format_trailing h hb]
  simp only [htrim, beq_self_eq_true]

/-! ## One text for one cut -/

/-- A text has one cut into pieces: one that starts with known pieces starts with just these. -/
theorem Pieces.start {qs rs : List Lexeme} {rest : List Char} (hq : Pieces qs rest)
    (hr : Pieces rs []) (hchars : chars rs = chars qs ++ rest) :
    ∃ rs', rs = qs ++ rs' ∧ Pieces rs' [] ∧ chars rs' = rest := by
  induction qs generalizing rs with
  | nil => exact ⟨rs, rfl, hr, hchars⟩
  | cons q qs ih =>
    have hne := hq.text_ne_nil List.mem_cons_self
    obtain ⟨-, hpiece, hq'⟩ := hq
    cases rs with
    | nil => simp [hne] at hchars
    | cons r rs =>
      obtain ⟨-, hpiece', hr'⟩ := hr
      rw [List.append_nil] at hpiece'
      simp only [chars_cons, List.append_assoc] at hchars
      rw [hchars, hpiece, Except.ok.injEq, Prod.mk.injEq] at hpiece'
      obtain ⟨hkind, hlength⟩ := hpiece'
      obtain ⟨htext, hrest⟩ := List.append_inj hchars hlength.symm
      obtain ⟨rs', rfl, htail⟩ := ih hq' hr' hrest
      have hsame : r = q := by
        cases q; cases r
        simp only [Lexeme.mk.injEq]
        exact ⟨hkind.symm, String.toList_inj.mp htext⟩
      exact ⟨rs', by rw [hsame, List.cons_append], htail⟩

/-- A text that the check calls canonical is a canonical text with blanks behind it. -/
theorem exists_of_check {text : String} (h : check text = .ok true) :
    ∃ (s : Statement) (blanks : String), s.WellFormed ∧ Blanks blanks ∧
      text = s.format ++ blanks := by
  rcases hparse : parse text with e | s
  · simp [check, format, hparse] at h
  have hwell := wellFormed_of_parse hparse
  have htrim : s.format.toList = trimEnd text.toList := by
    simpa [check, format, hparse] using h
  obtain ⟨ds, hcut, hwhite⟩ := trimEnd_cut text.toList
  rw [← htrim] at hcut
  refine ⟨s, String.ofList ds, hwell, ?_, ?_⟩
  · -- The white space behind the canonical text is a part of the parsed text, which has no
    -- unknown characters in it.
    rcases htokens : tokenize text with e | tokens
    · simp [parse, htokens] at hparse
    obtain ⟨rs, hrs, hchars, -⟩ := tokenize_eq_ok.mp htokens
    have hknown := known_of_parse hparse hrs hchars
    obtain ⟨qs, -, hqs, hqchars, -⟩ := trimmed_format hwell
    obtain ⟨rs', rfl, hpieces, hrest⟩ := (hqs.before_white hwhite).start hrs
      (by rw [hchars, hqchars, hcut])
    have hblank := blank_of_pieces hpieces (by rwa [hrest]) fun r hr =>
      hknown r (List.mem_append_right _ hr)
    rw [hrest] at hblank
    rwa [Blanks, String.toList_ofList]
  · rw [← String.toList_inj, String.toList_append, String.toList_ofList, hcut]

/-! ## The law -/

/-- The check tells canonical texts from all others, and formatting once is enough. A text is
canonical just when it is the canonical text of a well-formed statement with blanks behind it.
What a text that parses is formatted to is canonical, and formatting it again changes
nothing. A canonical text has no semicolon at its end, no white space there but blanks, and no
comment anywhere. -/
theorem the_check_accepts_exactly_the_canonical_texts :
    (∀ text, check text = .ok true ↔
      ∃ (s : Statement) (blanks : String), s.WellFormed ∧ Blanks blanks ∧
        text = s.format ++ blanks) ∧
    (∀ text s, parse text = .ok s → ∃ canonical, format text = .ok canonical ∧
      format canonical = .ok canonical ∧ check canonical = .ok true) ∧
    ∀ text, check text = .ok true →
      (trimEnd text.toList).getLast? ≠ some ';' ∧
      (∀ c ∈ text.toList.getLast?, isWhite c = true → isBlank c = true) ∧
      ∃ tokens, tokenizeAll text = .ok tokens ∧
        ∀ t ∈ tokens, t.kind ≠ .lineComment ∧ t.kind ≠ .blockComment := by
  refine ⟨fun text => ⟨exists_of_check, ?_⟩, ?_, ?_⟩
  · rintro ⟨s, blanks, hs, hb, rfl⟩
    exact check_trailing hs hb
  · intro text s h
    have hs := wellFormed_of_parse h
    have hformat := format_trailing hs blanks_empty
    have hcheck := check_trailing hs blanks_empty
    rw [String.append_empty] at hformat hcheck
    exact ⟨s.format, by rw [format, h], hformat, hcheck⟩
  · intro text h
    obtain ⟨s, blanks, hs, hb, rfl⟩ := exists_of_check h
    obtain ⟨us, c, hchars, hwhite, hsemicolon⟩ := endsFirm_format hs
    refine ⟨?_, ?_, ?_⟩
    · rw [String.toList_append, trimEnd_append_white _ fun c hc => isWhite_of_isBlank (hb c hc),
        trimEnd_of_endsFirm (endsFirm_format hs), hchars]
      simpa using hsemicolon
    · intro d hd hd'
      rw [String.toList_append] at hd
      by_cases hnil : blanks.toList = []
      · rw [hnil, List.append_nil, hchars] at hd
        obtain rfl : c = d := by simpa using hd
        simp [hwhite] at hd'
      · rw [List.getLast?_append_of_ne_nil _ hnil] at hd
        exact hb d (List.mem_of_getLast? hd)
    · obtain ⟨qs, -, hqs, hqchars, -⟩ := trimmed_format hs
      refine ⟨_, tokenizeAll_eq_ok.mpr ⟨_, pieces_trailing hqs hb, ?_, rfl⟩, ?_⟩
      · rw [chars_append, chars_gapLexemes, hqchars, String.toList_append]
      · intro t ht
        obtain ⟨vs, ws, hcut, -⟩ := mem_placed ht
        have hmem : t.lexeme ∈ qs ++ gapLexemes blanks ++ [.finish] := by
          rw [hcut]
          simp
        have hkind (w : Lexeme) (hw : w ∈ qs ++ gapLexemes blanks ++ [.finish]) :
            w.kind ≠ .lineComment ∧ w.kind ≠ .blockComment := by
          rcases List.mem_append.mp hw with hw | hw
          · rcases List.mem_append.mp hw with hw | hw
            · rcases hqs.visible w hw with ⟨hv, -⟩ | hspace
              · constructor <;> intro hk <;> simp [Lexeme.isVisible, hk, TokenKind.isHidden] at hv
              · simp [hspace]
            · unfold gapLexemes at hw
              split at hw
              · exact absurd hw List.not_mem_nil
              · simp [List.mem_singleton.mp hw]
          · simp [List.mem_singleton.mp hw, Lexeme.finish]
        exact hkind _ hmem

/-- A statement with a line feed behind it is canonical. -/
theorem a_canonical_text_may_end_in_a_line_feed :
    check "SHOW TAGS t\n" = .ok true ∧
    (∃ canonical, format "SHOW TAGS t\n" = .ok canonical ∧ format canonical = .ok canonical ∧
      check canonical = .ok true) ∧
    ∃ tokens, tokenizeAll "SHOW TAGS t\n" = .ok tokens ∧
      ∀ t ∈ tokens, t.kind ≠ .lineComment ∧ t.kind ≠ .blockComment := by
  have hwell : (⟨⟨[⟨"t", false, .origin⟩], .origin⟩, .showTags, .origin⟩ : Statement).WellFormed :=
    ⟨List.cons_ne_nil _ _, trivial⟩
  have hblank : Blanks "\n" := by simp [Blanks, isBlank]
  have hcheck := (the_check_accepts_exactly_the_canonical_texts.1 "SHOW TAGS t\n").mpr
    ⟨_, "\n", hwell, hblank, rfl⟩
  obtain ⟨s, hs, -⟩ := parse_trailing hwell hblank
  exact ⟨hcheck, the_check_accepts_exactly_the_canonical_texts.2.1 _ s hs,
    (the_check_accepts_exactly_the_canonical_texts.2.2 _ hcheck).2.2⟩

end TagDialect
