-- The rules for whole statements against the grammar, and with them the law of
-- the parser: it accepts what the grammar derives, with the derived value.
import TagDialect.Proofs.RuleReadings
import TagDialect.Proofs.LexerRuns

namespace TagDialect

namespace Parse

/-! ## Options of a tag -/

theorem timeUnit_reads :
    Reads timeUnit id
      (fun ws unit => ∃ u : Lexeme, u.kind = .keyword unit.keyword ∧ ws = [u]) fun _ => True where
  sound := by
    intro c d unit hc h
    unfold timeUnit Rule.timeUnit at h
    rw [look_bind] at h
    have hword {u : TimeUnit} (hk : c.kind = .keyword u.keyword)
        (h : (advance >>= fun _ => Pure.pure u) c = .ok unit d) :
        ∃ ws, (∃ w : Lexeme, w.kind = .keyword unit.keyword ∧ ws = [w]) ∧ Passes c ws d := by
      obtain ⟨t, e, ht, h⟩ := bind_eq_ok.mp h
      obtain ⟨rfl, rfl⟩ := pure_eq_ok.mp h
      exact ⟨_, ⟨c.current.lexeme, hk, rfl⟩, (advance_sound hc (by simp [hk]) ht).2⟩
    generalize hk : c.kind = kind at h
    split at h
    · exact @hword .days hk h
    · exact @hword .hours hk h
    · exact @hword .minutes hk h
    · exact absurd h fail_ne_ok
  complete := by
    rintro c ws rest unit hc hcut ⟨u, hu, rfl⟩ -
    obtain ⟨-, hrest⟩ := Cursor.advance_of_lexemes hcut
    have hkind : c.kind = .keyword unit.keyword := (kind_of_lexemes hcut).trans hu
    refine ⟨unit, rfl, c.advance, ?_, hrest⟩
    unfold timeUnit Rule.timeUnit
    rw [look_bind, hkind]
    cases unit <;> rfl

theorem version_reads :
    Reads version (Option.map Number.bare) TagOptions.DeriveVersion
      fun kind => kind ≠ .keyword .as where
  sound := by
    intro c d v hc h
    obtain ⟨present, e, hpresent, hbody⟩ := bind_eq_ok.mp h
    rcases consume_sound hc (by simp) hpresent with ⟨rfl, w, hw, hpass⟩ | ⟨rfl, rfl⟩
    · obtain ⟨u, e', hu, hbody⟩ := bind_eq_ok.mp hbody
      obtain ⟨n, e'', hn, hbody⟩ := bind_eq_ok.mp hbody
      obtain ⟨rfl, rfl⟩ := pure_eq_ok.mp hbody
      obtain ⟨ks, hks, hpass'⟩ := expectAll_sound hpass.finished (by simp) hu
      obtain ⟨ws, hws, hpass''⟩ := number_reads.sound hpass'.finished hn
      have hspell : Spell [.keyword .as, .keyword .of, .keyword .version] (w :: ks) := by
        simpa [Spell, hw] using hks
      exact ⟨_, .some hspell hws, (hpass.trans hpass').trans hpass''⟩
    · obtain ⟨rfl, rfl⟩ := pure_eq_ok.mp hbody
      exact ⟨[], .none, .refl hc⟩
  complete := by
    intro c ws rest v hc hcut h hf
    cases h with
    | none =>
      obtain ⟨d, hd, hrest⟩ := yields_consume_false hc hcut hf
      exact ⟨none, rfl, d, bind_eq_ok.mpr ⟨false, d, hd, rfl⟩, hrest⟩
    | some hk hn =>
      rename_i ks ws n
      cases ks with
      | nil => simp [Spell] at hk
      | cons k ks =>
        simp only [Spell, List.map_cons, List.cons.injEq] at hk
        simp only [List.cons_append, List.append_assoc] at hcut
        obtain ⟨d, hd, hdcut⟩ := yields_consume hcut hk.1
        obtain ⟨e, he, hecut⟩ := yields_expectAll hdcut (show Spell _ ks from hk.2)
        obtain ⟨b, hb, e', he', hrest⟩ := number_reads.complete hc hecut hn trivial
        refine ⟨some b, by rw [Option.map_some, Option.map_some, hb], e', ?_, hrest⟩
        apply bind_of_ok hd
        apply bind_of_ok he
        apply bind_of_ok he'
        rfl

theorem retention_reads :
    Reads retention (Option.map Retention.bare) TagOptions.DeriveRetain
      fun kind => kind ≠ .keyword .retain where
  sound := by
    intro c d r hc h
    obtain ⟨present, e, hpresent, hbody⟩ := bind_eq_ok.mp h
    rcases consume_sound hc (by simp) hpresent with ⟨rfl, w, hw, hpass⟩ | ⟨rfl, rfl⟩
    · obtain ⟨n, e', hn, hbody⟩ := bind_eq_ok.mp hbody
      obtain ⟨unit, e'', hunit, hbody⟩ := bind_eq_ok.mp hbody
      obtain ⟨rfl, rfl⟩ := pure_eq_ok.mp hbody
      obtain ⟨ws, hws, hpass'⟩ := number_reads.sound hpass.finished hn
      obtain ⟨_, ⟨u, hu, rfl⟩, hpass''⟩ := timeUnit_reads.sound hpass'.finished hunit
      exact ⟨_, .some hw hws hu, (hpass.trans hpass').trans hpass''⟩
    · obtain ⟨rfl, rfl⟩ := pure_eq_ok.mp hbody
      exact ⟨[], .none, .refl hc⟩
  complete := by
    intro c ws rest r hc hcut h hf
    cases h with
    | none =>
      obtain ⟨d, hd, hrest⟩ := yields_consume_false hc hcut hf
      exact ⟨none, rfl, d, bind_eq_ok.mpr ⟨false, d, hd, rfl⟩, hrest⟩
    | some hk hn hu =>
      rename_i k u ws n unit
      simp only [List.cons_append, List.append_assoc] at hcut
      obtain ⟨d, hd, hdcut⟩ := yields_consume hcut hk
      obtain ⟨b, hb, e, he, hecut⟩ := number_reads.complete (hc.append [u]) hdcut hn trivial
      obtain ⟨unit', hunit, e', he', hrest⟩ :=
        timeUnit_reads.complete hc hecut ⟨u, hu, rfl⟩ trivial
      obtain rfl : unit' = unit := hunit
      refine ⟨some ⟨b, unit'⟩, by simp only [Option.map_some, Retention.bare, hb], e', ?_, hrest⟩
      apply bind_of_ok hd
      apply bind_of_ok he
      apply bind_of_ok he'
      rfl

theorem tagOptions_reads :
    Reads tagOptions TagOptions.bare TagOptions.Derives
      fun kind => kind ≠ .keyword .as ∧ kind ≠ .keyword .retain where
  sound := by
    intro c d o hc h
    obtain ⟨v, e, hv, h⟩ := bind_eq_ok.mp h
    obtain ⟨r, e', hr, h⟩ := bind_eq_ok.mp h
    obtain ⟨rfl, rfl⟩ := pure_eq_ok.mp h
    obtain ⟨ws, hws, hpass⟩ := version_reads.sound hc hv
    obtain ⟨vs, hvs, hpass'⟩ := retention_reads.sound hpass.finished hr
    exact ⟨_, .options hws hvs, hpass.trans hpass'⟩
  complete := by
    intro c ws rest o hc hcut h hf
    cases h with
    | options hv hr =>
      rename_i ws vs v r
      have hnext : kindAt (vs ++ rest) 0 ≠ .keyword .as := by
        cases hr with
        | none => exact hf.1
        | some hk _ _ => simp [hk]
      rw [List.append_assoc] at hcut
      obtain ⟨b, hb, d, hd, hdcut⟩ := version_reads.complete (hc.append vs) hcut hv hnext
      obtain ⟨b', hb', e, he, hrest⟩ := retention_reads.complete hc hdcut hr hf.2
      refine ⟨⟨b, b'⟩, by simp only [TagOptions.bare, hb, hb'], e, ?_, hrest⟩
      apply bind_of_ok hd
      apply bind_of_ok he
      rfl

/-! ## What is done to tags -/

/-- The kinds that come behind a statement. -/
def EndsStatement (kind : TokenKind) : Prop := kind = .semicolon ∨ kind = .endOfInput

theorem EndsStatement.ne_keyword {kind : TokenKind} (h : EndsStatement kind) (k : Keyword) :
    kind ≠ .keyword k := by
  rcases h with rfl | rfl <;> simp

/-- The name of a tag and its options, with the word `TAG` before them. -/
inductive DerivesReplaced (createIfMissing : Bool) : List Lexeme → TagClause → Prop
  | clause {t : Lexeme} {ws vs : List Lexeme} {name : Identifier} {options : TagOptions}
      (ht : t.kind = .keyword .tag) (hn : name.Derives ws) (ho : options.Derives vs) :
      DerivesReplaced createIfMissing (t :: (ws ++ vs)) (.replace createIfMissing name options)

theorem replaceTag_reads (createIfMissing : Bool) :
    Reads (replaceTag createIfMissing) (TagClause.erase Identifier.bare)
      (DerivesReplaced createIfMissing) EndsStatement where
  sound := by
    intro c d x hc h
    obtain ⟨t, e, ht, h⟩ := bind_eq_ok.mp h
    obtain ⟨i, e', hi, h⟩ := bind_eq_ok.mp h
    obtain ⟨o, e'', ho, h⟩ := bind_eq_ok.mp h
    obtain ⟨rfl, rfl⟩ := pure_eq_ok.mp h
    obtain ⟨hk, hpass⟩ := expect_sound hc (by simp) ht
    obtain ⟨ws, hws, hpass'⟩ := identifier_reads.sound hpass.finished hi
    obtain ⟨vs, hvs, hpass''⟩ := tagOptions_reads.sound hpass'.finished ho
    exact ⟨_, .clause (t := t.lexeme) hk hws hvs, hpass.trans (hpass'.trans hpass'')⟩
  complete := by
    intro c ws rest x hc hcut h hf
    cases h with
    | clause ht hn ho =>
      rename_i t ws vs name options
      rw [List.cons_append, List.append_assoc] at hcut
      obtain ⟨t', -, d, hd, hdcut⟩ := yields_expect hcut ht
      obtain ⟨i, hi, e, he, hecut⟩ := identifier_reads.complete (hc.append vs) hdcut hn trivial
      obtain ⟨o, ho, e', he', hrest⟩ :=
        tagOptions_reads.complete hc hecut ho ⟨hf.ne_keyword _, hf.ne_keyword _⟩
      refine ⟨.replace createIfMissing i o, by simp only [TagClause.erase, hi, ho], e', ?_, hrest⟩
      apply bind_of_ok hd
      apply bind_of_ok he
      apply bind_of_ok he'
      rfl

/-- Behind a tag's name comes one of its options, or the end of the statement. -/
theorem kindAt_of_options {ws rest : List Lexeme} {o : TagOptions} (h : o.Derives ws)
    (hf : EndsStatement (kindAt rest 0)) {k : Keyword} (has : k ≠ .as) (hretain : k ≠ .retain) :
    kindAt (ws ++ rest) 0 ≠ .keyword k := by
  obtain ⟨hv, hr⟩ := h
  cases hv with
  | none =>
    cases hr with
    | none => exact hf.ne_keyword k
    | some hk _ _ => simpa [hk] using hretain.symm
  | some hk _ =>
    obtain ⟨w, ws, rfl, hw, -⟩ := List.map_eq_cons_iff.mp hk
    simpa [hw] using has.symm

/-- What comes behind `CREATE`, which is the lexeme `k`. -/
theorem createTag_reads {k : Lexeme} (hk : k.kind = .keyword .create) :
    Reads createTag (TagClause.erase Identifier.bare)
      (fun ws clause => TagClause.Derives (k :: ws) clause) EndsStatement where
  sound := by
    intro c d x hc h
    obtain ⟨orReplace, e, hor, hbody⟩ := bind_eq_ok.mp h
    rcases consume_sound hc (by simp) hor with ⟨rfl, o, ho, hpass⟩ | ⟨rfl, rfl⟩
    · obtain ⟨r, e', hr, hbody⟩ := bind_eq_ok.mp hbody
      obtain ⟨hrk, hpass'⟩ := expect_sound hpass.finished (by simp) hr
      obtain ⟨us, hus, hpass''⟩ := (replaceTag_reads true).sound hpass'.finished hbody
      refine ⟨_, ?_, (hpass.trans hpass').trans hpass''⟩
      cases hus with
      | @clause t ws vs name options ht hn hopt =>
        have hreplace : Spell [.keyword .replace, .keyword .tag] [r.lexeme, t] := .pair hrk ht
        simpa using TagClause.Derives.replace (.present (.pair hk ho)) hreplace hn hopt
    · obtain ⟨tag, e', htag, hclause⟩ := bind_eq_ok.mp hbody
      rcases consume_sound hc (by simp) htag with ⟨rfl, t, ht, hpass⟩ | ⟨rfl, rfl⟩
      · obtain ⟨b, e'', hb, hbody⟩ := bind_eq_ok.mp hclause
        obtain ⟨i, c₁, hi, hbody⟩ := bind_eq_ok.mp hbody
        obtain ⟨o, c₂, ho, hbody⟩ := bind_eq_ok.mp hbody
        obtain ⟨rfl, rfl⟩ := pure_eq_ok.mp hbody
        obtain ⟨cs, hcs, hpass'⟩ := consumeAll_sound hpass.finished (by simp) hb
        obtain ⟨ws, hws, hpass₁⟩ := identifier_reads.sound hpass'.finished hi
        obtain ⟨vs, hvs, hpass₂⟩ := tagOptions_reads.sound hpass₁.finished ho
        exact ⟨_, .create (.pair hk ht) hcs hws hvs, ((hpass.trans hpass').trans hpass₁).trans hpass₂⟩
      · exact absurd hclause fail_ne_ok
  complete := by
    intro c ws rest x hc hcut h hf
    generalize hall : k :: ws = us at h
    cases h with
    | create hks hcs hn ho =>
      rename_i ks cs vs os ifNotExists name options
      obtain ⟨x, t, rfl, -, ht⟩ := hks.two
      simp only [List.cons_append, List.nil_append, List.cons.injEq] at hall
      obtain ⟨rfl, rfl⟩ := hall
      simp only [List.cons_append, List.append_assoc] at hcut
      -- `IF` names the tag when `NOT` does not come behind it.
      have hnot : (List.range 3).map (kindAt (vs ++ (os ++ rest))) ≠
          [.keyword .if, .keyword .not, .keyword .exists] := by
        obtain ⟨v, rfl, -⟩ := derives_identifier hn
        intro hkinds
        have hsecond := congrArg (·[1]?) hkinds
        simp only [List.range_succ_eq_map, List.range_zero] at hsecond
        simp only [List.map_cons, List.getElem?_cons_succ, List.getElem?_cons_zero,
          Option.some.injEq, List.singleton_append] at hsecond
        exact kindAt_of_options ho hf (by simp) (by simp) hsecond
      have hor : kindAt (t :: (cs ++ (vs ++ (os ++ rest)))) 0 ≠ .keyword .or := by simp [ht]
      obtain ⟨c₁, hc₁, hcut₁⟩ := yields_consume_false
        ((((hc.append os).append vs).append cs).append [t]) hcut hor
      obtain ⟨c₂, hc₂, hcut₂⟩ := yields_consume hcut₁ ht
      obtain ⟨c₃, hc₃, hcut₃⟩ := yields_consumeAll ((hc.append os).append vs) hcut₂ hcs hnot
      obtain ⟨i, hi, c₄, hc₄, hcut₄⟩ := identifier_reads.complete (hc.append os) hcut₃ hn trivial
      obtain ⟨o, ho, c₅, hc₅, hrest⟩ :=
        tagOptions_reads.complete hc hcut₄ ho ⟨hf.ne_keyword _, hf.ne_keyword _⟩
      refine ⟨.create ifNotExists i o, by simp only [TagClause.erase, hi, ho], c₅, ?_, hrest⟩
      apply bind_of_ok hc₁
      apply bind_of_ok hc₂
      apply bind_of_ok hc₃
      apply bind_of_ok hc₄
      apply bind_of_ok hc₅
      rfl
    | replace hcs hks hn ho =>
      rename_i cs ks vs os createIfMissing name options
      obtain ⟨r, t, rfl, hr, ht⟩ := hks.two
      cases hcs with
      | absent =>
        simp only [List.cons_append, List.nil_append, List.cons.injEq] at hall
        obtain ⟨rfl, -⟩ := hall
        rw [hr] at hk
        simp at hk
      | present hcs =>
        obtain ⟨x, w, rfl, -, hw⟩ := hcs.two
        simp only [List.cons_append, List.nil_append, List.cons.injEq] at hall
        obtain ⟨rfl, rfl⟩ := hall
        obtain ⟨c₁, hc₁, hcut₁⟩ := yields_consume hcut hw
        obtain ⟨r', -, c₂, hc₂, hcut₂⟩ := yields_expect hcut₁ hr
        obtain ⟨b, hb, c₃, hc₃, hrest⟩ :=
          (replaceTag_reads true).complete hc hcut₂ (.clause ht hn ho) hf
        refine ⟨b, hb, c₃, ?_, hrest⟩
        apply bind_of_ok hc₁
        apply bind_of_ok hc₂
        exact hc₃

theorem tagAction_sound {c d : Cursor} {a : Action} (hc : Finished c.lexemes)
    (h : tagAction c = .ok a d) : ∃ ws, a.DeriveTagAction ws ∧ Passes c ws d := by
  unfold tagAction Rule.tagAction at h
  rw [look_bind] at h
  generalize hk : c.kind = kind at h
  have hfirst : kind ≠ .endOfInput → Passes c [c.current.lexeme] c.advance := by
    intro hne
    exact .advance hc (hk ▸ hne)
  split at h
  · obtain ⟨t, e, ht, h⟩ := bind_eq_ok.mp h
    obtain ⟨x, e', hx, h⟩ := bind_eq_ok.mp h
    obtain ⟨rfl, rfl⟩ := pure_eq_ok.mp h
    obtain ⟨-, rfl⟩ := advance_eq_ok.mp ht
    have hpass := hfirst (by simp)
    obtain ⟨ws, hws, hpass'⟩ := (createTag_reads (k := c.current.lexeme) hk).sound hpass.finished hx
    exact ⟨_, .putTag hws, hpass.trans hpass'⟩
  · obtain ⟨t, e, ht, h⟩ := bind_eq_ok.mp h
    obtain ⟨x, e', hx, h⟩ := bind_eq_ok.mp h
    obtain ⟨rfl, rfl⟩ := pure_eq_ok.mp h
    obtain ⟨-, rfl⟩ := advance_eq_ok.mp ht
    have hpass := hfirst (by simp)
    obtain ⟨us, hus, hpass'⟩ := (replaceTag_reads false).sound hpass.finished hx
    refine ⟨_, ?_, hpass.trans hpass'⟩
    cases hus with
    | @clause t ws vs name options ht hn ho =>
      have hreplace : Spell [.keyword .replace, .keyword .tag] [c.current.lexeme, t] := .pair hk ht
      simpa using Action.DeriveTagAction.putTag (.replace .absent hreplace hn ho)
  · obtain ⟨t, e, ht, h⟩ := bind_eq_ok.mp h
    obtain ⟨-, rfl⟩ := advance_eq_ok.mp ht
    obtain ⟨u, e', hu, h⟩ := bind_eq_ok.mp h
    obtain ⟨b, c₁, hb, h⟩ := bind_eq_ok.mp h
    obtain ⟨i, c₂, hi, h⟩ := bind_eq_ok.mp h
    obtain ⟨rfl, rfl⟩ := pure_eq_ok.mp h
    have hpass := hfirst (by simp)
    obtain ⟨huk, hpass'⟩ := expect_sound hpass.finished (by simp) hu
    obtain ⟨cs, hcs, hpass₁⟩ := consumeAll_sound hpass'.finished (by simp) hb
    obtain ⟨ws, hws, hpass₂⟩ := identifier_reads.sound hpass₁.finished hi
    have hdelete : Spell [.keyword .delete, .keyword .tag] [c.current.lexeme, u.lexeme] :=
      .pair hk huk
    exact ⟨_, .deleteTag hdelete hcs hws, ((hpass.trans hpass').trans hpass₁).trans hpass₂⟩
  · obtain ⟨t, e, ht, h⟩ := bind_eq_ok.mp h
    obtain ⟨-, rfl⟩ := advance_eq_ok.mp ht
    obtain ⟨u, e', hu, h⟩ := bind_eq_ok.mp h
    obtain ⟨i, c₁, hi, h⟩ := bind_eq_ok.mp h
    obtain ⟨v, c₂, hv, h⟩ := bind_eq_ok.mp h
    obtain ⟨j, c₃, hj, h⟩ := bind_eq_ok.mp h
    obtain ⟨rfl, rfl⟩ := pure_eq_ok.mp h
    have hpass := hfirst (by simp)
    obtain ⟨huk, hpass'⟩ := expect_sound hpass.finished (by simp) hu
    obtain ⟨ws, hws, hpass₁⟩ := identifier_reads.sound hpass'.finished hi
    obtain ⟨hvk, hpass₂⟩ := expect_sound hpass₁.finished (by simp) hv
    obtain ⟨vs, hvs, hpass₃⟩ := identifier_reads.sound hpass₂.finished hj
    have hrename : Spell [.keyword .rename, .keyword .tag] [c.current.lexeme, u.lexeme] :=
      .pair hk huk
    exact ⟨_, .renameTag (t := v.lexeme) hrename hws hvk hvs,
      ((hpass.trans hpass').trans hpass₁).trans (hpass₂.trans hpass₃)⟩
  · exact absurd h fail_ne_ok

/-- A clause starts with `CREATE`, or with `REPLACE` and what comes behind that. -/
theorem derives_clause_cases {ws : List Lexeme} {clause : TagClause} (h : clause.Derives ws) :
    ∃ k us, ws = k :: us ∧ (k.kind = .keyword .create ∨
      k.kind = .keyword .replace ∧ DerivesReplaced false us clause) := by
  cases h with
  | create hks _ _ _ =>
    obtain ⟨x, y, rfl, hx, -⟩ := hks.two
    exact ⟨x, _, rfl, .inl hx⟩
  | replace hcs hks hn ho =>
    obtain ⟨r, t, rfl, hr, ht⟩ := hks.two
    cases hcs with
    | absent => exact ⟨r, _, rfl, .inr ⟨hr, .clause ht hn ho⟩⟩
    | present hcs =>
      obtain ⟨x, y, rfl, hx, -⟩ := hcs.two
      exact ⟨x, _, rfl, .inl hx⟩

theorem tagAction_complete {c : Cursor} {ws rest : List Lexeme} {a : Action}
    (hc : Finished rest) (hcut : c.lexemes = ws ++ rest) (h : a.DeriveTagAction ws)
    (hf : EndsStatement (kindAt rest 0)) :
    ∃ b, b.erase Identifier.bare = a.erase Identifier.bare ∧ Yields tagAction c b rest := by
  cases h with
  | putTag h =>
    obtain ⟨k, us, rfl, hcreate | ⟨hreplace, hus⟩⟩ := derives_clause_cases h
    · obtain ⟨t, -, d, hd, hdcut⟩ := yields_advance hcut
      obtain ⟨b, hb, e, he, hrest⟩ := (createTag_reads hcreate).complete hc hdcut h hf
      refine ⟨.putTag b, by simp only [Action.erase, hb], e, ?_, hrest⟩
      unfold tagAction Rule.tagAction
      rw [look_bind, kind_of_lexemes hcut, hcreate]
      apply bind_of_ok hd
      apply bind_of_ok he
      rfl
    · obtain ⟨t, -, d, hd, hdcut⟩ := yields_advance hcut
      obtain ⟨b, hb, e, he, hrest⟩ := (replaceTag_reads false).complete hc hdcut hus hf
      refine ⟨.putTag b, by simp only [Action.erase, hb], e, ?_, hrest⟩
      unfold tagAction Rule.tagAction
      rw [look_bind, kind_of_lexemes hcut, hreplace]
      apply bind_of_ok hd
      apply bind_of_ok he
      rfl
  | deleteTag hks hcs hn =>
    rename_i ks cs ws ifExists tag
    obtain ⟨x, y, rfl, hx, hy⟩ := hks.two
    simp only [List.cons_append, List.append_assoc, List.nil_append] at hcut
    -- `IF` names the tag when `EXISTS` does not come behind it.
    have hnot : (List.range 2).map (kindAt (ws ++ rest)) ≠ [.keyword .if, .keyword .exists] := by
      obtain ⟨v, rfl, -⟩ := derives_identifier hn
      intro hkinds
      have hsecond : some (kindAt rest 0) = some (.keyword .exists) := congrArg (·[1]?) hkinds
      exact hf.ne_keyword _ (Option.some.inj hsecond)
    obtain ⟨t, -, c₁, hc₁, hcut₁⟩ := yields_advance hcut
    obtain ⟨u, -, c₂, hc₂, hcut₂⟩ := yields_expect hcut₁ hy
    obtain ⟨c₃, hc₃, hcut₃⟩ := yields_consumeAll (hc.append ws) hcut₂ hcs hnot
    obtain ⟨i, hi, c₄, hc₄, hrest⟩ := identifier_reads.complete hc hcut₃ hn trivial
    refine ⟨.deleteTag ifExists i, by simp only [Action.erase, hi], c₄, ?_, hrest⟩
    unfold tagAction Rule.tagAction
    rw [look_bind, kind_of_lexemes hcut, hx]
    apply bind_of_ok hc₁
    apply bind_of_ok hc₂
    apply bind_of_ok hc₃
    apply bind_of_ok hc₄
    rfl
  | renameTag hks ho ht hn =>
    rename_i ks ws vs w old new
    obtain ⟨x, y, rfl, hx, hy⟩ := hks.two
    simp only [List.cons_append, List.append_assoc, List.nil_append] at hcut
    obtain ⟨t, -, c₁, hc₁, hcut₁⟩ := yields_advance hcut
    obtain ⟨u, -, c₂, hc₂, hcut₂⟩ := yields_expect hcut₁ hy
    obtain ⟨i, hi, c₃, hc₃, hcut₃⟩ :=
      identifier_reads.complete (hc.append (w :: vs)) hcut₂ ho trivial
    obtain ⟨v, -, c₄, hc₄, hcut₄⟩ := yields_expect hcut₃ ht
    obtain ⟨j, hj, c₅, hc₅, hrest⟩ := identifier_reads.complete hc hcut₄ hn trivial
    refine ⟨.renameTag i j, by simp only [Action.erase, hi, hj], c₅, ?_, hrest⟩
    unfold tagAction Rule.tagAction
    rw [look_bind, kind_of_lexemes hcut, hx]
    apply bind_of_ok hc₁
    apply bind_of_ok hc₂
    apply bind_of_ok hc₃
    apply bind_of_ok hc₄
    apply bind_of_ok hc₅
    rfl

theorem tagAction_reads :
    Reads tagAction (Action.erase Identifier.bare) (fun ws a => a.DeriveTagAction ws)
      EndsStatement :=
  ⟨tagAction_sound, tagAction_complete⟩

/-! ## Statements -/

theorem statement_sound {c d : Cursor} {s : Statement} (hc : Finished c.lexemes)
    (h : statement c = .ok s d) : ∃ ws, s.Derives ws ∧ Passes c ws d := by
  unfold statement Rule.statement at h
  rw [look_bind, look_bind] at h
  generalize hk : c.kind = kind at h
  split at h
  · obtain ⟨t, e, ht, h⟩ := bind_eq_ok.mp h
    obtain ⟨n, e', hn, h⟩ := bind_eq_ok.mp h
    obtain ⟨as, e'', has, h⟩ := bind_eq_ok.mp h
    rw [spanFrom_bind, pure_eq_ok] at h
    obtain ⟨rfl, rfl⟩ := h
    obtain ⟨-, hpass⟩ := advance_sound hc (by simp [hk]) ht
    obtain ⟨ws, hws, hpass'⟩ := name_reads.sound hpass.finished hn
    obtain ⟨vs, hvs, hpass''⟩ := arguments_reads.sound hpass'.finished has
    exact ⟨_, .call (k := c.current.lexeme) hk hws hvs, (hpass.trans hpass').trans hpass''⟩
  · obtain ⟨u, e, hu, h⟩ := bind_eq_ok.mp h
    obtain ⟨n, e', hn, h⟩ := bind_eq_ok.mp h
    rw [spanFrom_bind, pure_eq_ok] at h
    obtain ⟨rfl, rfl⟩ := h
    obtain ⟨ks, hks, hpass⟩ := expectAll_sound hc (by simp) hu
    obtain ⟨ws, hws, hpass'⟩ := name_reads.sound hpass.finished hn
    exact ⟨_, .showTags hks hws, hpass.trans hpass'⟩
  · obtain ⟨u, e, hu, h⟩ := bind_eq_ok.mp h
    obtain ⟨n, e', hn, h⟩ := bind_eq_ok.mp h
    obtain ⟨a, e'', ha, h⟩ := bind_eq_ok.mp h
    rw [spanFrom_bind, pure_eq_ok] at h
    obtain ⟨rfl, rfl⟩ := h
    obtain ⟨ks, hks, hpass⟩ := expectAll_sound hc (by simp) hu
    obtain ⟨ws, hws, hpass'⟩ := name_reads.sound hpass.finished hn
    obtain ⟨vs, hvs, hpass''⟩ := tagAction_reads.sound hpass'.finished ha
    exact ⟨_, .alter hks hws hvs, (hpass.trans hpass').trans hpass''⟩
  · exact absurd h fail_ne_ok

theorem kind_of_spell {kind : TokenKind} {kinds : List TokenKind} {ks rest : List Lexeme}
    {c : Cursor} (hk : Spell (kind :: kinds) ks) (hcut : c.lexemes = ks ++ rest) :
    c.kind = kind := by
  obtain ⟨k, ks, rfl, hkind, -⟩ := List.map_eq_cons_iff.mp hk
  exact (kind_of_lexemes hcut).trans hkind

/-- An action starts with a keyword, which no name goes on with. -/
theorem kindAt_of_action {ws rest : List Lexeme} {a : Action} (h : a.DeriveTagAction ws) :
    kindAt (ws ++ rest) 0 ≠ .dot := by
  have hspell {a b : Keyword} {ks us : List Lexeme} (hk : Spell [.keyword a, .keyword b] ks) :
      kindAt (ks ++ us) 0 ≠ .dot := by
    obtain ⟨x, y, rfl, hx, -⟩ := hk.two
    simp [hx]
  cases h with
  | putTag h =>
    obtain ⟨k, us, rfl, hk | ⟨hk, -⟩⟩ := derives_clause_cases h <;> simp [hk]
  | deleteTag hk _ _ =>
    rw [List.append_assoc, List.append_assoc]
    exact hspell hk
  | renameTag hk _ _ _ =>
    rw [List.append_assoc, List.append_assoc]
    exact hspell hk

theorem statement_complete {c : Cursor} {ws rest : List Lexeme} {s : Statement}
    (hc : Finished rest) (hcut : c.lexemes = ws ++ rest) (h : s.Derives ws)
    (hf : EndsStatement (kindAt rest 0)) :
    ∃ t, Statement.bare t = s.bare ∧ Yields statement c t rest := by
  cases h with
  | call hk hn ha =>
    rename_i k ws vs procedure arguments span
    rw [List.append_assoc, List.cons_append] at hcut
    have hparen : kindAt (vs ++ rest) 0 ≠ .dot := by
      cases ha with
      | none ho _ => simp [ho]
      | some ho _ _ => simp [ho]
    obtain ⟨t, -, c₁, hc₁, hcut₁⟩ := yields_advance hcut
    obtain ⟨n, hn, c₂, hc₂, hcut₂⟩ := name_reads.complete (hc.append vs) hcut₁ hn hparen
    obtain ⟨as, has, c₃, hc₃, hrest⟩ := arguments_reads.complete hc hcut₂ ha trivial
    refine ⟨⟨n, .call as, c₃.spanFrom c.current.span⟩, ?_, c₃, ?_, hrest⟩
    · simp only [Statement.bare, Statement.erase, Action.erase, hn, has]
    · unfold statement Rule.statement
      rw [look_bind, look_bind, kind_of_lexemes hcut, hk]
      apply bind_of_ok hc₁
      apply bind_of_ok hc₂
      apply bind_of_ok hc₃
      rfl
  | showTags hk hn =>
    rename_i ks ws table span
    rw [List.append_assoc] at hcut
    have hdot : kindAt rest 0 ≠ .dot := by rcases hf with hf | hf <;> simp [hf]
    obtain ⟨c₁, hc₁, hcut₁⟩ := yields_expectAll hcut hk
    obtain ⟨n, hn, c₂, hc₂, hrest⟩ := name_reads.complete hc hcut₁ hn hdot
    refine ⟨⟨n, .showTags, c₂.spanFrom c.current.span⟩, ?_, c₂, ?_, hrest⟩
    · simp only [Statement.bare, Statement.erase, Action.erase, hn]
    · unfold statement Rule.statement
      rw [look_bind, look_bind, kind_of_spell hk hcut]
      apply bind_of_ok hc₁
      apply bind_of_ok hc₂
      rfl
  | alter hk hn ha =>
    rename_i ks ws vs table action span
    rw [List.append_assoc, List.append_assoc] at hcut
    obtain ⟨c₁, hc₁, hcut₁⟩ := yields_expectAll hcut hk
    obtain ⟨n, hn, c₂, hc₂, hcut₂⟩ :=
      name_reads.complete (hc.append vs) hcut₁ hn (kindAt_of_action ha)
    obtain ⟨a, ha, c₃, hc₃, hrest⟩ := tagAction_reads.complete hc hcut₂ ha hf
    refine ⟨⟨n, a, c₃.spanFrom c.current.span⟩, ?_, c₃, ?_, hrest⟩
    · simp only [Statement.bare, Statement.erase, hn, ha]
    · unfold statement Rule.statement
      rw [look_bind, look_bind, kind_of_spell hk hcut]
      apply bind_of_ok hc₁
      apply bind_of_ok hc₂
      apply bind_of_ok hc₃
      rfl

/-! ## Whole inputs -/

/-- The end of the input comes last and nowhere else. -/
def Closed (ws : List Lexeme) : Prop :=
  ∃ us e, ws = us ++ [e] ∧ e.kind = .endOfInput ∧ ∀ u ∈ us, u.kind ≠ .endOfInput

theorem Closed.finished {ws : List Lexeme} (h : Closed ws) : Finished ws := by
  obtain ⟨us, e, hws, he, -⟩ := h
  exact ⟨us, e, hws, he⟩

theorem Closed.last {us vs : List Lexeme} {e : Lexeme} (h : Closed (us ++ e :: vs))
    (he : e.kind = .endOfInput) : vs = [] := by
  obtain ⟨ws, w, hcut, -, hws⟩ := h
  rcases List.eq_nil_or_concat vs with rfl | ⟨xs, x, rfl⟩
  · rfl
  · have hshape : us ++ e :: xs.concat x = (us ++ e :: xs) ++ [x] := by simp
    rw [hshape] at hcut
    obtain ⟨rfl, -⟩ := List.append_inj' hcut rfl
    exact absurd he (hws e (by simp))

/-- Semicolons are passed behind a statement, and then nothing but the end is left. -/
theorem whole_eq_ok {c d : Cursor} {s : Statement} :
    whole c = .ok s d ↔
      ∃ e, statement c = .ok s e ∧ d = e.advanceOver .semicolon ∧ d.kind = .endOfInput := by
  unfold whole Rule.whole
  rw [bind_eq_ok]
  constructor
  · rintro ⟨t, e, ht, h⟩
    have hif : (if (e.advanceOver .semicolon).isAtEnd then pure t else fail .statementEnd)
        (e.advanceOver .semicolon) = EStateM.Result.ok s d := h
    split at hif
    · rename_i hend
      obtain ⟨rfl, rfl⟩ := pure_eq_ok.mp hif
      exact ⟨e, ht, rfl, by simpa [Cursor.isAtEnd] using hend⟩
    · exact absurd hif fail_ne_ok
  · rintro ⟨e, he, rfl, hend⟩
    refine ⟨s, e, he, ?_⟩
    show (if (e.advanceOver .semicolon).isAtEnd then pure s else fail .statementEnd)
      (e.advanceOver .semicolon) = EStateM.Result.ok s _
    rw [if_pos (by simp [Cursor.isAtEnd, hend])]
    rfl

theorem whole_sound {c d : Cursor} {s : Statement} (hc : Closed c.lexemes)
    (h : whole c = .ok s d) : s.DerivesWhole c.lexemes := by
  obtain ⟨e, hs, rfl, hend⟩ := whole_eq_ok.mp h
  obtain ⟨ws, hws, hpass⟩ := statement_sound hc.finished hs
  have hover : Passes e (e.lexemes.takeWhile (Lexeme.has .semicolon)) (e.advanceOver .semicolon) :=
    .advanceOver (by simp) hpass.finished
  have hpass' := hpass.trans hover
  have hcut := hpass'.cut
  rw [Cursor.lexemes_eq hpass'.finished] at hcut
  rw [hcut] at hc
  rw [hcut, hc.last hend]
  exact .single hws (fun v hv => kind_of_mem_takeWhile hv) hend

theorem whole_complete {c : Cursor} {s : Statement} (h : s.DerivesWhole c.lexemes) :
    ∃ t d, t.bare = s.bare ∧ whole c = .ok t d := by
  generalize hcut : c.lexemes = ws at h
  cases h with
  | single hs hv hw =>
    rename_i ws vs w
    have hc : Finished [w] := ⟨[], w, rfl, hw⟩
    have hsemicolon : kindAt [w] 0 ≠ .semicolon := by simp [hw]
    have hf : EndsStatement (kindAt (vs ++ [w]) 0) := by
      cases vs with
      | nil => exact .inr hw
      | cons v vs => exact .inl (hv v List.mem_cons_self)
    rw [List.append_assoc] at hcut
    obtain ⟨t, ht, e, he, hrest⟩ := statement_complete (hc.append vs) hcut hs hf
    refine ⟨t, e.advanceOver .semicolon, ht, whole_eq_ok.mpr ⟨e, he, rfl, ?_⟩⟩
    have hlast : (e.advanceOver .semicolon).lexemes = [w] := by
      rw [Cursor.lexemes_advanceOver, hrest, (cut_at_other hc hv hsemicolon).2]
    exact (kind_of_lexemes hlast).trans hw

end Parse

/-! ## The law of the parser -/

theorem closed_tokenize {text : String} {tokens : List Token} (h : tokenize text = .ok tokens) :
    Parse.Closed (tokens.map Token.lexeme) := by
  obtain ⟨us, e, rfl, he, hus⟩ := Lexer.collect_ends h
  refine ⟨us.map Token.lexeme, e.lexeme, by simp, he, ?_⟩
  intro u hu
  obtain ⟨t, ht, rfl⟩ := List.mem_map.mp hu
  exact hus t ht

theorem parse_eq_ok {text : String} {tokens : List Token} (h : tokenize text = .ok tokens)
    {s : Statement} : parse text = .ok s ↔ ∃ d, Parse.whole (.ofTokens tokens) = .ok s d := by
  unfold parse Parse.run
  simp only [h]
  cases Parse.whole (.ofTokens tokens) with
  | ok t d => simp
  | error e d => simp

/-- Tokens of the given lexemes, all at the origin. -/
def tokensOf (ws : List Lexeme) : List Token := ws.map fun w => ⟨w.kind, w.text, .origin⟩

theorem lexemes_tokensOf (ws : List Lexeme) : (Cursor.ofTokens (tokensOf ws)).lexemes = ws := by
  simp only [Cursor.lexemes, Cursor.ofTokens, tokensOf, List.map_map]
  exact List.map_id ws

/-- The parser accepts exactly what the grammar derives, and with the derived value, up to
spans on both sides. No sequence derives two values, and what holds an unrecognized
character or a plus sign is never accepted. -/
theorem the_parser_accepts_exactly_the_grammar {text : String} {tokens : List Token}
    (h : tokenize text = .ok tokens) :
    (∀ a : Statement, (∃ s, parse text = .ok s ∧ s.bare = a.bare) ↔
      ∃ s : Statement, s.DerivesWhole (tokens.map Token.lexeme) ∧ s.bare = a.bare) ∧
    (∀ (ws : List Lexeme) (a b : Statement), a.DerivesWhole ws → b.DerivesWhole ws →
      a.bare = b.bare) ∧
    ((∃ t ∈ tokens, t.kind = .unrecognized ∨ t.kind = .plus) → ∀ s, parse text ≠ .ok s) := by
  have hclosed : Parse.Closed (Cursor.ofTokens tokens).lexemes := closed_tokenize h
  have hsound {s : Statement} (hs : parse text = .ok s) :
      s.DerivesWhole (tokens.map Token.lexeme) := by
    obtain ⟨d, hd⟩ := (parse_eq_ok h).mp hs
    exact Parse.whole_sound hclosed hd
  refine ⟨fun a => ⟨?_, ?_⟩, ?_, ?_⟩
  · rintro ⟨s, hs, hbare⟩
    exact ⟨s, hsound hs, hbare⟩
  · rintro ⟨s, hs, hbare⟩
    obtain ⟨t, d, ht, hd⟩ :=
      Parse.whole_complete (show s.DerivesWhole (Cursor.ofTokens tokens).lexemes from hs)
    exact ⟨t, (parse_eq_ok h).mpr ⟨d, hd⟩, ht.trans hbare⟩
  · intro ws a b ha hb
    rw [← lexemes_tokensOf ws] at ha hb
    obtain ⟨s, d, hs, hrun⟩ := Parse.whole_complete ha
    obtain ⟨t, e, ht, hrun'⟩ := Parse.whole_complete hb
    rw [hrun, EStateM.Result.ok.injEq] at hrun'
    rw [← hs, ← ht, hrun'.1]
  · rintro ⟨t, ht, hk⟩ s hs
    have hplace := (hsound hs).placed t.lexeme (List.mem_map_of_mem ht)
    rcases hk with hk | hk <;> simp [Token.lexeme, hk, TokenKind.hasPlace] at hplace

/-- A derivation is found for a text with a semicolon, so the text is accepted. -/
theorem a_show_statement_with_a_semicolon_is_accepted :
    tokenize "show tags t;" = .ok [⟨.keyword .show, "show", ⟨0, 4, 1, 1⟩⟩,
      ⟨.keyword .tags, "tags", ⟨5, 9, 1, 6⟩⟩, ⟨.identifier, "t", ⟨10, 11, 1, 11⟩⟩,
      ⟨.semicolon, ";", ⟨11, 12, 1, 12⟩⟩, ⟨.endOfInput, "", ⟨12, 12, 1, 13⟩⟩] ∧
    ∃ s : Statement, parse "show tags t;" = .ok s ∧
      s.bare = ⟨⟨[⟨"t", false, .origin⟩], .origin⟩, .showTags, .origin⟩ := by
  have htokens : tokenize "show tags t;" = .ok [⟨.keyword .show, "show", ⟨0, 4, 1, 1⟩⟩,
      ⟨.keyword .tags, "tags", ⟨5, 9, 1, 6⟩⟩, ⟨.identifier, "t", ⟨10, 11, 1, 11⟩⟩,
      ⟨.semicolon, ";", ⟨11, 12, 1, 12⟩⟩, ⟨.endOfInput, "", ⟨12, 12, 1, 13⟩⟩] := by
    unfold tokenize
    refine Lexer.collect_of_kept rfl (by simp) rfl ?_
    refine Lexer.collect_of_dropped rfl (by simp) rfl ?_
    refine Lexer.collect_of_kept rfl (by simp) rfl ?_
    refine Lexer.collect_of_dropped rfl (by simp) rfl ?_
    refine Lexer.collect_of_kept rfl (by simp) rfl ?_
    refine Lexer.collect_of_kept rfl (by simp) rfl ?_
    exact Lexer.collect_of_end rfl rfl
  refine ⟨htokens, ?_⟩
  have htable : Name.Derives [⟨.identifier, "t"⟩] ⟨[⟨"t", false, .origin⟩], .origin⟩ :=
    .parts (.items (Identifier.Derives.word rfl) .nil)
  have hstatement : Statement.Derives [⟨.keyword .show, "show"⟩, ⟨.keyword .tags, "tags"⟩,
      ⟨.identifier, "t"⟩] ⟨⟨[⟨"t", false, .origin⟩], .origin⟩, .showTags, .origin⟩ :=
    .showTags (.pair rfl rfl) htable
  have hwhole : Statement.DerivesWhole [⟨.keyword .show, "show"⟩, ⟨.keyword .tags, "tags"⟩,
      ⟨.identifier, "t"⟩, ⟨.semicolon, ";"⟩, ⟨.endOfInput, ""⟩]
      ⟨⟨[⟨"t", false, .origin⟩], .origin⟩, .showTags, .origin⟩ :=
    .single hstatement (List.forall_mem_singleton.mpr rfl) rfl
  exact ((the_parser_accepts_exactly_the_grammar htokens).1 _).mpr ⟨_, hwhole, rfl⟩

end TagDialect
