-- Each rule of the parser against its production of the grammar. A rule reads
-- nothing else than the production derives, and it reads all of that, as long
-- as no kind comes next that would have made it look further.
import TagDialect.Proofs.CursorMoves
import TagDialect.Proofs.Erasure

namespace TagDialect

namespace Parse

variable {α β : Type}

/-- What the rule reads is derived from what it passes. What is derived is read, up to what
`bare` takes away, when a kind comes next that may follow. -/
structure Reads (rule : Parse α) (bare : α → β) (production : List Lexeme → α → Prop)
    (follow : TokenKind → Prop) : Prop where
  sound {c d : Cursor} {a : α} (hc : Finished c.lexemes) (h : rule c = .ok a d) :
    ∃ ws, production ws a ∧ Passes c ws d
  complete {c : Cursor} {ws rest : List Lexeme} {a : α} (hc : Finished rest)
    (hcut : c.lexemes = ws ++ rest) (h : production ws a) (hf : follow (kindAt rest 0)) :
    ∃ b, bare b = bare a ∧ Yields rule c b rest

/-! ## Lists -/

section
variable {item : Parse α} {bare : α → β} {production : List Lexeme → α → Prop}
  {follow : TokenKind → Prop} {separator : TokenKind}

theorem itemsAfter_sound (hi : Reads item bare production follow)
    (hs : separator ≠ .endOfInput) {fuel : Nat} {c d : Cursor} {as : List α}
    (hc : Finished c.lexemes) (h : itemsAfter separator item fuel c = .ok as d) :
    ∃ ws, Led separator production ws as ∧ Passes c ws d := by
  induction fuel generalizing c as with
  | zero =>
    obtain ⟨rfl, rfl⟩ := pure_eq_ok.mp h
    exact ⟨[], .nil, .refl hc⟩
  | succ fuel ih =>
    unfold itemsAfter at h
    obtain ⟨more, e, hmore, hbody⟩ := bind_eq_ok.mp h
    rcases consume_sound hc hs hmore with ⟨rfl, w, hw, hpass⟩ | ⟨rfl, rfl⟩
    · obtain ⟨a, e', ha, hbody⟩ := bind_eq_ok.mp hbody
      obtain ⟨others, e'', hothers, hbody⟩ := bind_eq_ok.mp hbody
      obtain ⟨rfl, rfl⟩ := pure_eq_ok.mp hbody
      obtain ⟨ws, hws, hpass'⟩ := hi.sound hpass.finished ha
      obtain ⟨vs, hvs, hpass''⟩ := ih hpass'.finished hothers
      exact ⟨_, .cons hw hws hvs, (hpass.trans hpass').trans hpass''⟩
    · obtain ⟨rfl, rfl⟩ := pure_eq_ok.mp hbody
      exact ⟨[], .nil, .refl hc⟩

theorem items_sound (hi : Reads item bare production follow) (hs : separator ≠ .endOfInput)
    {c d : Cursor} {as : List α} (hc : Finished c.lexemes) (h : items separator item c = .ok as d) :
    ∃ ws, Led separator production ws as ∧ Passes c ws d :=
  itemsAfter_sound hi hs hc h

theorem length_le_of_led {ws : List Lexeme} {as : List α} (h : Led separator production ws as) :
    as.length ≤ ws.length := by
  induction h with
  | nil => exact Nat.le_refl 0
  | cons _ _ _ ih =>
    simp only [List.length_cons, List.length_append]
    omega

theorem kindAt_of_led {ws rest : List Lexeme} {as : List α}
    (h : Led separator production ws as) :
    kindAt (ws ++ rest) 0 = separator ∨ kindAt (ws ++ rest) 0 = kindAt rest 0 := by
  cases h with
  | nil => exact .inr rfl
  | cons hw _ _ => exact .inl hw

theorem itemsAfter_complete (hi : Reads item bare production follow) (hs : follow separator)
    {fuel : Nat} {c : Cursor} {ws rest : List Lexeme} {as : List α} (hc : Finished rest)
    (hcut : c.lexemes = ws ++ rest) (h : Led separator production ws as)
    (hfuel : as.length ≤ fuel) (hne : kindAt rest 0 ≠ separator) (hf : follow (kindAt rest 0)) :
    ∃ bs, bs.map bare = as.map bare ∧ Yields (itemsAfter separator item fuel) c bs rest := by
  induction h generalizing c fuel with
  | nil =>
    refine ⟨[], rfl, ?_⟩
    cases fuel with
    | zero => exact ⟨c, rfl, hcut⟩
    | succ fuel =>
      exact (yields_consume_false hc hcut hne).bind fun d hd => ⟨d, rfl, hd⟩
  | @cons w ws vs a as hw ha hled ih =>
    obtain ⟨fuel, rfl⟩ : ∃ n, fuel = n + 1 := ⟨fuel - 1, by rw [List.length_cons] at hfuel; omega⟩
    rw [List.append_assoc] at hcut
    -- The item ends at the next separator, or where the whole list ends.
    have hnext : follow (kindAt (vs ++ rest) 0) := by
      rcases kindAt_of_led hled with h | h <;> rw [h] <;> assumption
    have hconsume := yields_consume hcut hw
    obtain ⟨d, hd, hdcut⟩ := hconsume
    obtain ⟨b, hb, e, he, hecut⟩ := hi.complete (hc.append vs) hdcut ha hnext
    obtain ⟨bs, hbs, f, hf, hfcut⟩ := ih hecut (Nat.le_of_succ_le_succ hfuel)
    refine ⟨b :: bs, by rw [List.map_cons, List.map_cons, hb, hbs], f, ?_, hfcut⟩
    unfold itemsAfter
    apply bind_of_ok hd
    apply bind_of_ok he
    apply bind_of_ok hf
    rfl

/-- A list is read when a separator may follow its items and none comes behind it. -/
theorem itemsBy_reads (hi : Reads item bare production follow) (hs : follow separator)
    (hend : separator ≠ .endOfInput) :
    Reads (itemsBy separator item) (List.map bare) (Separated separator production)
      fun kind => kind ≠ separator ∧ follow kind where
  sound := by
    intro c d as hc h
    obtain ⟨a, e, ha, h⟩ := bind_eq_ok.mp h
    obtain ⟨others, e', hothers, h⟩ := bind_eq_ok.mp h
    obtain ⟨rfl, rfl⟩ := pure_eq_ok.mp h
    obtain ⟨ws, hws, hpass⟩ := hi.sound hc ha
    obtain ⟨vs, hvs, hpass'⟩ := items_sound hi hend hpass.finished hothers
    exact ⟨ws ++ vs, .items hws hvs, hpass.trans hpass'⟩
  complete := by
    intro c ws rest as hc hcut h hf
    obtain @⟨ws, vs, a, as, ha, hled⟩ := h
    have hnext : follow (kindAt (vs ++ rest) 0) := by
      rcases kindAt_of_led hled with h | h <;> rw [h]
      · exact hs
      · exact hf.2
    rw [List.append_assoc] at hcut
    obtain ⟨b, hb, d, hd, hdcut⟩ := hi.complete (hc.append vs) hcut ha hnext
    have hfuel : as.length ≤ d.ahead.length + 1 := by
      have hlength := congrArg List.length hdcut
      rw [Cursor.lexemes, List.length_map, List.length_append] at hlength
      have := length_le_of_led hled
      omega
    obtain ⟨bs, hbs, e, he, hecut⟩ :=
      itemsAfter_complete hi hs hc hdcut hled hfuel hf.1 hf.2
    refine ⟨b :: bs, by rw [List.map_cons, List.map_cons, hb, hbs], e, ?_, hecut⟩
    apply bind_of_ok hd
    rw [items_bind]
    apply bind_of_ok he
    rfl

end

/-! ## Names -/

theorem canBeIdentifier_cases {kind : TokenKind} (h : kind.canBeIdentifier = true) :
    kind = .identifier ∨ kind = .backquoted ∨ ∃ k, kind = .keyword k ∧ k.isReserved = false := by
  unfold TokenKind.canBeIdentifier at h
  split at h
  · exact .inl rfl
  · exact .inr (.inl rfl)
  · unfold TokenKind.isNonReserved at h
    split at h
    · rename_i k _ _
      exact .inr (.inr ⟨k, rfl, by simpa using h⟩)
    · simp at h

/-- A name's part is one lexeme, and its kind alone says that it is one. -/
theorem derives_identifier {ws : List Lexeme} {i : Identifier} (h : i.Derives ws) :
    ∃ w, ws = [w] ∧ w.kind.canBeIdentifier = true := by
  cases h with
  | word h => exact ⟨_, rfl, by rw [h]; rfl⟩
  | keyword h hk =>
    exact ⟨_, rfl, by rw [h]; simp [TokenKind.canBeIdentifier, TokenKind.isNonReserved, hk]⟩
  | ticked h => exact ⟨_, rfl, by rw [h]; rfl⟩

theorem identifier_reads : Reads identifier Identifier.bare Identifier.Derives fun _ => True where
  sound := by
    intro c d i hc h
    unfold identifier Rule.identifier at h
    rw [look_bind] at h
    have hnot {kind : TokenKind} (hk : c.current.kind = kind) (hne : kind ≠ .endOfInput) :
        c.kind ≠ .endOfInput := fun h => hne (hk ▸ h)
    split at h
    · rename_i hk
      obtain ⟨t, e, ht, h⟩ := bind_eq_ok.mp h
      obtain ⟨rfl, rfl⟩ := pure_eq_ok.mp h
      exact ⟨_, .ticked (w := c.current.lexeme) hk, (advance_sound hc (hnot hk (by simp)) ht).2⟩
    · split at h
      · rename_i hk
        obtain ⟨t, e, ht, h⟩ := bind_eq_ok.mp h
        obtain ⟨rfl, rfl⟩ := pure_eq_ok.mp h
        rcases canBeIdentifier_cases hk with hword | hticked | ⟨k, hkeyword, hfree⟩
        · exact ⟨_, .word (w := c.current.lexeme) hword,
            (advance_sound hc (hnot hword (by simp)) ht).2⟩
        · contradiction
        · exact ⟨_, .keyword (w := c.current.lexeme) hkeyword hfree,
            (advance_sound hc (hnot hkeyword (by simp)) ht).2⟩
      · exact absurd h fail_ne_ok
  complete := by
    intro c ws rest i hc hcut h _
    obtain ⟨w, rfl, hcan⟩ := derives_identifier h
    obtain ⟨hw, hrest⟩ := Cursor.advance_of_lexemes hcut
    have hkind : c.current.kind = w.kind := kind_of_lexemes hcut
    have htext : c.current.text = w.text := congrArg Lexeme.text hw
    cases h with
    | word h =>
      refine ⟨⟨w.text, false, c.current.span⟩, rfl, c.advance, ?_, hrest⟩
      unfold identifier Rule.identifier
      rw [look_bind, if_neg (by simp [hkind, h]), if_pos (by rw [hkind, hcan]), htext]
      rfl
    | keyword h hk =>
      refine ⟨⟨w.text, false, c.current.span⟩, rfl, c.advance, ?_, hrest⟩
      unfold identifier Rule.identifier
      rw [look_bind, if_neg (by simp [hkind, h]), if_pos (by rw [hkind, hcan]), htext]
      rfl
    | ticked h =>
      refine ⟨⟨w.tickedName, true, c.current.span⟩, rfl, c.advance, ?_, hrest⟩
      unfold identifier Rule.identifier
      rw [look_bind, if_pos (by rw [hkind, h]), htext]
      rfl

theorem name_reads :
    Reads name (Name.erase Identifier.bare) Name.Derives fun kind => kind ≠ .dot where
  sound := by
    intro c d n hc h
    unfold name Rule.name at h
    rw [look_bind] at h
    obtain ⟨parts, e, hparts, h⟩ := bind_eq_ok.mp h
    rw [spanFrom_bind, pure_eq_ok] at h
    obtain ⟨rfl, rfl⟩ := h
    obtain ⟨ws, hws, hpass⟩ := (itemsBy_reads identifier_reads trivial (by simp)).sound hc hparts
    exact ⟨ws, .parts hws, hpass⟩
  complete := by
    intro c ws rest n hc hcut h hf
    cases h with
    | parts h =>
      obtain ⟨bs, hbs, d, hd, hrest⟩ :=
        (itemsBy_reads identifier_reads trivial (by simp)).complete hc hcut h ⟨hf, trivial⟩
      refine ⟨⟨bs, d.spanFrom c.current.span⟩, by simp only [Name.erase, hbs], d, ?_, hrest⟩
      unfold name Rule.name
      rw [look_bind]
      apply bind_of_ok hd
      rfl

/-! ## Values -/

theorem number_reads : Reads number Number.bare Number.Derives fun _ => True where
  sound := by
    intro c d n hc h
    unfold number Rule.number at h
    rw [look_bind] at h
    obtain ⟨negative, e, hsign, h⟩ := bind_eq_ok.mp h
    rw [look_bind] at h
    generalize hkind : e.current.kind = kind at h
    split at h
    · rename_i kind
      obtain ⟨t, e', ht, h⟩ := bind_eq_ok.mp h
      rw [spanFrom_bind, pure_eq_ok] at h
      obtain ⟨rfl, rfl⟩ := h
      have hnot : e.kind ≠ .endOfInput := fun h => by
        rw [Cursor.kind, hkind] at h
        simp at h
      rcases consume_sound hc (by simp) hsign with ⟨rfl, m, hm, hpass⟩ | ⟨rfl, rfl⟩
      · exact ⟨_, .negative (w := e.current.lexeme) hm hkind,
          hpass.trans (advance_sound hpass.finished hnot ht).2⟩
      · exact ⟨_, .positive (w := e.current.lexeme) hkind, (advance_sound hc hnot ht).2⟩
    · exact absurd h fail_ne_ok
  complete := by
    intro c ws rest n hc hcut h _
    -- With the sign read, both forms of a number go the same way.
    have hdigits {negative : Bool} {kind : NumberKind} {w : Lexeme} {span : Span} {d : Cursor}
        (hsign : consume .minus c = .ok negative d) (hd : d.lexemes = w :: rest)
        (hw : w.kind = .number kind) :
        ∃ b, b.bare = Number.bare ⟨kind, w.text, negative, span⟩ ∧ Yields number c b rest := by
      obtain ⟨hcurrent, hrest⟩ := Cursor.advance_of_lexemes hd
      have hkind : d.current.kind = .number kind := (kind_of_lexemes hd).trans hw
      have htext : d.current.text = w.text := congrArg Lexeme.text hcurrent
      refine ⟨⟨kind, w.text, negative, d.advance.spanFrom c.current.span⟩, rfl, d.advance, ?_,
        hrest⟩
      unfold number Rule.number
      rw [look_bind]
      apply bind_of_ok hsign
      rw [look_bind]
      simp only [hkind, htext]
      rfl
    cases h with
    | positive hw =>
      refine hdigits (consume_eq_ok.mpr (.inr ⟨rfl, ?_, rfl⟩)) hcut hw
      rw [kind_of_lexemes hcut, hw]
      simp
    | negative hm hw =>
      refine hdigits (consume_eq_ok.mpr (.inl ⟨rfl, ?_, rfl⟩))
        (Cursor.advance_of_lexemes hcut).2 hw
      rw [kind_of_lexemes hcut, hm]

theorem strings_ahead (c : Cursor) :
    (c.ahead.takeWhile fun t => t.kind = .string).map Rule.stringOf =
      (c.lexemes.takeWhile (Lexeme.has .string)).map Lexeme.stringValue := by
  simp only [Cursor.lexemes, List.takeWhile_map, List.map_map]
  rfl

theorem constant_sound {c d : Cursor} {a : Constant} (hc : Finished c.lexemes)
    (h : constant c = .ok a d) : ∃ ws, Constant.Derives ws a ∧ Passes c ws d := by
  unfold constant Rule.constant at h
  rw [look_bind] at h
  split at h
  · obtain ⟨n, e, hn, h⟩ := bind_eq_ok.mp h
    obtain ⟨rfl, rfl⟩ := pure_eq_ok.mp h
    obtain ⟨ws, hws, hpass⟩ := number_reads.sound hc hn
    exact ⟨ws, .number hws, hpass⟩
  · split at h
    · obtain ⟨type, e, htype, h⟩ := bind_eq_ok.mp h
      obtain ⟨value, e', hvalue, h⟩ := bind_eq_ok.mp h
      obtain ⟨rfl, rfl⟩ := pure_eq_ok.mp h
      obtain ⟨ws, hws, hpass⟩ := identifier_reads.sound hc htype
      obtain ⟨hk, hpass'⟩ := expect_sound hpass.finished (by simp) hvalue
      exact ⟨_, .typed (w := value.lexeme) hws hk, hpass.trans hpass'⟩
    · split at h
      · rename_i hk
        obtain ⟨t, e, ht, h⟩ := bind_eq_ok.mp h
        obtain ⟨rfl, rfl⟩ := pure_eq_ok.mp h
        rcases hk with hk | hk
        · rw [decide_eq_true hk]
          exact ⟨_, .truth (w := c.current.lexeme) hk,
            (advance_sound hc (by rw [Cursor.kind, hk]; simp) ht).2⟩
        · rw [decide_eq_false (by rw [hk]; simp)]
          exact ⟨_, .falsehood (w := c.current.lexeme) hk,
            (advance_sound hc (by rw [Cursor.kind, hk]; simp) ht).2⟩
      · split at h
        · rename_i hk
          rw [passAll_bind, spanFrom_bind, pure_eq_ok] at h
          obtain ⟨rfl, rfl⟩ := h
          rw [strings_ahead]
          have hfirst : c.lexemes.takeWhile (Lexeme.has .string) ≠ [] := by
            have hhead : Lexeme.has .string c.current.lexeme = true := decide_eq_true hk
            rw [Cursor.lexemes_eq hc, List.takeWhile_cons_of_pos hhead]
            simp
          exact ⟨_, .strings hfirst fun w hw => kind_of_mem_takeWhile hw,
            .advanceOver (by simp) hc⟩
        · exact absurd h fail_ne_ok

/-- The kind that a name's part has is none that a number starts with. -/
theorem not_number_of_canBeIdentifier {kind : TokenKind} (h : kind.canBeIdentifier = true) :
    ¬ (kind = .minus ∨ kind.isNumber = true) := by
  rcases canBeIdentifier_cases h with rfl | rfl | ⟨k, rfl, -⟩ <;> simp [TokenKind.isNumber]

theorem constant_complete {c : Cursor} {ws rest : List Lexeme} {a : Constant}
    (hc : Finished rest) (hcut : c.lexemes = ws ++ rest) (h : Constant.Derives ws a)
    (hf : kindAt rest 0 ≠ .string) :
    ∃ b, b.erase Identifier.bare = a.erase Identifier.bare ∧ Yields constant c b rest := by
  have hpeek : c.peekKind 1 = kindAt (ws ++ rest) 1 := by
    rw [Cursor.peekKind_eq (hcut ▸ hc.append ws), hcut]
  -- A truth value is no type of a string, since no string comes next.
  have hboolean {w : Lexeme} {value : Bool} {span : Span} (hws : ws = [w])
      (hw : w.kind = .keyword (if value then .true else .false)) :
      ∃ b, b.erase Identifier.bare = (Constant.boolean value span).erase Identifier.bare ∧
        Yields constant c b rest := by
    subst hws
    obtain ⟨-, hrest⟩ := Cursor.advance_of_lexemes hcut
    have hkind : c.current.kind = .keyword (if value then .true else .false) :=
      (kind_of_lexemes hcut).trans hw
    refine ⟨.boolean value c.current.span, rfl, c.advance, ?_, hrest⟩
    unfold constant Rule.constant
    rw [look_bind, if_neg (by simp [hkind, TokenKind.isNumber]),
      if_neg fun h => hf (hpeek ▸ h.2), if_pos (by cases value <;> simp [hkind])]
    cases value <;> simp [hkind] <;> rfl
  cases h with
  | number h =>
    obtain ⟨b, hb, d, hd, hrest⟩ := number_reads.complete hc hcut h trivial
    refine ⟨.number b, by simp only [Constant.erase, hb], d, ?_, hrest⟩
    have hhead : c.current.kind = .minus ∨ c.current.kind.isNumber = true := by
      cases h with
      | positive hw => exact .inr (by rw [show c.current.kind = _ from kind_of_lexemes hcut, hw]; rfl)
      | negative hm _ => exact .inl ((kind_of_lexemes hcut).trans hm)
    unfold constant Rule.constant
    rw [look_bind, if_pos hhead]
    apply bind_of_ok hd
    rfl
  | truth hw => exact hboolean rfl hw
  | falsehood hw => exact hboolean rfl hw
  | strings hne hall =>
    obtain ⟨w, vs, rfl⟩ := List.exists_cons_of_ne_nil hne
    have hkind : c.current.kind = .string :=
      (kind_of_lexemes hcut).trans (hall w List.mem_cons_self)
    obtain ⟨htake, hdrop⟩ := cut_at_other hc hall hf
    rw [← hcut] at htake hdrop
    refine ⟨.string (String.join ((w :: vs).map Lexeme.stringValue))
      ((c.advanceOver .string).spanFrom c.current.span), rfl, c.advanceOver .string, ?_, ?_⟩
    · unfold constant Rule.constant
      rw [look_bind, if_neg (by simp [hkind, TokenKind.isNumber]),
        if_neg (by simp [hkind, TokenKind.canBeIdentifier, TokenKind.isNonReserved]),
        if_neg (by simp [hkind]), if_pos hkind, passAll_bind, spanFrom_bind, strings_ahead, htake]
      rfl
    · rw [Cursor.lexemes_advanceOver, hdrop]
  | typed ht hw =>
    rename_i _ w type _
    obtain ⟨v, rfl, hcan⟩ := derives_identifier ht
    have hkind : c.current.kind = v.kind := kind_of_lexemes hcut
    obtain ⟨b, hb, d, hd, hdcut⟩ :=
      identifier_reads.complete (hc.append [w]) hcut ht trivial
    obtain ⟨t, htext, e, he, hrest⟩ := yields_expect hdcut hw
    refine ⟨.typed b w.stringValue (b.span.to t.span), by simp only [Constant.erase, hb], e, ?_,
      hrest⟩
    unfold constant Rule.constant
    rw [look_bind, if_neg (by rw [hkind]; exact not_number_of_canBeIdentifier hcan),
      if_pos ⟨by rw [hkind]; exact hcan, hpeek.trans hw⟩]
    apply bind_of_ok hd
    apply bind_of_ok he
    rw [← htext]
    rfl

theorem constant_reads :
    Reads constant (Constant.erase Identifier.bare) Constant.Derives fun kind => kind ≠ .string :=
  ⟨constant_sound, constant_complete⟩

/-- The first two kinds of a constant. Only a truth value and the type of a string look like
names, and only the truth value lets anything else than a string come second. -/
theorem kinds_of_constant {ws rest : List Lexeme} {c : Constant} (h : Constant.Derives ws c) :
    ((kindAt (ws ++ rest) 0).canBeIdentifier = false ∧ kindAt (ws ++ rest) 0 ≠ .rightParen) ∨
      (∃ value : Bool, kindAt (ws ++ rest) 0 = .keyword (if value then .true else .false) ∧
        kindAt (ws ++ rest) 1 = kindAt rest 0) ∨
      ((kindAt (ws ++ rest) 0).canBeIdentifier = true ∧ kindAt (ws ++ rest) 1 = .string) := by
  cases h with
  | number h => cases h <;> simp [*, TokenKind.canBeIdentifier, TokenKind.isNonReserved]
  | truth hw => exact .inr (.inl ⟨true, hw, rfl⟩)
  | falsehood hw => exact .inr (.inl ⟨false, hw, rfl⟩)
  | strings hne hall =>
    obtain ⟨w, vs, rfl⟩ := List.exists_cons_of_ne_nil hne
    have hw : w.kind = .string := hall w List.mem_cons_self
    simp [hw, TokenKind.canBeIdentifier, TokenKind.isNonReserved]
  | typed ht hw =>
    obtain ⟨v, rfl, hcan⟩ := derives_identifier ht
    exact .inr (.inr ⟨hcan, hw⟩)

/-! ## Lists in parentheses -/

section
variable {γ : Type} {item : Parse α} {bare : α → β} {production : List Lexeme → α → Prop}
  {follow : TokenKind → Prop} (whole : List α → Parse γ)

/-- Items up to a closing parenthesis, and what is made of them. -/
def closing (item : Parse α) : Parse γ := do
  let as ← itemsBy .comma item
  if ← consume .rightParen then whole as else fail .listEnd

theorem closing_sound (hi : Reads item bare production follow) (hcomma : follow .comma)
    {c d : Cursor} {x : γ} (hc : Finished c.lexemes) (h : closing whole item c = .ok x d) :
    ∃ as ws w e, Separated .comma production ws as ∧ w.kind = .rightParen ∧
      Passes c (ws ++ [w]) e ∧ whole as e = .ok x d := by
  obtain ⟨as, e, has, hrest⟩ := bind_eq_ok.mp h
  obtain ⟨closed, e', hclosed, hwhole⟩ := bind_eq_ok.mp hrest
  obtain ⟨ws, hws, hpass⟩ := (itemsBy_reads hi hcomma (by simp)).sound hc has
  rcases consume_sound hpass.finished (by simp) hclosed with ⟨rfl, w, hw, hpass'⟩ | ⟨rfl, rfl⟩
  · exact ⟨as, ws, w, e', hws, hw, hpass.trans hpass', hwhole⟩
  · exact absurd hwhole fail_ne_ok

theorem closing_complete (hi : Reads item bare production follow) (hcomma : follow .comma)
    (hparen : follow .rightParen) {c : Cursor} {ws rest : List Lexeme} {w : Lexeme}
    {as : List α} (hc : Finished rest) (hcut : c.lexemes = ws ++ w :: rest)
    (h : Separated .comma production ws as) (hw : w.kind = .rightParen) :
    ∃ bs e, bs.map bare = as.map bare ∧ e.lexemes = rest ∧ closing whole item c = whole bs e := by
  have hnext : kindAt (w :: rest) 0 = .rightParen := hw
  obtain ⟨bs, hbs, d, hd, hdcut⟩ := (itemsBy_reads hi hcomma (by simp)).complete
    (hc.append [w]) hcut h (by rw [List.singleton_append, hnext]; exact ⟨by simp, hparen⟩)
  obtain ⟨e, he, hrest⟩ := yields_consume hdcut hw
  refine ⟨bs, e, hbs, hrest, ?_⟩
  unfold closing
  simp only [bind, EStateM.bind, hd, he]
  rfl

end

theorem map_reads :
    Reads map (Expression.erase Identifier.bare)
      (fun ws e => Expression.Derives ws e ∧ ∃ entries span, e = .map entries span)
      fun _ => True where
  sound := by
    intro c d e hc h
    unfold map Rule.map at h
    obtain ⟨m, c₁, hm, h⟩ := bind_eq_ok.mp h
    obtain ⟨o, c₂, ho, h⟩ := bind_eq_ok.mp h
    obtain ⟨hmk, hpass⟩ := expect_sound hc (by simp) hm
    obtain ⟨hok, hpass'⟩ := expect_sound hpass.finished (by simp) ho
    obtain ⟨as, ws, w, c₃, has, hw, hpass'', h⟩ :=
      closing_sound _ constant_reads (by simp) hpass'.finished h
    rw [spanFrom_bind, pure_eq_ok] at h
    obtain ⟨rfl, rfl⟩ := h
    exact ⟨_, ⟨.map (m := m.lexeme) (o := o.lexeme) hmk hok has hw, as, _, rfl⟩,
      (hpass.trans hpass').trans hpass''⟩
  complete := by
    rintro c ws rest _ hc hcut ⟨h, entries, span, rfl⟩ -
    cases h with
    | map hm ho h hr =>
      rename_i m o r ws
      simp only [List.cons_append, List.append_assoc, List.nil_append] at hcut
      obtain ⟨t, -, c₁, ht, hcut₁⟩ := yields_expect hcut hm
      obtain ⟨u, -, c₂, hu, hcut₂⟩ := yields_expect hcut₁ ho
      obtain ⟨bs, e, hbs, hrest, hclosing⟩ := closing_complete
        (fun entries => spanFrom t.span >>= fun span => Pure.pure (Expression.map entries span))
        constant_reads (by simp) (by simp) hc hcut₂ h hr
      refine ⟨.map bs (e.spanFrom t.span), by simp only [Expression.erase, hbs], e, ?_, hrest⟩
      unfold map Rule.map
      apply bind_of_ok ht
      apply bind_of_ok hu
      exact hclosing

theorem expression_reads :
    Reads expression (Expression.erase Identifier.bare) Expression.Derives
      fun kind => kind ≠ .string where
  sound := by
    intro c d e hc h
    unfold expression Rule.expression at h
    rw [look_bind] at h
    split at h
    · obtain ⟨ws, ⟨hws, -⟩, hpass⟩ := map_reads.sound hc h
      exact ⟨ws, hws, hpass⟩
    · obtain ⟨a, e, ha, h⟩ := bind_eq_ok.mp h
      obtain ⟨rfl, rfl⟩ := pure_eq_ok.mp h
      obtain ⟨ws, hws, hpass⟩ := constant_reads.sound hc ha
      exact ⟨ws, .constant hws, hpass⟩
  complete := by
    intro c ws rest e hc hcut h hf
    have hpeek (n : Nat) : c.peekKind n = kindAt (ws ++ rest) n := by
      rw [Cursor.peekKind_eq (hcut ▸ hc.append ws), hcut]
    cases h with
    | constant h =>
      obtain ⟨b, hb, d, hd, hrest⟩ := constant_reads.complete hc hcut h hf
      refine ⟨.constant b, by simp only [Expression.erase, hb], d, ?_, hrest⟩
      -- A constant that starts with `MAP` is a string with that type.
      have hnot : ¬ (c.kind = .keyword .map ∧ c.peekKind 1 = .leftParen) := by
        rintro ⟨hmap, hparen⟩
        have hzero : c.peekKind 0 = .keyword .map := hmap
        rw [hpeek] at hzero hparen
        rcases kinds_of_constant h with ⟨hfirst, -⟩ | ⟨value, hfirst, -⟩ | ⟨-, hsecond⟩
        · rw [hzero] at hfirst
          exact absurd hfirst (by decide)
        · rw [hzero] at hfirst
          cases value <;> simp at hfirst
        · rw [hparen] at hsecond
          simp at hsecond
      unfold expression Rule.expression
      rw [look_bind, if_neg hnot]
      apply bind_of_ok hd
      rfl
    | map hm ho h hr =>
      obtain ⟨b, hb, d, hd, hrest⟩ :=
        map_reads.complete hc hcut ⟨.map hm ho h hr, _, .origin, rfl⟩ trivial
      refine ⟨b, hb, d, ?_, hrest⟩
      unfold expression Rule.expression
      rw [look_bind, if_pos ⟨(hpeek 0).trans hm, (hpeek 1).trans ho⟩]
      exact hd

/-! ## Arguments -/

/-- A value and an arrow behind it never look like a parameter's name and its arrow. -/
theorem not_named_of_expression {ws rest : List Lexeme} {e : Expression}
    (h : Expression.Derives ws e) (hf : kindAt rest 0 ≠ .arrow) :
    ¬ ((kindAt (ws ++ rest) 0).canBeIdentifier = true ∧ kindAt (ws ++ rest) 1 = .arrow) := by
  rintro ⟨hcan, harrow⟩
  cases h with
  | constant h =>
    rcases kinds_of_constant h with ⟨hfirst, -⟩ | ⟨-, -, hsecond⟩ | ⟨-, hsecond⟩
    · exact absurd hcan (Bool.eq_false_iff.mp hfirst)
    · exact hf (hsecond.symm.trans harrow)
    · rw [harrow] at hsecond
      simp at hsecond
  | map _ ho _ _ => simp [ho] at harrow

theorem argument_reads :
    Reads argument (Argument.erase Identifier.bare) Argument.Derives
      fun kind => kind ≠ .string ∧ kind ≠ .arrow where
  sound := by
    intro c d a hc h
    unfold argument Rule.argument at h
    rw [look_bind] at h
    split at h
    · obtain ⟨i, e, hi, h⟩ := bind_eq_ok.mp h
      obtain ⟨t, e', ht, h⟩ := bind_eq_ok.mp h
      obtain ⟨x, e'', hx, h⟩ := bind_eq_ok.mp h
      obtain ⟨rfl, rfl⟩ := pure_eq_ok.mp h
      obtain ⟨ws, hws, hpass⟩ := identifier_reads.sound hc hi
      obtain ⟨hk, hpass'⟩ := expect_sound hpass.finished (by simp) ht
      obtain ⟨vs, hvs, hpass''⟩ := expression_reads.sound hpass'.finished hx
      exact ⟨_, .named (w := t.lexeme) hws hk hvs, hpass.trans (hpass'.trans hpass'')⟩
    · obtain ⟨x, e, hx, h⟩ := bind_eq_ok.mp h
      obtain ⟨rfl, rfl⟩ := pure_eq_ok.mp h
      obtain ⟨ws, hws, hpass⟩ := expression_reads.sound hc hx
      exact ⟨ws, .positional hws, hpass⟩
  complete := by
    intro c ws rest a hc hcut h hf
    have hpeek (n : Nat) : c.peekKind n = kindAt (ws ++ rest) n := by
      rw [Cursor.peekKind_eq (hcut ▸ hc.append ws), hcut]
    cases h with
    | positional h =>
      obtain ⟨b, hb, d, hd, hrest⟩ := expression_reads.complete hc hcut h hf.1
      refine ⟨⟨none, b⟩, by simp only [Argument.erase, hb, Option.map_none], d, ?_, hrest⟩
      unfold argument Rule.argument
      rw [look_bind, if_neg ?_]
      · apply bind_of_ok hd
        rfl
      · rw [show c.kind = c.peekKind 0 from rfl, hpeek, hpeek]
        exact not_named_of_expression h hf.2
    | named hi hw he =>
      rename_i ws vs w i e
      obtain ⟨v, rfl, hcan⟩ := derives_identifier hi
      have hnamed : c.kind.canBeIdentifier = true ∧ c.peekKind 1 = .arrow := by
        rw [show c.kind = c.peekKind 0 from rfl, hpeek, hpeek]
        exact ⟨hcan, hw⟩
      rw [List.append_assoc] at hcut
      obtain ⟨b, hb, d, hd, hdcut⟩ :=
        identifier_reads.complete (hc.append (w :: vs)) hcut hi trivial
      obtain ⟨t, -, d', ht, hcut'⟩ := yields_expect hdcut hw
      obtain ⟨x, hx, d'', hd', hrest⟩ := expression_reads.complete hc hcut' he hf.1
      refine ⟨⟨some b, x⟩, by simp only [Argument.erase, hb, hx, Option.map_some], d'', ?_, hrest⟩
      unfold argument Rule.argument
      rw [look_bind, if_pos hnamed]
      apply bind_of_ok hd
      apply bind_of_ok ht
      apply bind_of_ok hd'
      rfl

/-- Nothing that is derived as an argument starts with a closing parenthesis. -/
theorem kindAt_of_argument {ws rest : List Lexeme} {a : Argument} (h : Argument.Derives ws a) :
    kindAt (ws ++ rest) 0 ≠ .rightParen := by
  intro hparen
  cases h with
  | positional h =>
    cases h with
    | constant h =>
      rcases kinds_of_constant h with ⟨-, hfirst⟩ | ⟨value, hfirst, -⟩ | ⟨hcan, -⟩
      · exact hfirst hparen
      · rw [hparen] at hfirst
        simp at hfirst
      · rw [hparen] at hcan
        exact absurd hcan (by decide)
    | map hm _ _ _ => simp [hm] at hparen
  | named hi _ _ =>
    obtain ⟨w, rfl, hcan⟩ := derives_identifier hi
    rw [show w.kind = .rightParen from hparen] at hcan
    exact absurd hcan (by decide)

theorem arguments_reads :
    Reads arguments (List.map (Argument.erase Identifier.bare)) Argument.DeriveAll
      fun _ => True where
  sound := by
    intro c d as hc h
    unfold arguments Rule.arguments at h
    obtain ⟨o, c₁, ho, h⟩ := bind_eq_ok.mp h
    obtain ⟨empty, c₂, hempty, hbody⟩ := bind_eq_ok.mp h
    obtain ⟨hok, hpass⟩ := expect_sound hc (by simp) ho
    rcases consume_sound hpass.finished (by simp) hempty with ⟨rfl, w, hw, hpass'⟩ | ⟨rfl, rfl⟩
    · obtain ⟨rfl, rfl⟩ := pure_eq_ok.mp hbody
      exact ⟨_, .none (o := o.lexeme) hok hw, hpass.trans hpass'⟩
    · obtain ⟨as, ws, w, e, has, hw, hpass', hwhole⟩ :=
        closing_sound Pure.pure argument_reads (by simp) hpass.finished hbody
      obtain ⟨rfl, rfl⟩ := pure_eq_ok.mp hwhole
      exact ⟨_, .some (o := o.lexeme) hok has hw, hpass.trans hpass'⟩
  complete := by
    intro c ws rest as hc hcut h _
    cases h with
    | none ho hw =>
      obtain ⟨t, -, c₁, ht, hcut₁⟩ := yields_expect hcut ho
      obtain ⟨c₂, hempty, hrest⟩ := yields_consume hcut₁ hw
      refine ⟨[], rfl, c₂, ?_, hrest⟩
      unfold arguments Rule.arguments
      apply bind_of_ok ht
      apply bind_of_ok hempty
      rfl
    | some ho h hw =>
      rename_i o w ws
      simp only [List.cons_append, List.append_assoc, List.nil_append] at hcut
      obtain ⟨t, -, c₁, ht, hcut₁⟩ := yields_expect hcut ho
      have hnot : kindAt (ws ++ w :: rest) 0 ≠ .rightParen := by
        obtain ⟨ha, _⟩ := h
        rw [List.append_assoc]
        exact kindAt_of_argument ha
      obtain ⟨c₂, hempty, hcut₂⟩ :=
        yields_consume_false ((hc.append [w]).append ws) hcut₁ hnot
      obtain ⟨bs, e, hbs, hrest, hclosing⟩ := closing_complete Pure.pure argument_reads (by simp) (by simp) hc hcut₂ h hw
      refine ⟨bs, hbs, e, ?_, hrest⟩
      unfold arguments Rule.arguments
      apply bind_of_ok ht
      apply bind_of_ok hempty
      exact hclosing

end Parse

end TagDialect
