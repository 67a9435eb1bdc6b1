-- Well-formed statements: those whose target has a part, whose maps have
-- entries, and whose numbers are numbers of the dialect. Whatever the parser
-- returns is one of them.
import TagDialect.Proofs.LexedTexts
import TagDialect.Proofs.StatementReadings

namespace TagDialect

/-! ## Well-formed parts -/

def Number.WellFormed (n : Number) : Prop := IsNumeral n.kind n.text

def Constant.WellFormed : Constant → Prop
  | .number n => n.WellFormed
  | _ => True

def Expression.WellFormed : Expression → Prop
  | .constant c => c.WellFormed
  | .map entries _ => entries ≠ [] ∧ ∀ c ∈ entries, c.WellFormed

structure TagOptions.WellFormed (o : TagOptions) : Prop where
  version : ∀ n, o.version = some n → n.WellFormed
  retain : ∀ r, o.retain = some r → r.amount.WellFormed

def Action.WellFormed : Action → Prop
  | .call arguments => ∀ a ∈ arguments, a.value.WellFormed
  | .putTag clause => clause.options.WellFormed
  | _ => True

structure Statement.WellFormed (s : Statement) : Prop where
  target : s.target.parts ≠ []
  action : s.action.WellFormed

/-! ## What is derived is well-formed -/

/-- Every lexeme of a numeric kind is a number of that kind. -/
def Numerals (ws : List Lexeme) : Prop :=
  ∀ w ∈ ws, ∀ kind, w.kind = .number kind → IsNumeral kind w.text

theorem Numerals.mono {ws vs : List Lexeme} (h : Numerals vs) (hsub : ∀ w ∈ ws, w ∈ vs) :
    Numerals ws := fun w hw => h w (hsub w hw)

section
variable {α : Type} {separator : TokenKind} {item : List Lexeme → α → Prop} {P : α → Prop}

theorem Led.wellFormed {ws : List Lexeme} {as : List α} (h : Led separator item ws as)
    (hn : Numerals ws) (hi : ∀ {ws a}, item ws a → Numerals ws → P a) : ∀ a ∈ as, P a := by
  induction h with
  | nil => simp
  | cons hw ha hs ih =>
    simp only [List.mem_cons, forall_eq_or_imp]
    exact ⟨hi ha (hn.mono (by grind)), ih (hn.mono (by grind))⟩

theorem Separated.wellFormed {ws : List Lexeme} {as : List α} (h : Separated separator item ws as)
    (hn : Numerals ws) (hi : ∀ {ws a}, item ws a → Numerals ws → P a) :
    as ≠ [] ∧ ∀ a ∈ as, P a := by
  cases h with
  | items ha hs =>
    simp only [List.mem_cons, forall_eq_or_imp]
    exact ⟨List.cons_ne_nil _ _, hi ha (hn.mono (by grind)), hs.wellFormed (hn.mono (by grind)) hi⟩

end

section
variable {ws : List Lexeme}

theorem Name.Derives.parts_ne_nil {n : Name} (h : n.Derives ws) : n.parts ≠ [] := by
  obtain ⟨⟨_, _⟩⟩ := h
  exact List.cons_ne_nil _ _

theorem Number.Derives.wellFormed {n : Number} (h : n.Derives ws) (hn : Numerals ws) :
    n.WellFormed := by
  cases h with
  | positive hw => exact hn _ (by simp) _ hw
  | negative _ hw => exact hn _ (by simp) _ hw

theorem Constant.Derives.wellFormed {c : Constant} (h : Constant.Derives ws c)
    (hn : Numerals ws) : c.WellFormed := by
  cases h with
  | number h => exact h.wellFormed hn
  | _ => trivial

theorem Expression.Derives.wellFormed {e : Expression} (h : Expression.Derives ws e)
    (hn : Numerals ws) : e.WellFormed := by
  cases h with
  | constant h => exact h.wellFormed hn
  | map _ _ h _ => exact h.wellFormed (hn.mono (by grind)) Constant.Derives.wellFormed

theorem Argument.Derives.wellFormed {a : Argument} (h : Argument.Derives ws a)
    (hn : Numerals ws) : a.value.WellFormed := by
  cases h with
  | positional h => exact h.wellFormed hn
  | named _ _ he => exact he.wellFormed (hn.mono (by grind))

theorem Argument.DeriveAll.wellFormed {as : List Argument} (h : DeriveAll ws as)
    (hn : Numerals ws) : ∀ a ∈ as, a.value.WellFormed := by
  cases h with
  | none _ _ => simp
  | some _ h _ => exact (h.wellFormed (hn.mono (by grind)) Argument.Derives.wellFormed).2

theorem TagOptions.Derives.wellFormed {o : TagOptions} (h : o.Derives ws) (hn : Numerals ws) :
    o.WellFormed := by
  obtain ⟨hv, hr⟩ := h
  constructor
  · rintro n rfl
    cases hv with
    | some _ h => exact h.wellFormed (hn.mono (by grind))
  · rintro r rfl
    cases hr with
    | some _ h _ => exact h.wellFormed (hn.mono (by grind))

theorem TagClause.Derives.wellFormed {c : TagClause} (h : c.Derives ws) (hn : Numerals ws) :
    c.options.WellFormed := by
  cases h with
  | create _ _ _ ho => exact ho.wellFormed (hn.mono (by grind))
  | replace _ _ _ ho => exact ho.wellFormed (hn.mono (by grind))

theorem Action.DeriveTagAction.wellFormed {a : Action} (h : a.DeriveTagAction ws)
    (hn : Numerals ws) : a.WellFormed := by
  cases h with
  | putTag h => exact h.wellFormed hn
  | _ => trivial

theorem Statement.Derives.wellFormed {s : Statement} (h : s.Derives ws) (hn : Numerals ws) :
    s.WellFormed := by
  cases h with
  | call _ hname ha => exact ⟨hname.parts_ne_nil, ha.wellFormed (hn.mono (by grind))⟩
  | showTags _ hname => exact ⟨hname.parts_ne_nil, trivial⟩
  | alter _ hname ha => exact ⟨hname.parts_ne_nil, ha.wellFormed (hn.mono (by grind))⟩

theorem Statement.DerivesWhole.wellFormed {s : Statement} (h : s.DerivesWhole ws)
    (hn : Numerals ws) : s.WellFormed := by
  cases h with
  | single hs _ _ => exact hs.wellFormed (hn.mono (by grind))

end

theorem numerals_tokenize {text : String} {tokens : List Token}
    (h : tokenize text = .ok tokens) : Numerals (tokens.map Token.lexeme) := by
  intro w hw kind hk
  obtain ⟨t, ht, rfl⟩ := List.mem_map.mp hw
  exact isNumeral_of_best (best_of_collect h ht hk)

/-- Every statement that the parser returns is well-formed. -/
theorem wellFormed_of_parse {text : String} {s : Statement} (h : parse text = .ok s) :
    s.WellFormed := by
  rcases htokens : tokenize text with e | tokens
  · simp [parse, htokens] at h
  · obtain ⟨d, hd⟩ := (parse_eq_ok htokens).mp h
    exact (Parse.whole_sound (closed_tokenize htokens) hd).wellFormed (numerals_tokenize htokens)

end TagDialect
