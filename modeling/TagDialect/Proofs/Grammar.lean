-- The grammar of the dialect over kinds and texts, told apart from any way to
-- read it: which sequences derive which part of a statement. A derivation says
-- nothing about spans, so a value is derived with every choice of them.
import TagDialect.Statement
import TagDialect.Quoting

namespace TagDialect

/-! ## Lexemes -/

/-- What the grammar sees of a token. -/
structure Lexeme where
  kind : TokenKind
  text : String
deriving DecidableEq

def Token.lexeme (t : Token) : Lexeme := ⟨t.kind, t.text⟩

/-- The value of a string. A text without a value has the empty one here: the slice in it would stop
the program, but the lexer makes no string with such a text. -/
def Lexeme.stringValue (w : Lexeme) : String := (stringValue? w.text).getD ""

/-- The name inside a pair of ticks. As for strings, a text that holds none is a token that the
lexer does not make, and has the empty name. -/
def Lexeme.tickedName (w : Lexeme) : String := (nameValue? w.text).getD ""

/-! ## Words and lists -/

/-- Lexemes of the given kinds, in order. -/
def Spell (kinds : List TokenKind) (ws : List Lexeme) : Prop := ws.map Lexeme.kind = kinds

theorem Spell.pair {a b : TokenKind} {x y : Lexeme} (hx : x.kind = a) (hy : y.kind = b) :
    Spell [a, b] [x, y] := by
  simp [Spell, hx, hy]

theorem Spell.two {a b : TokenKind} {ws : List Lexeme} (h : Spell [a, b] ws) :
    ∃ x y : Lexeme, ws = [x, y] ∧ x.kind = a ∧ y.kind = b := by
  obtain ⟨x, xs, rfl, hx, hxs⟩ := List.map_eq_cons_iff.mp h
  obtain ⟨y, rfl, hy⟩ := List.map_eq_singleton_iff.mp hxs
  exact ⟨x, y, rfl, hx, hy⟩

/-- Lexemes of the given kinds, or nothing. -/
inductive Optionally (kinds : List TokenKind) : List Lexeme → Bool → Prop
  | absent : Optionally kinds [] false
  | present {ws : List Lexeme} (h : Spell kinds ws) : Optionally kinds ws true

section
variable {α : Type} (separator : TokenKind) (item : List Lexeme → α → Prop)

/-- Any number of items, with the separator before each. -/
inductive Led : List Lexeme → List α → Prop
  | nil : Led [] []
  | cons {w : Lexeme} {ws vs : List Lexeme} {a : α} {as : List α} (hw : w.kind = separator)
      (ha : item ws a) (hs : Led vs as) : Led (w :: ws ++ vs) (a :: as)

/-- One item or more, with the separator between each two. -/
inductive Separated : List Lexeme → List α → Prop
  | items {ws vs : List Lexeme} {a : α} {as : List α} (ha : item ws a)
      (hs : Led separator item vs as) : Separated (ws ++ vs) (a :: as)

end

/-! ## Names and values -/

inductive Identifier.Derives : List Lexeme → Identifier → Prop
  | word {w : Lexeme} {span : Span} (h : w.kind = .identifier) : Derives [w] ⟨w.text, false, span⟩
  | keyword {w : Lexeme} {k : Keyword} {span : Span} (h : w.kind = .keyword k)
      (hk : k.isReserved = false) : Derives [w] ⟨w.text, false, span⟩
  | ticked {w : Lexeme} {span : Span} (h : w.kind = .backquoted) :
      Derives [w] ⟨w.tickedName, true, span⟩

inductive Name.Derives : List Lexeme → Name → Prop
  | parts {ws : List Lexeme} {parts : List Identifier} {span : Span}
      (h : Separated .dot Identifier.Derives ws parts) : Derives ws ⟨parts, span⟩

inductive Number.Derives : List Lexeme → Number → Prop
  | positive {w : Lexeme} {kind : NumberKind} {span : Span} (h : w.kind = .number kind) :
      Derives [w] ⟨kind, w.text, false, span⟩
  | negative {m w : Lexeme} {kind : NumberKind} {span : Span} (hm : m.kind = .minus)
      (h : w.kind = .number kind) : Derives [m, w] ⟨kind, w.text, true, span⟩

inductive Constant.Derives : List Lexeme → Constant → Prop
  | number {ws : List Lexeme} {n : Number} (h : n.Derives ws) : Derives ws (.number n)
  | truth {w : Lexeme} {span : Span} (h : w.kind = .keyword .true) :
      Derives [w] (.boolean true span)
  | falsehood {w : Lexeme} {span : Span} (h : w.kind = .keyword .false) :
      Derives [w] (.boolean false span)
  /-- Strings side by side are one string. -/
  | strings {ws : List Lexeme} {span : Span} (hne : ws ≠ []) (h : ∀ w ∈ ws, w.kind = .string) :
      Derives ws (.string (String.join (ws.map Lexeme.stringValue)) span)
  | typed {ws : List Lexeme} {w : Lexeme} {type : Identifier} {span : Span}
      (ht : Identifier.Derives ws type) (h : w.kind = .string) :
      Derives (ws ++ [w]) (.typed type w.stringValue span)

inductive Expression.Derives : List Lexeme → Expression → Prop
  | constant {ws : List Lexeme} {c : Constant} (h : Constant.Derives ws c) :
      Derives ws (.constant c)
  | map {m o c : Lexeme} {ws : List Lexeme} {entries : List Constant} {span : Span}
      (hm : m.kind = .keyword .map) (ho : o.kind = .leftParen)
      (h : Separated .comma Constant.Derives ws entries) (hc : c.kind = .rightParen) :
      Derives (m :: o :: ws ++ [c]) (.map entries span)

inductive Argument.Derives : List Lexeme → Argument → Prop
  | positional {ws : List Lexeme} {e : Expression} (h : Expression.Derives ws e) :
      Derives ws ⟨none, e⟩
  | named {ws vs : List Lexeme} {w : Lexeme} {i : Identifier} {e : Expression}
      (hi : Identifier.Derives ws i) (hw : w.kind = .arrow) (he : Expression.Derives vs e) :
      Derives (ws ++ w :: vs) ⟨some i, e⟩

/-- The arguments of a call, with their parentheses. -/
inductive Argument.DeriveAll : List Lexeme → List Argument → Prop
  | none {o c : Lexeme} (ho : o.kind = .leftParen) (hc : c.kind = .rightParen) :
      DeriveAll [o, c] []
  | some {o c : Lexeme} {ws : List Lexeme} {as : List Argument} (ho : o.kind = .leftParen)
      (h : Separated .comma Argument.Derives ws as) (hc : c.kind = .rightParen) :
      DeriveAll (o :: ws ++ [c]) as

/-! ## Statements -/

inductive TagOptions.DeriveVersion : List Lexeme → Option Number → Prop
  | none : DeriveVersion [] none
  | some {ks ws : List Lexeme} {n : Number}
      (hk : Spell [.keyword .as, .keyword .of, .keyword .version] ks) (hn : n.Derives ws) :
      DeriveVersion (ks ++ ws) (some n)

inductive TagOptions.DeriveRetain : List Lexeme → Option Retention → Prop
  | none : DeriveRetain [] none
  | some {k u : Lexeme} {ws : List Lexeme} {n : Number} {unit : TimeUnit}
      (hk : k.kind = .keyword .retain) (hn : n.Derives ws) (hu : u.kind = .keyword unit.keyword) :
      DeriveRetain (k :: ws ++ [u]) (some ⟨n, unit⟩)

inductive TagOptions.Derives : List Lexeme → TagOptions → Prop
  | options {ws vs : List Lexeme} {version : Option Number} {retain : Option Retention}
      (hv : DeriveVersion ws version) (hr : DeriveRetain vs retain) :
      Derives (ws ++ vs) ⟨version, retain⟩

inductive TagClause.Derives : List Lexeme → TagClause → Prop
  | create {ks cs ws vs : List Lexeme} {ifNotExists : Bool} {name : Identifier}
      {options : TagOptions} (hk : Spell [.keyword .create, .keyword .tag] ks)
      (hc : Optionally [.keyword .if, .keyword .not, .keyword .exists] cs ifNotExists)
      (hn : name.Derives ws) (ho : options.Derives vs) :
      Derives (ks ++ cs ++ ws ++ vs) (.create ifNotExists name options)
  | replace {cs ks ws vs : List Lexeme} {createIfMissing : Bool} {name : Identifier}
      {options : TagOptions} (hc : Optionally [.keyword .create, .keyword .or] cs createIfMissing)
      (hk : Spell [.keyword .replace, .keyword .tag] ks) (hn : name.Derives ws)
      (ho : options.Derives vs) : Derives (cs ++ ks ++ ws ++ vs) (.replace createIfMissing name options)

/-- What is done to the tags of a table. -/
inductive Action.DeriveTagAction : List Lexeme → Action → Prop
  | putTag {ws : List Lexeme} {clause : TagClause} (h : clause.Derives ws) :
      DeriveTagAction ws (.putTag clause)
  | deleteTag {ks cs ws : List Lexeme} {ifExists : Bool} {tag : Identifier}
      (hk : Spell [.keyword .delete, .keyword .tag] ks)
      (hc : Optionally [.keyword .if, .keyword .exists] cs ifExists) (hn : tag.Derives ws) :
      DeriveTagAction (ks ++ cs ++ ws) (.deleteTag ifExists tag)
  | renameTag {ks ws vs : List Lexeme} {t : Lexeme} {old new : Identifier}
      (hk : Spell [.keyword .rename, .keyword .tag] ks) (ho : old.Derives ws)
      (ht : t.kind = .keyword .to) (hn : new.Derives vs) :
      DeriveTagAction (ks ++ ws ++ t :: vs) (.renameTag old new)

inductive Statement.Derives : List Lexeme → Statement → Prop
  | call {k : Lexeme} {ws vs : List Lexeme} {procedure : Name} {arguments : List Argument}
      {span : Span} (hk : k.kind = .keyword .call) (hn : procedure.Derives ws)
      (ha : Argument.DeriveAll vs arguments) :
      Derives (k :: ws ++ vs) ⟨procedure, .call arguments, span⟩
  | showTags {ks ws : List Lexeme} {table : Name} {span : Span}
      (hk : Spell [.keyword .show, .keyword .tags] ks) (hn : table.Derives ws) :
      Derives (ks ++ ws) ⟨table, .showTags, span⟩
  | alter {ks ws vs : List Lexeme} {table : Name} {action : Action} {span : Span}
      (hk : Spell [.keyword .alter, .keyword .table] ks) (hn : table.Derives ws)
      (ha : Action.DeriveTagAction vs action) : Derives (ks ++ ws ++ vs) ⟨table, action, span⟩

/-- A statement, any number of semicolons, and the end of the input. -/
inductive Statement.DerivesWhole : List Lexeme → Statement → Prop
  | single {ws vs : List Lexeme} {w : Lexeme} {s : Statement} (hs : s.Derives ws)
      (hv : ∀ v ∈ vs, v.kind = .semicolon) (hw : w.kind = .endOfInput) :
      DerivesWhole (ws ++ vs ++ [w]) s

/-! ## Kinds without a place in the grammar -/

/-- Whether lexemes of the kind can stand in a statement's derivation. -/
def TokenKind.hasPlace : TokenKind → Bool
  | .plus | .unrecognized | .whitespace | .lineComment | .blockComment => false
  | _ => true

/-- Every lexeme is of a kind with a place in the grammar. -/
def Placed (ws : List Lexeme) : Prop := ∀ w ∈ ws, w.kind.hasPlace = true

@[simp] theorem Placed.nil : Placed [] := by simp [Placed]

@[simp] theorem Placed.cons_iff {w : Lexeme} {ws : List Lexeme} :
    Placed (w :: ws) ↔ w.kind.hasPlace = true ∧ Placed ws := by simp [Placed]

@[simp] theorem Placed.append_iff {ws vs : List Lexeme} :
    Placed (ws ++ vs) ↔ Placed ws ∧ Placed vs := by
  simp only [Placed, List.mem_append]
  grind

theorem Placed.of_kind {kind : TokenKind} {ws : List Lexeme} (h : ∀ w ∈ ws, w.kind = kind)
    (hk : kind.hasPlace = true) : Placed ws := fun w hw => h w hw ▸ hk

theorem Spell.placed {kinds : List TokenKind} {ws : List Lexeme} (h : Spell kinds ws)
    (hk : ∀ kind ∈ kinds, kind.hasPlace = true) : Placed ws := by
  intro w hw
  apply hk
  rw [← h]
  exact List.mem_map_of_mem hw

theorem Optionally.placed {kinds : List TokenKind} {ws : List Lexeme} {b : Bool}
    (h : Optionally kinds ws b) (hk : ∀ kind ∈ kinds, kind.hasPlace = true) : Placed ws := by
  cases h with
  | absent => exact .nil
  | present h => exact h.placed hk

section
variable {α : Type} {separator : TokenKind} {item : List Lexeme → α → Prop}

theorem Led.placed {ws : List Lexeme} {as : List α} (h : Led separator item ws as)
    (hs : separator.hasPlace = true) (hi : ∀ {ws a}, item ws a → Placed ws) : Placed ws := by
  induction h with
  | nil => exact .nil
  | cons hw ha _ ih => simp [hw, hs, hi ha, ih]

theorem Separated.placed {ws : List Lexeme} {as : List α} (h : Separated separator item ws as)
    (hs : separator.hasPlace = true) (hi : ∀ {ws a}, item ws a → Placed ws) : Placed ws := by
  cases h with
  | items ha hl => simp [hi ha, hl.placed hs hi]

end

section
variable {ws : List Lexeme}

theorem Identifier.Derives.placed {i : Identifier} (h : i.Derives ws) : Placed ws := by
  cases h <;> simp [*, TokenKind.hasPlace]

theorem Name.Derives.placed {n : Name} (h : n.Derives ws) : Placed ws := by
  cases h with
  | parts h => exact h.placed rfl Identifier.Derives.placed

theorem Number.Derives.placed {n : Number} (h : n.Derives ws) : Placed ws := by
  cases h <;> simp [*, TokenKind.hasPlace]

theorem Constant.Derives.placed {c : Constant} (h : Constant.Derives ws c) : Placed ws := by
  cases h with
  | number h => exact h.placed
  | truth h => simp [h, TokenKind.hasPlace]
  | falsehood h => simp [h, TokenKind.hasPlace]
  | strings _ h => exact .of_kind h rfl
  | typed ht h => simp [ht.placed, h, TokenKind.hasPlace]

theorem Expression.Derives.placed {e : Expression} (h : Expression.Derives ws e) : Placed ws := by
  cases h with
  | constant h => exact h.placed
  | map hm ho h hc =>
    simp [hm, ho, hc, h.placed rfl Constant.Derives.placed, TokenKind.hasPlace]

theorem Argument.Derives.placed {a : Argument} (h : Argument.Derives ws a) : Placed ws := by
  cases h with
  | positional h => exact h.placed
  | named hi hw he => simp [hi.placed, hw, he.placed, TokenKind.hasPlace]

theorem Argument.DeriveAll.placed {as : List Argument} (h : DeriveAll ws as) : Placed ws := by
  cases h with
  | none ho hc => simp [ho, hc, TokenKind.hasPlace]
  | some ho h hc => simp [ho, hc, h.placed rfl Argument.Derives.placed, TokenKind.hasPlace]

theorem TagOptions.Derives.placed {o : TagOptions} (h : o.Derives ws) : Placed ws := by
  obtain @⟨ws, vs, _, _, hv, hr⟩ := h
  have hversion : Placed ws := by
    cases hv with
    | none => exact .nil
    | some hk hn => simp [hk.placed (by decide), hn.placed]
  have hretain : Placed vs := by
    cases hr with
    | none => exact .nil
    | some hk hn hu => simp [hk, hn.placed, hu, TokenKind.hasPlace]
  simp [hversion, hretain]

theorem TagClause.Derives.placed {c : TagClause} (h : c.Derives ws) : Placed ws := by
  cases h with
  | create hk hc hn ho =>
    simp [hk.placed (by decide), hc.placed (by decide), hn.placed, ho.placed]
  | replace hc hk hn ho =>
    simp [hc.placed (by decide), hk.placed (by decide), hn.placed, ho.placed]

theorem Action.DeriveTagAction.placed {a : Action} (h : a.DeriveTagAction ws) : Placed ws := by
  cases h with
  | putTag h => exact h.placed
  | deleteTag hk hc hn => simp [hk.placed (by decide), hc.placed (by decide), hn.placed]
  | renameTag hk ho ht hn =>
    simp [hk.placed (by decide), ho.placed, ht, hn.placed, TokenKind.hasPlace]

theorem Statement.Derives.placed {s : Statement} (h : s.Derives ws) : Placed ws := by
  cases h with
  | call hk hn ha => simp [hk, hn.placed, ha.placed, TokenKind.hasPlace]
  | showTags hk hn => simp [hk.placed (by decide), hn.placed]
  | alter hk hn ha => simp [hk.placed (by decide), hn.placed, ha.placed]

/-- What is derived as a statement holds no lexeme of a kind without a place. -/
theorem Statement.DerivesWhole.placed {s : Statement} (h : s.DerivesWhole ws) : Placed ws := by
  cases h with
  | single hs hv hw =>
    have hsemicolons := Placed.of_kind hv rfl
    simp [hs.placed, hsemicolons, hw, TokenKind.hasPlace]

end

end TagDialect
