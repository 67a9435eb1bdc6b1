-- No number and no point stands right next to another one in what the grammar
-- derives. Between any two of them is a word, a mark or a quoted piece.
import TagDialect.Proofs.NodeSpans
import Mathlib.Data.List.Chain

namespace TagDialect

/-! ## Numbers and points -/

/-- Whether lexemes of the kind are made of what numbers are made of. -/
def TokenKind.isNumeral : TokenKind → Bool
  | .number _ | .dot => true
  | _ => false

/-- Of two neighbours, one at most is a number or a point. -/
def Spread (ws : List Lexeme) : Prop :=
  ws.IsChain fun a b => a.kind.isNumeral = true → b.kind.isNumeral = false

/-- No number and no point is among the lexemes. -/
def Wordy (ws : List Lexeme) : Prop := ∀ w ∈ ws, w.kind.isNumeral = false

@[simp] theorem Spread.nil : Spread [] := List.isChain_nil

@[simp] theorem Spread.single (w : Lexeme) : Spread [w] := List.isChain_singleton w

@[simp] theorem Wordy.nil : Wordy [] := by simp [Wordy]

@[simp] theorem Wordy.cons_iff {w : Lexeme} {ws : List Lexeme} :
    Wordy (w :: ws) ↔ w.kind.isNumeral = false ∧ Wordy ws := by simp [Wordy]

@[simp] theorem Wordy.append_iff {ws vs : List Lexeme} :
    Wordy (ws ++ vs) ↔ Wordy ws ∧ Wordy vs := by
  simp only [Wordy, List.mem_append]
  grind

/-- In front of other lexemes, words make no new neighbours of numbers. -/
theorem Wordy.before {ws vs : List Lexeme} (hw : Wordy ws) (hv : Spread vs) :
    Spread (ws ++ vs) := by
  induction ws with
  | nil => exact hv
  | cons w ws ih =>
    rw [Wordy.cons_iff] at hw
    refine List.isChain_cons.mpr ⟨?_, ih hw.2⟩
    intro v _ hnumeral
    simp [hw.1] at hnumeral

theorem Wordy.spread {ws : List Lexeme} (h : Wordy ws) : Spread ws := by
  have hspread := h.before Spread.nil
  rwa [List.append_nil] at hspread

/-- A word between two parts keeps their numbers apart. -/
theorem Spread.across {us vs : List Lexeme} {w : Lexeme} (hu : Spread us)
    (hw : w.kind.isNumeral = false) (hv : Spread vs) : Spread (us ++ w :: vs) := by
  have hvs : Spread ([w] ++ vs) := Wordy.before (by simp [hw]) hv
  refine List.isChain_append.mpr ⟨hu, hvs, ?_⟩
  intro a _ b hb _
  obtain rfl : w = b := by simpa using hb
  exact hw

theorem Spread.between {us ws vs : List Lexeme} (hu : Spread us) (hw : Wordy ws) (hne : ws ≠ [])
    (hv : Spread vs) : Spread (us ++ (ws ++ vs)) := by
  obtain ⟨w, ws, rfl⟩ := List.exists_cons_of_ne_nil hne
  rw [Wordy.cons_iff] at hw
  exact hu.across hw.1 (hw.2.before hv)

/-! ## Words and lists -/

theorem Spell.ne_nil {kind : TokenKind} {kinds : List TokenKind} {ws : List Lexeme}
    (h : Spell (kind :: kinds) ws) : ws ≠ [] := by
  rintro rfl
  simp [Spell] at h

theorem Spell.wordy {kinds : List TokenKind} {ws : List Lexeme} (h : Spell kinds ws)
    (hk : ∀ kind ∈ kinds, kind.isNumeral = false) : Wordy ws := by
  intro w hw
  apply hk
  rw [← h]
  exact List.mem_map_of_mem hw

theorem Optionally.wordy {kinds : List TokenKind} {ws : List Lexeme} {b : Bool}
    (h : Optionally kinds ws b) (hk : ∀ kind ∈ kinds, kind.isNumeral = false) : Wordy ws := by
  cases h with
  | absent => exact .nil
  | present h => exact h.wordy hk

section
variable {α : Type} {separator : TokenKind} {item : List Lexeme → α → Prop}

theorem Led.spread {us ws : List Lexeme} {as : List α} (h : Led separator item ws as)
    (hs : separator.isNumeral = false) (hi : ∀ {ws a}, item ws a → Spread ws)
    (hu : Spread us) : Spread (us ++ ws) := by
  induction h generalizing us with
  | nil => rwa [List.append_nil]
  | @cons w ws vs _ _ hw ha _ ih =>
    -- What stands before the list grows by one separator and one item.
    have hitem : Spread (us ++ w :: ws) := hu.across (hw ▸ hs) (hi ha)
    have hlist := ih hitem
    rwa [List.append_assoc] at hlist

theorem Separated.spread {ws : List Lexeme} {as : List α} (h : Separated separator item ws as)
    (hs : separator.isNumeral = false) (hi : ∀ {ws a}, item ws a → Spread ws) : Spread ws := by
  cases h with
  | items ha hl => exact hl.spread hs hi (hi ha)

end

/-! ## Every production -/

section
variable {ws : List Lexeme}

theorem Identifier.Derives.wordy {i : Identifier} (h : i.Derives ws) : Wordy ws := by
  cases h <;> simp [*, TokenKind.isNumeral]

/-- The points of a name have parts of the name on both sides. -/
theorem spread_of_parts {w : Lexeme} {parts : List Identifier} (hw : w.kind.isNumeral = false)
    (h : Led .dot Identifier.Derives ws parts) : Spread (w :: ws) := by
  induction h generalizing w with
  | nil => exact .single w
  | @cons d _ vs _ _ _ ha _ ih =>
    have hword := ha.wordy
    obtain ⟨v, rfl, -⟩ := Parse.derives_identifier ha
    have hv : v.kind.isNumeral = false := by simpa using hword
    refine List.isChain_cons_cons.mpr ⟨?_, List.isChain_cons_cons.mpr ⟨fun _ => hv, ih hv⟩⟩
    intro hnumeral
    simp [hw] at hnumeral

theorem Name.Derives.spread {n : Name} (h : n.Derives ws) : Spread ws := by
  obtain ⟨⟨ha, hs⟩⟩ := h
  have hword := ha.wordy
  obtain ⟨w, rfl, -⟩ := Parse.derives_identifier ha
  exact spread_of_parts (by simpa using hword) hs

theorem Number.Derives.spread {n : Number} (h : n.Derives ws) : Spread ws := by
  cases h with
  | positive h => exact .single _
  | @negative m w _ _ hm h =>
    have hminus : Wordy [m] := by simp [hm, TokenKind.isNumeral]
    exact hminus.before (.single w)

theorem Constant.Derives.spread {c : Constant} (h : Constant.Derives ws c) : Spread ws := by
  cases h with
  | number h => exact h.spread
  | truth _ => exact .single _
  | falsehood _ => exact .single _
  | strings _ h =>
    apply Wordy.spread
    intro w hw
    rw [h w hw]
    rfl
  | typed ht h => exact ht.wordy.before (.single _)

theorem Expression.Derives.spread {e : Expression} (h : Expression.Derives ws e) : Spread ws := by
  cases h with
  | constant h => exact h.spread
  | @map m o c ws _ _ hm ho h hc =>
    have hopen : Wordy [m, o] := by simp [hm, ho, TokenKind.isNumeral]
    have hentries := hopen.before (h.spread rfl Constant.Derives.spread)
    exact hentries.across (by rw [hc]; rfl) .nil

theorem Argument.Derives.spread {a : Argument} (h : Argument.Derives ws a) : Spread ws := by
  cases h with
  | positional h => exact h.spread
  | named hi hw he => exact hi.wordy.spread.across (by rw [hw]; rfl) he.spread

theorem Argument.DeriveAll.spread {us : List Lexeme} {as : List Argument} (h : DeriveAll ws as)
    (hu : Spread us) : Spread (us ++ ws) := by
  cases h with
  | none ho hc => exact hu.across (by rw [ho]; rfl) (.single _)
  | some ho h hc =>
    have harguments := hu.across (by rw [ho]; rfl) (h.spread rfl Argument.Derives.spread)
    have hclosed := harguments.across (by rw [hc]; rfl) .nil
    rwa [List.append_assoc] at hclosed

theorem TagOptions.DeriveVersion.spread {v : Option Number} (h : DeriveVersion ws v) :
    Spread ws := by
  cases h with
  | none => exact .nil
  | some hk hn => exact (hk.wordy (by decide)).before hn.spread

theorem TagOptions.Derives.spread {o : TagOptions} (h : o.Derives ws) : Spread ws := by
  obtain ⟨hv, hr⟩ := h
  cases hr with
  | none =>
    rw [List.append_nil]
    exact hv.spread
  | some hk hn hu =>
    have hamount := hv.spread.across (by rw [hk]; rfl) hn.spread
    have hunit := hamount.across (by rw [hu]; rfl) .nil
    rwa [List.append_assoc] at hunit

theorem TagClause.Derives.spread {us : List Lexeme} {c : TagClause} (h : c.Derives ws)
    (hu : Spread us) : Spread (us ++ ws) := by
  cases h with
  | create hk hc hn ho =>
    refine hu.between ?_ (by simp [hk.ne_nil]) ho.spread
    simp [hk.wordy (by decide), hc.wordy (by decide), hn.wordy]
  | replace hc hk hn ho =>
    refine hu.between ?_ (by simp [hk.ne_nil]) ho.spread
    simp [hc.wordy (by decide), hk.wordy (by decide), hn.wordy]

theorem Action.DeriveTagAction.spread {us : List Lexeme} {a : Action} (h : a.DeriveTagAction ws)
    (hu : Spread us) : Spread (us ++ ws) := by
  cases h with
  | putTag h => exact h.spread hu
  | deleteTag hk hc hn =>
    exact hu.between (by simp [hk.wordy (by decide), hc.wordy (by decide)]) (by simp [hk.ne_nil])
      hn.wordy.spread
  | renameTag hk ho ht hn =>
    refine hu.between (by simp [hk.wordy (by decide), ho.wordy]) (by simp [hk.ne_nil]) ?_
    exact Wordy.spread (by simp [ht, hn.wordy, TokenKind.isNumeral])

theorem Statement.Derives.spread {s : Statement} (h : s.Derives ws) : Spread ws := by
  cases h with
  | @call k _ _ _ _ _ hk hn ha =>
    have hword : Wordy [k] := by simp [hk, TokenKind.isNumeral]
    exact ha.spread (hword.before hn.spread)
  | showTags hk hn => exact (hk.wordy (by decide)).before hn.spread
  | alter hk hn ha => exact ha.spread ((hk.wordy (by decide)).before hn.spread)

/-- Whatever a node is derived from keeps its numbers and points apart. -/
theorem Node.Derives.spread {n : Node} (h : n.Derives ws) : Spread ws := by
  cases n with
  | statement s => exact Statement.Derives.spread h
  | name n => exact Name.Derives.spread h
  | identifier i => exact (Identifier.Derives.wordy h).spread
  | number n => exact Number.Derives.spread h
  | constant c => exact Constant.Derives.spread h
  | map entries span => exact Expression.Derives.spread h

theorem Node.Derives.placed {n : Node} (h : n.Derives ws) : Placed ws := by
  cases n with
  | statement s => exact Statement.Derives.placed h
  | name n => exact Name.Derives.placed h
  | identifier i => exact Identifier.Derives.placed h
  | number n => exact Number.Derives.placed h
  | constant c => exact Constant.Derives.placed h
  | map entries span => exact Expression.Derives.placed h

end

end TagDialect
