-- What two statements share when only their spans, or their spans and their
-- ticks, tell them apart: each span is set to the origin, and each identifier
-- goes through one function.
import TagDialect.Statement

namespace TagDialect

/-! ## Identifiers and numbers -/

/-- The identifier without its span. -/
def Identifier.bare (i : Identifier) : Identifier := ⟨i.value, i.quoted, .origin⟩

/-- The identifier without its span, and as if it had no ticks. -/
def Identifier.plain (i : Identifier) : Identifier := ⟨i.value, false, .origin⟩

/-- The number without its span. -/
def Number.bare (n : Number) : Number := { n with span := .origin }

def Retention.bare (r : Retention) : Retention := ⟨r.amount.bare, r.unit⟩

def TagOptions.bare (o : TagOptions) : TagOptions :=
  ⟨o.version.map Number.bare, o.retain.map Retention.bare⟩

/-! ## Everything that holds identifiers -/

section
variable (f : Identifier → Identifier)

def Name.erase (n : Name) : Name := ⟨n.parts.map f, .origin⟩

def Constant.erase : Constant → Constant
  | .number n => .number n.bare
  | .boolean value _ => .boolean value .origin
  | .string value _ => .string value .origin
  | .typed type value _ => .typed (f type) value .origin

def Expression.erase : Expression → Expression
  | .constant c => .constant (c.erase f)
  | .map entries _ => .map (entries.map (Constant.erase f)) .origin

def Argument.erase (a : Argument) : Argument := ⟨a.name.map f, a.value.erase f⟩

def TagClause.erase : TagClause → TagClause
  | .create ifNotExists name options => .create ifNotExists (f name) options.bare
  | .replace createIfMissing name options => .replace createIfMissing (f name) options.bare

def Action.erase : Action → Action
  | .call arguments => .call (arguments.map (Argument.erase f))
  | .showTags => .showTags
  | .putTag clause => .putTag (clause.erase f)
  | .deleteTag ifExists tag => .deleteTag ifExists (f tag)
  | .renameTag old new => .renameTag (f old) (f new)

def Statement.erase (s : Statement) : Statement := ⟨s.target.erase f, s.action.erase f, .origin⟩

end

/-- The statement without its spans. -/
def Statement.bare (s : Statement) : Statement := s.erase Identifier.bare

/-- The statement without its spans, and as if no identifier had ticks. -/
def Statement.plain (s : Statement) : Statement := s.erase Identifier.plain

/-! ## One erasure after another -/

@[simp] theorem Number.bare_bare (n : Number) : n.bare.bare = n.bare := rfl

@[simp] theorem Retention.bare_bare (r : Retention) : r.bare.bare = r.bare := rfl

@[simp] theorem TagOptions.bare_bare (o : TagOptions) : o.bare.bare = o.bare := by
  simp [TagOptions.bare, Function.comp_def]

section
variable (f g : Identifier → Identifier)

@[simp] theorem Constant.erase_erase (c : Constant) :
    (c.erase f).erase g = c.erase fun i => g (f i) := by
  cases c <;> rfl

@[simp] theorem Expression.erase_erase (e : Expression) :
    (e.erase f).erase g = e.erase fun i => g (f i) := by
  cases e <;> simp [Expression.erase, Function.comp_def]

@[simp] theorem Argument.erase_erase (a : Argument) :
    (a.erase f).erase g = a.erase fun i => g (f i) := by
  simp [Argument.erase, Function.comp_def]

@[simp] theorem TagClause.erase_erase (c : TagClause) :
    (c.erase f).erase g = c.erase fun i => g (f i) := by
  cases c <;> simp [TagClause.erase]

@[simp] theorem Action.erase_erase (a : Action) :
    (a.erase f).erase g = a.erase fun i => g (f i) := by
  cases a <;> simp [Action.erase, Function.comp_def]

theorem Statement.erase_erase (s : Statement) :
    (s.erase f).erase g = s.erase fun i => g (f i) := by
  simp [Statement.erase, Name.erase, Function.comp_def]

end

/-- Statements that differ in spans alone also agree when ticks do not count. -/
theorem Statement.plain_eq_of_bare_eq {s t : Statement} (h : s.bare = t.bare) :
    s.plain = t.plain := by
  have hs : ∀ u : Statement, u.bare.plain = u.plain := fun u =>
    u.erase_erase Identifier.bare Identifier.plain
  rw [← hs s, ← hs t, h]

end TagDialect
