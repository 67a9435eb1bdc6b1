-- Statements: a call of a procedure, or something done to the tags of a table.
-- Every part keeps the span of the text that it came from.
import TagDialect.Token

namespace TagDialect

/-- A name's part, without its ticks. -/
structure Identifier where
  value : String
  /-- Whether it was written in ticks. -/
  quoted : Bool
  span : Span
deriving DecidableEq

/-- A dotted name. -/
structure Name where
  parts : List Identifier
  span : Span
deriving DecidableEq

/-- A numeric literal. Its text has the suffix but not the sign. -/
structure Number where
  kind : NumberKind
  text : String
  negative : Bool
  span : Span
deriving DecidableEq

inductive Constant where
  | number (n : Number)
  | boolean (value : Bool) (span : Span)
  /-- One string, or several that stand side by side. -/
  | string (value : String) (span : Span)
  /-- A string with the name of its type before it. -/
  | typed (type : Identifier) (value : String) (span : Span)
deriving DecidableEq

inductive Expression where
  | constant (c : Constant)
  | map (entries : List Constant) (span : Span)
deriving DecidableEq

/-- An argument of a call, with the parameter's name or without. -/
structure Argument where
  name : Option Identifier
  value : Expression
deriving DecidableEq

inductive TimeUnit where
  | days | hours | minutes
deriving DecidableEq

/-- How long a tag is kept. -/
structure Retention where
  amount : Number
  unit : TimeUnit
deriving DecidableEq

structure TagOptions where
  /-- The snapshot that the tag points at. -/
  version : Option Number
  retain : Option Retention
deriving DecidableEq

inductive TagClause where
  | create (ifNotExists : Bool) (name : Identifier) (options : TagOptions)
  | replace (createIfMissing : Bool) (name : Identifier) (options : TagOptions)
deriving DecidableEq

/-- What a statement does to its target. -/
inductive Action where
  | call (arguments : List Argument)
  | showTags
  | putTag (clause : TagClause)
  | deleteTag (ifExists : Bool) (tag : Identifier)
  | renameTag (old new : Identifier)
deriving DecidableEq

/-- A statement. Its target is a procedure for a call and a table for everything else. -/
structure Statement where
  target : Name
  action : Action
  span : Span
deriving DecidableEq

/-! ## Parts of the parts -/

def Name.names (n : Name) : List String := n.parts.map Identifier.value

def Constant.span : Constant → Span
  | .number n => n.span
  | .boolean _ span => span
  | .string _ span => span
  | .typed _ _ span => span

def Expression.span : Expression → Span
  | .constant c => c.span
  | .map _ span => span

def TagClause.name : TagClause → Identifier
  | .create _ name _ => name
  | .replace _ name _ => name

def TagClause.options : TagClause → TagOptions
  | .create _ _ options => options
  | .replace _ _ options => options

/-- The keyword of a time unit. -/
def TimeUnit.keyword : TimeUnit → Keyword
  | .days => .days
  | .hours => .hours
  | .minutes => .minutes

/-- The label of the statement's form. -/
def Action.label : Action → String
  | .call _ => "call"
  | .showTags => "show_tags"
  | .putTag _ => "create_or_replace_tag"
  | .deleteTag _ _ => "delete_tag"
  | .renameTag _ _ => "rename_tag"

end TagDialect
