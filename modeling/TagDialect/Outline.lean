-- The outline of a statement: its whole tree, one field to a line.
import TagDialect.Statement
import TagDialect.Glyphs

namespace TagDialect

/-- The lines of an outlined value. -/
abbrev Outline := List String

namespace Outline

/-! ## Building outlines -/

/-- Writes `text` before the first line. -/
def before (text : String) : Outline → Outline
  | [] => [text]
  | l :: ls => (text ++ l) :: ls

/-- Writes a comma behind the last line. -/
def withComma : Outline → Outline
  | [] => [","]
  | [l] => [l ++ ","]
  | l :: ls => l :: withComma ls

/-- The lines inside brackets: four blanks further in, with a comma at the end. -/
def inside (o : Outline) : Outline := (withComma o).map ("    " ++ ·)

/-- A value between an opening and a closing line. -/
def bracketed (opening : String) (items : List Outline) (closing : String) : Outline :=
  [opening] ++ items.flatMap inside ++ [closing]

def leaf (text : String) : Outline := [text]

def list (items : List Outline) : Outline :=
  if items.isEmpty then leaf "[]" else bracketed "[" items "]"

/-- A labelled value. -/
def labelled (label : String) (item : Outline) : Outline := bracketed (label ++ "(") [item] ")"

/-- A record of named fields. -/
def record (label : String) (fields : List (String × Outline)) : Outline :=
  bracketed (label ++ " \x7b") (fields.map fun (name, o) => before (name ++ ": ") o) "\x7d"

def option {α : Type} (item : α → Outline) : Option α → Outline
  | none => leaf "None"
  | some a => labelled "Some" (item a)

def nat (n : Nat) : Outline := leaf (toString n)

def bool (b : Bool) : Outline := leaf (if b then "true" else "false")

def quote (s : String) : Outline := leaf (listString s)

/-- The text of an outline. -/
def text (o : Outline) : String := "\n".intercalate o

end Outline

/-! ## Outlines of the parts of a statement -/

open Outline

def Span.outline (s : Span) : Outline :=
  record "Span"
    [("start", nat s.start), ("end", nat s.stop), ("line", nat s.line), ("column", nat s.column)]

def Identifier.outline (i : Identifier) : Outline :=
  record "Identifier"
    [("value", quote i.value), ("quoted", bool i.quoted), ("span", i.span.outline)]

def Name.outline (n : Name) : Outline :=
  record "MultipartIdentifier"
    [("parts", list (n.parts.map Identifier.outline)), ("span", n.span.outline)]

def Number.outline (n : Number) : Outline :=
  record "Number"
    [("kind", leaf n.kind.label), ("text", quote n.text), ("negative", bool n.negative),
      ("span", n.span.outline)]

def Constant.outline : Constant → Outline
  | .number n => labelled "Number" n.outline
  | .boolean value span => record "Boolean" [("value", bool value), ("span", span.outline)]
  | .string value span => record "StringLiteral" [("value", quote value), ("span", span.outline)]
  | .typed type value span =>
    record "TypeConstructor"
      [("type_name", type.outline), ("value", quote value), ("span", span.outline)]

def Expression.outline : Expression → Outline
  | .constant c => labelled "Constant" c.outline
  | .map entries span =>
    record "StringMap"
      [("entries", list (entries.map Constant.outline)), ("span", span.outline)]

def Argument.outline (a : Argument) : Outline :=
  match a.name with
  | none => labelled "Positional" a.value.outline
  | some name => record "Named" [("name", name.outline), ("value", a.value.outline)]

def TimeUnit.label : TimeUnit → String
  | .days => "Days"
  | .hours => "Hours"
  | .minutes => "Minutes"

def Retention.outline (r : Retention) : Outline :=
  record "TimeRetain" [("amount", r.amount.outline), ("unit", leaf r.unit.label)]

def TagOptions.outline (o : TagOptions) : Outline :=
  record "TagOptions"
    [("snapshot_id", option Number.outline o.version),
      ("retain", option Retention.outline o.retain)]

def TagClause.outline : TagClause → Outline
  | .create ifNotExists name options =>
    record "Create"
      [("if_not_exists", bool ifNotExists), ("name", name.outline),
        ("options", options.outline)]
  | .replace createIfMissing name options =>
    record "Replace"
      [("create_if_missing", bool createIfMissing), ("name", name.outline),
        ("options", options.outline)]

def Statement.outline (s : Statement) : Outline :=
  match s.action with
  | .call arguments =>
    labelled "Call" (record "CallStatement"
      [("procedure", s.target.outline), ("args", list (arguments.map Argument.outline)),
        ("span", s.span.outline)])
  | .showTags =>
    labelled "ShowTags" (record "ShowTagsStatement"
      [("table", s.target.outline), ("span", s.span.outline)])
  | .putTag clause =>
    labelled "CreateOrReplaceTag" (record "CreateOrReplaceTagStatement"
      [("table", s.target.outline), ("clause", clause.outline), ("span", s.span.outline)])
  | .deleteTag ifExists tag =>
    labelled "DeleteTag" (record "DeleteTagStatement"
      [("table", s.target.outline), ("if_exists", bool ifExists), ("tag_name", tag.outline),
        ("span", s.span.outline)])
  | .renameTag old new =>
    labelled "RenameTag" (record "RenameTagStatement"
      [("table", s.target.outline), ("from", old.outline), ("to", new.outline),
        ("span", s.span.outline)])

end TagDialect
