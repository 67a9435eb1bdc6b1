-- The canonical text of a statement: keywords in upper case, one space between
-- words, and ticks only around names that need them.
import TagDialect.Parser
import TagDialect.Layout
import TagDialect.Chars

namespace TagDialect

/-! ## Names and values -/

def Identifier.format (i : Identifier) : String := writeName i.value

def Name.format (n : Name) : String := ".".intercalate (n.parts.map Identifier.format)

def Number.format (n : Number) : String := if n.negative then "-" ++ n.text else n.text

def Constant.format : Constant → String
  | .number n => n.format
  | .boolean true _ => Keyword.true.text
  | .boolean false _ => Keyword.false.text
  | .string value _ => quoteString value
  | .typed type value _ => type.format ++ " " ++ quoteString value

/-! ## Statements -/

/-- Keywords as words. -/
def keywords (ks : List Keyword) : List Piece := ks.map fun k => .word k.text

/-- A list in parentheses, with commas between its items. -/
def listPieces {α : Type} (item : α → List Piece) (as : List α) : List Piece :=
  [.opening "("] ++ [Piece.comma].intercalate (as.map item) ++ [.attached ")"]

def Expression.pieces : Expression → List Piece
  | .constant c => [.word c.format]
  | .map entries _ => keywords [.map] ++ listPieces (fun c => [.word c.format]) entries

def Argument.pieces (a : Argument) : List Piece :=
  (match a.name with
    | some name => [.word name.format, .word "=>"]
    | none => []) ++ a.value.pieces

def TagOptions.pieces (o : TagOptions) : List Piece :=
  (match o.version with
    | some n => keywords [.as, .of, .version] ++ [.word n.format]
    | none => []) ++
  match o.retain with
  | some r => keywords [.retain] ++ [.word r.amount.format] ++ keywords [r.unit.keyword]
  | none => []

def TagClause.pieces : TagClause → List Piece
  | .create ifNotExists name options =>
    keywords [.create, .tag] ++ (if ifNotExists then keywords [.if, .not, .exists] else []) ++
      [.word name.format] ++ options.pieces
  | .replace createIfMissing name options =>
    (if createIfMissing then keywords [.create, .or] else []) ++ keywords [.replace, .tag] ++
      [.word name.format] ++ options.pieces

/-- The words before a statement's target. -/
def Action.opening : Action → List Keyword
  | .call _ => [.call]
  | .showTags => [.show, .tags]
  | .putTag _ | .deleteTag _ _ | .renameTag _ _ => [.alter, .table]

/-- What comes after a statement's target. -/
def Action.pieces : Action → List Piece
  | .call arguments => listPieces Argument.pieces arguments
  | .showTags => []
  | .putTag clause => clause.pieces
  | .deleteTag ifExists tag =>
    keywords [.delete, .tag] ++ (if ifExists then keywords [.if, .exists] else []) ++
      [.word tag.format]
  | .renameTag old new =>
    keywords [.rename, .tag] ++ [.word old.format] ++ keywords [.to] ++ [.word new.format]

def Statement.pieces (s : Statement) : List Piece :=
  keywords s.action.opening ++ [.word s.target.format] ++ s.action.pieces

/-- The canonical text of a statement, without a semicolon. -/
def Statement.format (s : Statement) : String := Piece.line s.pieces

/-! ## Texts -/

/-- The canonical text of the statement that a text holds. -/
def format (text : String) : Except Fault String :=
  match parse text with
  | .error e => .error e
  | .ok s => .ok s.format

/-- Whether a text is in canonical form already. White space at its end does not count. -/
def check (text : String) : Except Fault Bool :=
  match format text with
  | .error e => .error e
  | .ok canonical => .ok (canonical.toList == trimEnd text.toList)

end TagDialect
