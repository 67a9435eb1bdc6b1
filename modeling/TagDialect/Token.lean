-- Tokens: the classified pieces of a statement's text.
import TagDialect.Place
import TagDialect.Keyword

namespace TagDialect

/-- The families of numeric literals, told apart by their shape alone. -/
inductive NumberKind where
  | exponent | decimal | integer | bigInt | smallInt | tinyInt | double | float | bigDecimal
deriving DecidableEq

inductive TokenKind where
  | keyword (k : Keyword)
  | plus | minus
  | leftParen | rightParen | comma | dot | semicolon | arrow
  | string
  | number (kind : NumberKind)
  | identifier | backquoted
  | whitespace | lineComment | blockComment
  | unrecognized
  | endOfInput
deriving DecidableEq

/-! ## Classes of kinds -/

namespace TokenKind

/-- Blanks and comments, which a statement's meaning does not depend on. -/
def isHidden : TokenKind → Bool
  | .whitespace | .lineComment | .blockComment => true
  | _ => false

def isNumber : TokenKind → Bool
  | .number _ => true
  | _ => false

def isKeyword : TokenKind → Bool
  | .keyword _ => true
  | _ => false

/-- A keyword that may also stand where a name is expected. -/
def isNonReserved : TokenKind → Bool
  | .keyword k => !k.isReserved
  | _ => false

/-- Whether a token of this kind can stand where a name is expected. -/
def canBeIdentifier : TokenKind → Bool
  | .identifier | .backquoted => true
  | kind => kind.isNonReserved

/-- The canonical spelling of a keyword's tokens. -/
def keywordText? : TokenKind → Option String
  | .keyword k => some k.text
  | _ => none

end TokenKind

/-! ## How kinds are called -/

namespace NumberKind

/-- The label of a token of this family in a token listing. -/
def tokenLabel : NumberKind → String
  | .exponent => "ExponentValue"
  | .decimal => "DecimalValue"
  | .integer => "IntegerValue"
  | .bigInt => "BigIntLiteral"
  | .smallInt => "SmallIntLiteral"
  | .tinyInt => "TinyIntLiteral"
  | .double => "DoubleLiteral"
  | .float => "FloatLiteral"
  | .bigDecimal => "BigDecimalLiteral"

/-- The family's own label in a syntax tree. -/
def label : NumberKind → String
  | .exponent => "Exponent"
  | .decimal => "Decimal"
  | .integer => "Integer"
  | .bigInt => "BigInt"
  | .smallInt => "SmallInt"
  | .tinyInt => "TinyInt"
  | .double => "Double"
  | .float => "Float"
  | .bigDecimal => "BigDecimal"

/-- The family in words. -/
def description : NumberKind → String
  | .exponent => "exponent literal"
  | .decimal => "decimal literal"
  | .integer => "integer literal"
  | .bigInt => "bigint literal"
  | .smallInt => "smallint literal"
  | .tinyInt => "tinyint literal"
  | .double => "double literal"
  | .float => "float literal"
  | .bigDecimal => "bigdecimal literal"

def all : List NumberKind :=
  [.exponent, .decimal, .integer, .bigInt, .smallInt, .tinyInt, .double, .float, .bigDecimal]

end NumberKind

/-- The label of a keyword's tokens in a token listing. -/
def Keyword.label : Keyword → String
  | .alter => "Alter"
  | .as => "As"
  | .call => "Call"
  | .create => "Create"
  | .days => "Days"
  | .delete => "Delete"
  | .exists => "Exists"
  | .false => "False"
  | .hours => "Hours"
  | .if => "If"
  | .map => "Map"
  | .minutes => "Minutes"
  | .not => "Not"
  | .of => "Of"
  | .or => "Or"
  | .rename => "Rename"
  | .replace => "Replace"
  | .retain => "Retain"
  | .show => "Show"
  | .table => "Table"
  | .tag => "Tag"
  | .tags => "Tags"
  | .to => "To"
  | .true => "True"
  | .version => "Version"

namespace TokenKind

/-- The kind's label in a token listing. -/
def label : TokenKind → String
  | .keyword k => k.label
  | .plus => "Plus"
  | .minus => "Minus"
  | .leftParen => "LParen"
  | .rightParen => "RParen"
  | .comma => "Comma"
  | .dot => "Dot"
  | .semicolon => "Semicolon"
  | .arrow => "Arrow"
  | .string => "String"
  | .number kind => kind.tokenLabel
  | .identifier => "Identifier"
  | .backquoted => "BackquotedIdentifier"
  | .whitespace => "Whitespace"
  | .lineComment => "LineComment"
  | .blockComment => "BlockComment"
  | .unrecognized => "Unrecognized"
  | .endOfInput => "Eof"

/-- The kind in the words of an error message. -/
def description : TokenKind → String
  | .keyword k => k.text
  | .plus => "'+'"
  | .minus => "'-'"
  | .leftParen => "'('"
  | .rightParen => "')'"
  | .comma => "','"
  | .dot => "'.'"
  | .semicolon => "';'"
  | .arrow => "'=>'"
  | .string => "string literal"
  | .number kind => kind.description
  | .identifier => "identifier"
  | .backquoted => "back-quoted identifier"
  | .whitespace => "whitespace"
  | .lineComment => "comment"
  | .blockComment => "block comment"
  | .unrecognized => "unrecognized character"
  | .endOfInput => "end of input"

def all : List TokenKind :=
  Keyword.all.map .keyword ++ [.plus, .minus, .leftParen, .rightParen, .comma, .dot, .semicolon,
    .arrow, .string] ++ NumberKind.all.map .number ++ [.identifier, .backquoted, .whitespace,
    .lineComment, .blockComment, .unrecognized, .endOfInput]

/-- The kind with the given label. -/
def ofLabel? (label : String) : Option TokenKind := all.find? fun kind => kind.label == label

end TokenKind

/-! ## Tokens -/

/-- A piece of the text, with its kind and where it stands. -/
structure Token where
  kind : TokenKind
  text : String
  span : Span
deriving DecidableEq

/-- How an error message names the token. -/
def Token.describe (t : Token) : String :=
  match t.kind with
  | .endOfInput => "end of input"
  | .unrecognized => "unrecognized character '" ++ t.text ++ "'"
  | .string => "string " ++ t.text
  | _ => "'" ++ t.text ++ "'"

end TagDialect
