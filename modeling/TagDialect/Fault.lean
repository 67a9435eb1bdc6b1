-- What can go wrong with a statement, and the words for it.
import TagDialect.Token

namespace TagDialect

/-- A quoted piece without an end. -/
inductive Unterminated where
  | string (quote : Char)
  | name
deriving DecidableEq

namespace Unterminated

def message : Unterminated → String
  | .string _ => "unterminated string literal"
  | .name => "unterminated back-quoted identifier"

/-- The character that opens the piece. -/
def opener : Unterminated → Char
  | .string quote => quote
  | .name => '`'

end Unterminated

/-- What a statement needs at the place where it went wrong. -/
inductive Expectation where
  | token (kind : TokenKind)
  | statement
  | tagAction
  | afterCreate
  | listEnd
  | identifier
  | number
  | constant
  | timeUnit
  | statementEnd
  /-- What a caller names in its own words. -/
  | other (words : String)
deriving DecidableEq

def Expectation.words : Expectation → String
  | .token kind => kind.description
  | .statement => "CALL, SHOW or ALTER"
  | .tagAction => "CREATE, REPLACE, DELETE or RENAME after ALTER TABLE"
  | .afterCreate => "TAG or OR REPLACE after CREATE"
  | .listEnd => "',' or ')'"
  | .identifier => "identifier"
  | .number => "number"
  | .constant => "constant"
  | .timeUnit => "DAYS, HOURS or MINUTES"
  | .statementEnd => "';' or end of input"
  | .other words => words

/-- The text cannot be cut into tokens. -/
structure LexError where
  message : String
  unexpected : Char
  offset : Nat
  line : Nat
  column : Nat
  /-- The first byte and the number of bytes that the error is about. -/
  extent : Nat × Nat
deriving DecidableEq

/-- The tokens are no statement. -/
structure ParseError where
  expected : String
  found : String
  offset : Nat
  line : Nat
  column : Nat
  /-- The first byte and the number of bytes that the error is about. -/
  extent : Nat × Nat
deriving DecidableEq

inductive Fault where
  | lexical (e : LexError)
  | grammatical (e : ParseError)
  /-- Something outside the statement failed: a file, or the standard input. -/
  | outside (message : String)
deriving DecidableEq

namespace Fault

/-- The byte offset of the fault, when it is in the text. -/
def offset? : Fault → Option Nat
  | .lexical e => some e.offset
  | .grammatical e => some e.offset
  | .outside _ => none

/-- The message without the place. -/
def detail : Fault → String
  | .lexical e => e.message
  | .grammatical e => "expected " ++ e.expected ++ ", found " ++ e.found
  | .outside message => message

/-- The whole message. -/
def message : Fault → String
  | .lexical e =>
    "Lex error at line " ++ toString e.line ++ ", column " ++ toString e.column ++ ": " ++ e.message
  | .grammatical e =>
    "Parse error at line " ++ toString e.line ++ ", column " ++ toString e.column ++ ": expected " ++
      e.expected ++ ", found " ++ e.found
  | .outside message => "IO error: " ++ message

/-- The diagnostic code. -/
def code : Fault → String
  | .lexical _ => "tagsql::lex_error"
  | .grammatical _ => "tagsql::parse_error"
  | .outside _ => "tagsql::io_error"

/-- The stretch of text that the fault is about, with a word on it. -/
def label? : Fault → Option (String × Nat × Nat)
  | .lexical e => some ("starts here", e.extent)
  | .grammatical e => some ("here", e.extent)
  | .outside _ => none

end Fault

end TagDialect
