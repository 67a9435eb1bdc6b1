-- A cursor over the tokens of a statement: those behind it, and those ahead.
import TagDialect.Fault

namespace TagDialect

/-- The tokens that were passed, the latest one first, and the tokens that are left. -/
structure Cursor where
  behind : List Token
  ahead : List Token
deriving DecidableEq

namespace Cursor

def ofTokens (tokens : List Token) : Cursor := ⟨[], tokens⟩

/-- What a cursor without any token sees. -/
def nothing : Token := ⟨.endOfInput, "", .origin⟩

/-- The token `n` places ahead. Past the end it is the last token of all. -/
def peek (c : Cursor) (n : Nat) : Token :=
  match c.ahead[n]? with
  | some t => t
  | none => (c.ahead.getLast?.or c.behind.head?).getD nothing

def current (c : Cursor) : Token := c.peek 0

def kind (c : Cursor) : TokenKind := c.current.kind

def peekKind (c : Cursor) (n : Nat) : TokenKind := (c.peek n).kind

def isAtEnd (c : Cursor) : Bool := c.kind == .endOfInput

/-- One token further, or the same when no token is left. -/
def advance (c : Cursor) : Cursor :=
  match c.ahead with
  | [] => c
  | t :: ts => ⟨t :: c.behind, ts⟩

/-- Moves tokens of one kind from those ahead to those behind. -/
def passOver (kind : TokenKind) (behind : List Token) : List Token → Cursor
  | [] => ⟨behind, []⟩
  | t :: ts => if t.kind = kind then passOver kind (t :: behind) ts else ⟨behind, t :: ts⟩

/-- Passes over all tokens of one kind that come next. -/
def advanceOver (kind : TokenKind) (c : Cursor) : Cursor := passOver kind c.behind c.ahead

/-- The span of the token that was passed last. -/
def previousSpan (c : Cursor) : Span :=
  match c.behind with
  | t :: _ => t.span
  | [] => c.current.span

/-- From `start` to the end of the token that was passed last. -/
def spanFrom (c : Cursor) (start : Span) : Span := start.to c.previousSpan

/-- What is wrong at the current token, when `expected` was to stand there. -/
def fault (c : Cursor) (expected : Expectation) : ParseError where
  expected := expected.words
  found := c.current.describe
  offset := c.current.span.start
  line := c.current.span.line
  column := c.current.span.column
  extent := (c.current.span.start, c.current.span.length)

end Cursor

end TagDialect
