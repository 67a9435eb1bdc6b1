-- Reading a statement off its tokens: the rules, run at a cursor.
import TagDialect.Rules
import TagDialect.Lexer

namespace TagDialect

/-- A rule that reads an `α` at a cursor. -/
abbrev Parse (α : Type) := EStateM ParseError Cursor α

namespace Parse

variable {α : Type}

/-! ## What rules are made of -/

instance : Steps Parse where
  look := get
  advance := do
    let c ← get
    set c.advance
    return c.current
  fail expected := do throw ((← get).fault expected)

/-- Steps an item after each separator that comes next, as long as there is fuel. -/
def itemsAfter (separator : TokenKind) (item : Parse α) : Nat → Parse (List α)
  | 0 => return []
  | fuel + 1 => do
    if ← Rule.consume separator then
      let a ← item
      let others ← itemsAfter separator item fuel
      return a :: others
    else return []

/-- A separator takes a token, so there is fuel for all of them. -/
instance : Loops Parse where
  itemsAfter separator item := do itemsAfter separator item ((← get).ahead.length + 1)
  passAll kind := do
    let c ← get
    set (c.advanceOver kind)
    return c.ahead.takeWhile fun t => t.kind = kind

/-! ## The rules -/

abbrev look : Parse Cursor := Steps.look

abbrev advance : Parse Token := Steps.advance

abbrev fail (expected : Expectation) : Parse α := Steps.fail expected

abbrev items (separator : TokenKind) (item : Parse α) : Parse (List α) :=
  Loops.itemsAfter separator item

abbrev passAll (kind : TokenKind) : Parse (List Token) := Loops.passAll kind

abbrev consume (kind : TokenKind) : Parse Bool := Rule.consume kind

abbrev expect (kind : TokenKind) : Parse Token := Rule.expect kind

abbrev expectAll (kinds : List TokenKind) : Parse Unit := Rule.expectAll kinds

abbrev consumeAll (kinds : List TokenKind) : Parse Bool := Rule.consumeAll kinds

abbrev spanFrom (start : Span) : Parse Span := Rule.spanFrom start

abbrev itemsBy (separator : TokenKind) (item : Parse α) : Parse (List α) :=
  Rule.itemsBy separator item

abbrev identifier : Parse Identifier := Rule.identifier

abbrev name : Parse Name := Rule.name

abbrev number : Parse Number := Rule.number

abbrev constant : Parse Constant := Rule.constant

abbrev map : Parse Expression := Rule.map

abbrev expression : Parse Expression := Rule.expression

abbrev argument : Parse Argument := Rule.argument

abbrev arguments : Parse (List Argument) := Rule.arguments

abbrev timeUnit : Parse TimeUnit := Rule.timeUnit

abbrev version : Parse (Option Number) := Rule.version

abbrev retention : Parse (Option Retention) := Rule.retention

abbrev tagOptions : Parse TagOptions := Rule.tagOptions

abbrev replaceTag (createIfMissing : Bool) : Parse TagClause := Rule.replaceTag createIfMissing

abbrev createTag : Parse TagClause := Rule.createTag

abbrev tagAction : Parse Action := Rule.tagAction

abbrev statement : Parse Statement := Rule.statement

abbrev semicolons : Parse Unit := Rule.semicolons

abbrev whole : Parse Statement := Rule.whole

/-- Steps from the first of the tokens on. -/
def run (rule : Parse α) (tokens : List Token) : Except ParseError α :=
  match rule (.ofTokens tokens) with
  | .ok a _ => .ok a
  | .error e _ => .error e

end Parse

/-- The one statement that a text holds. -/
def parse (text : String) : Except Fault Statement :=
  match tokenize text with
  | .error e => .error (.lexical e)
  | .ok tokens =>
    match Parse.whole.run tokens with
    | .error e => .error (.grammatical e)
    | .ok s => .ok s

end TagDialect
