-- The rules of the parser. Every rule either reads its part and leaves the cursor
-- behind it, or fails and leaves the cursor where it failed. A rule is made of
-- single tokens and of two loops, and is the same rule wherever these are given.
import TagDialect.Statement
import TagDialect.Cursor
import TagDialect.Quoting

namespace TagDialect

/-- The single steps of a rule, at a cursor. -/
class Steps (m : Type → Type) where
  look : m Cursor
  /-- Passes the current token. -/
  advance : m Token
  /-- Fails at the current token. -/
  fail {α : Type} (expected : Expectation) : m α

/-- The loops of a rule, over rows of tokens of any length. -/
class Loops (m : Type → Type) extends Steps m where
  /-- Steps an item after each separator that comes next. -/
  itemsAfter {α : Type} (separator : TokenKind) (item : m α) : m (List α)
  /-- Passes all tokens of one kind that come next. -/
  passAll (kind : TokenKind) : m (List Token)

namespace Rule

open Steps Loops

variable {m : Type → Type} [Monad m] {α : Type}

section
variable [Steps m]

/-! ## Single tokens -/

/-- Passes the current token if it has the given kind, and tells whether it did. -/
def consume (kind : TokenKind) : m Bool := do
  if (← look).kind = kind then
    let _ ← advance
    return true
  else return false

/-- Passes a token of the given kind. -/
def expect (kind : TokenKind) : m Token := do
  if (← look).kind = kind then advance else fail (.token kind)

/-- Passes several tokens in a row. -/
def expectAll : List TokenKind → m Unit
  | [] => pure ()
  | kind :: kinds => do
    let _ ← expect kind
    expectAll kinds

/-- Passes all of the given tokens if they come next, and tells whether they did. -/
def consumeAll (kinds : List TokenKind) : m Bool := do
  let c ← look
  if (List.range kinds.length).map c.peekKind = kinds then
    expectAll kinds
    return true
  else return false

/-- The span from `start` to the token that was passed last. -/
def spanFrom (start : Span) : m Span := return (← look).spanFrom start

end

variable [Loops m]

/-! ## Lists -/

/-- Steps one item or more, with a separator between each two. -/
def itemsBy (separator : TokenKind) (item : m α) : m (List α) := do
  let first ← item
  let others ← itemsAfter separator item
  return first :: others

/-! ## Names and values -/

/-- A name's part: a word, a word in ticks, or a keyword that is not reserved. As for strings, a text
that no ticks stand around has the empty name, where the program would stop; the lexer makes no
such token. -/
def identifier : m Identifier := do
  let t := (← look).current
  if t.kind = .backquoted then
    let _ ← advance
    return ⟨(nameValue? t.text).getD "", true, t.span⟩
  else if t.kind.canBeIdentifier then
    let _ ← advance
    return ⟨t.text, false, t.span⟩
  else fail .identifier

/-- A dotted name. -/
def name : m Name := do
  let start := (← look).current.span
  let parts ← itemsBy .dot identifier
  return ⟨parts, ← spanFrom start⟩

/-- A numeric literal, with a minus sign before it or without. -/
def number : m Number := do
  let start := (← look).current.span
  let negative ← consume .minus
  let t := (← look).current
  match t.kind with
  | .number kind =>
    let _ ← advance
    return ⟨kind, t.text, negative, ← spanFrom start⟩
  | _ => fail .number

/-- The value of a string token. A text without a value has the empty one here: the slice in it would
stop the program, but the lexer makes no string with such a text. -/
def stringOf (t : Token) : String := (stringValue? t.text).getD ""

/-- A constant: a number, a string with its type before it, a truth value, or one or more
strings side by side. -/
def constant : m Constant := do
  let c ← look
  let t := c.current
  if t.kind = .minus ∨ t.kind.isNumber then return .number (← number)
  else if t.kind.canBeIdentifier ∧ c.peekKind 1 = .string then
    let type ← identifier
    let value ← expect .string
    return .typed type (stringOf value) (type.span.to value.span)
  else if t.kind = .keyword .true ∨ t.kind = .keyword .false then
    let _ ← advance
    return .boolean (t.kind = .keyword .true) t.span
  else if t.kind = .string then
    let strings ← passAll .string
    return .string (String.join (strings.map stringOf)) (← spanFrom t.span)
  else fail .constant

/-- The constants of a map, in parentheses. -/
def map : m Expression := do
  let start := (← expect (.keyword .map)).span
  let _ ← expect .leftParen
  let entries ← itemsBy .comma constant
  if ← consume .rightParen then return .map entries (← spanFrom start) else fail .listEnd

/-- The value of an argument. `MAP` starts a map only right before a parenthesis. -/
def expression : m Expression := do
  let c ← look
  if c.kind = .keyword .map ∧ c.peekKind 1 = .leftParen then map
  else return .constant (← constant)

/-- An argument of a call, with the parameter's name or without. -/
def argument : m Argument := do
  let c ← look
  if c.kind.canBeIdentifier ∧ c.peekKind 1 = .arrow then
    let name ← identifier
    let _ ← expect .arrow
    return ⟨some name, ← expression⟩
  else return ⟨none, ← expression⟩

/-! ## Statements -/

/-- The arguments of a call, in parentheses. -/
def arguments : m (List Argument) := do
  let _ ← expect .leftParen
  if ← consume .rightParen then return []
  else
    let arguments ← itemsBy .comma argument
    if ← consume .rightParen then return arguments else fail .listEnd

def timeUnit : m TimeUnit := do
  match (← look).kind with
  | .keyword .days =>
    let _ ← advance
    return .days
  | .keyword .hours =>
    let _ ← advance
    return .hours
  | .keyword .minutes =>
    let _ ← advance
    return .minutes
  | _ => fail .timeUnit

/-- `AS OF VERSION` and a number, or nothing. -/
def version : m (Option Number) := do
  if ← consume (.keyword .as) then
    expectAll [.keyword .of, .keyword .version]
    return some (← number)
  else return none

/-- `RETAIN` and a stretch of time, or nothing. -/
def retention : m (Option Retention) := do
  if ← consume (.keyword .retain) then
    let amount ← number
    return some ⟨amount, ← timeUnit⟩
  else return none

def tagOptions : m TagOptions := do
  let snapshot ← version
  return ⟨snapshot, ← retention⟩

/-- What comes after `REPLACE`. -/
def replaceTag (createIfMissing : Bool) : m TagClause := do
  let _ ← expect (.keyword .tag)
  let name ← identifier
  return .replace createIfMissing name (← tagOptions)

/-- What comes after `CREATE`. -/
def createTag : m TagClause := do
  if ← consume (.keyword .or) then
    let _ ← expect (.keyword .replace)
    replaceTag true
  else if ← consume (.keyword .tag) then
    let ifNotExists ← consumeAll [.keyword .if, .keyword .not, .keyword .exists]
    let name ← identifier
    return .create ifNotExists name (← tagOptions)
  else fail .afterCreate

/-- What is done to the tags of a table. -/
def tagAction : m Action := do
  match (← look).kind with
  | .keyword .create =>
    let _ ← advance
    return .putTag (← createTag)
  | .keyword .replace =>
    let _ ← advance
    return .putTag (← replaceTag false)
  | .keyword .delete =>
    let _ ← advance
    let _ ← expect (.keyword .tag)
    let ifExists ← consumeAll [.keyword .if, .keyword .exists]
    return .deleteTag ifExists (← identifier)
  | .keyword .rename =>
    let _ ← advance
    let _ ← expect (.keyword .tag)
    let old ← identifier
    let _ ← expect (.keyword .to)
    return .renameTag old (← identifier)
  | _ => fail .tagAction

/-- A statement, without anything behind it. -/
def statement : m Statement := do
  let start := (← look).current.span
  match (← look).kind with
  | .keyword .call =>
    let _ ← advance
    let procedure ← name
    let arguments ← arguments
    return ⟨procedure, .call arguments, ← spanFrom start⟩
  | .keyword .show =>
    expectAll [.keyword .show, .keyword .tags]
    let table ← name
    return ⟨table, .showTags, ← spanFrom start⟩
  | .keyword .alter =>
    expectAll [.keyword .alter, .keyword .table]
    let table ← name
    let action ← tagAction
    return ⟨table, action, ← spanFrom start⟩
  | _ => fail .statement

/-- The semicolons behind a statement. -/
def semicolons : m Unit := do
  let _ ← passAll .semicolon

/-- A statement, any number of semicolons, and the end of the input. -/
def whole : m Statement := do
  let s ← statement
  semicolons
  if (← look).isAtEnd then return s else fail .statementEnd

end Rule

end TagDialect
