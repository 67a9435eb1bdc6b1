-- Comments. A line comment runs to the end of its line. A block comment may
-- hold further block comments; when these never balance, the first closer
-- ends it. An opener followed by a plus sign is a hint and opens nothing.
namespace TagDialect

namespace Comment

/-! ## Line comments -/

/-- How many characters of a line comment come after its two dashes, the line break
included. A backslash right before a line feed carries the comment over to the next line. -/
def lineLength : List Char → Nat
  | [] => 0
  | c :: cs =>
    if c = '\n' then 1
    else if c = '\r' then if cs.head? = some '\n' then 2 else 1
    else
      match cs with
      | [] => 1
      | d :: ds => if c = '\\' ∧ d = '\n' then 2 + lineLength ds else 1 + lineLength (d :: ds)

/-! ## Openers and closers -/

/-- A slash and a star, with no plus sign behind them. -/
def opens : List Char → Bool
  | a :: b :: cs => a == '/' && b == '*' && cs.head? != some '+'
  | _ => false

/-- A star and a slash. -/
def closes : List Char → Bool
  | a :: b :: _ => a == '*' && b == '/'
  | _ => false

/-! ## The end of a block comment, read off the text behind its opener -/

/-- How many characters come up to the end of the closer that balances an opener right
before the text, when `depth` more comments are open inside it. -/
def balancedLength? (depth : Nat) : List Char → Option Nat
  | [] => none
  | [_] => none
  | a :: b :: cs =>
    if opens (a :: b :: cs) then (balancedLength? (depth + 1) cs).map (· + 2)
    else if closes (a :: b :: cs) then
      match depth with
      | 0 => some 2
      | depth + 1 => (balancedLength? depth cs).map (· + 2)
    else (balancedLength? depth (b :: cs)).map (· + 1)

/-- How many characters come up to the end of the first closer. -/
def firstCloseLength? : List Char → Option Nat
  | [] => none
  | c :: cs => if closes (c :: cs) then some 2 else (firstCloseLength? cs).map (· + 1)

/-- How many characters of a block comment come after its opener: up to the closer that
balances it, or else up to the first closer. There are none when no closer follows. -/
def bodyLength? (body : List Char) : Option Nat :=
  balancedLength? 0 body <|> firstCloseLength? body

end Comment

/-! ## The comments of a whole text, matched in one pass -/

/-- What one pass over a text knows about its comments. -/
structure CommentIndex where
  /-- Where the last closer stands. -/
  lastClose : Option Nat
  /-- Where each opener that the pass met stands, with the length of the comment behind
  it, or nothing when it never balances. The openers come in the order of the text. -/
  openers : Array (Nat × Option Nat)

namespace CommentIndex

/-- Where the last closer stands in a text that begins at `i`. -/
def lastClose? (i : Nat) : List Char → Option Nat
  | [] => none
  | c :: cs => lastClose? (i + 1) cs <|> if Comment.closes (c :: cs) then some i else none

/-- Walks over a text that begins at `i`, stepping over each opener and each closer. The
stack holds the entries of the openers that no closer has met yet, innermost first. -/
def pair (i : Nat) (stack : List Nat) (openers : Array (Nat × Option Nat)) :
    List Char → Array (Nat × Option Nat)
  | [] => openers
  | [_] => openers
  | a :: b :: cs =>
    if Comment.opens (a :: b :: cs) then
      pair (i + 2) (openers.size :: stack) (openers.push (i, none)) cs
    else if Comment.closes (a :: b :: cs) then
      match stack with
      | [] => pair (i + 2) [] openers cs
      | k :: stack => pair (i + 2) stack (openers.modify k fun (o, _) => (o, some (i - o))) cs
    else pair (i + 1) stack openers (b :: cs)

/-- Matches the comments of a text. -/
def ofText (cs : List Char) : CommentIndex := ⟨lastClose? 0 cs, pair 0 [] #[] cs⟩

/-- Looks `key` up between the entries `low` and `high`, which are in order of their keys,
by halving the stretch. -/
def search (entries : Array (Nat × Option Nat)) (key low high : Nat) : Option (Option Nat) :=
  if _h : low < high then
    let mid := low + (high - low) / 2
    match entries[mid]? with
    | none => none
    | some (k, found) =>
      if k = key then some found
      else if k < key then search entries key (mid + 1) high
      else search entries key low mid
  else none
termination_by high - low

/-- How many characters of the block comment opened at `i` come after its opener, when
`body` is the text behind that opener. -/
def bodyLength? (index : CommentIndex) (i : Nat) (body : List Char) : Option Nat :=
  match index.lastClose with
  | none => none
  | some close =>
    if close < i + 2 then none
    else
      (match search index.openers i 0 index.openers.size with
        | some balanced => balanced
        | none => Comment.balancedLength? 0 body) <|> Comment.firstCloseLength? body

end CommentIndex

end TagDialect
