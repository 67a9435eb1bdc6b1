-- Lines of a text: which line and column a byte offset falls on, and what a
-- numbered line holds.
import TagDialect.Place

namespace TagDialect

/-! ## Line and column of an offset -/

/-- Counts on from `line` and `column` over the characters that start before `offset`. -/
def countTo (line column : Nat) : List Char → Nat → Nat × Nat
  | [], _ => (line, column)
  | _ :: _, 0 => (line, column)
  | c :: cs, offset + 1 =>
    if c = '\n' then countTo (line + 1) 1 cs (offset + 1 - c.utf8Size)
    else countTo line (column + 1) cs (offset + 1 - c.utf8Size)

/-- The line and the column of a byte offset, both counted from one. -/
def lineColumn (text : String) (offset : Nat) : Nat × Nat :=
  countTo 1 1 text.toList offset

/-! ## Numbered lines -/

/-- The lines of a text. Each line feed ends a line, and a carriage return right before
it is part of that break. A break at the very end starts no further line, so an empty
text has no line. -/
def splitLines : List Char → List (List Char)
  | [] => []
  | c :: cs =>
    if c = '\n' then [] :: splitLines cs
    else if c = '\r' ∧ cs.head? = some '\n' then splitLines cs
    else
      match splitLines cs with
      | [] => [[c]]
      | line :: lines => (c :: line) :: lines

/-- The line with the given number. Lines are numbered from one, and zero means the
first line too. -/
def lineContent? (text : String) (number : Nat) : Option String :=
  ((splitLines text.toList)[number - 1]?).map String.ofList

end TagDialect
