-- The rules of the parser, run one token at a time: with a record of each place that the cursor
-- comes to, and with loops that only their condition ends. A limit is set to their rounds. A run
-- that would go beyond it has no result, so a result tells that all loops came to an end.
import TagDialect.Rules

namespace TagDialect

/-- Where the cursor is, and where it was before, the latest place first. -/
structure Track where
  left : List Cursor
  cursor : Cursor

namespace Track

def start (c : Cursor) : Track := ⟨[], c⟩

def advance (p : Track) : Track := ⟨p.cursor :: p.left, p.cursor.advance⟩

end Track

/-- A rule that goes round each of its loops so many times at the most, and gives nothing when that
is not enough. -/
def Looping (α : Type) : Type := Nat → Track → Option (EStateM.Result ParseError Track α)

namespace Looping

variable {α : Type}

instance : Monad Looping where
  pure a := fun _ p => some (.ok a p)
  bind x f := fun limit p => do
    match ← x limit p with
    | .error e q => some (.error e q)
    | .ok a q => f a limit q

/-- Passing a token is the only way to move the cursor. -/
instance : Steps Looping where
  look := fun _ p => some (.ok p.cursor p)
  advance := fun _ p => some (.ok p.cursor.current p.advance)
  fail expected := fun _ p => some (.error (p.cursor.fault expected) p)

/-! ## Loops -/

/-- Steps an item in each round, as long as `again` says so, which is asked no more often than the
number allows. -/
def rounds (again : Looping Bool) (item : Looping α) : Nat → Looping (List α)
  | 0 => fun _ _ => none
  | n + 1 => do
    if ← again then
      let a ← item
      let as ← rounds again item n
      return a :: as
    else return []

/-- `while`: the items of all rounds. -/
def itemsWhile (again : Looping Bool) (item : Looping α) : Looping (List α) := fun limit =>
  rounds again item limit limit

def isNext (kind : TokenKind) : Looping Bool := return (← Steps.look).kind = kind

instance : Loops Looping where
  itemsAfter separator item := itemsWhile (Rule.consume separator) item
  passAll kind := itemsWhile (isNext kind) Steps.advance

end Looping

end TagDialect
