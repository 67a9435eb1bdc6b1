-- Layout of one line: words with a space between them, and marks that cling to
-- their neighbours.
namespace TagDialect

/-- A piece of a line. -/
inductive Piece where
  /-- Has a space before it, unless the piece before it opens something or it comes first. -/
  | word (text : String)
  /-- Clings to the piece before it. -/
  | attached (text : String)
  /-- Clings to the piece before it, and the next word clings to it. -/
  | opening (text : String)
  /-- A comma that clings to the piece before it. -/
  | comma
deriving DecidableEq

namespace Piece

/-- The stretches of text that the pieces make. `glued` tells whether a word that comes
first has no space before it. -/
def stretches (glued : Bool) : List Piece → List String
  | [] => []
  | .word text :: ps => (if glued then text else " " ++ text) :: stretches false ps
  | .attached text :: ps => text :: stretches false ps
  | .opening text :: ps => text :: stretches true ps
  | .comma :: ps => "," :: stretches false ps

/-- The line that the pieces make. -/
def line (ps : List Piece) : String := String.join (stretches true ps)

end Piece

end TagDialect
