-- Reports on a fault: the line it is on, with a mark below the place.
import TagDialect.Lines
import TagDialect.Fault

namespace TagDialect

/-- The text with blanks before it, so that it takes at least `width` characters. -/
def padLeft (width : Nat) (text : String) : String :=
  String.ofList (List.replicate (width - text.length) ' ') ++ text

def Fault.heading : Fault → String
  | .lexical _ => "lex error"
  | .grammatical _ | .outside _ => "parse error"

/-- A plain report on a fault in a text: where it is, the line, and a caret under the
character. A fault that is not in the text is reported by its message alone. -/
def caretReport (text : String) (fault : Fault) : String :=
  match fault.offset? with
  | none => fault.message
  | some offset =>
    let (line, column) := lineColumn text offset
    fault.heading ++ " at " ++ toString line ++ ":" ++ toString column ++ "\n" ++
      padLeft 4 (toString line) ++ " | " ++ (lineContent? text line).getD "" ++ "\n" ++
      "     | " ++ String.ofList (List.replicate (column - 1) ' ') ++ "^ " ++ fault.detail

end TagDialect
