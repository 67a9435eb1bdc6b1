-- Drawn reports on a fault, as a host may make them: the message wrapped to the
-- width of a terminal, and a frame around the lines near the place.
import TagDialect.Lines
import TagDialect.Report

namespace TagDialect

namespace Drawing

/-- How many columns the message may take. -/
def width : Nat := 78

/-- The text `count` times. -/
def times (count : Nat) (text : String) : String := String.join (List.replicate count text)

/-- Puts words on lines of at most `room` characters, after the line begun so far. -/
def wrapFrom (room : Nat) (line : String) : List String → List String
  | [] => [line]
  | w :: ws =>
    if line.length + 1 + w.length ≤ room then wrapFrom room (line ++ " " ++ w) ws
    else line :: wrapFrom room w ws

/-- The message, wrapped and hung on a bar. -/
def message (text : String) : List String :=
  let lines :=
    match text.splitOn " " with
    | [] => [""]
    | w :: ws => wrapFrom (width - 4) w ws
  match lines with
  | [] => []
  | l :: ls => ("  × " ++ l) :: ls.map ("  │ " ++ ·)

/-- The rows under a faulty line: a stroke under the stretch, and a word hung on it. -/
def marks (margin : String) (column length : Nat) (word : String) : List String :=
  let shown := max 1 length
  let left := (shown - 1) / 2
  let blanks := times (column - 1) " "
  let stroke :=
    if length = 0 then "▲" else times left "─" ++ "┬" ++ times (shown - left - 1) "─"
  [margin ++ "· " ++ blanks ++ stroke, margin ++ "· " ++ blanks ++ times left " " ++ "╰── " ++ word]

/-- The rows of the frame for the lines near the place. When the stretch runs over several
lines, its part on the first one is marked. -/
def rows (text : String) (line column : Nat) (word : String) (extent : Nat × Nat) :
    Nat × List String :=
  let lines := splitLines text.toList
  let numbers := [line - 1, line, line + 1].filter fun n => 0 < n && n ≤ lines.length
  let digits := (toString (numbers.getLast?.getD 0)).length
  let margin := times (digits + 2) " "
  let stretch := ((slice? text.toList extent.1 (extent.1 + extent.2)).getD []).takeWhile (· != '\n')
  (digits, numbers.flatMap fun n =>
    [" " ++ padLeft digits (toString n) ++ " │ " ++ (lineContent? text n).getD ""] ++
      if n = line then marks margin column stretch.length word else [])

/-- The frame around the lines near the place. -/
def frame (name text : String) (fault : Fault) : List String :=
  match fault.offset?, fault.label? with
  | some offset, some (word, extent) =>
    let (line, column) := lineColumn text offset
    let (digits, inner) := rows text line column word extent
    let margin := times (digits + 2) " "
    [margin ++ "╭─[" ++ name ++ ":" ++ toString line ++ ":" ++ toString column ++ "]"] ++ inner ++
      [margin ++ "╰────"]
  | _, _ => []

end Drawing

/-- A drawn report on a fault in a named text. -/
def drawnReport (name text : String) (fault : Fault) : String :=
  "\n".intercalate ([fault.code, ""] ++ Drawing.message fault.message ++
    Drawing.frame name text fault ++ [""])

end TagDialect
