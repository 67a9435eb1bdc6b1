-- The commands: what each input adds to the output, to the messages and to the
-- files, and what the exit code says in the end.
import TagDialect.Canonical
import TagDialect.Report
import TagDialect.Drawing
import TagDialect.Outline
import TagDialect.Arguments
import TagDialect.Files

namespace TagDialect

/-! ## One input -/

/-- A text, with the name that messages call it by. The standard input has no path. -/
structure Source where
  name : String
  path : Option String
  text : String
deriving DecidableEq

/-- How an input came off, from best to worst. -/
inductive Status where
  | fine | unformatted | failed
deriving DecidableEq

namespace Status

def code : Status → Nat
  | .fine => 0
  | .unformatted => 1
  | .failed => 2

/-- The worse of two. -/
def worse (a b : Status) : Status := if a.code < b.code then b else a

end Status

/-- What one input adds. -/
structure Outcome where
  out : String
  err : String
  status : Status
  /-- The new text of the input's file, when it is to be written. -/
  rewrite : Option String
deriving DecidableEq

namespace Outcome

def fine (out : String) : Outcome := ⟨out, "", .fine, none⟩

def failed (err : String) : Outcome := ⟨"", err, .failed, none⟩

end Outcome

/-- A token's line in a listing. -/
def Token.listing (t : Token) : String :=
  toString t.span.line ++ ":" ++ toString t.span.column ++ " " ++ t.kind.label ++ " " ++
    listString t.text ++ "\n"

section
variable (draw : String → String → Fault → String)

/-- The report on a fault in a source, plain or drawn. A drawn report is what `draw` makes of the
source's name, its text and the fault. -/
def reportOn (plain : Bool) (source : Source) (fault : Fault) : String :=
  if plain then source.name ++ ": " ++ caretReport source.text fault ++ "\n"
  else draw source.name source.text fault ++ "\n"

/-- The tree of a source's statement, under the source's name when there are several. -/
def answerParse (plain several : Bool) (source : Source) : Outcome :=
  match parse source.text with
  | .error e => .failed (reportOn draw plain source e)
  | .ok s =>
    .fine ((if several then "-- " ++ source.name ++ "\n" else "") ++ s.outline.text ++ "\n")

/-- The tokens of a source. -/
def answerTokens (plain hidden : Bool) (source : Source) : Outcome :=
  match if hidden then tokenizeAll source.text else tokenize source.text with
  | .error e => .failed (reportOn draw plain source (.lexical e))
  | .ok tokens => .fine (String.join (tokens.map Token.listing))

/-- The canonical text of a source, on the output or back into the source's file. A file
that has this text already stays untouched. -/
def answerFmt (plain write : Bool) (source : Source) : Outcome :=
  match format source.text with
  | .error e => .failed (reportOn draw plain source e)
  | .ok canonical =>
    let text := canonical ++ "\n"
    if write && source.path.isSome then
      ⟨"", "", .fine, if text = source.text then none else some text⟩
    else .fine text

/-- Nothing when a source is in canonical form, else a word on that. -/
def answerCheck (plain : Bool) (source : Source) : Outcome :=
  match check source.text with
  | .error e => .failed (reportOn draw plain source e)
  | .ok true => .fine ""
  | .ok false => ⟨"", source.name ++ ": needs formatting\n", .unformatted, none⟩

/-- What a source adds. `several` tells whether there is more than one input. -/
def answer (i : Invocation) (several : Bool) (source : Source) : Outcome :=
  match i.command with
  | .parse => answerParse draw i.plain several source
  | .tokens => answerTokens draw i.plain i.ownFlag source
  | .fmt => answerFmt draw i.plain i.ownFlag source
  | .check => answerCheck draw i.plain source

end

/-- The message on a path that cannot be read or written. -/
def complaint (path : String) (fault : Fault) : String := path ++ ": " ++ fault.message ++ "\n"

/-- What an input adds that cannot be read. -/
def unreadable (path : String) (fault : Fault) : Outcome := .failed (complaint path fault)

/-- What a command line adds whose paths cannot all be found. -/
def undiscovered (fault : Fault) : Outcome := .failed ("Error: " ++ fault.message ++ "\n")

/-- What a command line adds that asks for no command. -/
def UsageStop.outcome (stop : UsageStop) : Outcome :=
  if stop.isAnswer then .fine (stop.words ++ "\n") else .failed (stop.words ++ "\n")

/-- The source that bytes make, when they are text. -/
def decode (name : String) (path : Option String) (bytes : ByteArray) : Except Fault Source :=
  match String.fromUTF8? bytes with
  | some text => .ok ⟨name, path, text⟩
  | none => .error (.outside "stream did not contain valid UTF-8")

/-! ## The world of a run -/

/-- What a run leaves to others: to list a folder, to draw a report, and to refuse a text that is to
be written. -/
structure Host where
  /-- The paths of the entries of the folder at a path, those at any depth. A run does not change
  them, whatever it writes into the files. -/
  walk : String → List String
  /-- The report on the fault in a text that has a name. -/
  draw : String → String → Fault → String
  /-- What is wrong with writing to a path, if anything is. -/
  refusal : String → Option Fault

/-- The host, the disk, what is left of the standard input, and what was written so far: the
output, and the messages on inputs and files. Log lines, which are mixed into the messages when they
are asked for, are not kept. -/
structure World where
  host : Host
  disk : Disk
  input : ByteArray
  out : String
  err : String

namespace World

/-- A world in which nothing was written yet. Its host lists folders in the order of names, draws
reports in frames, and refuses nothing. -/
def fresh (disk : Disk) (input : ByteArray) : World where
  host := ⟨disk.walk, drawnReport, fun _ => none⟩
  disk := disk
  input := input
  out := ""
  err := ""

def look (w : World) : String → Option Look := w.disk.lookBy w.host.walk

/-- Reads an input. The standard input is empty afterwards. -/
def read (w : World) (path : String) : Except Fault Source × World :=
  if isStandardInput path then (decode "<stdin>" none w.input, { w with input := .empty })
  else
    match w.disk.spot? path with
    | some (.file steps) => (decode path (some path) ((w.disk.content? steps).getD .empty), w)
    | some (.folder _) => (.error (.outside "Is a directory (os error 21)"), w)
    | none => (.error (.outside "No such file or directory (os error 2)"), w)

/-- Writes a text into the file at a path. -/
def store (w : World) (path text : String) : World :=
  match w.disk.spot? path with
  | some (.file steps) => { w with disk := w.disk.write steps text.toUTF8 }
  | _ => w

/-- Adds what was printed. -/
def say (w : World) (out err : String) : World := { w with out := w.out ++ out, err := w.err ++ err }

/-- Adds what an input at a path gave. An input whose new text is refused has failed. -/
def add (w : World) (path : String) (o : Outcome) : World × Status :=
  let w := w.say o.out o.err
  match o.rewrite with
  | none => (w, o.status)
  | some text =>
    match w.host.refusal path with
    | none => (w.store path text, o.status)
    | some e => (w.say "" (complaint path e), .failed)

/-- Deals with one input. -/
def process (i : Invocation) (several : Bool) (w : World) (path : String) : World × Status :=
  match w.read path with
  | (.error e, w) => w.add path (unreadable path e)
  | (.ok source, w) => w.add path (answer w.host.draw i several source)

/-- Deals with the inputs one after the other. -/
def processAll (i : Invocation) (several : Bool) (w : World) : List String → World × Status
  | [] => (w, .fine)
  | path :: paths =>
    let (w, status) := w.process i several path
    let (w, others) := w.processAll i several paths
    (w, status.worse others)

/-- Runs a command in a world, and gives the exit code. -/
def run (i : Invocation) (w : World) : World × Nat :=
  match discover w.look i.files with
  | .error e => (w.say "" (undiscovered e).err, (undiscovered e).status.code)
  | .ok inputs =>
    let (w, status) := w.processAll i (1 < inputs.length) inputs
    (w, status.code)

/-- Runs what the words of a command line ask for, and gives the exit code. -/
def runWords (words : List String) (w : World) : World × Nat :=
  match Invocation.ofWords words with
  | .ok i => w.run i
  | .error stop => (w.say stop.outcome.out stop.outcome.err, stop.outcome.status.code)

end World

end TagDialect
