-- Files and folders: what stands at a path, and which files a list of paths
-- means. A folder means the statement files below it, in the order in which a
-- walk through the folder comes to them.
import TagDialect.Fault

namespace TagDialect

/-! ## Paths -/

/-- The pieces of a path between its slashes. -/
def splitSlashes : List Char → List (List Char)
  | [] => [[]]
  | c :: cs =>
    if c = '/' then [] :: splitSlashes cs
    else
      match splitSlashes cs with
      | [] => [[c]]
      | w :: ws => (c :: w) :: ws

def pathSteps (path : String) : List String := (splitSlashes path.toList).map String.ofList

/-- A single dash stands for the standard input, also with slashes or dots that lead
nowhere behind it. -/
def isStandardInput (path : String) : Bool :=
  match pathSteps path with
  | first :: others => first == "-" && others.all fun step => step == "" || step == "."
  | [] => false

/-- The path of something below a folder. -/
def joinPath (folder : String) (steps : List String) : String :=
  folder ++ (if folder.toList.getLast? = some '/' then "" else "/") ++ "/".intercalate steps

/-- The name at the end of a path. Slashes and dots that lead nowhere do not count. -/
def fileName? (path : String) : Option String :=
  ((pathSteps path).filter fun step => step != "" && step != ".").getLast?

/-- Whether a file's name ends in `.sql`, with something before that. -/
def isStatementFile (name : String) : Bool :=
  ".sql".toList.isSuffixOf name.toList && name != ".sql"

/-! ## Which files are meant -/

/-- What stands at a path: a file, or a folder with the paths of its entries, those at any depth. -/
inductive Look where
  | file
  | folder (entries : List String)

def Look.isFile : Look → Bool
  | .file => true
  | .folder _ => false

/-- The statement files among the entries of a folder. -/
def statementFiles (look : String → Option Look) (entries : List String) : List String :=
  entries.filter fun entry =>
    (look entry).any Look.isFile && (fileName? entry).any isStatementFile

/-- The inputs that the paths mean, when `look` tells what stands where. The first path
with nothing at it stops the search. -/
def discover (look : String → Option Look) : List String → Except Fault (List String)
  | [] => .ok []
  | path :: paths =>
    let found : Except Fault (List String) :=
      if isStandardInput path then .ok [path]
      else
        match look path with
        | some .file => .ok [path]
        | some (.folder entries) => .ok (statementFiles look entries)
        | none => .error (.outside (path ++ ": no such file or directory"))
    match found with
    | .error e => .error e
    | .ok inputs =>
      match discover look paths with
      | .error e => .error e
      | .ok others => .ok (inputs ++ others)

/-! ## A disk -/

/-- Folders and files, by their steps from the root, and the working folder. A later file
with the same steps takes the place of an earlier one. -/
structure Disk where
  here : List String
  folders : List (List String)
  files : List (List String × ByteArray)

namespace Disk

/-- A disk without files. The root is its working folder. -/
def empty : Disk := ⟨[], [], []⟩

/-- The bytes of a file. -/
def content? (d : Disk) (steps : List String) : Option ByteArray :=
  (d.files.find? fun f => f.1 == steps).map Prod.snd

/-- Whether a folder stands at the end of the steps. The working folder does, and so does
every folder on the way to it, to another folder or to a file. -/
def hasFolder (d : Disk) (steps : List String) : Bool :=
  steps.isPrefixOf d.here || d.folders.any (steps.isPrefixOf ·) ||
    d.files.any fun f => steps.isPrefixOf f.1.dropLast

def addFolder (d : Disk) (steps : List String) : Disk := { d with folders := steps :: d.folders }

/-- Writes a file. -/
def write (d : Disk) (steps : List String) (content : ByteArray) : Disk :=
  { d with files := (steps, content) :: d.files.filter fun f => f.1 != steps }

/-- What is reached on the way along a path. -/
inductive Spot where
  | folder (steps : List String)
  | file (steps : List String)
deriving DecidableEq

/-- One step on. A file leads nowhere. Two dots lead to the folder above, and from the root
nowhere else. -/
def Spot.step (d : Disk) : Spot → String → Option Spot
  | .file _, _ => none
  | .folder steps, next =>
    if next = "" ∨ next = "." then some (.folder steps)
    else if next = ".." then some (.folder steps.dropLast)
    else if (d.content? (steps ++ [next])).isSome then some (.file (steps ++ [next]))
    else if d.hasFolder (steps ++ [next]) then some (.folder (steps ++ [next]))
    else none

/-- The folder that a path starts from: the root when a slash comes first, else the working
folder. -/
def start (d : Disk) (path : String) : List String :=
  if path.toList.head? = some '/' then [] else d.here

/-- What stands at a path. -/
def spot? (d : Disk) (path : String) : Option Spot :=
  if path = "" then none
  else (pathSteps path).foldlM (Spot.step d) (.folder (d.start path))

/-- What stands at a path, when `walk` lists the entries of the folder at a path. -/
def lookBy (walk : String → List String) (d : Disk) (path : String) : Option Look :=
  match d.spot? path with
  | some (.file _) => some .file
  | some (.folder _) => some (.folder (walk path))
  | none => none

/-! ### A walk in the order of names -/

/-- Whether one list of steps comes before another, or is the same: the first steps that
differ decide. -/
def stepsBefore : List String → List String → Bool
  | [], _ => true
  | _ :: _, [] => false
  | a :: as, b :: bs => if a = b then stepsBefore as bs else decide (a < b)

/-- The files below a folder, by their steps from it. -/
def below (d : Disk) (steps : List String) : List (List String) :=
  (d.files.filter fun f => steps.isPrefixOf f.1).map fun f => f.1.drop steps.length

/-- The paths of the files below the folder at a path. -/
def walk (d : Disk) (path : String) : List String :=
  match d.spot? path with
  | some (.folder steps) => ((d.below steps).mergeSort stepsBefore).map (joinPath path)
  | _ => []

def look (d : Disk) : String → Option Look := d.lookBy d.walk

end Disk

end TagDialect
