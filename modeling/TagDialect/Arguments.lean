-- The words of the command line: which command they ask for, with which flags,
-- and over which files. A word that cannot be understood stops the reading.
namespace TagDialect

inductive CommandName where
  | parse | tokens | fmt | check
deriving DecidableEq

namespace CommandName

def word : CommandName → String
  | .parse => "parse"
  | .tokens => "tokens"
  | .fmt => "fmt"
  | .check => "check"

def all : List CommandName := [.parse, .tokens, .fmt, .check]

def ofWord? (word : String) : Option CommandName := all.find? fun c => c.word == word

end CommandName

/-- Why the words of a command line ask for no command, or ask for help instead. -/
inductive UsageStop where
  | help
  | version
  | nothingAsked
  | noCommand
  | noFiles
  | emptyFile
  | unknownWord
  | unknownCommand
  | repeatedFlag
  | valueForFlag
deriving DecidableEq

/-- What is said when no command runs. -/
def UsageStop.words : UsageStop → String
  | .help | .nothingAsked =>
    "Usage: tagsql [--plain] [-v] <parse|tokens [--hidden]|fmt [--write]|check> <FILES>..."
  | .version => "tagsql 0.1.0"
  | .noCommand => "error: a command is missing"
  | .noFiles => "error: the files are missing"
  | .emptyFile => "error: a file has an empty name"
  | .unknownWord => "error: unexpected argument found"
  | .unknownCommand => "error: unrecognized command"
  | .repeatedFlag => "error: a flag cannot be used twice"
  | .valueForFlag => "error: a flag takes no value"

/-- Whether only help or the version was asked for. -/
def UsageStop.isAnswer : UsageStop → Bool
  | .help | .version => true
  | _ => false

/-- A command with everything that it needs to know. -/
structure Invocation where
  verbose : Nat
  plain : Bool
  command : CommandName
  /-- Whether the command's own flag is set: hidden tokens, or writing files back. -/
  ownFlag : Bool
  files : List String
deriving DecidableEq

/-- Which log lines are wanted when nothing else says so. -/
def Invocation.logLevel (i : Invocation) : String :=
  match i.verbose with
  | 0 => "warn"
  | 1 => "info"
  | 2 => "debug"
  | _ => "trace"

namespace Usage

/-! ## Words -/

/-- The shapes of a word. -/
inductive Word where
  /-- Two dashes alone, after which every word is a file. -/
  | escape
  | long (name : List Char) (value : Option (List Char))
  | shorts (letters : List Char)
  | bare
deriving DecidableEq

/-- The characters before the first equals sign, and those after it if there is one. -/
def splitValue : List Char → List Char × Option (List Char)
  | [] => ([], none)
  | c :: cs => if c = '=' then ([], some cs) else (c :: (splitValue cs).1, (splitValue cs).2)

def Word.ofChars : List Char → Word
  | c :: d :: cs =>
    if c = '-' then
      if d = '-' then
        if cs = [] then .escape else .long (splitValue cs).1 (splitValue cs).2
      else .shorts (d :: cs)
    else .bare
  | _ => .bare

inductive Flag where
  | verbose | plain | own | help | version
deriving DecidableEq

/-- The flag with the given long name, behind a command or before any. -/
def longFlag? (command : Option CommandName) (name : List Char) : Option Flag :=
  let name := String.ofList name
  if name = "verbose" then some .verbose
  else if name = "plain" then some .plain
  else if name = "help" then some .help
  else
    match command with
    | none => if name = "version" then some .version else none
    | some .tokens => if name = "hidden" then some .own else none
    | some .fmt => if name = "write" then some .own else none
    | some .parse | some .check => none

/-- The flag with the given letter, behind a command or before any. -/
def shortFlag? (command : Option CommandName) (letter : Char) : Option Flag :=
  if letter = 'v' then some .verbose
  else if letter = 'h' then some .help
  else
    match command with
    | none => if letter = 'V' then some .version else none
    | some .fmt => if letter = 'w' then some .own else none
    | some .parse | some .tokens | some .check => none

/-! ## Flags and files seen so far -/

/-- What the words of one level have given: those before the command, or those behind it. -/
structure Seen where
  verbose : Option Nat
  plain : Bool
  own : Bool
  files : List String
deriving DecidableEq

namespace Seen

def nothing : Seen := ⟨none, false, false, []⟩

/-- Whether a file that was named so far has an empty name. -/
def namesEmptyFile (s : Seen) : Bool := s.files.any fun f => f.isEmpty

/-- Takes a flag. The files before it are looked at first. Counting stops at 255, and the
flags that do not count may be given once. -/
def take (s : Seen) (flag : Flag) : Except UsageStop Seen :=
  if s.namesEmptyFile then .error .emptyFile
  else
    match flag with
    | .verbose => .ok { s with verbose := some (min 255 (s.verbose.getD 0 + 1)) }
    | .plain => if s.plain then .error .repeatedFlag else .ok { s with plain := true }
    | .own => if s.own then .error .repeatedFlag else .ok { s with own := true }
    | .help => .error .help
    | .version => .error .version

def takeLong (s : Seen) (command : Option CommandName) (name : List Char)
    (value : Option (List Char)) : Except UsageStop Seen :=
  match longFlag? command name with
  | none => .error .unknownWord
  | some flag => if value.isSome then .error .valueForFlag else s.take flag

def takeShorts (s : Seen) (command : Option CommandName) : List Char → Except UsageStop Seen
  | [] => .ok s
  | letter :: letters =>
    match shortFlag? command letter with
    | none => .error .unknownWord
    | some flag =>
      match s.take flag with
      | .error e => .error e
      | .ok s => s.takeShorts command letters

end Seen

/-! ## The two levels -/

/-- Reads the words behind a command. -/
def readBehind (command : CommandName) (s : Seen) : List String → Except UsageStop Seen
  | [] => .ok s
  | w :: ws =>
    match Word.ofChars w.toList with
    | .escape => .ok { s with files := s.files ++ ws }
    | .bare => readBehind command { s with files := s.files ++ [w] } ws
    | .long name value =>
      match s.takeLong (some command) name value with
      | .error e => .error e
      | .ok s => readBehind command s ws
    | .shorts letters =>
      match s.takeShorts (some command) letters with
      | .error e => .error e
      | .ok s => readBehind command s ws

/-- A flag before the command and behind it: the count behind it wins. -/
def finish (before : Seen) (command : CommandName) (behind : Seen) :
    Except UsageStop Invocation :=
  if behind.namesEmptyFile then .error .emptyFile
  else if behind.files = [] then .error .noFiles
  else
    .ok {
      verbose := (behind.verbose.or before.verbose).getD 0
      plain := before.plain || behind.plain
      command := command
      ownFlag := behind.own
      files := behind.files }

/-- Asks for help on a command, or on nothing in particular. -/
def readHelp : List String → UsageStop
  | [] => .help
  | [w] => if w = "help" ∨ (CommandName.ofWord? w).isSome then .help else .unknownCommand
  | _ :: _ :: _ => .unknownCommand

/-- No command came. -/
def withoutCommand (s : Seen) : UsageStop :=
  if s = .nothing then .nothingAsked else .noCommand

/-- Reads the words up to the command. -/
def readBefore (s : Seen) : List String → Except UsageStop Invocation
  | [] => .error (withoutCommand s)
  | w :: ws =>
    match CommandName.ofWord? w with
    | some command =>
      match readBehind command .nothing ws with
      | .error e => .error e
      | .ok behind => finish s command behind
    | none =>
      if w = "help" then .error (readHelp ws)
      else
        match Word.ofChars w.toList with
        | .escape =>
          match ws with
          | [] => .error (withoutCommand s)
          | x :: _ =>
            if x = "help" ∨ (CommandName.ofWord? x).isSome then .error .unknownWord
            else .error .unknownCommand
        | .bare => .error .unknownCommand
        | .long name value =>
          match s.takeLong none name value with
          | .error e => .error e
          | .ok s => readBefore s ws
        | .shorts letters =>
          match s.takeShorts none letters with
          | .error e => .error e
          | .ok s => readBefore s ws

end Usage

/-- Understands the words of a command line. -/
def Invocation.ofWords (words : List String) : Except UsageStop Invocation :=
  Usage.readBefore .nothing words

end TagDialect
