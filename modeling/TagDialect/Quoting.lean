-- Quoted text: where a quoted piece ends, what it stands for, and how a value
-- is written so that it reads back as itself.
import TagDialect.Place
import TagDialect.Keyword
import TagDialect.Chars

namespace TagDialect

/-! ## Where a quoted piece ends -/

/-- How many characters of a string come after its opening quote, the closing one
included. A backslash hides the character after it. There are none when the string is
never closed. -/
def stringLength? (quote : Char) : List Char → Option Nat
  | [] => none
  | c :: cs =>
    if c = '\\' then
      match cs with
      | [] => none
      | _ :: ds => (stringLength? quote ds).map (· + 2)
    else if c = quote then some 1
    else (stringLength? quote cs).map (· + 1)

/-- How many characters of a back-quoted name come after its opening tick, the closing
one included. Two ticks in a row stay inside. There are none when the name is never
closed. -/
def nameLength? : List Char → Option Nat
  | [] => none
  | [c] => if c = '`' then some 1 else none
  | c :: d :: cs =>
    if c = '`' then if d = '`' then (nameLength? cs).map (· + 2) else some 1
    else (nameLength? (d :: cs)).map (· + 1)

/-! ## What a quoted piece stands for -/

/-- The text without its first and its last byte. There is none when one of these is only
part of a character. -/
def interior? (raw : List Char) : Option (List Char) :=
  if byteLength raw < 2 then some [] else slice? raw 1 (byteLength raw - 1)

/-- The value of a hexadecimal digit. -/
def hexValue? (c : Char) : Option Nat :=
  if '0' ≤ c ∧ c ≤ '9' then some (c.toNat - '0'.toNat)
  else if 'a' ≤ c ∧ c ≤ 'f' then some (c.toNat - 'a'.toNat + 10)
  else if 'A' ≤ c ∧ c ≤ 'F' then some (c.toNat - 'A'.toNat + 10)
  else none

/-- The value of an octal digit. -/
def octalValue? (c : Char) : Option Nat :=
  if '0' ≤ c ∧ c ≤ '7' then some (c.toNat - '0'.toNat) else none

/-- The character with the given code, or the replacement character when the code is a
surrogate's. -/
def charOfCode (code : Nat) : Char := if code.isValidChar then Char.ofNat code else '\uFFFD'

/-- `u` and four hexadecimal digits. -/
def unicodeEscape? : List Char → Option Char
  | u :: a :: b :: c :: d :: _ =>
    if u = 'u' then do
      let a ← hexValue? a
      let b ← hexValue? b
      let c ← hexValue? c
      let d ← hexValue? d
      return charOfCode (((a * 16 + b) * 16 + c) * 16 + d)
    else none
  | _ => none

/-- Three octal digits, the first of them at most one. -/
def octalEscape? : List Char → Option Char
  | a :: b :: c :: _ =>
    if a = '0' ∨ a = '1' then do
      let a ← octalValue? a
      let b ← octalValue? b
      let c ← octalValue? c
      return charOfCode ((a * 8 + b) * 8 + c)
    else none
  | _ => none

/-- What a backslash and one character stand for. Before `%` and `_` the backslash stays,
so that patterns survive. -/
def letterEscape (c : Char) : List Char :=
  if c = '0' then ['\x00']
  else if c = 'b' then ['\x08']
  else if c = 'n' then ['\n']
  else if c = 'r' then ['\r']
  else if c = 't' then ['\t']
  else if c = 'Z' then ['\x1A']
  else if c = '%' ∨ c = '_' then ['\\', c]
  else [c]

/-- What a backslash before the text stands for, and how many characters of the text
belong to it. -/
def escapeAt (cs : List Char) : List Char × Nat :=
  match unicodeEscape? cs with
  | some c => ([c], 5)
  | none =>
    match octalEscape? cs with
    | some c => ([c], 3)
    | none =>
      match cs with
      | c :: _ => (letterEscape c, 1)
      | [] => (['\\'], 0)

/-- Resolves the escapes of a text, after passing over its first `skip` characters. -/
def unescapeFrom : Nat → List Char → List Char
  | _, [] => []
  | skip + 1, _ :: cs => unescapeFrom skip cs
  | 0, c :: cs =>
    if c = '\\' then (escapeAt cs).1 ++ unescapeFrom (escapeAt cs).2 cs
    else c :: unescapeFrom 0 cs

/-- Resolves the escapes of a text. -/
def unescape (cs : List Char) : List Char := unescapeFrom 0 cs

/-- The value of a string's text, quotes included. -/
def stringValue? (raw : String) : Option String :=
  (interior? raw.toList).map fun inner => String.ofList (unescape inner)

/-- Turns each two ticks in a row into one, from left to right. -/
def halveTicks : List Char → List Char
  | [] => []
  | [c] => [c]
  | c :: d :: cs =>
    if c = '`' ∧ d = '`' then '`' :: halveTicks cs else c :: halveTicks (d :: cs)

/-- The name that a back-quoted name's text stands for, ticks included. -/
def nameValue? (raw : String) : Option String :=
  (interior? raw.toList).map fun inner => String.ofList (halveTicks inner)

/-! ## Writing values -/

/-- A character inside a single-quoted string. The zero character is written with four
hexadecimal digits, since a digit after a shorter form would join it. -/
def escapeChar (c : Char) : List Char :=
  if c = '\\' then ['\\', '\\']
  else if c = '\'' then ['\\', '\'']
  else if c = '\n' then ['\\', 'n']
  else if c = '\r' then ['\\', 'r']
  else if c = '\t' then ['\\', 't']
  else if c = '\x00' then ['\\', 'u', '0', '0', '0', '0']
  else if c = '\x08' then ['\\', 'b']
  else if c = '\x1A' then ['\\', 'Z']
  else [c]

/-- The value as a single-quoted string. -/
def quoteString (value : String) : String :=
  String.ofList ('\'' :: value.toList.flatMap escapeChar ++ ['\''])

/-- The characters with each tick written twice. -/
def doubleTicks (cs : List Char) : List Char :=
  cs.flatMap fun c => if c = '`' then ['`', '`'] else [c]

/-- Whether a name cannot be written bare: it is empty, starts with a digit, holds a
character that words do not have, or is a reserved keyword. -/
def needsTicks (name : List Char) : Bool :=
  match name with
  | [] => true
  | c :: _ =>
    c.isDigit || !name.all isWordChar ||
      match Keyword.ofWord? name with
      | some k => k.isReserved
      | none => false

/-- The name as it is written: bare, or in ticks where it has to be. -/
def writeName (name : String) : String :=
  if needsTicks name.toList then String.ofList ('`' :: doubleTicks name.toList ++ ['`']) else name

end TagDialect
