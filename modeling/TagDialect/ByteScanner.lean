-- A scan over the bytes of a text. It works on byte offsets alone and cuts the text at
-- them. Whatever could go wrong there is checked, and then the scan stops with a misuse.
import TagDialect.Lexer

namespace TagDialect

/-- What a scan over bytes can do wrong. -/
inductive Misuse where
  /-- A cut outside the text, or inside a character. -/
  | cut
  /-- A run that starts behind the end of the text. -/
  | run
  /-- A closer counted where no comment is open. -/
  | depth
  /-- A table entry that does not exist. -/
  | entry
  /-- A difference below zero. -/
  | difference
  /-- A token before the end of the text that leaves as many bytes as before. -/
  | standstill
deriving DecidableEq

/-- The bytes of a text, each as the character with its code. -/
def octets (text : String) : List Char := text.toUTF8.data.toList.map Char.ofUInt8

namespace Octets

/-- How many bytes from `start` on belong to a class, up to the first that does not. -/
def runLength (bytes : List Char) (start : Nat) (belongs : Char → Bool) : Except Misuse Nat :=
  if start ≤ bytes.length then .ok ((bytes.drop start).takeWhile belongs).length
  else .error .run

def difference (a b : Nat) : Except Misuse Nat :=
  if b ≤ a then .ok (a - b) else .error .difference

/-! ## Numbers -/

/-- The length of an exponent at a byte, or zero. -/
def exponentLength (bytes : List Char) (i : Nat) : Except Misuse Nat :=
  if bytes[i]? = some 'E' then do
    let sign := if bytes[i + 1]? = some '+' ∨ bytes[i + 1]? = some '-' then 1 else 0
    let digits ← runLength bytes (i + 1 + sign) Char.isDigit
    return if digits = 0 then 0 else 1 + sign + digits
  else return 0

/-- The better of the best reading so far and one of lower priority, which has to be longer. -/
def offer (best : Option (Nat × NumberKind)) (length : Nat) (kind : NumberKind) :
    Option (Nat × NumberKind) :=
  match best with
  | none => some (length, kind)
  | some r => if r.1 < length then some (length, kind) else some r

/-- The best reading without a decimal point at a byte with `digits` digits from it on. -/
def wholeNumber? (bytes : List Char) (start digits : Nat) :
    Except Misuse (Option (Nat × NumberKind)) :=
  if digits = 0 then return none
  else do
    let stop := start + digits
    let best :=
      match Numeral.wholeSuffix? (bytes.drop stop) with
      | some kind => offer none (digits + 1) kind
      | none => none
    let best := offer best digits .integer
    let e ← exponentLength bytes stop
    let best := if e = 0 then best else offer best (digits + e) .exponent
    return match Numeral.anySuffix? (bytes.drop (stop + e)) with
      | some (n, kind) => offer best (digits + e + n) kind
      | none => best

/-- The length of a number with a decimal point at a byte with `digits` digits from it on. -/
def pointLength? (bytes : List Char) (start digits : Nat) : Except Misuse (Option Nat) :=
  if bytes[start + digits]? = some '.' then do
    let fraction ← runLength bytes (start + digits + 1) Char.isDigit
    return if digits = 0 ∧ fraction = 0 then none else some (digits + 1 + fraction)
  else return none

/-- The longest number at a byte. -/
def number? (bytes : List Char) (start : Nat) : Except Misuse (Option (Nat × NumberKind)) := do
  let digits ← runLength bytes start Char.isDigit
  let best ← wholeNumber? bytes start digits
  match ← pointLength? bytes start digits with
  | none => return best
  | some n =>
    let stop := start + n
    let ends (i : Nat) : Bool := Numeral.endsWord (bytes.drop i)
    let best := if ends stop then offer best n .decimal else best
    let e ← exponentLength bytes stop
    let best := if e ≠ 0 ∧ ends (stop + e) then offer best (n + e) .exponent else best
    return match Numeral.anySuffix? (bytes.drop (stop + e)) with
      | some (m, kind) => if ends (stop + e + m) then offer best (n + e + m) kind else best
      | none => best

/-! ## Comments -/

/-- How many bytes come up to the end of the closer with which the depth is back at zero. -/
def nestedLength? (depth : Nat) : List Char → Except Misuse (Option Nat)
  | [] => .ok none
  | [_] => .ok none
  | a :: b :: cs =>
    if Comment.opens (a :: b :: cs) then do
      return (← nestedLength? (depth + 1) cs).map (· + 2)
    else if Comment.closes (a :: b :: cs) then
      match depth with
      | 0 => .error .depth
      | 1 => .ok (some 2)
      | depth + 2 => do return (← nestedLength? (depth + 1) cs).map (· + 2)
    else do return (← nestedLength? depth (b :: cs)).map (· + 1)

/-- The openers of the bytes from `i` on, each with the end of its comment. The stack holds the
entries of those that are open. -/
def pair (i : Nat) (stack : List Nat) (pairs : Array (Nat × Option Nat)) :
    List Char → Except Misuse (Array (Nat × Option Nat))
  | [] => .ok pairs
  | [_] => .ok pairs
  | a :: b :: cs =>
    if Comment.opens (a :: b :: cs) then
      pair (i + 2) (pairs.size :: stack) (pairs.push (i, none)) cs
    else if Comment.closes (a :: b :: cs) then
      match stack with
      | [] => pair (i + 2) [] pairs cs
      | k :: stack =>
        if k < pairs.size then
          pair (i + 2) stack (pairs.modify k fun (o, _) => (o, some (i + 2))) cs
        else .error .entry
    else pair (i + 1) stack pairs (b :: cs)

/-! ## The values of quoted pieces -/

/-- The text without its first and its last byte. -/
def interior (raw : String) : Except Misuse (List Char) :=
  if byteLength raw.toList < 2 then return []
  else do
    let stop ← difference (byteLength raw.toList) 1
    match slice? raw.toList 1 stop with
    | some inner => return inner
    | none => .error .cut

/-- The characters from `start` up to `stop`. -/
def stretch (chars : List Char) (start stop : Nat) : Except Misuse (List Char) :=
  if start ≤ stop ∧ stop ≤ chars.length then .ok ((chars.take stop).drop start) else .error .cut

def charAt (chars : List Char) (i : Nat) : Except Misuse Char :=
  match chars[i]? with
  | some c => .ok c
  | none => .error .entry

/-- The number that digits spell. What is no digit counts as zero. -/
def spelledBy (radix : Nat) (value? : Char → Option Nat) (digits : List Char) : Nat :=
  digits.foldl (fun n c => n * radix + (value? c).getD 0) 0

/-- The character with the code behind the backslash and the `u` at `i`. -/
def unicodeEscape? (chars : List Char) (i : Nat) : Except Misuse (Option Char) := do
  if (← charAt chars (i + 1)) = 'u' ∧ i + 6 ≤ chars.length then
    let digits ← stretch chars (i + 2) (i + 6)
    if digits.all fun c => (hexValue? c).isSome then
      return some (charOfCode (spelledBy 16 hexValue? digits))
    else return none
  else return none

/-- The character with the octal code behind the backslash at `i`. -/
def octalEscape? (chars : List Char) (i : Nat) : Except Misuse (Option Char) := do
  if i + 4 ≤ chars.length then
    let a ← charAt chars (i + 1)
    let b ← charAt chars (i + 2)
    let c ← charAt chars (i + 3)
    if (a = '0' ∨ a = '1') ∧ (octalValue? b).isSome ∧ (octalValue? c).isSome then
      return some (charOfCode (spelledBy 8 octalValue? (← stretch chars (i + 1) (i + 4))))
    else return none
  else return none

/-- What the character at `i` stands for, and how many characters behind it belong to it. -/
def resolveAt (chars : List Char) (i : Nat) : Except Misuse (List Char × Nat) := do
  let c ← charAt chars i
  if c ≠ '\\' ∨ chars.length ≤ i + 1 then return ([c], 0)
  else
    match ← unicodeEscape? chars i with
    | some d => return ([d], 5)
    | none =>
      match ← octalEscape? chars i with
      | some d => return ([d], 3)
      | none => return (letterEscape (← charAt chars (i + 1)), 1)

/-- Resolves the escapes from `i` on. -/
def resolve (chars : List Char) (i : Nat) : Except Misuse (List Char) :=
  if _h : i < chars.length then
    match resolveAt chars i with
    | .error m => .error m
    | .ok (out, n) => do return out ++ (← resolve chars (i + 1 + n))
  else return []
termination_by chars.length - i

/-- The value of a string's text, quotes included. -/
def stringValue (raw : String) : Except Misuse String := do
  return String.ofList (← resolve (← interior raw) 0)

/-- The name that a back-quoted name's text stands for, ticks included. -/
def nameValue (raw : String) : Except Misuse String := do
  return String.ofList (halveTicks (← interior raw))

end Octets

/-! ## The scanner -/

/-- A text and its bytes, where the scan stands in them, where the last closer of a comment
stands, and where the comments end. -/
structure ByteScanner where
  text : String
  bytes : List Char
  position : Nat
  line : Nat
  column : Nat
  lastClose : Option Nat
  pairs : Array (Nat × Option Nat)

namespace ByteScanner

open Octets

/-- A scanner at the start of a text. -/
def ofText (text : String) : Except Misuse ByteScanner := do
  let bytes := octets text
  let pairs ← pair 0 [] #[] bytes
  return ⟨text, bytes, 0, 1, 1, CommentIndex.lastClose? 0 bytes, pairs⟩

/-- The characters between two byte offsets. -/
def cut (s : ByteScanner) (start stop : Nat) : Except Misuse (List Char) :=
  match slice? s.text.toList start stop with
  | some piece => .ok piece
  | none => .error .cut

/-- The line and the column behind one more character. -/
def count (p : Nat × Nat) (c : Char) : Nat × Nat :=
  if c = '\n' then (p.1 + 1, 1) else (p.1, p.2 + 1)

/-- Cuts off a token of so many bytes, and moves behind it. -/
def emit (s : ByteScanner) (kind : TokenKind) (length : Nat) :
    Except Misuse (Except LexError (Token × ByteScanner)) := do
  let stop := s.position + length
  let piece ← s.cut s.position stop
  let behind := piece.foldl count (s.line, s.column)
  return .ok (⟨kind, String.ofList piece, ⟨s.position, stop, s.line, s.column⟩⟩,
    { s with position := stop, line := behind.1, column := behind.2 })

def unterminated (s : ByteScanner) (u : Unterminated) :
    Except Misuse (Except LexError (Token × ByteScanner)) := do
  let left ← difference s.bytes.length s.position
  return .error {
    message := u.message
    unexpected := u.opener
    offset := s.position
    line := s.line
    column := s.column
    extent := (s.position, left) }

/-- Where the comment ends that opens here. -/
def commentEnd? (s : ByteScanner) : Except Misuse (Option Nat) :=
  match s.lastClose with
  | none => return none
  | some close =>
    if close < s.position + 2 then return none
    else do
      let balanced ←
        match CommentIndex.search s.pairs s.position 0 s.pairs.size with
        | some found => pure found
        | none => do
          let n ← nestedLength? 0 (s.bytes.drop s.position)
          pure (n.map (s.position + ·))
      match balanced with
      | some stop => return some stop
      | none =>
        let body ← s.cut (s.position + 2) s.bytes.length
        let n := Comment.firstCloseLength? (octets (String.ofList body))
        return n.map (s.position + 2 + ·)

/-- A number that reaches as far as the word here, or else the word. -/
def wordOrNumber (s : ByteScanner) : Except Misuse (Except LexError (Token × ByteScanner)) := do
  let n ← runLength s.bytes s.position isWordChar
  let word : Except Misuse (Except LexError (Token × ByteScanner)) := do
    let piece ← s.cut s.position (s.position + n)
    match Keyword.ofWord? piece with
    | some k => s.emit (.keyword k) n
    | none => s.emit .identifier n
  match ← number? s.bytes s.position with
  | some (m, kind) => if n ≤ m then s.emit (.number kind) m else word
  | none => word

/-- The token here, hidden ones included, and the scanner behind it. -/
def next (s : ByteScanner) : Except Misuse (Except LexError (Token × ByteScanner)) :=
  match s.bytes[s.position]? with
  | none => s.emit .endOfInput 0
  | some b =>
    if isBlank b then do s.emit .whitespace (← runLength s.bytes s.position isBlank)
    else if b = '-' ∧ s.bytes[s.position + 1]? = some '-' then
      s.emit .lineComment (2 + Comment.lineLength (s.bytes.drop (s.position + 2)))
    else if Comment.opens (s.bytes.drop s.position) then do
      match ← s.commentEnd? with
      | some stop => s.emit .blockComment (← difference stop s.position)
      | none => s.emit .unrecognized 1
    else if b = '\'' ∨ b = '"' then
      match stringLength? b (s.bytes.drop (s.position + 1)) with
      | some n => s.emit .string (1 + n)
      | none => s.unterminated (.string b)
    else if b = '`' then
      match nameLength? (s.bytes.drop (s.position + 1)) with
      | some n => s.emit .backquoted (1 + n)
      | none => s.unterminated .name
    else if b = '=' ∧ s.bytes[s.position + 1]? = some '>' then s.emit .arrow 2
    else if b = '.' then do
      match ← number? s.bytes s.position with
      | some (n, kind) => s.emit (.number kind) n
      | none => s.emit .dot 1
    else if isWordChar b then s.wordOrNumber
    else
      match punctuation? b with
      | some kind => s.emit kind 1
      | none => do
        match ← s.cut s.position s.bytes.length with
        | c :: _ => s.emit .unrecognized c.utf8Size
        | [] => s.emit .unrecognized 1

/-- How many bytes are left. -/
def left (s : ByteScanner) : Nat := s.bytes.length - s.position

/-- The tokens from here to the end of the text that are to be kept. -/
def collect (keep : Token → Bool) (s : ByteScanner) :
    Except Misuse (Except LexError (List Token)) :=
  match s.next with
  | .error m => .error m
  | .ok (.error e) => .ok (.error e)
  | .ok (.ok (t, s')) =>
    if t.kind = .endOfInput then .ok (.ok [t])
    else if _h : s'.left < s.left then
      match collect keep s' with
      | .error m => .error m
      | .ok (.error e) => .ok (.error e)
      | .ok (.ok ts) => .ok (.ok (if keep t then t :: ts else ts))
    else .error .standstill
termination_by s.left

/-- The tokens of a text that are to be kept, by a scan over its bytes. -/
def tokens (keep : Token → Bool) (text : String) :
    Except Misuse (Except LexError (List Token)) := do
  (← ofText text).collect keep

end ByteScanner

end TagDialect
