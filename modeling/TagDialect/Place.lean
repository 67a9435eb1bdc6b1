-- Places and spans: where a character stands in a text, and the stretch that
-- a token or a node of a statement covers. Offsets count bytes of the UTF-8
-- form, lines and columns count from one.
namespace TagDialect

/-! ## Bytes -/

/-- The number of bytes that the characters take in UTF-8. -/
def byteLength : List Char → Nat
  | [] => 0
  | c :: cs => c.utf8Size + byteLength cs

/-- The characters from byte `n` on. There are none when `n` is past the end or
inside a character. -/
def dropBytes? : Nat → List Char → Option (List Char)
  | 0, cs => some cs
  | _ + 1, [] => none
  | n + 1, c :: cs => if c.utf8Size ≤ n + 1 then dropBytes? (n + 1 - c.utf8Size) cs else none

/-- The characters before byte `n`. There are none when `n` is past the end or
inside a character. -/
def takeBytes? : Nat → List Char → Option (List Char)
  | 0, _ => some []
  | _ + 1, [] => none
  | n + 1, c :: cs =>
    if c.utf8Size ≤ n + 1 then (takeBytes? (n + 1 - c.utf8Size) cs).map (c :: ·) else none

/-- The characters from byte `start` up to byte `stop`, when both are at the edge of a
character and in order. -/
def slice? (cs : List Char) (start stop : Nat) : Option (List Char) :=
  if start ≤ stop then (dropBytes? start cs).bind (takeBytes? (stop - start)) else none

/-! ## Places -/

/-- Where a character stands: the characters and the bytes before it, its line, and its
column counted in characters. -/
structure Place where
  index : Nat
  offset : Nat
  line : Nat
  column : Nat
deriving DecidableEq

/-- The place of a text's first character. -/
def Place.first : Place := ⟨0, 0, 1, 1⟩

/-- The place after one character. Only a line feed starts a new line. -/
def Place.after (p : Place) (c : Char) : Place where
  index := p.index + 1
  offset := p.offset + c.utf8Size
  line := if c = '\n' then p.line + 1 else p.line
  column := if c = '\n' then 1 else p.column + 1

/-- The place after a run of characters. -/
def Place.past (p : Place) (cs : List Char) : Place := cs.foldl Place.after p

/-! ## Spans -/

/-- The bytes from `start` up to `stop`, with the line and the column of the first one. -/
structure Span where
  start : Nat
  stop : Nat
  line : Nat
  column : Nat
deriving DecidableEq

/-- The empty span at the start of a text. -/
def Span.origin : Span := ⟨0, 0, 1, 1⟩

/-- From the start of `a` to the end of `b`, or to the end of `a` when that is later. -/
def Span.to (a b : Span) : Span := { a with stop := max b.stop a.stop }

def Span.length (s : Span) : Nat := s.stop - s.start

def Span.isEmpty (s : Span) : Bool := s.start == s.stop

/-- The span between two places. -/
def Place.spanTo (p q : Place) : Span := ⟨p.offset, q.offset, p.line, p.column⟩

end TagDialect
