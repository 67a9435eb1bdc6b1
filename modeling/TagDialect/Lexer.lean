-- Cutting a text into tokens: the longest piece at each place, one after the
-- other, up to the end of the input.
import TagDialect.Token
import TagDialect.Numeral
import TagDialect.Comment
import TagDialect.Quoting
import TagDialect.Fault

namespace TagDialect

/-! ## One piece -/

/-- The kind of a character that is a token by itself. -/
def punctuation? (c : Char) : Option TokenKind :=
  if c = '(' then some .leftParen
  else if c = ')' then some .rightParen
  else if c = ',' then some .comma
  else if c = ';' then some .semicolon
  else if c = '+' then some .plus
  else if c = '-' then some .minus
  else none

/-- The word at the head of a text: a number when one reaches as far as the word, else a
keyword or a name. -/
def wordOrNumber (cs : List Char) : TokenKind × Nat :=
  let n := wordLength cs
  let word :=
    match Keyword.ofWord? (cs.take n) with
    | some k => (TokenKind.keyword k, n)
    | none => (TokenKind.identifier, n)
  match Numeral.read? cs with
  | some (m, kind) => if n ≤ m then (.number kind, m) else word
  | none => word

/-- The kind and the length of the piece at the head of a text that begins at `i`. -/
def pieceAt (comments : CommentIndex) (i : Nat) :
    List Char → Except Unterminated (TokenKind × Nat)
  | [] => .ok (.endOfInput, 0)
  | c :: cs =>
    if isBlank c then .ok (.whitespace, 1 + (cs.takeWhile isBlank).length)
    else if c = '-' ∧ cs.head? = some '-' then
      .ok (.lineComment, 2 + Comment.lineLength (cs.drop 1))
    else if Comment.opens (c :: cs) then
      match comments.bodyLength? i (cs.drop 1) with
      | some n => .ok (.blockComment, 2 + n)
      | none => .ok (.unrecognized, 1)
    else if c = '\'' ∨ c = '"' then
      match stringLength? c cs with
      | some n => .ok (.string, 1 + n)
      | none => .error (.string c)
    else if c = '`' then
      match nameLength? cs with
      | some n => .ok (.backquoted, 1 + n)
      | none => .error .name
    else if c = '=' ∧ cs.head? = some '>' then .ok (.arrow, 2)
    else if c = '.' then
      match Numeral.read? (c :: cs) with
      | some (n, kind) => .ok (.number kind, n)
      | none => .ok (.dot, 1)
    else if isWordChar c then .ok (wordOrNumber (c :: cs))
    else
      match punctuation? c with
      | some kind => .ok (kind, 1)
      | none => .ok (.unrecognized, 1)

/-! ## The lexer -/

/-- A text that is being cut: where the lexer stands, and what is left. -/
structure Lexer where
  comments : CommentIndex
  place : Place
  rest : List Char

namespace Lexer

/-- A lexer at the start of a text. -/
def ofText (text : String) : Lexer := ⟨.ofText text.toList, .first, text.toList⟩

/-- The next token, hidden ones included, and the lexer behind it. At the end of the
input the lexer stays where it is. -/
def next (l : Lexer) : Except LexError (Token × Lexer) :=
  match pieceAt l.comments l.place.index l.rest with
  | .ok (kind, n) =>
    let text := l.rest.take n
    let place := l.place.past text
    .ok (⟨kind, String.ofList text, l.place.spanTo place⟩, ⟨l.comments, place, l.rest.drop n⟩)
  | .error u =>
    .error {
      message := u.message
      unexpected := u.opener
      offset := l.place.offset
      line := l.place.line
      column := l.place.column
      extent := (l.place.offset, byteLength l.rest) }

end Lexer

/-! ## A piece is never empty -/

theorem pos_of_wordOrNumber {c : Char} {cs : List Char} (h : isWordChar c = true) :
    0 < (wordOrNumber (c :: cs)).2 := by
  have hw : 0 < wordLength (c :: cs) := by simp [wordLength, h]
  unfold wordOrNumber
  simp only
  split
  · rename_i m kind hr
    have hm := Numeral.pos_of_read? hr
    split
    · exact hm
    · split <;> exact hw
  · split <;> exact hw

theorem pos_of_pieceAt {comments : CommentIndex} {i : Nat} {c : Char} {cs : List Char}
    {kind : TokenKind} {n : Nat} (h : pieceAt comments i (c :: cs) = .ok (kind, n)) : 0 < n := by
  have hnumber : ∀ m k, Numeral.read? (c :: cs) = some (m, k) → 0 < m :=
    fun _ _ => Numeral.pos_of_read?
  have hword := @pos_of_wordOrNumber c cs
  simp only [pieceAt] at h
  repeat' split at h
  all_goals grind

/-- Each token but the last brings the lexer nearer to the end. -/
theorem Lexer.length_lt_of_next {l l' : Lexer} {t : Token} (h : l.next = .ok (t, l'))
    (hk : t.kind ≠ .endOfInput) : l'.rest.length < l.rest.length := by
  unfold next at h
  split at h
  · rename_i kind n hp
    simp only [Except.ok.injEq, Prod.mk.injEq] at h
    obtain ⟨ht, hl⟩ := h
    subst ht
    subst hl
    cases hr : l.rest with
    | nil =>
      rw [hr] at hp
      simp only [pieceAt, Except.ok.injEq, Prod.mk.injEq] at hp
      exact absurd hp.1.symm hk
    | cons c cs =>
      rw [hr] at hp
      have := pos_of_pieceAt hp
      simp only [List.length_drop, List.length_cons]
      omega
  · simp at h

/-! ## All tokens -/

namespace Lexer

/-- The tokens from here to the end of the input that are to be kept. The end of the
input is always the last of them. -/
def collect (keep : Token → Bool) (l : Lexer) : Except LexError (List Token) :=
  match _h : l.next with
  | .error e => .error e
  | .ok (t, l') =>
    if _hk : t.kind = .endOfInput then .ok [t]
    else
      match collect keep l' with
      | .error e => .error e
      | .ok ts => .ok (if keep t then t :: ts else ts)
termination_by l.rest.length
decreasing_by exact length_lt_of_next _h _hk

end Lexer

/-- All tokens of a text, blanks and comments included. -/
def tokenizeAll (text : String) : Except LexError (List Token) :=
  (Lexer.ofText text).collect fun _ => true

/-- The tokens of a text that its meaning depends on. -/
def tokenize (text : String) : Except LexError (List Token) :=
  (Lexer.ofText text).collect fun t => !t.kind.isHidden

end TagDialect
