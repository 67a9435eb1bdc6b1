-- The lexical rules of the dialect, each on its own: which words belong to a
-- kind of token, and what may come behind them. The rules overlap, and nothing
-- here says how the lexer chooses among them.
import TagDialect.Lexer

namespace TagDialect

/-! ## Numbers -/

/-- Digits, and at least one of them. -/
def Digits (w : List Char) : Prop := w ≠ [] ∧ ∀ c ∈ w, c.isDigit = true

/-- `E`, a sign or none, and digits. -/
inductive Exponent : List Char → Prop
  | mk {sign digits : List Char} : sign = [] ∨ sign = ['+'] ∨ sign = ['-'] → Digits digits →
      Exponent ('E' :: (sign ++ digits))

/-- The part of a literal before its exponent and its suffix, with a decimal point in it
or without. Digits stand on one side of the point at least. -/
inductive Mantissa : Bool → List Char → Prop
  | whole {n : List Char} : Digits n → Mantissa false n
  | point {n m : List Char} : Digits n → (∀ c ∈ m, c.isDigit = true) → Mantissa true (n ++ '.' :: m)
  | fraction {m : List Char} : Digits m → Mantissa true ('.' :: m)

/-- The suffixes of whole numbers. -/
inductive WholeSuffix : NumberKind → Char → Prop
  | bigInt : WholeSuffix .bigInt 'L'
  | smallInt : WholeSuffix .smallInt 'S'
  | tinyInt : WholeSuffix .tinyInt 'Y'

/-- The suffixes of numbers of any shape. -/
inductive AnySuffix : NumberKind → List Char → Prop
  | float : AnySuffix .float ['F']
  | double : AnySuffix .double ['D']
  | bigDecimal : AnySuffix .bigDecimal ['B', 'D']

/-- The words of each family of numbers, with a decimal point in them or without. -/
inductive NumberWord : NumberKind → Bool → List Char → Prop
  | suffixed {kind : NumberKind} {n : List Char} {c : Char} : Digits n → WholeSuffix kind c →
      NumberWord kind false (n ++ [c])
  | integer {n : List Char} : Digits n → NumberWord .integer false n
  | exponent {pointed : Bool} {m x : List Char} : Mantissa pointed m → Exponent x →
      NumberWord .exponent pointed (m ++ x)
  | decimal {d : List Char} : Mantissa true d → NumberWord .decimal true d
  | typed {kind : NumberKind} {pointed : Bool} {m x s : List Char} : Mantissa pointed m →
      x = [] ∨ Exponent x → AnySuffix kind s → NumberWord kind pointed (m ++ (x ++ s))

/-! ## Line comments -/

/-- What stands between the two dashes and the line break. A backslash may take a line feed
with it. -/
inductive LineBody : List Char → Prop
  | nil : LineBody []
  | carried {w : List Char} : LineBody w → LineBody ('\\' :: '\n' :: w)
  | char {c : Char} {w : List Char} : c ≠ '\r' → c ≠ '\n' → LineBody w → LineBody (c :: w)

/-- A carriage return or none, and a line feed or none. -/
inductive LineBreak : List Char → Prop
  | none : LineBreak []
  | carriageReturn : LineBreak ['\r']
  | lineFeed : LineBreak ['\n']
  | both : LineBreak ['\r', '\n']

/-! ## All rules -/

/-- The words that are one fixed mark. -/
inductive Mark : TokenKind → List Char → Prop
  | leftParen : Mark .leftParen ['(']
  | rightParen : Mark .rightParen [')']
  | comma : Mark .comma [',']
  | semicolon : Mark .semicolon [';']
  | dot : Mark .dot ['.']
  | plus : Mark .plus ['+']
  | minus : Mark .minus ['-']
  | arrow : Mark .arrow ['=', '>']

/-- A word of the kind's rule, with the text behind it. Only a number with a decimal point
minds what comes behind it. Quoted pieces and block comments are not among the rules. -/
inductive RuleMatch : TokenKind → List Char → List Char → Prop
  | whitespace {w rest : List Char} : w ≠ [] → (∀ c ∈ w, isBlank c = true) →
      RuleMatch .whitespace w rest
  | lineComment {body br rest : List Char} : LineBody body → LineBreak br →
      RuleMatch .lineComment ('-' :: '-' :: (body ++ br)) rest
  | mark {kind : TokenKind} {w rest : List Char} : Mark kind w → RuleMatch kind w rest
  | keyword {k : Keyword} {w rest : List Char} : w.map Char.toUpper = k.text.toList →
      RuleMatch (.keyword k) w rest
  | identifier {w rest : List Char} : w ≠ [] → (∀ c ∈ w, isWordChar c = true) →
      RuleMatch .identifier w rest
  | number {kind : NumberKind} {pointed : Bool} {w rest : List Char} : NumberWord kind pointed w →
      (pointed = true → Numeral.endsWord rest = true) → RuleMatch (.number kind) w rest

/-- Which rule comes first when several match equally far: keywords, then the families of
numbers, then names. -/
def TokenKind.rank : TokenKind → Nat
  | .keyword _ => 0
  | .number .bigInt => 1
  | .number .smallInt => 2
  | .number .tinyInt => 3
  | .number .integer => 4
  | .number .exponent => 5
  | .number .decimal => 6
  | .number .float => 7
  | .number .double => 8
  | .number .bigDecimal => 9
  | .identifier => 10
  | _ => 11

/-! ## How the words of a rule begin -/

theorem isWordChar_of_isDigit {c : Char} (h : c.isDigit = true) : isWordChar c = true := by
  simp [isWordChar, Char.isAlphanum, h]

theorem eq_of_isBlank {c : Char} (h : isBlank c = true) :
    c = ' ' ∨ c = '\t' ∨ c = '\r' ∨ c = '\n' := by
  simpa [isBlank, or_assoc] using h

/-- No blank is part of a word or of a number. -/
theorem isBlank_of_isWordChar {c : Char} (h : isWordChar c = true) : isBlank c = false := by
  rw [← Bool.not_eq_true]
  intro hblank
  rcases eq_of_isBlank hblank with rfl | rfl | rfl | rfl <;> exact absurd h (by decide)

theorem isBlank_of_digitOrDot {c : Char} (h : c.isDigit = true ∨ c = '.') : isBlank c = false := by
  rcases h with h | rfl
  · exact isBlank_of_isWordChar (isWordChar_of_isDigit h)
  · decide

theorem Mantissa.head {pointed : Bool} {m : List Char} (h : Mantissa pointed m) :
    ∃ c cs, m = c :: cs ∧ (c.isDigit = true ∨ c = '.') := by
  cases h with
  | whole hn =>
    obtain ⟨hne, hall⟩ := hn
    obtain ⟨c, cs, rfl⟩ := List.exists_cons_of_ne_nil hne
    exact ⟨c, cs, rfl, .inl (hall c List.mem_cons_self)⟩
  | point hn hm =>
    obtain ⟨hne, hall⟩ := hn
    obtain ⟨c, cs, rfl⟩ := List.exists_cons_of_ne_nil hne
    exact ⟨c, _, rfl, .inl (hall c List.mem_cons_self)⟩
  | fraction hm => exact ⟨'.', _, rfl, .inr rfl⟩

theorem NumberWord.head {kind : NumberKind} {pointed : Bool} {w : List Char}
    (h : NumberWord kind pointed w) : ∃ c cs, w = c :: cs ∧ (c.isDigit = true ∨ c = '.') := by
  have hmantissa {pointed : Bool} {m : List Char} (tail : List Char) (hm : Mantissa pointed m) :
      ∃ c cs, m ++ tail = c :: cs ∧ (c.isDigit = true ∨ c = '.') := by
    obtain ⟨c, cs, rfl, hc⟩ := hm.head
    exact ⟨c, cs ++ tail, rfl, hc⟩
  cases h with
  | suffixed hn _ => exact hmantissa _ (.whole hn)
  | integer hn => exact (Mantissa.whole hn).head
  | exponent hm _ => exact hmantissa _ hm
  | decimal hd => exact hd.head
  | typed hm _ _ => exact hmantissa _ hm

/-- No keyword starts like a number, and all of its characters are word characters. -/
theorem text_of_keyword (k : Keyword) :
    ∃ c cs, k.text.toList = c :: cs ∧ c.isDigit = false ∧ (c :: cs).all isWordChar = true := by
  cases k <;> exact ⟨_, _, rfl, by decide, by decide⟩

end TagDialect
