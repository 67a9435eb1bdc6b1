-- The pieces of the canonical text and the lexemes that they are read as. A word
-- of the line is read as its own lexemes because a blank, a comma or a
-- parenthesis comes behind it, or the end.
import TagDialect.Canonical
import TagDialect.Proofs.WellFormed

namespace TagDialect

/-! ## Words of a line -/

/-- The text of one word of a line, with the lexemes that it is read as wherever it stands. -/
structure ReadAs (cs : List Char) (ws : List Lexeme) : Prop where
  starts : ∃ c ds, cs = c :: ds ∧ isBlank c = false
  lexes {rest : List Char} {vs : List Lexeme} (hrest : Apart rest) (h : Lexes rest vs) :
    Lexes (cs ++ rest) (ws ++ vs)

def Keyword.lexeme (k : Keyword) : Lexeme := ⟨.keyword k, k.text⟩

theorem readAs_keyword (k : Keyword) : ReadAs k.text.toList [k.lexeme] := by
  constructor
  · cases k <;> exact ⟨_, _, rfl, by decide⟩
  · intro rest vs hrest h
    have hlexes := Lexes.visible (heads_keyword k (endsWord_of_apart hrest)) rfl (by simp) h
    rwa [String.ofList_toList] at hlexes

theorem readAs_arrow : ReadAs "=>".toList [⟨.arrow, "=>"⟩] where
  starts := ⟨'=', ['>'], rfl, by decide⟩
  lexes := fun _ h => .visible (heads_arrow _) rfl (by simp) h

theorem readAs_string (value : String) :
    ReadAs (quoteString value).toList [⟨.string, quoteString value⟩] where
  starts := ⟨'\'', _, toList_quoteString value, by decide⟩
  lexes := by
    intro rest vs _ h
    have hlexes := Lexes.visible (heads_string value rest) rfl (by simp) h
    rwa [String.ofList_toList] at hlexes

/-! ### Names -/

/-- The text of a name or of its parts, with its lexemes. A name may stand before a point, and
behind one. -/
structure NameReadAs (cs : List Char) (ws : List Lexeme) : Prop where
  starts : ∃ c ds, cs = c :: ds ∧ isBlank c = false ∧ c.isDigit = false
  lexes {rest : List Char} {vs : List Lexeme} (hend : Numeral.endsWord rest = true)
    (htick : rest.head? ≠ some '`') (h : Lexes rest vs) : Lexes (cs ++ rest) (ws ++ vs)

theorem NameReadAs.readAs {cs : List Char} {ws : List Lexeme} (h : NameReadAs cs ws) :
    ReadAs cs ws := by
  obtain ⟨c, ds, hcs, hblank, -⟩ := h.starts
  refine ⟨⟨c, ds, hcs, hblank⟩, ?_⟩
  intro rest vs hrest hlexes
  refine h.lexes (endsWord_of_apart hrest) ?_ hlexes
  intro htick
  rcases hrest _ htick with h | h | h | h <;> exact absurd h (by decide)

/-- A name that is written bare is one word that starts with no digit and is not reserved. -/
theorem needsTicks_eq_false {v : List Char} (h : needsTicks v = false) :
    (∃ c cs, v = c :: cs ∧ c.isDigit = false) ∧ (∀ c ∈ v, isWordChar c = true) ∧
      ∀ k, Keyword.ofWord? v = some k → k.isReserved = false := by
  cases v with
  | nil => simp [needsTicks] at h
  | cons c cs =>
    simp only [needsTicks, Bool.or_eq_false_iff, Bool.not_eq_false', List.all_eq_true] at h
    obtain ⟨⟨hdigit, hall⟩, hreserved⟩ := h
    refine ⟨⟨c, cs, rfl, hdigit⟩, hall, ?_⟩
    intro k hk
    simpa [hk] using hreserved

/-- The lexeme that a name is written as: a word of its own, or the name in ticks. -/
def nameLexeme (value : String) : Lexeme :=
  ⟨if needsTicks value.toList then .backquoted else wordKind value.toList, writeName value⟩

theorem heads_nameLexeme (value : String) {rest : List Char} (hend : Numeral.endsWord rest = true)
    (htick : rest.head? ≠ some '`') :
    Heads (nameLexeme value).kind (writeName value).toList rest := by
  unfold nameLexeme writeName
  by_cases hticks : needsTicks value.toList = true
  · rw [if_pos hticks, if_pos hticks, String.toList_ofList]
    exact heads_ticked value.toList htick
  · rw [if_neg hticks, if_neg hticks]
    rw [Bool.not_eq_true] at hticks
    obtain ⟨⟨c, cs, hcut, hdigit⟩, hall, -⟩ := needsTicks_eq_false hticks
    rw [hcut] at hall ⊢
    exact heads_word hdigit hall hend

/-- The lexeme of a name can stand where a name is expected. -/
theorem canBeIdentifier_nameLexeme (value : String) :
    (nameLexeme value).kind.canBeIdentifier = true := by
  unfold nameLexeme
  by_cases hticks : needsTicks value.toList = true
  · rw [if_pos hticks]
    rfl
  · rw [if_neg hticks]
    rw [Bool.not_eq_true] at hticks
    obtain ⟨-, -, hreserved⟩ := needsTicks_eq_false hticks
    unfold wordKind
    cases hk : Keyword.ofWord? value.toList with
    | none => rfl
    | some k => simp [TokenKind.canBeIdentifier, TokenKind.isNonReserved, hreserved k hk]

theorem visible_of_canBeIdentifier {kind : TokenKind} (h : kind.canBeIdentifier = true) :
    kind.isHidden = false ∧ kind ≠ .endOfInput := by
  cases kind <;> simp_all [TokenKind.canBeIdentifier, TokenKind.isNonReserved, TokenKind.isHidden]

theorem starts_writeName (value : String) :
    ∃ c ds, (writeName value).toList = c :: ds ∧ isBlank c = false ∧ c.isDigit = false := by
  unfold writeName
  by_cases hticks : needsTicks value.toList = true
  · rw [if_pos hticks, String.toList_ofList]
    exact ⟨'`', _, rfl, by decide, by decide⟩
  · rw [if_neg hticks]
    rw [Bool.not_eq_true] at hticks
    obtain ⟨⟨c, cs, hcut, hdigit⟩, hall, -⟩ := needsTicks_eq_false hticks
    exact ⟨c, cs, hcut, isBlank_of_isWordChar (hall c (by simp [hcut])), hdigit⟩

theorem readAs_nameLexeme (value : String) :
    NameReadAs (writeName value).toList [nameLexeme value] where
  starts := starts_writeName value
  lexes := by
    intro rest vs hend htick h
    obtain ⟨hhidden, hne⟩ := visible_of_canBeIdentifier (canBeIdentifier_nameLexeme value)
    have hlexes := Lexes.visible (heads_nameLexeme value hend htick) hhidden hne h
    rwa [String.ofList_toList] at hlexes

/-- A name is read back as a name of the same value, in ticks or not. -/
theorem derives_nameLexeme (value : String) :
    ∃ quoted, Identifier.Derives [nameLexeme value] ⟨value, quoted, .origin⟩ := by
  unfold nameLexeme writeName
  by_cases hticks : needsTicks value.toList = true
  · rw [if_pos hticks, if_pos hticks]
    have hname := @Identifier.Derives.ticked
      ⟨.backquoted, String.ofList ('`' :: doubleTicks value.toList ++ ['`'])⟩ .origin rfl
    rw [Lexeme.tickedName, List.cons_append, nameValue?_doubleTicks, String.ofList_toList] at hname
    exact ⟨true, hname⟩
  · rw [if_neg hticks, if_neg hticks]
    rw [Bool.not_eq_true] at hticks
    obtain ⟨-, -, hreserved⟩ := needsTicks_eq_false hticks
    refine ⟨false, ?_⟩
    unfold wordKind
    cases hk : Keyword.ofWord? value.toList with
    | none => exact .word rfl
    | some k => exact .keyword rfl (hreserved k hk)

theorem readAs_identifier (i : Identifier) :
    ∃ w j, NameReadAs i.format.toList [w] ∧ Identifier.Derives [w] j ∧ j.plain = i.plain := by
  obtain ⟨quoted, hderives⟩ := derives_nameLexeme i.value
  exact ⟨_, _, readAs_nameLexeme i.value, hderives, rfl⟩

/-- What comes behind one part of a dotted name. -/
def dotted (is : List Identifier) : List Char := is.flatMap fun i => '.' :: i.format.toList

theorem toList_format_name (i : Identifier) (is : List Identifier) (span : Span) :
    (Name.format ⟨i :: is, span⟩).toList = i.format.toList ++ dotted is := by
  unfold Name.format
  rw [String.toList_intercalate]
  induction is generalizing i with
  | nil => simp [dotted]
  | cons j is ih =>
    have hrest := ih j
    simp only [List.map_cons] at hrest ⊢
    rw [List.intercalate_cons_cons, hrest]
    simp [dotted]

/-- The end of a dotted part is the end of a word, and no tick. -/
theorem dotted_starts (is : List Identifier) {rest : List Char}
    (hend : Numeral.endsWord rest = true) (htick : rest.head? ≠ some '`') :
    Numeral.endsWord (dotted is ++ rest) = true ∧ (dotted is ++ rest).head? ≠ some '`' := by
  cases is with
  | nil => exact ⟨hend, htick⟩
  | cons i is => exact ⟨rfl, by simp [dotted]⟩

/-- The lexemes of what comes behind one part of a dotted name. -/
def dottedLexemes (is : List Identifier) : List Lexeme :=
  is.flatMap fun i => [⟨.dot, "."⟩, nameLexeme i.value]

def Name.lexemes (n : Name) : List Lexeme :=
  match n.parts with
  | [] => []
  | i :: is => nameLexeme i.value :: dottedLexemes is

theorem lexes_dotted (is : List Identifier) {rest : List Char} {vs : List Lexeme}
    (hend : Numeral.endsWord rest = true) (htick : rest.head? ≠ some '`') (h : Lexes rest vs) :
    Lexes (dotted is ++ rest) (dottedLexemes is ++ vs) := by
  induction is with
  | nil => exact h
  | cons i is ih =>
    obtain ⟨hend', htick'⟩ := dotted_starts is hend htick
    have hread := readAs_nameLexeme i.value
    have hname := hread.lexes hend' htick' ih
    have hdigits : digitRun ((writeName i.value).toList ++ (dotted is ++ rest)) = 0 := by
      obtain ⟨c, ds, hcs, -, hdigit⟩ := hread.starts
      rw [hcs]
      exact digitRun_cons_eq_zero _ hdigit
    have hpoint := Lexes.visible (heads_dot hdigits) rfl (by simp) hname
    simpa [dotted, dottedLexemes, Identifier.format, List.append_assoc] using hpoint

theorem derives_dotted (is : List Identifier) :
    ∃ js, Led .dot Identifier.Derives (dottedLexemes is) js ∧
      js.map Identifier.plain = is.map Identifier.plain := by
  induction is with
  | nil => exact ⟨[], .nil, rfl⟩
  | cons i is ih =>
    obtain ⟨js, hled, hmap⟩ := ih
    obtain ⟨quoted, hderives⟩ := derives_nameLexeme i.value
    have hdot : (⟨.dot, "."⟩ : Lexeme).kind = .dot := rfl
    refine ⟨_ :: js, .cons hdot hderives hled, ?_⟩
    rw [List.map_cons, List.map_cons, hmap]
    rfl

theorem readAs_name_lexemes {n : Name} (h : n.parts ≠ []) :
    NameReadAs n.format.toList n.lexemes := by
  obtain ⟨parts, span⟩ := n
  obtain ⟨i, is, rfl⟩ := List.exists_cons_of_ne_nil h
  have hread := readAs_nameLexeme i.value
  constructor
  · obtain ⟨c, ds, hcs, hclass⟩ := hread.starts
    exact ⟨c, ds ++ dotted is, by rw [toList_format_name, Identifier.format, hcs]; rfl, hclass⟩
  · intro rest vs hend htick h
    obtain ⟨hend', htick'⟩ := dotted_starts is hend htick
    rw [toList_format_name, List.append_assoc]
    exact hread.lexes hend' htick' (lexes_dotted is hend htick h)

theorem readAs_name {n : Name} (h : n.parts ≠ []) :
    ∃ ws m, NameReadAs n.format.toList ws ∧ Name.Derives ws m ∧
      m.erase Identifier.plain = n.erase Identifier.plain := by
  have hread := readAs_name_lexemes h
  obtain ⟨parts, span⟩ := n
  obtain ⟨i, is, rfl⟩ := List.exists_cons_of_ne_nil h
  obtain ⟨quoted, hderives⟩ := derives_nameLexeme i.value
  obtain ⟨js, hled, hmap⟩ := derives_dotted is
  refine ⟨_, ⟨_ :: js, .origin⟩, hread, .parts (.items hderives hled), ?_⟩
  simp only [Name.erase, List.map_cons, hmap, Identifier.plain]

/-! ### Values -/

theorem readAs_numeral {kind : NumberKind} {text : String} (h : IsNumeral kind text) :
    ReadAs text.toList [⟨.number kind, text⟩] ∧
      ∃ c cs, text.toList = c :: cs ∧ (c.isDigit = true ∨ c = '.') := by
  have hbest := best_of_isNumeral h
  obtain ⟨⟨pointed, hword⟩, -⟩ := number_of_match hbest.fits
  obtain ⟨c, cs, htext, hc⟩ := hword.head
  refine ⟨⟨⟨c, cs, htext, isBlank_of_digitOrDot hc⟩, ?_⟩, c, cs, htext, hc⟩
  intro rest vs hrest hlexes
  have hnumber := Lexes.visible (heads_number hbest hrest) rfl (by simp) hlexes
  rwa [String.ofList_toList] at hnumber

def Number.lexemes (n : Number) : List Lexeme :=
  (if n.negative then [⟨.minus, "-"⟩] else []) ++ [⟨.number n.kind, n.text⟩]

theorem readAs_number_lexemes {n : Number} (h : IsNumeral n.kind n.text) :
    ReadAs n.format.toList n.lexemes := by
  obtain ⟨hread, c, cs, htext, hc⟩ := readAs_numeral h
  unfold Number.format Number.lexemes
  cases n.negative with
  | false => exact hread
  | true =>
    refine ⟨⟨'-', n.text.toList, ?_, by decide⟩, ?_⟩
    · simp
    · intro rest vs hrest hlexes
      -- The sign is no comment, since a digit or a point comes behind it.
      have hdash : (n.text.toList ++ rest).head? ≠ some '-' := by
        rw [htext]
        rintro h
        obtain rfl : c = '-' := Option.some.inj h
        exact absurd hc (by decide)
      have hsign := Lexes.visible (heads_mark (n.text.toList ++ rest) .minus (fun _ => hdash)
        (by decide)) rfl (by simp) (hread.lexes hrest hlexes)
      simpa using hsign

theorem readAs_number {n : Number} (h : IsNumeral n.kind n.text) :
    ∃ ws m, ReadAs n.format.toList ws ∧ Number.Derives ws m ∧ m.bare = n.bare := by
  have hread := readAs_number_lexemes h
  obtain ⟨kind, text, negative, span⟩ := n
  cases negative with
  | false => exact ⟨_, ⟨kind, text, false, .origin⟩, hread, .positive rfl, rfl⟩
  | true => exact ⟨_, ⟨kind, text, true, .origin⟩, hread, .negative rfl rfl, rfl⟩

theorem readAs_typed {cs : List Char} {ws : List Lexeme} (value : String)
    (h : NameReadAs cs ws) :
    ReadAs (cs ++ ' ' :: (quoteString value).toList) (ws ++ [⟨.string, quoteString value⟩]) := by
  constructor
  · obtain ⟨c, ds, rfl, hblank, -⟩ := h.starts
    exact ⟨c, _, rfl, hblank⟩
  · intro rest vs hrest hlexes
    have hstring := (readAs_string value).lexes hrest hlexes
    have hblank : ((quoteString value).toList ++ rest).takeWhile isBlank = [] := by
      rw [toList_quoteString]
      rfl
    have hspace := Lexes.space (heads_space hblank) hstring
    have hend : Numeral.endsWord (' ' :: ((quoteString value).toList ++ rest)) = true := by
      simp [Numeral.endsWord, isWordChar]
    have hname := h.lexes hend (by simp) hspace
    simpa using hname

theorem readAs_constant {c : Constant} (h : c.WellFormed) :
    ∃ ws d, ReadAs c.format.toList ws ∧ Constant.Derives ws d ∧
      d.erase Identifier.plain = c.erase Identifier.plain := by
  cases c with
  | number n =>
    obtain ⟨ws, m, hread, hderives, hbare⟩ := readAs_number h
    exact ⟨ws, .number m, hread, .number hderives, by simp only [Constant.erase, hbare]⟩
  | boolean value span =>
    cases value with
    | true => exact ⟨_, .boolean true .origin, readAs_keyword .true, .truth rfl, rfl⟩
    | false => exact ⟨_, .boolean false .origin, readAs_keyword .false, .falsehood rfl, rfl⟩
  | string value span =>
    have hjoin : String.join ([⟨.string, quoteString value⟩].map Lexeme.stringValue) = value := by
      simp [Lexeme.stringValue, stringValue?_quoteString, String.join_cons]
    have hderives : Constant.Derives [⟨.string, quoteString value⟩] (.string _ .origin) :=
      .strings (by simp) (by simp)
    rw [hjoin] at hderives
    exact ⟨_, .string value .origin, readAs_string value, hderives, rfl⟩
  | typed type value span =>
    obtain ⟨w, j, hread, htype, hplain⟩ := readAs_identifier type
    have hvalue : Lexeme.stringValue ⟨.string, quoteString value⟩ = value := by
      simp [Lexeme.stringValue, stringValue?_quoteString]
    have htext : (Constant.format (.typed type value span)).toList =
        type.format.toList ++ ' ' :: (quoteString value).toList := by
      simp [Constant.format]
    refine ⟨[w] ++ [⟨.string, quoteString value⟩], .typed j value .origin, ?_, ?_, ?_⟩
    · rw [htext]
      exact readAs_typed value hread
    · have hderives : Constant.Derives ([w] ++ [⟨.string, quoteString value⟩]) (.typed j _ .origin) :=
        .typed htype rfl
      rwa [hvalue] at hderives
    · simp only [Constant.erase, hplain]

/-! ## Pieces of a line -/

namespace Piece

/-- The characters that the pieces make. -/
def chars (glued : Bool) (ps : List Piece) : List Char := (stretches glued ps).flatMap String.toList

theorem toList_line (ps : List Piece) : (line ps).toList = chars true ps := String.toList_join

theorem chars_word (glued : Bool) (text : String) (ps : List Piece) :
    chars glued (.word text :: ps) = (if glued then [] else [' ']) ++ (text.toList ++ chars false ps) := by
  cases glued <;> simp [chars, stretches]

end Piece

/-- Pieces of a line, with the lexemes that they are read as. -/
inductive Written : List Piece → List Lexeme → Prop
  | nil : Written [] []
  | word {text : String} {ws vs : List Lexeme} {ps : List Piece} (h : ReadAs text.toList ws)
      (hs : Written ps vs) : Written (.word text :: ps) (ws ++ vs)
  | closing {vs : List Lexeme} {ps : List Piece} (hs : Written ps vs) :
      Written (.attached ")" :: ps) (⟨.rightParen, ")"⟩ :: vs)
  | opening {vs : List Lexeme} {ps : List Piece} (hs : Written ps vs) :
      Written (.opening "(" :: ps) (⟨.leftParen, "("⟩ :: vs)
  | comma {vs : List Lexeme} {ps : List Piece} (hs : Written ps vs) :
      Written (.comma :: ps) (⟨.comma, ","⟩ :: vs)

theorem Written.append {ps qs : List Piece} {ws vs : List Lexeme} (h : Written ps ws)
    (h' : Written qs vs) : Written (ps ++ qs) (ws ++ vs) := by
  induction h with
  | nil => exact h'
  | word h _ ih =>
    rw [List.append_assoc]
    exact .word h ih
  | closing _ ih => exact .closing ih
  | opening _ ih => exact .opening ih
  | comma _ ih => exact .comma ih

theorem Written.single {text : String} {ws : List Lexeme} (h : ReadAs text.toList ws) :
    Written [.word text] ws := by
  simpa using Written.word h .nil

/-- What comes behind a word of a line stands apart from it. -/
theorem Written.apart {ps : List Piece} {ws : List Lexeme} (h : Written ps ws) :
    Apart (Piece.chars false ps) := by
  intro c hc
  cases h with
  | nil => exact nomatch hc
  | word _ _ =>
    rw [Piece.chars_word] at hc
    exact .inl (Option.some.inj hc).symm
  | closing _ => exact .inr (.inr (.inr (Option.some.inj hc).symm))
  | opening _ => exact .inr (.inr (.inl (Option.some.inj hc).symm))
  | comma _ => exact .inr (.inl (Option.some.inj hc).symm)

/-- The line is read as the lexemes of its pieces. -/
theorem Written.lexes {ps : List Piece} {ws : List Lexeme} (h : Written ps ws) (glued : Bool) :
    Lexes (Piece.chars glued ps) (ws ++ [⟨.endOfInput, ""⟩]) := by
  induction h generalizing glued with
  | nil => exact .finish
  | @word text ws vs ps hread hs ih =>
    have hword := hread.lexes hs.apart (ih false)
    rw [List.append_assoc, Piece.chars_word]
    cases glued with
    | true => exact hword
    | false =>
      have hblank : (text.toList ++ Piece.chars false ps).takeWhile isBlank = [] := by
        obtain ⟨c, ds, htext, hc⟩ := hread.starts
        rw [htext, List.cons_append, List.takeWhile_cons_of_neg (by simp [hc])]
      exact .space (heads_space hblank) hword
  | @closing vs ps hs ih =>
    have hmark : Heads .rightParen [')'] (Piece.chars false ps) :=
      heads_mark _ .rightParen (by simp) (by decide)
    exact .visible hmark rfl (by simp) (ih false)
  | @opening vs ps hs ih =>
    have hmark : Heads .leftParen ['('] (Piece.chars true ps) :=
      heads_mark _ .leftParen (by simp) (by decide)
    exact .visible hmark rfl (by simp) (ih true)
  | @comma vs ps hs ih =>
    have hmark : Heads .comma [','] (Piece.chars false ps) :=
      heads_mark _ .comma (by simp) (by decide)
    exact .visible hmark rfl (by simp) (ih false)

end TagDialect
