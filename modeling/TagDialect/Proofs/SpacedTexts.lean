-- The layout of canonical texts. Their only hidden tokens are single spaces, and whether one stands
-- between two tokens can be told from the kinds of the two. So the text is a function of the
-- tokens that its meaning depends on.
import TagDialect.Proofs.CanonicalTexts

namespace TagDialect

/-! ## Spaces between lexemes -/

/-- No space stands behind a token of this kind. -/
def TokenKind.hugsNext : TokenKind → Bool
  | .leftParen | .dot | .minus => true
  | _ => false

/-- No space stands before a token of this kind. -/
def TokenKind.hugsPrevious : TokenKind → Bool
  | .leftParen | .rightParen | .comma | .dot => true
  | _ => false

def Lexeme.space : Lexeme := ⟨.whitespace, " "⟩

/-- What stands between two tokens of a canonical text. -/
def between (x y : Lexeme) : List Lexeme :=
  if x.kind.hugsNext = true ∨ y.kind.hugsPrevious = true then [] else [.space]

/-- The lexemes with the spaces between them and before them, when `x` stands before them. -/
def spacedBehind (x : Lexeme) : List Lexeme → List Lexeme
  | [] => []
  | y :: ys => between x y ++ y :: spacedBehind y ys

/-- The lexemes with the spaces between them. -/
def spaced : List Lexeme → List Lexeme
  | [] => []
  | w :: ws => w :: spacedBehind w ws

theorem mem_between {x y w : Lexeme} (h : w ∈ between x y) : w = .space := by
  unfold between at h
  split at h
  · simp at h
  · exact List.mem_singleton.mp h

theorem mem_spacedBehind {x w : Lexeme} {ws : List Lexeme} (h : w ∈ spacedBehind x ws) :
    w ∈ ws ∨ w = .space := by
  induction ws generalizing x with
  | nil => simp [spacedBehind] at h
  | cons y ys ih =>
    rw [spacedBehind] at h
    rcases List.mem_append.mp h with h | h
    · exact .inr (mem_between h)
    · rcases List.mem_cons.mp h with rfl | h
      · exact .inl List.mem_cons_self
      · exact (ih h).imp_left (List.mem_cons_of_mem y)

theorem mem_spaced {w : Lexeme} {ws : List Lexeme} (h : w ∈ spaced ws) : w ∈ ws ∨ w = .space := by
  cases ws with
  | nil => simp [spaced] at h
  | cons y ys =>
    rcases List.mem_cons.mp h with rfl | h
    · exact .inl List.mem_cons_self
    · exact (mem_spacedBehind h).imp_left (List.mem_cons_of_mem y)

theorem visible_between (x y : Lexeme) : (between x y).filter Lexeme.isVisible = [] := by
  unfold between
  split <;> rfl

/-- The spaces are all that is not visible. -/
theorem visible_spaced {ws : List Lexeme} (h : ∀ w ∈ ws, w.isVisible = true) :
    (spaced ws).filter Lexeme.isVisible = ws := by
  have hbehind (x : Lexeme) {vs : List Lexeme} (hv : ∀ w ∈ vs, w.isVisible = true) :
      (spacedBehind x vs).filter Lexeme.isVisible = vs := by
    induction vs generalizing x with
    | nil => rfl
    | cons y ys ih =>
      obtain ⟨hy, hys⟩ := List.forall_mem_cons.mp hv
      rw [spacedBehind, List.filter_append, visible_between, List.nil_append,
        List.filter_cons_of_pos hy, ih y hys]
  cases ws with
  | nil => rfl
  | cons w ws =>
    obtain ⟨hw, hws⟩ := List.forall_mem_cons.mp h
    rw [spaced, List.filter_cons_of_pos hw, hbehind w hws]

theorem spacedBehind_last (x y : Lexeme) (ws : List Lexeme) :
    ∃ us, spacedBehind x (ws ++ [y]) = us ++ [y] := by
  induction ws generalizing x with
  | nil => exact ⟨between x y, rfl⟩
  | cons w ws ih =>
    obtain ⟨us, hus⟩ := ih w
    refine ⟨between x w ++ w :: us, ?_⟩
    rw [List.cons_append, spacedBehind, hus]
    simp

theorem head?_spaced (ws : List Lexeme) : (spaced ws).head? = ws.head? := by
  cases ws <;> rfl

theorem getLast?_spaced (ws : List Lexeme) : (spaced ws).getLast? = ws.getLast? := by
  cases ws with
  | nil => rfl
  | cons w ws =>
    rcases List.eq_nil_or_concat ws with rfl | ⟨vs, y, rfl⟩
    · rfl
    · obtain ⟨us, hus⟩ := spacedBehind_last w y vs
      rw [List.concat_eq_append, spaced, hus, ← List.cons_append, ← List.cons_append]
      rw [List.getLast?_concat, List.getLast?_concat]

section
variable {tokens : List Token} {ws : List Lexeme} {t : Token}

theorem isHidden_of_visible (h : t.lexeme.isVisible = true) : t.kind.isHidden = false := by
  simpa [Lexeme.isVisible, Token.lexeme] using h

theorem mem_of_layout (h : tokens.map Token.lexeme = spaced ws ++ [.finish]) (ht : t ∈ tokens) :
    t.lexeme ∈ ws ∨ t.lexeme = .space ∨ t.lexeme = .finish := by
  have hmap := List.mem_map_of_mem (f := Token.lexeme) ht
  rw [h] at hmap
  rcases List.mem_append.mp hmap with hw | hw
  · exact (mem_spaced hw).imp_right .inl
  · exact .inr (.inr (List.mem_singleton.mp hw))

/-- No space stands first. -/
theorem first_of_layout (h : tokens.map Token.lexeme = spaced ws ++ [.finish])
    (hv : ∀ w ∈ ws, w.isVisible = true) (ht : tokens.head? = some t) :
    t.lexeme.isVisible = true := by
  have hhead := congrArg (Option.map Token.lexeme) ht
  rw [← List.head?_map, h, List.head?_append, head?_spaced] at hhead
  rcases Option.or_eq_some_iff.mp hhead with hhead | ⟨-, hhead⟩
  · exact hv _ (List.mem_of_mem_head? hhead)
  · have hfinish : Lexeme.finish = t.lexeme := Option.some.inj hhead
    rw [← hfinish]
    rfl

/-- No space stands right before the end of the input. -/
theorem last_of_layout (h : tokens.map Token.lexeme = spaced ws ++ [.finish])
    (hv : ∀ w ∈ ws, w.isVisible = true) {us : List Token} {e : Token}
    (hcut : tokens = us ++ [t, e]) : t.lexeme.isVisible = true := by
  have hmap := congrArg (List.map Token.lexeme) (hcut.trans (List.append_cons us t [e]))
  rw [h, List.map_append] at hmap
  obtain ⟨hinner, -⟩ := List.append_inj' hmap rfl
  have hlast := getLast?_spaced ws
  rw [hinner, List.map_append, List.map_singleton, List.getLast?_concat] at hlast
  exact hv _ (List.mem_of_getLast? hlast.symm)

end

/-! ## One layout for one text -/

/-- A lexeme that the meaning of a text depends on, and that begins with no blank. -/
def Solid (w : Lexeme) : Prop :=
  w.isVisible = true ∧ ∃ c cs, w.text.toList = c :: cs ∧ isBlank c = false

theorem Pieces.solid {ws : List Lexeme} {rest : List Char} (h : Pieces ws rest) {w : Lexeme}
    (hw : w ∈ ws) (hv : w.isVisible = true) : Solid w := by
  refine ⟨hv, ?_⟩
  obtain ⟨c, cs, hcut⟩ := List.exists_cons_of_ne_nil (h.text_ne_nil hw)
  refine ⟨c, cs, hcut, ?_⟩
  obtain ⟨us, vs, rfl⟩ := List.mem_iff_append.mp hw
  obtain ⟨-, hpiece, -⟩ := (Pieces.append_iff.mp h).2
  rw [← Bool.not_eq_true]
  intro hc
  rw [hcut, List.cons_append] at hpiece
  simp only [firstPiece, pieceAt, hc, if_true, Except.ok.injEq, Prod.mk.injEq] at hpiece
  rw [Lexeme.isVisible, ← hpiece.1] at hv
  contradiction

/-- Spaces among solid lexemes stand where the text has blanks. -/
theorem eq_of_chars {qs rs : List Lexeme} (hqs : ∀ q ∈ qs, Solid q ∨ q = .space)
    (hrs : ∀ r ∈ rs, Solid r ∨ r = .space) (hchars : chars qs = chars rs)
    (hvisible : qs.filter Lexeme.isVisible = rs.filter Lexeme.isVisible) : qs = rs := by
  have hstarts {w : Lexeme} (h : Solid w ∨ w = .space) : w.text.toList ≠ [] := by
    rcases h with ⟨-, c, cs, hcut, -⟩ | rfl
    · simp [hcut]
    · decide
  have hapart {v : Lexeme} {cs ds : List Char} (h : Solid v) :
      Lexeme.space.text.toList ++ cs ≠ v.text.toList ++ ds := by
    obtain ⟨-, c, es, hcut, hc⟩ := h
    intro heq
    rw [hcut] at heq
    have hblank : ' ' = c := (List.cons.inj heq).1
    rw [← hblank] at hc
    contradiction
  induction qs generalizing rs with
  | nil =>
    cases rs with
    | nil => rfl
    | cons r rs =>
      have hnil := (List.append_eq_nil_iff.mp hchars.symm).1
      exact absurd hnil (hstarts (hrs r List.mem_cons_self))
  | cons q qs ih =>
    obtain ⟨hq, hheads⟩ := List.forall_mem_cons.mp hqs
    cases rs with
    | nil =>
      have hnil := (List.append_eq_nil_iff.mp hchars).1
      exact absurd hnil (hstarts hq)
    | cons r rs =>
      obtain ⟨hr, htails⟩ := List.forall_mem_cons.mp hrs
      rw [chars_cons, chars_cons] at hchars
      have hsame (heq : q = r) (htail : qs.filter Lexeme.isVisible = rs.filter Lexeme.isVisible) :
          q :: qs = r :: rs := by
        subst heq
        rw [ih hheads htails (List.append_cancel_left hchars) htail]
      rcases hq with hq | rfl
      · rcases hr with hr | rfl
        · rw [List.filter_cons_of_pos hq.1, List.filter_cons_of_pos hr.1] at hvisible
          obtain ⟨heq, htail⟩ := List.cons.inj hvisible
          exact hsame heq htail
        · exact absurd hchars.symm (hapart hq)
      · rcases hr with hr | rfl
        · exact absurd hchars (hapart hr)
        · exact hsame rfl hvisible

/-! ## Items of a canonical text -/

/-- The kinds of the tokens of a canonical text that are neither words nor names. -/
def TokenKind.isMark : TokenKind → Bool
  | .minus | .leftParen | .rightParen | .comma | .dot | .arrow | .string | .number _ => true
  | _ => false

theorem TokenKind.class_of_isMark {kind : TokenKind} (h : kind.isMark = true) :
    kind.isHidden = false ∧ kind.isKeyword = false ∧ kind ≠ .semicolon ∧ kind ≠ .unrecognized := by
  cases kind <;> simp_all [isMark, isHidden, isKeyword]

/-- What a token of a canonical text is there for: a word of the grammar, a name of the statement,
or a mark or a value. -/
inductive TextItem where
  | keyword (k : Keyword)
  | identifier (i : Identifier)
  | mark (w : Lexeme) (h : w.kind.isMark = true)

namespace TextItem

def lexeme : TextItem → Lexeme
  | keyword k => k.lexeme
  | identifier i => nameLexeme i.value
  | mark w _ => w

def identifier? : TextItem → Option Identifier
  | identifier i => some i
  | _ => none

@[simp] theorem identifiers_cons (i : Identifier) (xs : List TextItem) :
    (identifier i :: xs).filterMap identifier? = i :: xs.filterMap identifier? :=
  List.filterMap_cons_some (f := identifier?) (a := identifier i) rfl

/-- An item is seen, and it is no semicolon and no unknown character. -/
theorem class_lexeme (x : TextItem) : x.lexeme.isVisible = true ∧
    x.lexeme.kind ≠ .semicolon ∧ x.lexeme.kind ≠ .unrecognized := by
  unfold Lexeme.isVisible
  cases x with
  | keyword k => exact ⟨rfl, by simp [lexeme, Keyword.lexeme]⟩
  | identifier i =>
    have hcan := canBeIdentifier_nameLexeme i.value
    show (!(nameLexeme i.value).kind.isHidden) = true ∧ (nameLexeme i.value).kind ≠ .semicolon ∧
      (nameLexeme i.value).kind ≠ .unrecognized
    cases hkind : (nameLexeme i.value).kind <;>
      simp_all [TokenKind.canBeIdentifier, TokenKind.isNonReserved, TokenKind.isHidden]
  | mark w h =>
    obtain ⟨hvisible, -, hknown⟩ := TokenKind.class_of_isMark h
    exact ⟨by simp [lexeme, hvisible], hknown⟩

/-- A keyword that is no name of the statement is in upper case. -/
theorem upper_lexeme {x : TextItem} (hx : x.identifier? = none)
    (hk : x.lexeme.kind.isKeyword = true) : ∀ c ∈ x.lexeme.text.toList, c.isUpper = true := by
  cases x with
  | keyword k =>
    have hall : k.text.toList.all Char.isUpper = true := by cases k <;> decide
    exact List.all_eq_true.mp hall
  | identifier i => simp [identifier?] at hx
  | mark w h => exact absurd hk (by simp [lexeme, (TokenKind.class_of_isMark h).2.1])

end TextItem

/-! ## Words of a line and their spaces -/

/-- The text of a word of a line is that of its lexemes with their spaces, behind any lexeme and in
front of any others. -/
def Fills (cs : List Char) (us : List Lexeme) : Prop :=
  ∃ y : Lexeme, y.kind.hugsNext = false ∧ ∀ (x : Lexeme) (vs : List Lexeme),
    chars (spacedBehind x (us ++ vs)) =
      (if x.kind.hugsNext then [] else [' ']) ++ (cs ++ chars (spacedBehind y vs))

/-- A space stands before a lexeme that does not cling to what is before it. -/
theorem chars_between {x y : Lexeme} (hy : y.kind.hugsPrevious = false) :
    chars (between x y) = if x.kind.hugsNext then [] else [' '] := by
  unfold between
  cases hx : x.kind.hugsNext with
  | true => rfl
  | false => simp [hy, Lexeme.space]

theorem fills_single {w : Lexeme} (hprevious : w.kind.hugsPrevious = false)
    (hnext : w.kind.hugsNext = false) : Fills w.text.toList [w] := by
  refine ⟨w, hnext, fun x vs => ?_⟩
  rw [List.singleton_append, spacedBehind, chars_append, chars_cons, chars_between hprevious]

/-- A lexeme that hugs the next one joins the word behind it. -/
theorem Fills.behind {w u : Lexeme} {cs : List Char} {us : List Lexeme}
    (hprevious : w.kind.hugsPrevious = false) (hnext : w.kind.hugsNext = true)
    (h : Fills cs (u :: us)) : Fills (w.text.toList ++ cs) (w :: u :: us) := by
  obtain ⟨y, hy, hchars⟩ := h
  refine ⟨y, hy, fun x vs => ?_⟩
  rw [List.cons_append, spacedBehind, chars_append, chars_cons, chars_between hprevious, hchars,
    if_pos hnext]
  simp

/-- A name before a point joins the names behind the point. -/
theorem Fills.dotted {w u : Lexeme} {cs : List Char} {us : List Lexeme}
    (hprevious : w.kind.hugsPrevious = false) (h : Fills cs (u :: us)) :
    Fills (w.text.toList ++ '.' :: cs) (w :: ⟨.dot, "."⟩ :: u :: us) := by
  obtain ⟨y, hy, hchars⟩ := h
  refine ⟨y, hy, fun x vs => ?_⟩
  have hdot : between w ⟨.dot, "."⟩ = [] := if_pos (.inr rfl)
  rw [List.cons_append, spacedBehind, chars_append, chars_cons, chars_between hprevious,
    List.cons_append, spacedBehind, hdot, List.nil_append, chars_cons, hchars]
  simp [TokenKind.hugsNext]

/-- One more lexeme stands behind a space. -/
theorem Fills.then {w : Lexeme} {cs : List Char} {us : List Lexeme} (h : Fills cs us)
    (hprevious : w.kind.hugsPrevious = false) (hnext : w.kind.hugsNext = false) :
    Fills (cs ++ ' ' :: w.text.toList) (us ++ [w]) := by
  obtain ⟨y, hy, hchars⟩ := h
  refine ⟨w, hnext, fun x vs => ?_⟩
  rw [List.append_assoc, hchars, List.singleton_append, spacedBehind, chars_append, chars_cons,
    chars_between hprevious, hy]
  simp

theorem hugs_of_canBeIdentifier {kind : TokenKind} (h : kind.canBeIdentifier = true) :
    kind.hugsPrevious = false ∧ kind.hugsNext = false := by
  cases kind <;> simp_all [TokenKind.canBeIdentifier, TokenKind.isNonReserved,
    TokenKind.hugsPrevious, TokenKind.hugsNext]

theorem fills_identifier (i : Identifier) : Fills i.format.toList [nameLexeme i.value] := by
  obtain ⟨hprevious, hnext⟩ := hugs_of_canBeIdentifier (canBeIdentifier_nameLexeme i.value)
  exact fills_single (w := nameLexeme i.value) hprevious hnext

theorem fills_dotted (i : Identifier) (is : List Identifier) :
    Fills (i.format.toList ++ dotted is) (nameLexeme i.value :: dottedLexemes is) := by
  induction is generalizing i with
  | nil =>
    have hname := fills_identifier i
    rwa [← List.append_nil i.format.toList] at hname
  | cons j js ih =>
    have hprevious := (hugs_of_canBeIdentifier (canBeIdentifier_nameLexeme i.value)).1
    exact Fills.dotted (w := nameLexeme i.value) hprevious (ih j)

theorem fills_name {n : Name} (h : n.parts ≠ []) : Fills n.format.toList n.lexemes := by
  obtain ⟨parts, span⟩ := n
  obtain ⟨i, is, rfl⟩ := List.exists_cons_of_ne_nil h
  rw [toList_format_name]
  exact fills_dotted i is

theorem fills_number (n : Number) : Fills n.format.toList n.lexemes := by
  have hpositive : Fills n.text.toList [⟨.number n.kind, n.text⟩] :=
    fills_single (w := ⟨.number n.kind, n.text⟩) rfl rfl
  unfold Number.format Number.lexemes
  cases n.negative with
  | false => exact hpositive
  | true =>
    have hnegative := hpositive.behind (w := ⟨.minus, "-"⟩) rfl rfl
    rwa [← String.toList_append] at hnegative

/-! ## The items of a line -/

/-- Pieces of a line with the items that their tokens are there for. -/
inductive Arranged : List Piece → List TextItem → Prop
  | nil : Arranged [] []
  | word {text : String} {ps : List Piece} {xs ys : List TextItem}
      (hread : ReadAs text.toList (xs.map TextItem.lexeme))
      (hfills : Fills text.toList (xs.map TextItem.lexeme)) (hs : Arranged ps ys) :
      Arranged (.word text :: ps) (xs ++ ys)
  | closing {ps : List Piece} {ys : List TextItem} (hs : Arranged ps ys) :
      Arranged (.attached ")" :: ps) (.mark ⟨.rightParen, ")"⟩ rfl :: ys)
  | opening {ps : List Piece} {ys : List TextItem} (hs : Arranged ps ys) :
      Arranged (.opening "(" :: ps) (.mark ⟨.leftParen, "("⟩ rfl :: ys)
  | comma {ps : List Piece} {ys : List TextItem} (hs : Arranged ps ys) :
      Arranged (.comma :: ps) (.mark ⟨.comma, ","⟩ rfl :: ys)

theorem Arranged.append {ps qs : List Piece} {xs ys : List TextItem} (h : Arranged ps xs)
    (h' : Arranged qs ys) : Arranged (ps ++ qs) (xs ++ ys) := by
  induction h with
  | nil => exact h'
  | word hread hfills _ ih =>
    rw [List.append_assoc]
    exact .word hread hfills ih
  | closing _ ih => exact .closing ih
  | opening _ ih => exact .opening ih
  | comma _ ih => exact .comma ih

theorem Arranged.written {ps : List Piece} {xs : List TextItem} (h : Arranged ps xs) :
    Written ps (xs.map TextItem.lexeme) := by
  induction h with
  | nil => exact .nil
  | word hread _ _ ih =>
    rw [List.map_append]
    exact .word hread ih
  | closing _ ih => exact .closing ih
  | opening _ ih => exact .opening ih
  | comma _ ih => exact .comma ih

/-- A mark that clings to what is before it says its own text, in the printer's line and among the
tokens. -/
theorem chars_clinging {p : Piece} {ps : List Piece} {y : Lexeme} {ws : List Lexeme}
    (hy : y.kind.hugsPrevious = true)
    (hpiece : ∀ glued, Piece.chars glued (p :: ps) =
      y.text.toList ++ Piece.chars y.kind.hugsNext ps)
    (ih : Piece.chars y.kind.hugsNext ps = chars (spacedBehind y ws)) (x : Lexeme) :
    Piece.chars x.kind.hugsNext (p :: ps) = chars (spacedBehind x (y :: ws)) := by
  have hbetween : between x y = [] := if_pos (.inr hy)
  rw [hpiece, ih, spacedBehind, hbetween, List.nil_append, chars_cons]

/-- What the pieces say behind a token is what their tokens say with their spaces. The printer
knows of that token only whether it clings to the next one. -/
theorem Arranged.chars {ps : List Piece} {xs : List TextItem} (h : Arranged ps xs) (x : Lexeme) :
    Piece.chars x.kind.hugsNext ps =
      TagDialect.chars (spacedBehind x (xs.map TextItem.lexeme)) := by
  induction h generalizing x with
  | nil => rfl
  | word _ hfills _ ih =>
    obtain ⟨y, hy, hchars⟩ := hfills
    rw [Piece.chars_word, List.map_append, hchars, ← ih y, hy]
  | closing _ ih => exact chars_clinging rfl (fun _ => rfl) (ih ⟨.rightParen, ")"⟩) x
  | opening _ ih => exact chars_clinging rfl (fun _ => rfl) (ih ⟨.leftParen, "("⟩) x
  | comma _ ih => exact chars_clinging rfl (fun _ => rfl) (ih ⟨.comma, ","⟩) x

/-! ## The names of a statement -/

def Constant.identifiers : Constant → List Identifier
  | .typed type _ _ => [type]
  | _ => []

def Expression.identifiers : Expression → List Identifier
  | .constant c => c.identifiers
  | .map entries _ => entries.flatMap Constant.identifiers

def Argument.identifiers (a : Argument) : List Identifier := a.name.toList ++ a.value.identifiers

def Action.identifiers : Action → List Identifier
  | .call arguments => arguments.flatMap Argument.identifiers
  | .showTags => []
  | .putTag clause => [clause.name]
  | .deleteTag _ tag => [tag]
  | .renameTag old new => [old, new]

/-- The identifiers of a statement, in the order of the text. -/
def Statement.identifiers (s : Statement) : List Identifier :=
  s.target.parts ++ s.action.identifiers

/-- The pieces of a line have items, and the identifiers among these are the given ones. -/
def Arranges (ps : List Piece) (is : List Identifier) : Prop :=
  ∃ xs, Arranged ps xs ∧ xs.filterMap TextItem.identifier? = is

theorem Arranges.nil : Arranges [] [] := ⟨[], .nil, rfl⟩

theorem Arranges.append {ps qs : List Piece} {is js : List Identifier} (h : Arranges ps is)
    (h' : Arranges qs js) : Arranges (ps ++ qs) (is ++ js) := by
  obtain ⟨xs, hxs, rfl⟩ := h
  obtain ⟨ys, hys, rfl⟩ := h'
  exact ⟨xs ++ ys, hxs.append hys, List.filterMap_append⟩

/-- A word of its own. -/
theorem arranges_word {text : String} (xs : List TextItem)
    (hread : ReadAs text.toList (xs.map TextItem.lexeme))
    (hfills : Fills text.toList (xs.map TextItem.lexeme)) :
    Arranges [.word text] (xs.filterMap TextItem.identifier?) := by
  refine ⟨xs ++ [], .word hread hfills .nil, ?_⟩
  rw [List.append_nil]

theorem arranges_keyword (k : Keyword) : Arranges [.word k.text] [] :=
  arranges_word [.keyword k] (readAs_keyword k) (fills_single (w := k.lexeme) rfl rfl)

theorem arranges_keywords (ks : List Keyword) : Arranges (keywords ks) [] := by
  induction ks with
  | nil => exact .nil
  | cons k ks ih => exact (arranges_keyword k).append ih

theorem arranges_optional (b : Bool) (ks : List Keyword) :
    Arranges (if b then keywords ks else []) [] := by
  cases b with
  | true => exact arranges_keywords ks
  | false => exact .nil

theorem arranges_identifier (i : Identifier) : Arranges [.word i.format] [i] :=
  arranges_word [.identifier i] (readAs_nameLexeme i.value).readAs (fills_identifier i)

/-- The items of a dotted name. -/
def dottedItems (is : List Identifier) : List TextItem :=
  is.flatMap fun i => [.mark ⟨.dot, "."⟩ rfl, .identifier i]

theorem lexemes_dottedItems (is : List Identifier) :
    (dottedItems is).map TextItem.lexeme = dottedLexemes is := by
  induction is with
  | nil => rfl
  | cons i is ih =>
    have hcons : dottedItems (i :: is) =
      .mark ⟨.dot, "."⟩ rfl :: .identifier i :: dottedItems is := rfl
    rw [hcons, List.map_cons, List.map_cons, ih]
    rfl

theorem identifiers_dottedItems (is : List Identifier) :
    (dottedItems is).filterMap TextItem.identifier? = is := by
  induction is with
  | nil => rfl
  | cons i is ih =>
    have hcons : dottedItems (i :: is) =
      .mark ⟨.dot, "."⟩ rfl :: .identifier i :: dottedItems is := rfl
    rw [hcons, List.filterMap_cons_none rfl, TextItem.identifiers_cons, ih]

theorem arranges_name {n : Name} (h : n.parts ≠ []) : Arranges [.word n.format] n.parts := by
  have hread := (readAs_name_lexemes h).readAs
  have hfills := fills_name h
  obtain ⟨parts, span⟩ := n
  obtain ⟨i, is, rfl⟩ := List.exists_cons_of_ne_nil h
  have hlexemes : (TextItem.identifier i :: dottedItems is).map TextItem.lexeme =
      Name.lexemes ⟨i :: is, span⟩ := by
    rw [List.map_cons, lexemes_dottedItems]
    rfl
  rw [← hlexemes] at hread hfills
  have hword := arranges_word _ hread hfills
  rwa [TextItem.identifiers_cons, identifiers_dottedItems] at hword

theorem arranges_number {n : Number} (h : n.WellFormed) : Arranges [.word n.format] [] := by
  have hread := readAs_number_lexemes h
  have hfills := fills_number n
  obtain ⟨kind, text, negative, span⟩ := n
  cases negative with
  | false => exact arranges_word [.mark ⟨.number kind, text⟩ rfl] hread hfills
  | true =>
    exact arranges_word [.mark ⟨.minus, "-"⟩ rfl, .mark ⟨.number kind, text⟩ rfl] hread
      hfills

theorem arranges_constant {c : Constant} (h : c.WellFormed) :
    Arranges [.word c.format] c.identifiers := by
  cases c with
  | number n => exact arranges_number h
  | boolean value span =>
    cases value with
    | true => exact arranges_keyword .true
    | false => exact arranges_keyword .false
  | string value span =>
    exact arranges_word [.mark ⟨.string, quoteString value⟩ rfl] (readAs_string value)
      (fills_single (w := ⟨.string, quoteString value⟩) rfl rfl)
  | typed type value span =>
    have htext : (Constant.format (.typed type value span)).toList =
        type.format.toList ++ ' ' :: (quoteString value).toList := by
      simp [Constant.format]
    have hread := readAs_typed value (readAs_nameLexeme type.value)
    have hfills := (fills_identifier type).then (w := ⟨.string, quoteString value⟩) rfl rfl
    refine arranges_word [.identifier type, .mark ⟨.string, quoteString value⟩ rfl] ?_ ?_
    · rw [htext]
      exact hread
    · rw [htext]
      exact hfills

/-! ## Lists and statements -/

section
variable {α : Type} {item : α → List Piece} {names : α → List Identifier}

theorem arranges_comma : Arranges [.comma] [] := ⟨_, .comma .nil, rfl⟩

theorem arranges_items {as : List α} (h : ∀ a ∈ as, Arranges (item a) (names a)) :
    Arranges ([Piece.comma].intercalate (as.map item)) (as.flatMap names) := by
  induction as with
  | nil => exact .nil
  | cons a as ih =>
    obtain ⟨ha, has⟩ := List.forall_mem_cons.mp h
    cases as with
    | nil => simpa using ha
    | cons b bs =>
      have hall := (ha.append arranges_comma).append (ih has)
      rw [List.map_cons, List.map_cons, List.intercalate_cons_cons, List.flatMap_cons]
      simpa using hall

theorem arranges_list {as : List α} (h : ∀ a ∈ as, Arranges (item a) (names a)) :
    Arranges (listPieces item as) (as.flatMap names) := by
  have hopening : Arranges [.opening "("] [] := ⟨_, .opening .nil, rfl⟩
  have hclosing : Arranges [.attached ")"] [] := ⟨_, .closing .nil, rfl⟩
  have hlist := (hopening.append (arranges_items h)).append hclosing
  rwa [List.nil_append, List.append_nil] at hlist

end

theorem arranges_expression {e : Expression} (h : e.WellFormed) :
    Arranges e.pieces e.identifiers := by
  cases e with
  | constant c => exact arranges_constant h
  | map entries span =>
    exact (arranges_keywords [.map]).append (arranges_list fun c hc => arranges_constant (h.2 c hc))

theorem arranges_argument {a : Argument} (h : a.value.WellFormed) :
    Arranges a.pieces a.identifiers := by
  obtain ⟨name, value⟩ := a
  have hvalue := arranges_expression h
  cases name with
  | none => exact hvalue
  | some i =>
    have harrow : Arranges [.word "=>"] [] :=
      arranges_word [.mark ⟨.arrow, "=>"⟩ rfl] readAs_arrow
        (fills_single (w := ⟨.arrow, "=>"⟩) rfl rfl)
    exact ((arranges_identifier i).append harrow).append hvalue

theorem arranges_options {o : TagOptions} (h : o.WellFormed) : Arranges o.pieces [] := by
  obtain ⟨version, retain⟩ := o
  have hversion : Arranges (TagOptions.pieces ⟨version, none⟩) [] := by
    cases version with
    | none => exact .nil
    | some n =>
      have hnumber := arranges_number (h.version n rfl)
      exact ((arranges_keywords [.as, .of, .version]).append hnumber).append .nil
  cases retain with
  | none => exact hversion
  | some r =>
    have hamount := arranges_number (h.retain r rfl)
    have hretain := ((arranges_keywords [.retain]).append hamount).append
      (arranges_keywords [r.unit.keyword])
    have hboth := hversion.append hretain
    rwa [TagOptions.pieces, List.append_nil] at hboth

theorem arranges_clause {c : TagClause} (h : c.options.WellFormed) :
    Arranges c.pieces [c.name] := by
  have hoptions := arranges_options h
  cases c with
  | create ifNotExists name options =>
    exact (((arranges_keywords [.create, .tag]).append
      (arranges_optional ifNotExists [.if, .not, .exists])).append
      (arranges_identifier name)).append hoptions
  | replace createIfMissing name options =>
    exact (((arranges_optional createIfMissing [.create, .or]).append
      (arranges_keywords [.replace, .tag])).append (arranges_identifier name)).append hoptions

theorem arranges_action {a : Action} (h : a.WellFormed) : Arranges a.pieces a.identifiers := by
  cases a with
  | call arguments => exact arranges_list fun a ha => arranges_argument (h a ha)
  | showTags => exact .nil
  | putTag clause => exact arranges_clause h
  | deleteTag ifExists tag =>
    exact ((arranges_keywords [.delete, .tag]).append
      (arranges_optional ifExists [.if, .exists])).append (arranges_identifier tag)
  | renameTag old new =>
    exact (((arranges_keywords [.rename, .tag]).append (arranges_identifier old)).append
      (arranges_keywords [.to])).append (arranges_identifier new)

theorem arranges_statement {s : Statement} (h : s.WellFormed) :
    Arranges s.pieces s.identifiers :=
  ((arranges_keywords s.action.opening).append (arranges_name h.target)).append
    (arranges_action h.action)

/-! ## The law -/

/-- A text of arranged pieces is cut into the lexemes of its items and the spaces between these. -/
theorem Arranged.pieces {ps : List Piece} {xs : List TextItem} (h : Arranged ps xs) :
    Pieces (spaced (xs.map TextItem.lexeme)) [] ∧
      TagDialect.chars (spaced (xs.map TextItem.lexeme)) = Piece.chars true ps := by
  have hvisible : ∀ w ∈ xs.map TextItem.lexeme, w.isVisible = true := by
    intro w hw
    obtain ⟨x, -, rfl⟩ := List.mem_map.mp hw
    exact x.class_lexeme.1
  -- an opening mark before the line makes no difference to it
  have hchars : TagDialect.chars (spaced (xs.map TextItem.lexeme)) = Piece.chars true ps := by
    have hline := h.chars ⟨.leftParen, "("⟩
    cases hws : xs.map TextItem.lexeme with
    | nil =>
      rw [hws] at hline
      exact hline.symm
    | cons w ws =>
      have hbetween : between ⟨.leftParen, "("⟩ w = [] := if_pos (.inl rfl)
      rw [hws, spacedBehind, hbetween] at hline
      exact hline.symm
  obtain ⟨qs, hqs, hcut, hfilter, hall⟩ := (h.written.lexes true).pieces
  have hsame := List.append_cancel_right hfilter
  have hsolid : ∀ w ∈ xs.map TextItem.lexeme, Solid w := by
    intro w hw
    have hv := hvisible w hw
    rw [hsame] at hw
    exact hqs.solid (List.mem_of_mem_filter hw) hv
  have heq : qs = spaced (xs.map TextItem.lexeme) := by
    apply eq_of_chars
    · exact fun q hq => (hall q hq).imp_left fun hv => hqs.solid hq hv
    · exact fun r hr => (mem_spaced hr).imp_left (hsolid r)
    · rw [hcut, hchars]
    · rw [visible_spaced hvisible, hsame]
  exact ⟨heq ▸ hqs, hchars⟩

/-- The layout of a canonical text, in all of its tokens and what they are there for. -/
structure LaidOut (s : Statement) (items : List TextItem) (tokens : List Token) : Prop where
  found : tokenizeAll s.format = .ok tokens
  /-- The items come in order, with a space between each two that do not cling to each other. -/
  layout : tokens.map Token.lexeme = spaced (items.map TextItem.lexeme) ++ [.finish]
  visible : (tokens.map Token.lexeme).filter Lexeme.isVisible =
    items.map TextItem.lexeme ++ [.finish]
  hidden : ∀ t ∈ tokens, t.kind.isHidden = true → t.lexeme = .space
  first : ∀ t, tokens.head? = some t → t.kind.isHidden = false
  last : ∀ us t e, tokens = us ++ [t, e] → t.kind.isHidden = false
  known : ∀ t ∈ tokens, t.kind ≠ .semicolon ∧ t.kind ≠ .lineComment ∧ t.kind ≠ .blockComment ∧
    t.kind ≠ .unrecognized
  names : items.filterMap TextItem.identifier? = s.identifiers
  /-- A keyword that is no name of the statement is in upper case. -/
  upper : ∀ x ∈ items, x.identifier? = none → x.lexeme.kind.isKeyword = true →
    ∀ c ∈ x.lexeme.text.toList, c.isUpper = true

theorem Arranged.laidOut {s : Statement} {xs : List TextItem} (h : Arranged s.pieces xs)
    (hnames : xs.filterMap TextItem.identifier? = s.identifiers) :
    LaidOut s xs (placed .first (spaced (xs.map TextItem.lexeme) ++ [.finish])) := by
  obtain ⟨hpieces, hchars⟩ := h.pieces
  have hlayout := lexemes_placed .first (spaced (xs.map TextItem.lexeme) ++ [.finish])
  have hclass : ∀ w ∈ xs.map TextItem.lexeme,
      w.isVisible = true ∧ w.kind ≠ .semicolon ∧ w.kind ≠ .unrecognized := by
    intro w hw
    obtain ⟨x, -, rfl⟩ := List.mem_map.mp hw
    exact x.class_lexeme
  have hvisible : ∀ w ∈ xs.map TextItem.lexeme, w.isVisible = true := fun w hw => (hclass w hw).1
  refine ⟨?_, hlayout, ?_, ?_, ?_, ?_, ?_, hnames, fun x _ => x.upper_lexeme⟩
  · exact tokenizeAll_eq_ok.mpr ⟨_, hpieces, hchars.trans (Piece.toList_line s.pieces).symm, rfl⟩
  · rw [hlayout, List.filter_append, visible_spaced hvisible]
    rfl
  · intro t ht hhidden
    rcases mem_of_layout hlayout ht with hw | hw | hw
    · exact absurd hhidden (by simp [isHidden_of_visible (hvisible _ hw)])
    · exact hw
    · rw [show t.kind = .endOfInput from congrArg Lexeme.kind hw] at hhidden
      contradiction
  · exact fun t ht => isHidden_of_visible (first_of_layout hlayout hvisible ht)
  · exact fun us t e hcut => isHidden_of_visible (last_of_layout hlayout hvisible hcut)
  · intro t ht
    rcases mem_of_layout hlayout ht with hw | hw | hw
    · obtain ⟨hv, hsemicolon, hunknown⟩ := hclass _ hw
      have hhidden := isHidden_of_visible hv
      refine ⟨hsemicolon, ?_, ?_, hunknown⟩
      · intro hk
        simp [hk, TokenKind.isHidden] at hhidden
      · intro hk
        simp [hk, TokenKind.isHidden] at hhidden
    · rw [show t.kind = .whitespace from congrArg Lexeme.kind hw]
      decide
    · rw [show t.kind = .endOfInput from congrArg Lexeme.kind hw]
      decide

/-- The canonical text of a well-formed statement has one space between each two tokens that do not
cling to each other, and hides nothing else. It has no comments, no semicolons and nothing unknown,
and keywords that are not the statement's own names are in upper case. So the layout is a function
of the tokens that the meaning depends on. -/
theorem canonical_texts_are_spaced_by_their_tokens {s : Statement} (h : s.WellFormed) :
    ∃ items tokens, LaidOut s items tokens := by
  obtain ⟨items, harranged, hnames⟩ := arranges_statement h
  exact ⟨items, _, harranged.laidOut hnames⟩

/-- A dotted target, a parameter that is a keyword in lower case, a typed string and a sign. -/
theorem a_call_with_a_map_is_laid_out :
    let cat : Identifier := ⟨"cat", false, .origin⟩
    let tag : Identifier := ⟨"tag", false, .origin⟩
    let day : Identifier := ⟨"day", false, .origin⟩
    let entries := [.typed day "2 -- 3" .origin, .number ⟨.integer, "5", true, .origin⟩]
    let s : Statement := ⟨⟨[cat, tag], .origin⟩, .call [⟨some tag, .map entries .origin⟩], .origin⟩
    s.WellFormed ∧ s.format = "CALL cat.tag(tag => MAP(day '2 -- 3', -5))" ∧
      ∃ items tokens, LaidOut s items tokens ∧
        items.filterMap TextItem.identifier? = [cat, tag, tag, day] := by
  intro cat tag day entries s
  have hnumber : IsNumeral .integer "5" := by
    refine ⟨⟨.number .integer, "5", ⟨0, 1, 1, 1⟩⟩, ⟨.endOfInput, "", ⟨1, 1, 1, 2⟩⟩, ?_, rfl, rfl⟩
    unfold tokenize
    refine Lexer.collect_of_kept rfl (by simp) rfl ?_
    exact Lexer.collect_of_end rfl rfl
  have hentries : ∀ c ∈ entries, c.WellFormed :=
    List.forall_mem_cons.mpr ⟨trivial, List.forall_mem_singleton.mpr hnumber⟩
  have hwell : s.WellFormed :=
    ⟨List.cons_ne_nil _ _, List.forall_mem_singleton.mpr ⟨List.cons_ne_nil _ _, hentries⟩⟩
  obtain ⟨items, tokens, hlaid⟩ := canonical_texts_are_spaced_by_their_tokens hwell
  exact ⟨hwell, by decide, items, tokens, hlaid, hlaid.names⟩

end TagDialect
