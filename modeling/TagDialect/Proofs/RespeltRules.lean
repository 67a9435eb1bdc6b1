-- The parser on words spelled anew. No rule looks into the text of a word, so
-- tokens whose words have other texts are read as the same statement with other
-- names, at the same spans.
import TagDialect.Parser
import TagDialect.Proofs.CursorMoves

namespace TagDialect

/-! ## Words spelled anew -/

/-- Whether tokens of the kind are words. -/
def TokenKind.isWord : TokenKind → Bool
  | .keyword _ | .identifier => true
  | _ => false

section
variable (r : Span → String → String)

/-- The token with a word's new text, which depends on its span and on its old text. -/
def Token.respell (t : Token) : Token :=
  if t.kind.isWord then { t with text := r t.span t.text } else t

/-- The identifier in the new spelling of its word. A word in ticks stays as it is. -/
def Identifier.respell (i : Identifier) : Identifier :=
  if i.quoted then i else { i with value := r i.span i.value }

def Name.respell (n : Name) : Name := { n with parts := n.parts.map (Identifier.respell r) }

def Constant.respell : Constant → Constant
  | .typed type value span => .typed (type.respell r) value span
  | c => c

def Expression.respell : Expression → Expression
  | .constant c => .constant (c.respell r)
  | .map entries span => .map (entries.map (Constant.respell r)) span

def Argument.respell (a : Argument) : Argument :=
  ⟨a.name.map (Identifier.respell r), a.value.respell r⟩

def TagClause.respell : TagClause → TagClause
  | .create ifNotExists name options => .create ifNotExists (name.respell r) options
  | .replace createIfMissing name options => .replace createIfMissing (name.respell r) options

def Action.respell : Action → Action
  | .call arguments => .call (arguments.map (Argument.respell r))
  | .showTags => .showTags
  | .putTag clause => .putTag (clause.respell r)
  | .deleteTag ifExists tag => .deleteTag ifExists (tag.respell r)
  | .renameTag old new => .renameTag (old.respell r) (new.respell r)

def Statement.respell (s : Statement) : Statement :=
  { s with target := s.target.respell r, action := s.action.respell r }

def Cursor.respell (c : Cursor) : Cursor :=
  ⟨c.behind.map (Token.respell r), c.ahead.map (Token.respell r)⟩

end

section
variable {r : Span → String → String}

namespace Token

@[simp] theorem kind_respell (t : Token) : (t.respell r).kind = t.kind := by
  unfold respell
  split <;> rfl

@[simp] theorem span_respell (t : Token) : (t.respell r).span = t.span := by
  unfold respell
  split <;> rfl

theorem respell_of_not_word {t : Token} (h : t.kind.isWord = false) : t.respell r = t := by
  simp [respell, h]

theorem text_respell_of_word {t : Token} (h : t.kind.isWord = true) :
    (t.respell r).text = r t.span t.text := by
  simp [respell, h]

end Token

/-! ## Cursors -/

namespace Cursor

@[simp] theorem peek_respell (c : Cursor) (n : Nat) :
    (c.respell r).peek n = (c.peek n).respell r := by
  have hnothing : nothing.respell r = nothing := Token.respell_of_not_word rfl
  simp only [peek, respell, List.getElem?_map]
  cases c.ahead[n]? with
  | some t => rfl
  | none =>
    simp only [Option.map_none, List.getLast?_map, List.head?_map, ← Option.map_or]
    cases c.ahead.getLast?.or c.behind.head? with
    | some t => rfl
    | none => exact hnothing.symm

@[simp] theorem current_respell (c : Cursor) : (c.respell r).current = c.current.respell r :=
  c.peek_respell 0

@[simp] theorem peekKind_respell (c : Cursor) (n : Nat) :
    (c.respell r).peekKind n = c.peekKind n := by
  simp [peekKind]

@[simp] theorem kind_respell (c : Cursor) : (c.respell r).kind = c.kind := by simp [kind]

theorem advance_respell (c : Cursor) : (c.respell r).advance = c.advance.respell r := by
  obtain ⟨behind, ahead⟩ := c
  cases ahead <;> rfl

theorem passOver_respell (kind : TokenKind) (behind ahead : List Token) :
    passOver kind (behind.map (Token.respell r)) (ahead.map (Token.respell r)) =
      (passOver kind behind ahead).respell r := by
  induction ahead generalizing behind with
  | nil => rfl
  | cons t ts ih =>
    simp only [List.map_cons, passOver, Token.kind_respell]
    split
    · exact ih (t :: behind)
    · rfl

theorem advanceOver_respell (kind : TokenKind) (c : Cursor) :
    (c.respell r).advanceOver kind = (c.advanceOver kind).respell r :=
  passOver_respell kind c.behind c.ahead

theorem previousSpan_respell (c : Cursor) : (c.respell r).previousSpan = c.previousSpan := by
  obtain ⟨behind, ahead⟩ := c
  cases behind with
  | nil =>
    have hcurrent := current_respell (r := r) ⟨[], ahead⟩
    exact (congrArg Token.span hcurrent).trans (Token.span_respell _)
  | cons t ts => exact Token.span_respell t

@[simp] theorem spanFrom_respell (c : Cursor) (start : Span) :
    (c.respell r).spanFrom start = c.spanFrom start := by
  simp only [spanFrom, previousSpan_respell]

end Cursor

/-! ## Rules -/

namespace Parse

variable {α β γ δ : Type}

/-- Where the first rule reads a value, the second one reads its image, over tokens spelled
anew. -/
structure Follows (r : Span → String → String) (f : α → β) (rule : Parse α) (rule' : Parse β) :
    Prop where
  run {c d : Cursor} {a : α} (h : rule c = .ok a d) :
    rule' (c.respell r) = .ok (f a) (d.respell r)

namespace Follows

variable {f : α → β} {g : γ → δ}

theorem pure {a : α} {b : β} (h : f a = b) : Follows r f (Pure.pure a) (Pure.pure b) := by
  constructor
  intro c d a' ha
  obtain ⟨rfl, rfl⟩ := pure_eq_ok.mp ha
  rw [h]
  rfl

theorem fail {x : Expectation} {rule' : Parse β} : Follows r f (Parse.fail x) rule' :=
  ⟨fun h => absurd h fail_ne_ok⟩

theorem bind {x : Parse γ} {x' : Parse δ} {k : γ → Parse α} {k' : δ → Parse β}
    (hx : Follows r g x x') (hk : ∀ a, Follows r f (k a) (k' (g a))) :
    Follows r f (x >>= k) (x' >>= k') := by
  constructor
  intro c d b hb
  obtain ⟨a, e, ha, hb⟩ := bind_eq_ok.mp hb
  exact bind_of_ok (hx.run ha) ((hk a).run hb)

theorem look {k : Cursor → Parse α} {k' : Cursor → Parse β}
    (hk : ∀ c : Cursor, Follows r f (k c) (k' (c.respell r))) :
    Follows r f (Parse.look >>= k) (Parse.look >>= k') :=
  ⟨fun h => (hk _).run h⟩

theorem ite {p : Prop} [Decidable p] {x y : Parse α} {x' y' : Parse β}
    (hx : p → Follows r f x x') (hy : ¬ p → Follows r f y y') :
    Follows r f (if p then x else y) (if p then x' else y') := by
  split
  · exact hx ‹_›
  · exact hy ‹_›

end Follows

/-! ### Single tokens -/

theorem advance_follows : Follows r (Token.respell r) advance advance := by
  constructor
  intro c d t h
  obtain ⟨rfl, rfl⟩ := advance_eq_ok.mp h
  rw [advance_eq_ok]
  exact ⟨(c.current_respell).symm, (c.advance_respell).symm⟩

theorem expect_follows (kind : TokenKind) :
    Follows r (Token.respell r) (expect kind) (expect kind) := by
  refine .look fun c => ?_
  rw [Cursor.kind_respell]
  exact .ite (fun _ => advance_follows) fun _ => .fail

/-- Where no word is expected, the token stays as it is. -/
theorem expect_mark_follows {kind : TokenKind} (hk : kind.isWord = false) :
    Follows r id (expect kind) (expect kind) := by
  constructor
  intro c d t h
  have hrun := (expect_follows (r := r) kind).run h
  obtain ⟨hkind, rfl, -⟩ := expect_eq_ok.mp h
  rwa [Token.respell_of_not_word (by rw [← hk, ← hkind]; rfl)] at hrun

theorem expectAll_follows (kinds : List TokenKind) :
    Follows r id (expectAll kinds) (expectAll kinds) := by
  induction kinds with
  | nil => exact .pure rfl
  | cons kind kinds ih => exact .bind (expect_follows kind) fun _ => ih

theorem consume_follows (kind : TokenKind) : Follows r id (consume kind) (consume kind) := by
  refine .look fun c => ?_
  rw [Cursor.kind_respell]
  exact .ite (fun _ => .bind advance_follows fun _ => .pure rfl) fun _ => .pure rfl

theorem consumeAll_follows (kinds : List TokenKind) :
    Follows r id (consumeAll kinds) (consumeAll kinds) := by
  refine .look fun c => ?_
  have hkinds : (c.respell r).peekKind = c.peekKind := funext c.peekKind_respell
  rw [hkinds]
  exact .ite (fun _ => .bind (expectAll_follows kinds) fun _ => .pure rfl) fun _ => .pure rfl

/-- Where tokens that are no words come next, they stay as they are. -/
theorem takeWhile_respell {kind : TokenKind} (hk : kind.isWord = false) (ts : List Token) :
    (ts.map (Token.respell r)).takeWhile (fun t => t.kind = kind) =
      ts.takeWhile fun t => t.kind = kind := by
  induction ts with
  | nil => rfl
  | cons t ts ih =>
    by_cases ht : t.kind = kind
    · rw [List.map_cons, Token.respell_of_not_word (by rw [ht, hk]),
        List.takeWhile_cons_of_pos (by simp [ht]), List.takeWhile_cons_of_pos (by simp [ht]), ih]
    · rw [List.map_cons, List.takeWhile_cons_of_neg (by simp [ht]),
        List.takeWhile_cons_of_neg (by simp [ht])]

theorem passAll_follows {kind : TokenKind} (hk : kind.isWord = false) :
    Follows r id (passAll kind) (passAll kind) := by
  constructor
  rintro c _ _ ⟨⟩
  show EStateM.Result.ok ((c.ahead.map (Token.respell r)).takeWhile _)
    ((c.respell r).advanceOver kind) = _
  rw [takeWhile_respell hk, Cursor.advanceOver_respell]
  rfl

theorem spanFrom_follows (start : Span) : Follows r id (spanFrom start) (spanFrom start) :=
  .look fun c => .pure (c.spanFrom_respell start).symm

/-! ### Lists -/

section
variable {separator : TokenKind} {item : Parse α} {f : α → α}

theorem itemsAfter_follows (hi : Follows r f item item) (fuel : Nat) :
    Follows r (List.map f) (itemsAfter separator item fuel) (itemsAfter separator item fuel) := by
  induction fuel with
  | zero => exact .pure rfl
  | succ fuel ih =>
    refine .bind (consume_follows separator) fun more => ?_
    exact .ite (fun _ => .bind hi fun _ => .bind ih fun _ => .pure rfl) fun _ => .pure rfl

theorem items_follows (hi : Follows r f item item) :
    Follows r (List.map f) (items separator item) (items separator item) := by
  constructor
  intro c d as h
  have hfuel : (c.respell r).ahead.length = c.ahead.length := List.length_map ..
  show itemsAfter separator item ((c.respell r).ahead.length + 1) (c.respell r) = _
  rw [hfuel]
  exact (itemsAfter_follows hi _).run h

theorem itemsBy_follows (hi : Follows r f item item) :
    Follows r (List.map f) (itemsBy separator item) (itemsBy separator item) :=
  .bind hi fun _ => .bind (items_follows hi) fun _ => .pure rfl

end

/-! ### Names and values -/

theorem identifier_follows : Follows r (Identifier.respell r) identifier identifier := by
  refine .look fun c => ?_
  simp only [Cursor.current_respell, Token.kind_respell, Token.span_respell]
  refine .ite (fun hk => ?_) fun hticked => .ite (fun hk => ?_) fun _ => .fail
  · rw [Token.respell_of_not_word (by rw [hk]; rfl)]
    exact .bind advance_follows fun _ => .pure rfl
  · have hword : c.current.kind.isWord = true := by
      generalize c.current.kind = kind at hticked hk
      unfold TokenKind.canBeIdentifier TokenKind.isNonReserved at hk
      cases kind <;> simp_all [TokenKind.isWord]
    rw [Token.text_respell_of_word hword]
    exact .bind advance_follows fun _ => .pure rfl

theorem name_follows : Follows r (Name.respell r) name name := by
  refine .look fun c => ?_
  simp only [Cursor.current_respell, Token.span_respell]
  exact .bind (itemsBy_follows identifier_follows) fun _ =>
    .bind (spanFrom_follows _) fun _ => .pure rfl

theorem number_follows : Follows r id number number := by
  refine .look fun c => .bind (consume_follows .minus) fun negative => .look fun d => ?_
  simp only [Cursor.current_respell, Token.span_respell, Token.kind_respell]
  cases hk : d.current.kind with
  | number kind =>
    rw [Token.respell_of_not_word (by rw [hk]; rfl)]
    exact .bind advance_follows fun _ => .bind (spanFrom_follows _) fun _ => .pure rfl
  | _ => exact .fail

@[simp] theorem span_respell_identifier (i : Identifier) : (i.respell r).span = i.span := by
  unfold Identifier.respell
  split <;> rfl

theorem constant_follows : Follows r (Constant.respell r) constant constant := by
  refine .look fun c => ?_
  simp only [Cursor.current_respell, Token.span_respell, Token.kind_respell,
    Cursor.peekKind_respell]
  refine .ite (fun _ => .bind number_follows fun _ => .pure rfl) fun _ => ?_
  refine .ite (fun _ => .bind identifier_follows fun type => ?_) fun _ => ?_
  · refine .bind (expect_mark_follows rfl) fun value => ?_
    rw [span_respell_identifier]
    exact .pure rfl
  refine .ite (fun _ => .bind advance_follows fun _ => .pure rfl) fun _ => ?_
  refine .ite (fun _ => .bind (passAll_follows rfl) fun _ => ?_) fun _ => .fail
  exact .bind (spanFrom_follows _) fun _ => .pure rfl

theorem map_follows : Follows r (Expression.respell r) map map := by
  refine .bind (expect_follows _) fun word => ?_
  rw [Token.span_respell]
  refine .bind (expect_follows _) fun _ => .bind (itemsBy_follows constant_follows) fun _ =>
    .bind (consume_follows _) fun closed => ?_
  exact .ite (fun _ => .bind (spanFrom_follows _) fun _ => .pure rfl) fun _ => .fail

theorem expression_follows : Follows r (Expression.respell r) expression expression := by
  refine .look fun c => ?_
  rw [Cursor.kind_respell, Cursor.peekKind_respell]
  exact .ite (fun _ => map_follows) fun _ => .bind constant_follows fun _ => .pure rfl

theorem argument_follows : Follows r (Argument.respell r) argument argument := by
  refine .look fun c => ?_
  rw [Cursor.kind_respell, Cursor.peekKind_respell]
  refine .ite (fun _ => ?_) fun _ => .bind expression_follows fun _ => .pure rfl
  exact .bind identifier_follows fun _ => .bind (expect_follows _) fun _ =>
    .bind expression_follows fun _ => .pure rfl

theorem arguments_follows : Follows r (List.map (Argument.respell r)) arguments arguments := by
  refine .bind (expect_follows _) fun _ => .bind (consume_follows _) fun empty => ?_
  refine .ite (fun _ => .pure rfl) fun _ => .bind (itemsBy_follows argument_follows) fun _ =>
    .bind (consume_follows _) fun closed => ?_
  exact .ite (fun _ => .pure rfl) fun _ => .fail

/-! ### Statements -/

theorem timeUnit_follows : Follows r id timeUnit timeUnit := by
  refine .look fun c => ?_
  rw [Cursor.kind_respell]
  generalize c.kind = kind
  split
  · exact .bind advance_follows fun _ => .pure rfl
  · exact .bind advance_follows fun _ => .pure rfl
  · exact .bind advance_follows fun _ => .pure rfl
  · exact .fail

theorem version_follows : Follows r id version version := by
  refine .bind (consume_follows _) fun present => .ite (fun _ => ?_) fun _ => .pure rfl
  exact .bind (expectAll_follows _) fun _ => .bind number_follows fun _ => .pure rfl

theorem retention_follows : Follows r id retention retention := by
  refine .bind (consume_follows _) fun present => .ite (fun _ => ?_) fun _ => .pure rfl
  exact .bind number_follows fun _ => .bind timeUnit_follows fun _ => .pure rfl

theorem tagOptions_follows : Follows r id tagOptions tagOptions :=
  .bind version_follows fun _ => .bind retention_follows fun _ => .pure rfl

theorem replaceTag_follows (createIfMissing : Bool) :
    Follows r (TagClause.respell r) (replaceTag createIfMissing) (replaceTag createIfMissing) :=
  .bind (expect_follows _) fun _ => .bind identifier_follows fun _ =>
    .bind tagOptions_follows fun _ => .pure rfl

theorem createTag_follows : Follows r (TagClause.respell r) createTag createTag := by
  refine .bind (consume_follows _) fun orReplace => .ite (fun _ => ?_) fun _ => ?_
  · exact .bind (expect_follows _) fun _ => replaceTag_follows true
  · refine .bind (consume_follows _) fun tag => .ite (fun _ => ?_) fun _ => .fail
    exact .bind (consumeAll_follows _) fun _ => .bind identifier_follows fun _ =>
      .bind tagOptions_follows fun _ => .pure rfl

theorem tagAction_follows : Follows r (Action.respell r) tagAction tagAction := by
  refine .look fun c => ?_
  rw [Cursor.kind_respell]
  generalize c.kind = kind
  split
  · exact .bind advance_follows fun _ => .bind createTag_follows fun _ => .pure rfl
  · exact .bind advance_follows fun _ => .bind (replaceTag_follows false) fun _ => .pure rfl
  · exact .bind advance_follows fun _ => .bind (expect_follows _) fun _ =>
      .bind (consumeAll_follows _) fun _ => .bind identifier_follows fun _ => .pure rfl
  · exact .bind advance_follows fun _ => .bind (expect_follows _) fun _ =>
      .bind identifier_follows fun _ => .bind (expect_follows _) fun _ =>
        .bind identifier_follows fun _ => .pure rfl
  · exact .fail

theorem statement_follows : Follows r (Statement.respell r) statement statement := by
  refine .look fun c => .look fun d => ?_
  rw [Cursor.kind_respell, Cursor.current_respell, Token.span_respell]
  generalize d.kind = kind
  split
  · exact .bind advance_follows fun _ => .bind name_follows fun _ =>
      .bind arguments_follows fun _ => .bind (spanFrom_follows _) fun _ => .pure rfl
  · exact .bind (expectAll_follows _) fun _ => .bind name_follows fun _ =>
      .bind (spanFrom_follows _) fun _ => .pure rfl
  · exact .bind (expectAll_follows _) fun _ => .bind name_follows fun _ =>
      .bind tagAction_follows fun _ => .bind (spanFrom_follows _) fun _ => .pure rfl
  · exact .fail

theorem semicolons_follows : Follows r id semicolons semicolons :=
  .bind (passAll_follows rfl) fun _ => .pure rfl

theorem whole_follows : Follows r (Statement.respell r) whole whole := by
  refine .bind statement_follows fun s => .bind semicolons_follows fun _ => .look fun c => ?_
  rw [Cursor.isAtEnd, Cursor.isAtEnd, Cursor.kind_respell]
  exact .ite (fun _ => .pure rfl) fun _ => .fail

end Parse

end

end TagDialect
