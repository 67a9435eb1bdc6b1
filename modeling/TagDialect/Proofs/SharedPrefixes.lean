-- How far ahead a rule looks. Two runs of a rule on sequences that start with
-- the same lexemes go the same way, up to the last two of these: a rule that
-- stops before them does the same on both.
import TagDialect.Proofs.CursorWalks
import TagDialect.Proofs.RuleReadings

namespace TagDialect

namespace Parse

variable {α β : Type} {qs qs' : List Lexeme}

/-! ## Cursors over a shared prefix -/

/-- The cursors see the same lexemes, and then `qs` and `qs'`. -/
def Near (qs qs' : List Lexeme) (c c' : Cursor) : Prop :=
  ∃ ps, c.lexemes = ps ++ qs ∧ c'.lexemes = ps ++ qs'

/-- Fewer than two lexemes are left before `qs`. -/
def Far (qs : List Lexeme) (c : Cursor) : Prop := c.lexemes.length < qs.length + 2

/-- The cursors see the same lexemes, at least two of them, and then `qs` and `qs'`. -/
structure Nearer (qs qs' : List Lexeme) (c c' : Cursor) (a b : Lexeme) (ps : List Lexeme) :
    Prop where
  cut : c.lexemes = a :: b :: ps ++ qs
  cut' : c'.lexemes = a :: b :: ps ++ qs'

theorem Near.far_or {c c' : Cursor} (h : Near qs qs' c c') :
    Far qs c ∨ ∃ a b ps, Nearer qs qs' c c' a b ps := by
  obtain ⟨ps, hcut, hcut'⟩ := h
  match ps with
  | [] => exact .inl (by rw [Far, hcut]; simp)
  | [a] => exact .inl (by rw [Far, hcut]; simp)
  | a :: b :: ps => exact .inr ⟨a, b, ps, hcut, hcut'⟩

section
variable {c c' : Cursor} {a b : Lexeme} {ps : List Lexeme}

theorem Nearer.near (h : Nearer qs qs' c c' a b ps) : Near qs qs' c c' := ⟨_, h.cut, h.cut'⟩

theorem peekKind_of_cut {us vs : List Lexeme} {c : Cursor} (h : c.lexemes = us ++ vs) {n : Nat}
    (hn : n < us.length) : c.peekKind n = us[n].kind := by
  have hget : (c.lexemes)[n]? = some us[n] := by rw [h, List.getElem?_append_left hn]; simp
  rw [Cursor.lexemes, List.getElem?_map, Option.map_eq_some_iff] at hget
  obtain ⟨t, ht, hlexeme⟩ := hget
  simp only [Cursor.peekKind, Cursor.peek, ht]
  exact congrArg Lexeme.kind hlexeme

theorem Nearer.kind (h : Nearer qs qs' c c' a b ps) : c.kind = a.kind := kind_of_lexemes h.cut

theorem Nearer.kind' (h : Nearer qs qs' c c' a b ps) : c'.kind = a.kind := kind_of_lexemes h.cut'

theorem Nearer.same_kind (h : Nearer qs qs' c c' a b ps) : c'.kind = c.kind :=
  h.kind'.trans h.kind.symm

theorem Nearer.same_current (h : Nearer qs qs' c c' a b ps) : c'.current.kind = c.current.kind :=
  h.same_kind

theorem Nearer.same_peek (h : Nearer qs qs' c c' a b ps) : c'.peekKind 1 = c.peekKind 1 := by
  rw [peekKind_of_cut h.cut (n := 1) (by simp), peekKind_of_cut h.cut' (n := 1) (by simp)]

theorem Nearer.advance (h : Nearer qs qs' c c' a b ps) : Near qs qs' c.advance c'.advance :=
  ⟨b :: ps, (Cursor.advance_of_lexemes h.cut).2, (Cursor.advance_of_lexemes h.cut').2⟩

end

theorem Far.of_le {c d : Cursor} (h : Far qs c) (hle : d.lexemes.length ≤ c.lexemes.length) :
    Far qs d := by
  unfold Far at *
  omega

/-- What is passed over is the same for both, or goes on past the shared lexemes. -/
theorem Near.advanceOver {c c' : Cursor} (h : Near qs qs' c c') (kind : TokenKind) :
    Far qs (c.advanceOver kind) ∨ Near qs qs' (c.advanceOver kind) (c'.advanceOver kind) := by
  obtain ⟨ps, hcut, hcut'⟩ := h
  have hdrop := Cursor.lexemes_advanceOver kind c
  have hdrop' := Cursor.lexemes_advanceOver kind c'
  rw [hcut, List.dropWhile_append] at hdrop
  rw [hcut', List.dropWhile_append] at hdrop'
  by_cases hall : (ps.dropWhile (Lexeme.has kind)).isEmpty
  · left
    rw [if_pos hall] at hdrop
    have hle := (List.dropWhile_sublist (Lexeme.has kind) (l := qs)).length_le
    rw [Far, hdrop]
    omega
  · rw [if_neg hall] at hdrop hdrop'
    exact .inr ⟨_, hdrop, hdrop'⟩

/-! ## Runs that go the same way -/

/-- A run that does not go on past the shared lexemes, and one on the other sequence, both
succeed and leave the same, or both fail. -/
inductive Alike (qs qs' : List Lexeme) :
    EStateM.Result ParseError Cursor α → EStateM.Result ParseError Cursor β → Prop
  | far {r : EStateM.Result ParseError Cursor α} {r' : EStateM.Result ParseError Cursor β}
      (h : Far qs (endOf r)) : Alike qs qs' r r'
  | ok {a : α} {b : β} {d d' : Cursor} (h : Near qs qs' d d') : Alike qs qs' (.ok a d) (.ok b d')
  | error {e e' : ParseError} {d d' : Cursor} : Alike qs qs' (.error e d) (.error e' d')

/-- The rules go the same way from everywhere. -/
def Same (qs qs' : List Lexeme) (x : Parse α) (y : Parse β) : Prop :=
  ∀ c c', Near qs qs' c c' → Alike qs qs' (x c) (y c')

theorem Alike.of_far {x : Parse α} [Orderly x] {c : Cursor}
    {r' : EStateM.Result ParseError Cursor β} (h : Far qs c) : Alike qs qs' (x c) r' :=
  .far (h.of_le (Orderly.length_le x c))

theorem Alike.bind {γ δ : Type} {x : Parse α} {y : Parse β} {f : α → Parse γ} {g : β → Parse δ}
    {c c' : Cursor} [∀ a, Orderly (f a)] (h : Alike qs qs' (x c) (y c'))
    (hfg : ∀ a b d d', x c = .ok a d → y c' = .ok b d' → Near qs qs' d d' →
      Alike qs qs' (f a d) (g b d')) :
    Alike qs qs' ((x >>= f) c) ((y >>= g) c') := by
  simp only [Bind.bind, EStateM.bind]
  cases hx : x c with
  | ok a d =>
    rw [hx] at h
    cases hy : y c' with
    | ok b d' =>
      rw [hy] at h
      cases h with
      | far h => exact .of_far h
      | ok h => exact hfg a b d d' hx hy h
    | error e' d' =>
      rw [hy] at h
      cases h with
      | far h => exact .of_far h
  | error e d =>
    rw [hx] at h
    cases hy : y c' with
    | ok b d' =>
      rw [hy] at h
      cases h with
      | far h => exact .far h
    | error e' d' => exact .error

theorem Same.bind {γ δ : Type} {x : Parse α} {y : Parse β} {f : α → Parse γ} {g : β → Parse δ}
    [∀ a, Orderly (f a)] (h : Same qs qs' x y) (hfg : ∀ a b, Same qs qs' (f a) (g b)) :
    Same qs qs' (x >>= f) (y >>= g) := by
  intro c c' hnear
  exact (h c c' hnear).bind fun a b d d' _ _ hd => hfg a b d d' hd

/-- A rule only needs to be followed where two shared lexemes are left. -/
theorem Same.of_nearer {x : Parse α} {y : Parse β} [Orderly x]
    (h : ∀ c c' a b ps, Nearer qs qs' c c' a b ps → Alike qs qs' (x c) (y c')) :
    Same qs qs' x y := by
  intro c c' hnear
  rcases hnear.far_or with hfar | ⟨a, b, ps, hnearer⟩
  · exact .of_far hfar
  · exact h c c' a b ps hnearer

theorem Same.pure (a : α) (b : β) : Same qs qs' (Pure.pure a) (Pure.pure b) :=
  fun _ _ h => .ok h

theorem Same.fail (x : Expectation) :
    Same qs qs' (Parse.fail x : Parse α) (Parse.fail x : Parse β) := fun _ _ _ => .error

theorem Same.advance : Same qs qs' advance advance :=
  .of_nearer fun _ _ _ _ _ h => .ok h.advance

/-- A step that only passes a token or not, and what comes behind it. -/
theorem Same.consume_bind {γ δ : Type} (kind : TokenKind) {f : Bool → Parse γ} {g : Bool → Parse δ}
    [∀ a, Orderly (f a)] (h : ∀ b, Same qs qs' (f b) (g b)) :
    Same qs qs' (consume kind >>= f) (consume kind >>= g) := by
  refine .of_nearer fun c c' a b ps hnear => ?_
  unfold consume Rule.consume
  rw [bind_assoc, bind_assoc, look_bind, look_bind, hnear.same_kind]
  split
  · exact h true _ _ hnear.advance
  · exact h false _ _ hnear.near

theorem Same.expect (kind : TokenKind) : Same qs qs' (expect kind) (expect kind) := by
  refine .of_nearer fun c c' a b ps hnear => ?_
  unfold Parse.expect Rule.expect
  rw [look_bind, look_bind, hnear.same_kind]
  split
  · exact Same.advance _ _ hnear.near
  · exact .error

theorem Same.expectAll (kinds : List TokenKind) :
    Same qs qs' (expectAll kinds) (expectAll kinds) := by
  induction kinds with
  | nil => exact .pure _ _
  | cons kind kinds ih => exact .bind (.expect kind) fun _ _ => ih

theorem Same.spanFrom (start start' : Span) :
    Same qs qs' (Parse.spanFrom start) (Parse.spanFrom start') := fun _ _ h => .ok h

/-! ## Lists -/

section
variable {separator : TokenKind} {item : Parse α} [Orderly item]

/-- The fuel does not matter as long as there is more of it than lexemes. -/
theorem itemsAfter_same (hi : Same qs qs' item item) {fuel fuel' : Nat} {c c' : Cursor}
    (hfuel : c.lexemes.length < fuel) (hfuel' : c'.lexemes.length < fuel')
    (h : Near qs qs' c c') :
    Alike qs qs' (itemsAfter separator item fuel c) (itemsAfter separator item fuel' c') := by
  induction fuel generalizing fuel' c c' with
  | zero => omega
  | succ fuel ih =>
    obtain ⟨fuel', rfl⟩ : ∃ n, fuel' = n + 1 := ⟨fuel' - 1, by omega⟩
    rcases h.far_or with hfar | ⟨a, b, ps, hnear⟩
    · exact .of_far hfar
    unfold itemsAfter Rule.consume
    rw [bind_assoc, bind_assoc, look_bind, look_bind, hnear.same_kind]
    split
    · -- The separator and the item take their lexemes from what both see.
      have hitem : Alike qs qs' (item c.advance) (item c'.advance) := hi _ _ hnear.advance
      refine hitem.bind ?_
      rintro x y d d' hx - ⟨us, hd, hd'⟩
      have hle := Orderly.length_le item c.advance
      rw [hx] at hle
      have hadvance : c.advance.lexemes.length = (b :: ps ++ qs).length :=
        congrArg List.length (Cursor.advance_of_lexemes hnear.cut).2
      have hcut := congrArg List.length hnear.cut
      have hcut' := congrArg List.length hnear.cut'
      have hlength := congrArg List.length hd
      have hlength' := congrArg List.length hd'
      simp only [endOf, List.length_append, List.length_cons] at *
      have hnext : Alike qs qs' (itemsAfter separator item fuel d)
          (itemsAfter separator item fuel' d') := ih (by omega) (by omega) ⟨us, hd, hd'⟩
      exact hnext.bind fun _ _ _ _ _ _ h => .ok h
    · exact .ok hnear.near

theorem itemsBy_same (hi : Same qs qs' item item) :
    Same qs qs' (itemsBy separator item) (itemsBy separator item) := by
  refine hi.bind fun _ _ => ?_
  intro c c' h
  have hlength (c : Cursor) : c.lexemes.length < c.ahead.length + 1 := by simp [Cursor.lexemes]
  have hafter : Alike qs qs' (itemsAfter separator item (c.ahead.length + 1) c)
      (itemsAfter separator item (c'.ahead.length + 1) c') :=
    itemsAfter_same hi (hlength c) (hlength c') h
  exact hafter.bind fun _ _ _ _ _ _ h => .ok h

end

/-! ## Names and values -/

theorem identifier_same : Same qs qs' identifier identifier := by
  refine .of_nearer fun c c' a b ps hnear => ?_
  unfold identifier Rule.identifier
  rw [look_bind, look_bind, hnear.same_current]
  split
  · exact Same.advance.bind (fun _ _ => .pure _ _) _ _ hnear.near
  · split
    · exact Same.advance.bind (fun _ _ => .pure _ _) _ _ hnear.near
    · exact .error

theorem name_same : Same qs qs' name name := by
  intro c c' h
  exact (itemsBy_same identifier_same).bind
    (fun _ _ => (Same.spanFrom c.current.span c'.current.span).bind fun _ _ => .pure _ _) _ _ h

theorem number_same : Same qs qs' number number := by
  intro c c' h
  unfold number Rule.number
  rw [look_bind, look_bind]
  refine @Same.consume_bind _ _ _ _ .minus _ _ (fun negative => orderly_look.bind fun d => ?_)
    (fun negative => ?_) _ _ h
  · dsimp only
    split <;> infer_instance
  · refine @Same.of_nearer _ _ _ _ _ _ (orderly_look.bind fun d => ?_) fun d d' a b ps hnear => ?_
    · dsimp only
      split <;> infer_instance
    rw [look_bind, look_bind, hnear.same_current]
    generalize d.current.kind = kind
    split
    · refine Same.advance.bind (fun _ _ => ?_) _ _ hnear.near
      exact (Same.spanFrom c.current.span c'.current.span).bind fun _ _ => .pure _ _
    · exact .error

theorem constant_same : Same qs qs' constant constant := by
  refine .of_nearer fun c c' a b ps hnear => ?_
  unfold constant Rule.constant
  rw [look_bind, look_bind, hnear.same_current, hnear.same_peek]
  split
  · exact number_same.bind (fun _ _ => .pure _ _) _ _ hnear.near
  · split
    · refine identifier_same.bind (fun _ _ => ?_) _ _ hnear.near
      exact (Same.expect .string).bind fun _ _ => .pure _ _
    · split
      · exact Same.advance.bind (fun _ _ => .pure _ _) _ _ hnear.near
      · split
        · rw [passAll_bind, passAll_bind, spanFrom_bind, spanFrom_bind]
          rcases hnear.near.advanceOver .string with hfar | h
          · exact .far hfar
          · exact .ok h
        · exact .error

/-- Items up to a closing parenthesis. -/
theorem closing_same {γ : Type} {item : Parse α} [Orderly item] (hi : Same qs qs' item item)
    {whole whole' : List α → Parse γ} [∀ as, Orderly (whole as)]
    (hw : ∀ as bs, Same qs qs' (whole as) (whole' bs)) :
    Same qs qs' (closing whole item) (closing whole' item) := by
  refine (itemsBy_same hi).bind fun as bs => .consume_bind .rightParen fun closed => ?_
  split
  · exact hw as bs
  · exact .fail _

theorem map_same : Same qs qs' map map := by
  refine (Same.expect _).bind fun t t' => (Same.expect _).bind fun _ _ => ?_
  exact closing_same constant_same fun _ _ =>
    (Same.spanFrom t.span t'.span).bind fun _ _ => .pure _ _

theorem expression_same : Same qs qs' expression expression := by
  refine .of_nearer fun c c' a b ps hnear => ?_
  unfold expression Rule.expression
  rw [look_bind, look_bind, hnear.same_kind, hnear.same_peek]
  split
  · exact map_same _ _ hnear.near
  · exact constant_same.bind (fun _ _ => .pure _ _) _ _ hnear.near

theorem argument_same : Same qs qs' argument argument := by
  refine .of_nearer fun c c' a b ps hnear => ?_
  unfold argument Rule.argument
  rw [look_bind, look_bind, hnear.same_kind, hnear.same_peek]
  split
  · refine identifier_same.bind (fun _ _ => ?_) _ _ hnear.near
    exact (Same.expect _).bind fun _ _ => expression_same.bind fun _ _ => .pure _ _
  · exact expression_same.bind (fun _ _ => .pure _ _) _ _ hnear.near

theorem arguments_same : Same qs qs' arguments arguments := by
  refine (Same.expect _).bind fun _ _ => .consume_bind .rightParen fun empty => ?_
  split
  · exact .pure _ _
  · exact closing_same argument_same fun _ _ => .pure _ _

/-! ## Options of a tag -/

theorem timeUnit_same : Same qs qs' timeUnit timeUnit := by
  refine .of_nearer fun c c' a b ps hnear => ?_
  unfold timeUnit Rule.timeUnit
  rw [look_bind, look_bind, hnear.same_kind]
  generalize c.kind = kind
  split
  · exact Same.advance.bind (fun _ _ => .pure _ _) _ _ hnear.near
  · exact Same.advance.bind (fun _ _ => .pure _ _) _ _ hnear.near
  · exact Same.advance.bind (fun _ _ => .pure _ _) _ _ hnear.near
  · exact .error

theorem version_same : Same qs qs' version version := by
  refine .consume_bind _ fun present => ?_
  split
  · exact (Same.expectAll _).bind fun _ _ => number_same.bind fun _ _ => .pure _ _
  · exact .pure _ _

theorem retention_same : Same qs qs' retention retention := by
  refine .consume_bind _ fun present => ?_
  split
  · exact number_same.bind fun _ _ => timeUnit_same.bind fun _ _ => .pure _ _
  · exact .pure _ _

theorem tagOptions_same : Same qs qs' tagOptions tagOptions :=
  version_same.bind fun _ _ => retention_same.bind fun _ _ => .pure _ _

/-! ## What is done to tags -/

theorem length_le_of_ok {x : Parse α} {f : α → Parse β} [∀ a, Orderly (f a)] {c d : Cursor} {a : α}
    (h : x c = .ok a d) : (endOf ((x >>= f) c)).lexemes.length ≤ d.lexemes.length := by
  have hrun : (x >>= f) c = f a d := by simp only [Bind.bind, EStateM.bind, h]
  rw [hrun]
  exact Orderly.length_le (f a) d

/-- `IF` may name a tag. -/
theorem identifier_of_if {c : Cursor} (h : c.kind = .keyword .if) :
    ∃ i, identifier c = .ok i c.advance := by
  have hcurrent : c.current.kind = .keyword .if := h
  refine ⟨⟨c.current.text, false, c.current.span⟩, ?_⟩
  unfold identifier Rule.identifier
  rw [look_bind, if_neg (by simp [hcurrent]), if_pos (by rw [hcurrent]; rfl)]
  rfl

/-- Up to three words from `IF` on are looked at before a tag's name. Where fewer than three
lexemes are shared, `IF` itself is passed, as one of the words or as the name. -/
theorem ifWords_same {γ : Type} {words : List TokenKind} (hwords : words.length ≤ 2)
    {f g : Bool → Identifier → Parse γ} [∀ b i, Orderly (f b i)]
    (h : ∀ b i j, Same qs qs' (f b i) (g b j)) :
    Same qs qs' (consumeAll (.keyword .if :: words) >>= fun b => identifier >>= f b)
      (consumeAll (.keyword .if :: words) >>= fun b => identifier >>= g b) := by
  refine .of_nearer fun c c' a b ps hnear => ?_
  have hname (b : Bool) : Same qs qs' (identifier >>= f b) (identifier >>= g b) :=
    identifier_same.bind (h b)
  unfold consumeAll Rule.consumeAll
  rw [bind_assoc, bind_assoc, look_bind, look_bind]
  by_cases hif : c.kind = .keyword .if
  · cases ps with
    | nil =>
      -- Whatever the words are, one token at least is passed.
      have hfar : Far qs c.advance := by
        rw [Far, (Cursor.advance_of_lexemes hnear.cut).2]
        simp
      have hword : expect (.keyword .if) c = .ok c.current c.advance :=
        expect_eq_ok.mpr ⟨hif, rfl, rfl⟩
      split
      · rw [bind_assoc, Rule.expectAll, bind_assoc]
        exact .far (hfar.of_le (length_le_of_ok hword))
      · obtain ⟨i, hi⟩ := identifier_of_if hif
        have hle : (endOf ((identifier >>= f false) c)).lexemes.length ≤
            c.advance.lexemes.length := length_le_of_ok hi
        exact .far (hfar.of_le hle)
    | cons d ps =>
      have hpeek (n : Nat) (hn : n < 3) : c'.peekKind n = c.peekKind n := by
        rw [peekKind_of_cut hnear.cut (n := n) (by simp; omega),
          peekKind_of_cut hnear.cut' (n := n) (by simp; omega)]
      have hsame : (List.range (.keyword .if :: words).length).map c'.peekKind =
          (List.range (.keyword .if :: words).length).map c.peekKind := by
        apply List.map_congr_left
        intro n hn
        rw [List.mem_range, List.length_cons] at hn
        exact hpeek n (by omega)
      rw [hsame]
      split
      · rw [bind_assoc, bind_assoc]
        exact (Same.expectAll _).bind (fun _ _ => hname true) _ _ hnear.near
      · exact hname false _ _ hnear.near
  · have hnot {c : Cursor} (hif : c.kind ≠ .keyword .if) :
        (List.range (.keyword .if :: words).length).map c.peekKind ≠ .keyword .if :: words := by
      intro hpeek
      rw [List.length_cons, List.range_succ_eq_map, List.map_cons, List.cons.injEq] at hpeek
      exact hif hpeek.1
    rw [if_neg (hnot hif), if_neg (hnot (hnear.same_kind ▸ hif))]
    exact hname false _ _ hnear.near

theorem replaceTag_same (createIfMissing : Bool) :
    Same qs qs' (replaceTag createIfMissing) (replaceTag createIfMissing) :=
  (Same.expect _).bind fun _ _ => identifier_same.bind fun _ _ => tagOptions_same.bind fun _ _ =>
    .pure _ _

theorem createTag_same : Same qs qs' createTag createTag := by
  refine .consume_bind _ fun orReplace => ?_
  split
  · exact (Same.expect _).bind fun _ _ => replaceTag_same true
  · refine .consume_bind _ fun tag => ?_
    split
    · exact ifWords_same (by simp) fun _ _ _ => tagOptions_same.bind fun _ _ => .pure _ _
    · exact .fail _

theorem tagAction_same : Same qs qs' tagAction tagAction := by
  refine .of_nearer fun c c' a b ps hnear => ?_
  unfold tagAction Rule.tagAction
  rw [look_bind, look_bind, hnear.same_kind]
  generalize c.kind = kind
  split
  · exact Same.advance.bind (fun _ _ => createTag_same.bind fun _ _ => .pure _ _) _ _ hnear.near
  · exact Same.advance.bind (fun _ _ => (replaceTag_same false).bind fun _ _ => .pure _ _) _ _
      hnear.near
  · refine Same.advance.bind (fun _ _ => (Same.expect _).bind fun _ _ => ?_) _ _ hnear.near
    exact ifWords_same (by simp) fun _ _ _ => .pure _ _
  · refine Same.advance.bind (fun _ _ => (Same.expect _).bind fun _ _ => ?_) _ _ hnear.near
    exact identifier_same.bind fun _ _ => (Same.expect _).bind fun _ _ =>
      identifier_same.bind fun _ _ => .pure _ _
  · exact .error

/-! ## Statements -/

theorem statement_same : Same qs qs' statement statement := by
  refine .of_nearer fun c c' a b ps hnear => ?_
  unfold statement Rule.statement
  rw [look_bind, look_bind, look_bind, look_bind, hnear.same_kind]
  generalize c.kind = kind
  split
  · exact Same.advance.bind (fun _ _ => name_same.bind fun _ _ => arguments_same.bind fun _ _ =>
      (Same.spanFrom _ _).bind fun _ _ => .pure _ _) _ _ hnear.near
  · exact (Same.expectAll _).bind (fun _ _ => name_same.bind fun _ _ =>
      (Same.spanFrom _ _).bind fun _ _ => .pure _ _) _ _ hnear.near
  · exact (Same.expectAll _).bind (fun _ _ => name_same.bind fun _ _ =>
      tagAction_same.bind fun _ _ => (Same.spanFrom _ _).bind fun _ _ => .pure _ _) _ _ hnear.near
  · exact .error

theorem whole_same : Same qs qs' whole whole := by
  refine statement_same.bind fun s t => ?_
  intro c c' h
  have hend : Same qs qs' (look >>= fun c => if c.isAtEnd then Pure.pure s else fail .statementEnd)
      (look >>= fun c => if c.isAtEnd then Pure.pure t else fail .statementEnd) := by
    refine .of_nearer fun d d' a b ps hnear => ?_
    rw [look_bind, look_bind, Cursor.isAtEnd, Cursor.isAtEnd, hnear.same_kind]
    split
    · exact .ok hnear.near
    · exact .error
  have hover : semicolons c = .ok () (c.advanceOver .semicolon) := rfl
  rcases h.advanceOver .semicolon with hfar | hnear
  · exact .far (hfar.of_le (length_le_of_ok hover))
  · exact hend _ _ hnear

end Parse

end TagDialect
