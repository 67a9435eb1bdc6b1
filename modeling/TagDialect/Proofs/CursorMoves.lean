-- What a rule of the parser does to the lexemes ahead of it, said once for each
-- step that all rules are made of: a look ahead, a token passed, a rule that
-- goes on where another one stopped.
import TagDialect.Parser
import TagDialect.Proofs.Grammar

namespace TagDialect

/-! ## Lexemes ahead -/

/-- The kind `n` places ahead. Past the end it is the end of the input. -/
def kindAt (ws : List Lexeme) (n : Nat) : TokenKind := (ws[n]?.map Lexeme.kind).getD .endOfInput

@[simp] theorem kindAt_zero (w : Lexeme) (ws : List Lexeme) : kindAt (w :: ws) 0 = w.kind := rfl

@[simp] theorem kindAt_succ (w : Lexeme) (ws : List Lexeme) (n : Nat) :
    kindAt (w :: ws) (n + 1) = kindAt ws n := rfl

/-- The end of the input comes last. -/
def Finished (ws : List Lexeme) : Prop := ∃ us e, ws = us ++ [e] ∧ e.kind = .endOfInput

theorem Finished.append {vs : List Lexeme} (ws : List Lexeme) (h : Finished vs) :
    Finished (ws ++ vs) := by
  obtain ⟨us, e, rfl, he⟩ := h
  exact ⟨ws ++ us, e, (List.append_assoc ..).symm, he⟩

theorem Finished.tail {w : Lexeme} {ws : List Lexeme} (h : Finished (w :: ws))
    (hw : w.kind ≠ .endOfInput) : Finished ws := by
  obtain ⟨us, e, heq, he⟩ := h
  cases us with
  | nil =>
    obtain ⟨rfl, -⟩ := List.cons.inj heq
    exact absurd he hw
  | cons u us =>
    obtain ⟨-, rfl⟩ := List.cons.inj heq
    exact ⟨us, e, rfl, he⟩

/-! ## Lexemes of one kind -/

/-- Whether the lexeme has the kind. -/
def Lexeme.has (kind : TokenKind) (w : Lexeme) : Bool := decide (w.kind = kind)

theorem kind_of_mem_takeWhile {kind : TokenKind} {w : Lexeme} {ws : List Lexeme}
    (h : w ∈ ws.takeWhile (Lexeme.has kind)) : w.kind = kind := by
  have hall := List.all_takeWhile (p := Lexeme.has kind) (l := ws)
  rw [List.all_eq_true] at hall
  exact of_decide_eq_true (hall w h)

theorem Finished.dropWhile {kind : TokenKind} (hk : kind ≠ .endOfInput) {ws : List Lexeme}
    (h : Finished ws) : Finished (ws.dropWhile (Lexeme.has kind)) := by
  induction ws with
  | nil => exact h
  | cons w ws ih =>
    by_cases hw : w.kind = kind
    · rw [List.dropWhile_cons_of_pos (by simp [Lexeme.has, hw])]
      exact ih (h.tail (hw ▸ hk))
    · rw [List.dropWhile_cons_of_neg (by simp [Lexeme.has, hw])]
      exact h

/-- Lexemes of one kind end right where another kind comes. -/
theorem cut_at_other {kind : TokenKind} {ws rest : List Lexeme} (hc : Finished rest)
    (hw : ∀ w ∈ ws, w.kind = kind) (hk : kindAt rest 0 ≠ kind) :
    (ws ++ rest).takeWhile (Lexeme.has kind) = ws ∧
      (ws ++ rest).dropWhile (Lexeme.has kind) = rest := by
  have hall : ∀ w ∈ ws, Lexeme.has kind w = true := fun w h => decide_eq_true (hw w h)
  rw [List.takeWhile_append_of_pos hall, List.dropWhile_append_of_pos hall]
  cases rest with
  | nil =>
    obtain ⟨us, e, heq, -⟩ := hc
    simp at heq
  | cons r rs =>
    have hr : ¬ Lexeme.has kind r = true := fun h => hk (of_decide_eq_true h)
    rw [List.takeWhile_cons_of_neg hr, List.dropWhile_cons_of_neg hr, List.append_nil]
    exact ⟨rfl, rfl⟩

/-! ## The cursor -/

namespace Cursor

def lexemes (c : Cursor) : List Lexeme := c.ahead.map Token.lexeme

theorem peekKind_eq {c : Cursor} (h : Finished c.lexemes) (n : Nat) :
    c.peekKind n = kindAt c.lexemes n := by
  simp only [peekKind, peek, kindAt, lexemes, List.getElem?_map]
  cases hn : c.ahead[n]? with
  | some t => rfl
  | none =>
    obtain ⟨us, e, heq, he⟩ := h
    obtain ⟨ts, rs, hahead, -, hlast⟩ := List.map_eq_append_iff.mp heq
    obtain ⟨t, rfl, rfl⟩ := List.map_eq_singleton_iff.mp hlast
    rw [hahead, List.getLast?_concat]
    exact he

theorem kind_eq {c : Cursor} (h : Finished c.lexemes) : c.kind = kindAt c.lexemes 0 :=
  c.peekKind_eq h 0

theorem advance_of_lexemes {c : Cursor} {w : Lexeme} {ws : List Lexeme}
    (h : c.lexemes = w :: ws) : c.current.lexeme = w ∧ c.advance.lexemes = ws := by
  obtain ⟨t, ts, hahead, rfl, rfl⟩ := List.map_eq_cons_iff.mp h
  simp [current, peek, advance, lexemes, hahead]

theorem lexemes_eq {c : Cursor} (h : Finished c.lexemes) :
    c.lexemes = c.current.lexeme :: c.advance.lexemes := by
  cases hl : c.lexemes with
  | nil => exact absurd hl (by obtain ⟨us, e, heq, -⟩ := h; simp [heq])
  | cons w ws =>
    obtain ⟨rfl, rfl⟩ := advance_of_lexemes hl
    rfl

theorem passOver_ahead (kind : TokenKind) (behind ts : List Token) :
    (passOver kind behind ts).ahead = ts.dropWhile fun t => t.kind = kind := by
  induction ts generalizing behind with
  | nil => rfl
  | cons t ts ih =>
    unfold passOver
    split
    · rename_i hk
      rw [ih, List.dropWhile_cons_of_pos (by simp [hk])]
    · rename_i hk
      rw [List.dropWhile_cons_of_neg (by simp [hk])]

theorem lexemes_advanceOver (kind : TokenKind) (c : Cursor) :
    (c.advanceOver kind).lexemes = c.lexemes.dropWhile (Lexeme.has kind) := by
  simp only [lexemes, advanceOver, passOver_ahead, List.dropWhile_map]
  rfl

end Cursor

/-! ## Runs of rules -/

namespace Parse

variable {α β : Type}

theorem bind_eq_ok {x : Parse α} {f : α → Parse β} {c c' : Cursor} {b : β} :
    (x >>= f) c = .ok b c' ↔ ∃ a d, x c = .ok a d ∧ f a d = .ok b c' := by
  simp only [bind, EStateM.bind]
  cases x c with
  | ok a d => exact ⟨fun h => ⟨a, d, rfl, h⟩, by rintro ⟨_, _, ⟨rfl, rfl⟩, h⟩; exact h⟩
  | error e d => simp

theorem bind_of_ok {x : Parse α} {f : α → Parse β} {c d e : Cursor} {a : α} {b : β}
    (hx : x c = .ok a d) (hf : f a d = .ok b e) : (x >>= f) c = .ok b e :=
  bind_eq_ok.mpr ⟨a, d, hx, hf⟩

theorem look_bind (f : Cursor → Parse β) (c : Cursor) : (look >>= f) c = f c c := rfl

theorem advance_bind (f : Token → Parse β) (c : Cursor) :
    (advance >>= f) c = f c.current c.advance := rfl

theorem items_bind (separator : TokenKind) (item : Parse α) (f : List α → Parse β) (c : Cursor) :
    (items separator item >>= f) c =
      (itemsAfter separator item (c.ahead.length + 1) >>= f) c := rfl

theorem passAll_bind (kind : TokenKind) (f : List Token → Parse β) (c : Cursor) :
    (passAll kind >>= f) c = f (c.ahead.takeWhile fun t => t.kind = kind) (c.advanceOver kind) := rfl

theorem spanFrom_bind (start : Span) (f : Span → Parse β) (c : Cursor) :
    (spanFrom start >>= f) c = f (c.spanFrom start) c := rfl

theorem pure_eq_ok {a b : α} {c c' : Cursor} :
    (pure a : Parse α) c = .ok b c' ↔ a = b ∧ c = c' := by
  show EStateM.Result.ok a c = .ok b c' ↔ _
  simp

theorem fail_ne_ok {e : Expectation} {c c' : Cursor} {a : α} :
    (fail e : Parse α) c ≠ .ok a c' := by
  intro h
  exact nomatch h

/-! ## What a run passes -/

/-- From `c` to `d` the lexemes `ws` are passed, and the end of the input is still ahead. -/
structure Passes (c : Cursor) (ws : List Lexeme) (d : Cursor) : Prop where
  cut : c.lexemes = ws ++ d.lexemes
  finished : Finished d.lexemes

theorem Passes.refl {c : Cursor} (h : Finished c.lexemes) : Passes c [] c := ⟨rfl, h⟩

theorem Passes.trans {c d e : Cursor} {ws vs : List Lexeme} (h : Passes c ws d)
    (h' : Passes d vs e) : Passes c (ws ++ vs) e :=
  ⟨by rw [h.cut, h'.cut, List.append_assoc], h'.finished⟩

theorem Passes.advance {c : Cursor} (h : Finished c.lexemes) (hk : c.kind ≠ .endOfInput) :
    Passes c [c.current.lexeme] c.advance := by
  have hl := Cursor.lexemes_eq h
  exact ⟨hl, (hl ▸ h).tail hk⟩

theorem Passes.advanceOver {kind : TokenKind} (hk : kind ≠ .endOfInput) {c : Cursor}
    (h : Finished c.lexemes) :
    Passes c (c.lexemes.takeWhile (Lexeme.has kind)) (c.advanceOver kind) := by
  constructor
  · rw [Cursor.lexemes_advanceOver, List.takeWhile_append_dropWhile]
  · rw [Cursor.lexemes_advanceOver]
    exact h.dropWhile hk

/-- The rule reads `a` at `c` and leaves `rest`. -/
def Yields (rule : Parse α) (c : Cursor) (a : α) (rest : List Lexeme) : Prop :=
  ∃ d, rule c = .ok a d ∧ d.lexemes = rest

theorem Yields.bind {x : Parse α} {f : α → Parse β} {c : Cursor} {a : α} {b : β}
    {ws rest : List Lexeme} (hx : Yields x c a ws)
    (hf : ∀ d : Cursor, d.lexemes = ws → Yields (f a) d b rest) : Yields (x >>= f) c b rest := by
  obtain ⟨d, hd, hws⟩ := hx
  obtain ⟨e, he, hrest⟩ := hf d hws
  exact ⟨e, bind_of_ok hd he, hrest⟩

/-! ## Single tokens -/

theorem advance_eq_ok {c d : Cursor} {t : Token} :
    advance c = .ok t d ↔ t = c.current ∧ d = c.advance := by
  show EStateM.Result.ok c.current c.advance = .ok t d ↔ _
  grind

theorem consume_eq_ok {kind : TokenKind} {c d : Cursor} {b : Bool} :
    consume kind c = .ok b d ↔
      b = true ∧ c.kind = kind ∧ d = c.advance ∨ b = false ∧ c.kind ≠ kind ∧ d = c := by
  unfold consume Rule.consume
  rw [look_bind]
  split
  · rename_i hk
    rw [advance_bind, pure_eq_ok]
    grind
  · rename_i hk
    rw [pure_eq_ok]
    grind

theorem expect_eq_ok {kind : TokenKind} {c d : Cursor} {t : Token} :
    expect kind c = .ok t d ↔ c.kind = kind ∧ t = c.current ∧ d = c.advance := by
  unfold expect Rule.expect
  rw [look_bind]
  split
  · rename_i hk
    simp [hk, advance_eq_ok]
  · rename_i hk
    simp [hk, fail_ne_ok]

section
variable {c d : Cursor} {kind : TokenKind} {kinds : List TokenKind}

theorem advance_sound {t : Token} (hc : Finished c.lexemes) (hk : c.kind ≠ .endOfInput)
    (h : advance c = .ok t d) : t = c.current ∧ Passes c [c.current.lexeme] d := by
  obtain ⟨rfl, rfl⟩ := advance_eq_ok.mp h
  exact ⟨rfl, .advance hc hk⟩

theorem consume_sound {b : Bool} (hc : Finished c.lexemes) (hk : kind ≠ .endOfInput)
    (h : consume kind c = .ok b d) :
    b = true ∧ (∃ w : Lexeme, w.kind = kind ∧ Passes c [w] d) ∨ b = false ∧ d = c := by
  rcases consume_eq_ok.mp h with ⟨rfl, rfl, rfl⟩ | ⟨rfl, -, rfl⟩
  · exact .inl ⟨rfl, c.current.lexeme, rfl, .advance hc hk⟩
  · exact .inr ⟨rfl, rfl⟩

theorem expect_sound {t : Token} (hc : Finished c.lexemes) (hk : kind ≠ .endOfInput)
    (h : expect kind c = .ok t d) : t.kind = kind ∧ Passes c [t.lexeme] d := by
  obtain ⟨rfl, rfl, rfl⟩ := expect_eq_ok.mp h
  exact ⟨rfl, .advance hc hk⟩

theorem expectAll_sound {u : Unit} (hc : Finished c.lexemes) (hk : .endOfInput ∉ kinds)
    (h : expectAll kinds c = .ok u d) : ∃ ws, Spell kinds ws ∧ Passes c ws d := by
  induction kinds generalizing c with
  | nil =>
    obtain ⟨-, rfl⟩ := pure_eq_ok.mp h
    exact ⟨[], rfl, .refl hc⟩
  | cons kind kinds ih =>
    obtain ⟨t, e, ht, hrest⟩ := bind_eq_ok.mp h
    obtain ⟨rfl, hpass⟩ := expect_sound hc (by grind) ht
    obtain ⟨ws, hws, hpass'⟩ := ih hpass.finished (by grind) hrest
    refine ⟨_, ?_, hpass.trans hpass'⟩
    rw [← hws]
    rfl

theorem consumeAll_sound {b : Bool} (hc : Finished c.lexemes) (hk : .endOfInput ∉ kinds)
    (h : consumeAll kinds c = .ok b d) : ∃ ws, Optionally kinds ws b ∧ Passes c ws d := by
  unfold consumeAll Rule.consumeAll at h
  rw [look_bind] at h
  split at h
  · obtain ⟨u, e, hu, hpure⟩ := bind_eq_ok.mp h
    obtain ⟨rfl, rfl⟩ := pure_eq_ok.mp hpure
    obtain ⟨ws, hws, hpass⟩ := expectAll_sound hc hk hu
    exact ⟨ws, .present hws, hpass⟩
  · obtain ⟨rfl, rfl⟩ := pure_eq_ok.mp h
    exact ⟨[], .absent, .refl hc⟩

end

section
variable {c : Cursor} {kind : TokenKind} {kinds : List TokenKind} {w : Lexeme}
  {ws rest : List Lexeme}

theorem kind_of_lexemes (h : c.lexemes = w :: rest) : c.kind = w.kind := by
  obtain ⟨rfl, -⟩ := Cursor.advance_of_lexemes h
  rfl

theorem yields_advance (h : c.lexemes = w :: rest) :
    ∃ t, t.lexeme = w ∧ Yields advance c t rest := by
  obtain ⟨hw, hrest⟩ := Cursor.advance_of_lexemes h
  exact ⟨c.current, hw, c.advance, rfl, hrest⟩

theorem yields_consume (h : c.lexemes = w :: rest) (hw : w.kind = kind) :
    Yields (consume kind) c true rest := by
  obtain ⟨-, hrest⟩ := Cursor.advance_of_lexemes h
  exact ⟨c.advance, consume_eq_ok.mpr (.inl ⟨rfl, (kind_of_lexemes h).trans hw, rfl⟩), hrest⟩

theorem yields_consume_false (hc : Finished rest) (h : c.lexemes = rest)
    (hk : kindAt rest 0 ≠ kind) : Yields (consume kind) c false rest := by
  subst h
  refine ⟨c, consume_eq_ok.mpr (.inr ⟨rfl, ?_, rfl⟩), rfl⟩
  rw [Cursor.kind_eq hc]
  exact hk

theorem yields_expect (h : c.lexemes = w :: rest) (hw : w.kind = kind) :
    ∃ t, t.lexeme = w ∧ Yields (expect kind) c t rest := by
  obtain ⟨hcurrent, hrest⟩ := Cursor.advance_of_lexemes h
  exact ⟨c.current, hcurrent, c.advance,
    expect_eq_ok.mpr ⟨(kind_of_lexemes h).trans hw, rfl, rfl⟩, hrest⟩

theorem yields_expectAll (h : c.lexemes = ws ++ rest) (hw : Spell kinds ws) :
    Yields (expectAll kinds) c () rest := by
  subst hw
  induction ws generalizing c with
  | nil => exact ⟨c, rfl, h⟩
  | cons w ws ih =>
    obtain ⟨t, -, ht⟩ := yields_expect h rfl
    exact ht.bind fun d hd => ih hd

theorem kinds_at_append (ws rest : List Lexeme) :
    (List.range ws.length).map (kindAt (ws ++ rest)) = ws.map Lexeme.kind := by
  apply List.ext_getElem
  · simp
  · intro i hi _
    simp only [List.length_map, List.length_range] at hi
    simp [kindAt, List.getElem?_append_left hi, hi]

/-- Words that may be left out are read when they are there, and left out when something
else comes next. -/
theorem yields_consumeAll {b : Bool} (hc : Finished rest) (h : c.lexemes = ws ++ rest)
    (hw : Optionally kinds ws b)
    (hrest : (List.range kinds.length).map (kindAt rest) ≠ kinds) :
    Yields (consumeAll kinds) c b rest := by
  have hpeek : c.peekKind = kindAt c.lexemes :=
    funext (Cursor.peekKind_eq (h ▸ hc.append ws))
  unfold consumeAll Rule.consumeAll
  show Yields (if _ then _ else _) c b rest
  cases hw with
  | absent =>
    rw [hpeek, h, List.nil_append, if_neg hrest]
    exact ⟨c, rfl, h⟩
  | present hw =>
    have hkinds : (List.range kinds.length).map (kindAt (ws ++ rest)) = kinds := by
      rw [← hw, List.length_map, kinds_at_append]
    rw [hpeek, h, if_pos hkinds]
    exact (yields_expectAll h hw).bind fun d hd => ⟨d, rfl, hd⟩

end

end Parse

end TagDialect
