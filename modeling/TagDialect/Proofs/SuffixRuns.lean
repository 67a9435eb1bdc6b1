-- A run from a token boundary on is the run on the text ahead, moved to where
-- the boundary is. What stands behind the boundary changes no kind and no text.
import TagDialect.Proofs.TokenPlaces

namespace TagDialect

/-! ## Moved places -/

/-- The place `q` of a text, when that text stands behind `p`. Only the text's first line goes on
in a line that has begun before. -/
def Place.shift (p q : Place) : Place where
  index := p.index + q.index
  offset := p.offset + q.offset
  line := p.line + (q.line - 1)
  column := if q.line = 1 then p.column + (q.column - 1) else q.column

/-- Lines and columns count from one. -/
structure Place.Counted (p : Place) : Prop where
  line : 1 ≤ p.line
  column : 1 ≤ p.column

theorem Place.counted_first : Place.first.Counted := ⟨Nat.le_refl 1, Nat.le_refl 1⟩

theorem Place.Counted.after {p : Place} (h : p.Counted) (c : Char) : (p.after c).Counted := by
  have hline := h.line
  unfold Place.after
  by_cases hc : c = '\n'
  · exact ⟨by simp [hc], by simp [hc]⟩
  · exact ⟨by simpa [hc] using hline, by simp [hc]⟩

theorem Place.shift_first (p : Place) : p.shift .first = p := rfl

theorem Place.shift_after (p : Place) {q : Place} (hq : q.Counted) (c : Char) :
    p.shift (q.after c) = (p.shift q).after c := by
  have hline := hq.line
  have hcolumn := hq.column
  unfold Place.shift Place.after
  by_cases hc : c = '\n'
  · have hlater : q.line + 1 ≠ 1 := by omega
    simp only [hc, ↓reduceIte, hlater, Place.mk.injEq]
    exact ⟨by omega, by omega, by omega, trivial⟩
  · simp only [hc, ↓reduceIte, Place.mk.injEq]
    exact ⟨by omega, by omega, trivial, by split <;> omega⟩

theorem Place.shift_past (p : Place) {q : Place} (hq : q.Counted) (cs : List Char) :
    p.shift (q.past cs) = (p.shift q).past cs := by
  induction cs generalizing q with
  | nil => rfl
  | cons c cs ih =>
    have hstep : (p.shift q).past (c :: cs) = ((p.shift q).after c).past cs := rfl
    rw [hstep, ← Place.shift_after p hq c]
    exact ih (hq.after c)

/-- A place in the text ahead is the place behind both parts. -/
theorem Place.shift_first_past (p : Place) (cs : List Char) :
    p.shift (Place.first.past cs) = p.past cs := by
  rw [Place.shift_past p counted_first, Place.shift_first]

def Span.shift (p : Place) (s : Span) : Span :=
  let start := p.shift ⟨0, s.start, s.line, s.column⟩
  ⟨start.offset, p.offset + s.stop, start.line, start.column⟩

theorem Place.shift_spanTo (p q r : Place) :
    (q.spanTo r).shift p = (p.shift q).spanTo (p.shift r) := rfl

def Token.shift (p : Place) (t : Token) : Token := { t with span := t.span.shift p }

def LexError.shift (p : Place) (e : LexError) : LexError :=
  let start := p.shift ⟨0, e.offset, e.line, e.column⟩
  { e with
    offset := start.offset
    line := start.line
    column := start.column
    extent := (p.offset + e.extent.1, e.extent.2) }

/-! ## One step -/

namespace Lexer

/-- What a call gives, when the text stands behind `p`. -/
def shiftCall (p : Place) (r : Except LexError Token) : Except LexError Token :=
  (r.map (Token.shift p)).mapError (LexError.shift p)

/-- What a call gives, wherever it is made: the lexeme, or the words of the error. -/
def bare (r : Except LexError Token) : Except (String × Char) Lexeme :=
  (r.map Token.lexeme).mapError fun e => (e.message, e.unexpected)

theorem bare_shiftCall (p : Place) (r : Except LexError Token) : bare (shiftCall p r) = bare r := by
  cases r <;> rfl

/-- Two lexers with the same text ahead. One has passed `lead` before the text of the other. -/
inductive Beside (text : String) (lead : List Char) (tail : String) : Lexer → Lexer → Prop
  | mk {before rest : List Char} (hcut : text.toList = lead ++ before ++ rest)
      (htail : tail.toList = before ++ rest) :
      Beside text lead tail (behind text (lead ++ before) rest) (behind tail before rest)

variable {text tail : String} {lead : List Char} {l m : Lexer}

theorem unterminated_shift (before rest : List Char) (u : Unterminated) :
    (behind text (lead ++ before) rest).unterminated u =
      ((behind tail before rest).unterminated u).shift (Place.first.past lead) := by
  have hplace := Place.shift_first_past (Place.first.past lead) before
  rw [← Place.past_append] at hplace
  unfold unterminated LexError.shift
  simp only [behind, ← hplace]
  rfl

theorem span_shift (before w : List Char) :
    (Place.first.past (lead ++ before)).spanTo (Place.first.past (lead ++ before ++ w)) =
      ((Place.first.past before).spanTo (Place.first.past (before ++ w))).shift
        (Place.first.past lead) := by
  rw [Place.shift_spanTo, Place.shift_first_past, Place.shift_first_past, List.append_assoc,
    Place.past_append, Place.past_append]

/-- What one step does on a text, it does behind any other. -/
inductive SameStep (text : String) (lead : List Char) (tail : String) :
    Except LexError (Token × Lexer) → Except LexError (Token × Lexer) → Prop
  | failure (e : LexError) :
      SameStep text lead tail (.error (e.shift (Place.first.past lead))) (.error e)
  | token (t : Token) {l m : Lexer} (h : Beside text lead tail l m) :
      SameStep text lead tail (.ok (t.shift (Place.first.past lead), l)) (.ok (t, m))

theorem Beside.next (h : Beside text lead tail l m) : SameStep text lead tail l.next m.next := by
  cases h with
  | @mk before rest hcut htail =>
    have hfound := found_next htail
    generalize (behind tail before rest).next = r at hfound ⊢
    cases hfound with
    | failure hne hfirst =>
      rw [next_of_unterminated ((pieceAt_of_behind hcut).trans hfirst), unterminated_shift]
      exact .failure _
    | finish =>
      have hspan := @span_shift lead before []
      rw [List.append_nil, List.append_nil] at hspan
      rw [next_at_end, hspan]
      exact .token ⟨.endOfInput, "", _⟩ ⟨hcut, htail⟩
    | @token kind w rest _ _ hfirst =>
      have hbeside : Beside text lead tail (behind text (lead ++ (before ++ w)) rest)
          (behind tail (before ++ w) rest) :=
        ⟨by rw [hcut]; simp only [List.append_assoc], by rw [htail, List.append_assoc]⟩
      rw [next_of_firstPiece hcut hfirst, span_shift]
      rw [← List.append_assoc] at hbeside
      exact .token ⟨kind, String.ofList w, _⟩ hbeside

/-! ## A whole run -/

theorem Beside.calls (h : Beside text lead tail l m) (n : Nat) :
    l.calls n = (m.calls n).map (shiftCall (Place.first.past lead)) := by
  induction n generalizing l m with
  | zero => rfl
  | succ n ih =>
    have hstep := h.next
    generalize hl : l.next = a at hstep
    generalize hm : m.next = b at hstep
    cases hstep with
    | failure e =>
      rw [Lexer.calls, Lexer.calls, call_of_failure hl, call_of_failure hm, ih h]
      rfl
    | token t hbeside =>
      rw [Lexer.calls, Lexer.calls, call_of_token hl, call_of_token hm, ih hbeside]
      rfl

theorem Beside.collect (h : Beside text lead tail l m) :
    l.collect (fun _ => true) =
      ((m.collect fun _ => true).map (List.map (Token.shift (Place.first.past lead)))).mapError
        (LexError.shift (Place.first.past lead)) := by
  induction hlength : m.rest.length using Nat.strongRecOn generalizing l m with
  | ind n ih =>
    have hstep := h.next
    generalize hl : l.next = a at hstep
    generalize hm : m.next = b at hstep
    cases hstep with
    | failure e =>
      rw [collect_of_failure hl, collect_of_failure hm]
      rfl
    | @token t l' m' hbeside =>
      by_cases hk : t.kind = .endOfInput
      · rw [collect_of_end hl hk, collect_of_end hm hk]
        rfl
      · have hshorter := length_lt_of_next hm hk
        rw [collect_of_token hl hk, collect_of_token hm hk, ih _ (hlength ▸ hshorter) hbeside rfl]
        cases m'.collect fun _ => true <;> rfl

/-- A lexer that a run comes to stands beside a lexer at the start of the text ahead. -/
theorem Reaches.beside (h : Reaches text l) :
    ∃ lead, text.toList = lead ++ l.rest ∧ l.place = Place.first.past lead ∧
      Beside text lead (String.ofList l.rest) l (ofText (String.ofList l.rest)) := by
  obtain ⟨lead, rest, hcut, rfl⟩ := h.cut
  have hbeside : Beside text lead (String.ofList rest) (behind text (lead ++ []) rest)
      (behind (String.ofList rest) [] rest) :=
    ⟨by rw [List.append_nil, hcut], String.toList_ofList⟩
  rw [List.append_nil] at hbeside
  refine ⟨lead, hcut, rfl, ?_⟩
  have hstart : ofText (String.ofList rest) = behind (String.ofList rest) [] rest := by
    unfold ofText behind
    rw [String.toList_ofList]
    rfl
  exact hstart ▸ hbeside

end Lexer

/-! ## The law -/

/-- The run from a token boundary on depends on the text ahead alone. Where a lexer on a text has
come to, it has passed the bytes before its place. What it still finds there ends the run on the
whole text, and is the run on the text ahead, tokens or error, with each place moved to behind
what was passed; and so is each call that is made from there on. Two texts that go on in the same
way from such places have the same kinds and texts from there on. -/
theorem the_run_from_a_boundary_depends_on_the_text_ahead {text : String} {l : Lexer}
    (h : Lexer.Reaches text l) :
    (dropBytes? l.place.offset text.toList = some l.rest ∧
      (l.place.line, l.place.column) = lineColumn text l.place.offset ∧
      ∃ passed, tokenizeAll text = (l.collect fun _ => true).map (passed ++ ·)) ∧
    l.collect (fun _ => true) =
      ((tokenizeAll (String.ofList l.rest)).map (List.map (Token.shift l.place))).mapError
        (LexError.shift l.place) ∧
    (∀ n, l.calls n =
      ((Lexer.ofText (String.ofList l.rest)).calls n).map (Lexer.shiftCall l.place)) ∧
    ∀ text' l', Lexer.Reaches text' l' → l'.rest = l.rest →
      ∀ n, (l'.calls n).map Lexer.bare = (l.calls n).map Lexer.bare := by
  have hbare {text : String} {l : Lexer} (h : Lexer.Reaches text l) (n : Nat) :
      (l.calls n).map Lexer.bare =
        ((Lexer.ofText (String.ofList l.rest)).calls n).map Lexer.bare := by
    obtain ⟨lead, -, -, hbeside⟩ := h.beside
    rw [hbeside.calls n, List.map_map]
    exact List.map_congr_left fun r _ => Lexer.bare_shiftCall _ r
  obtain ⟨lead, hcut, hplace, hbeside⟩ := h.beside
  refine ⟨⟨h.place.1, h.place.2, h.tokenizeAll_eq⟩, ?_, ?_, ?_⟩
  · rw [hplace]
    exact hbeside.collect
  · rw [hplace]
    exact hbeside.calls
  · intro text' l' h' hrest n
    rw [hbare h', hbare h, hrest]

/-- A star before the opener makes no closer of it. The comment is the one that the text ahead
begins with. -/
theorem a_star_before_an_opener_changes_nothing_behind_it :
    let l : Lexer := ⟨.ofText "*/*\n*/ x".toList, ⟨1, 1, 1, 2⟩, "/*\n*/ x".toList⟩
    Lexer.Reaches "*/*\n*/ x" l ∧
      tokenizeAll "/*\n*/ x" = .ok [⟨.blockComment, "/*\n*/", ⟨0, 5, 1, 1⟩⟩,
        ⟨.whitespace, " ", ⟨5, 6, 2, 3⟩⟩, ⟨.identifier, "x", ⟨6, 7, 2, 4⟩⟩,
        ⟨.endOfInput, "", ⟨7, 7, 2, 5⟩⟩] ∧
      l.collect (fun _ => true) = .ok [⟨.blockComment, "/*\n*/", ⟨1, 6, 1, 2⟩⟩,
        ⟨.whitespace, " ", ⟨6, 7, 2, 3⟩⟩, ⟨.identifier, "x", ⟨7, 8, 2, 4⟩⟩,
        ⟨.endOfInput, "", ⟨8, 8, 2, 5⟩⟩] := by
  intro l
  have hreaches : Lexer.Reaches "*/*\n*/ x" l := .next .start rfl
  have htail : tokenizeAll "/*\n*/ x" = .ok [⟨.blockComment, "/*\n*/", ⟨0, 5, 1, 1⟩⟩,
      ⟨.whitespace, " ", ⟨5, 6, 2, 3⟩⟩, ⟨.identifier, "x", ⟨6, 7, 2, 4⟩⟩,
      ⟨.endOfInput, "", ⟨7, 7, 2, 5⟩⟩] := by
    have hcomment : firstPiece "/*\n*/ x".toList = .ok (.blockComment, 5) := firstPiece_opener rfl
    refine tokenizeAll_eq_ok.mpr ⟨[⟨.blockComment, "/*\n*/"⟩, ⟨.whitespace, " "⟩,
      ⟨.identifier, "x"⟩], ?_, rfl, rfl⟩
    exact ⟨by simp, hcomment, by simp, rfl, by simp, rfl, trivial⟩
  obtain ⟨-, hrun, -, -⟩ := the_run_from_a_boundary_depends_on_the_text_ahead hreaches
  refine ⟨hreaches, htail, ?_⟩
  rw [hrun, show String.ofList l.rest = "/*\n*/ x" from rfl, htail]
  rfl

end TagDialect
