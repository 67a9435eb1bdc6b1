-- The tokens of a text are its pieces, one after the other, each at its own
-- place. Which piece comes next depends on what is ahead alone, and where it
-- stands on what is behind alone.
import TagDialect.Lines
import TagDialect.Proofs.Grammar
import TagDialect.Proofs.PieceForms
import Mathlib.Data.List.Chain

namespace TagDialect

/-! ## Pieces -/

/-- The characters of the lexemes. -/
def chars (ws : List Lexeme) : List Char := ws.flatMap fun w => w.text.toList

@[simp] theorem chars_nil : chars [] = [] := rfl

@[simp] theorem chars_cons (w : Lexeme) (ws : List Lexeme) :
    chars (w :: ws) = w.text.toList ++ chars ws := rfl

@[simp] theorem chars_append (ws vs : List Lexeme) : chars (ws ++ vs) = chars ws ++ chars vs :=
  List.flatMap_append

/-- The lexemes are the pieces of their own characters, when `rest` comes behind these. -/
def Pieces : List Lexeme → List Char → Prop
  | [], _ => True
  | w :: ws, rest =>
    w.kind ≠ .endOfInput ∧
      firstPiece (w.text.toList ++ (chars ws ++ rest)) = .ok (w.kind, w.text.toList.length) ∧
      Pieces ws rest

instance decidablePieces : (ws : List Lexeme) → (rest : List Char) → Decidable (Pieces ws rest)
  | [], _ => .isTrue trivial
  | w :: ws, rest =>
    have := decidablePieces ws rest
    inferInstanceAs (Decidable (w.kind ≠ .endOfInput ∧
      firstPiece (w.text.toList ++ (chars ws ++ rest)) = .ok (w.kind, w.text.toList.length) ∧
      Pieces ws rest))

theorem Pieces.append_iff {ws vs : List Lexeme} {rest : List Char} :
    Pieces (ws ++ vs) rest ↔ Pieces ws (chars vs ++ rest) ∧ Pieces vs rest := by
  induction ws with
  | nil => simp [Pieces]
  | cons w ws ih => simp [Pieces, ih, and_assoc]

theorem Pieces.text_ne_nil {ws : List Lexeme} {rest : List Char} (h : Pieces ws rest)
    {w : Lexeme} (hw : w ∈ ws) : w.text.toList ≠ [] := by
  obtain ⟨us, vs, rfl⟩ := List.mem_iff_append.mp hw
  obtain ⟨hend, hpiece, -⟩ := (Pieces.append_iff.mp h).2
  intro hnil
  rw [hnil, List.nil_append, List.length_nil] at hpiece
  cases hrest : chars vs ++ rest with
  | nil =>
    rw [hrest] at hpiece
    simp only [firstPiece, pieceAt, Except.ok.injEq, Prod.mk.injEq] at hpiece
    exact hend hpiece.1.symm
  | cons c cs =>
    rw [hrest] at hpiece
    have := pos_of_pieceAt hpiece
    omega

theorem Pieces.kind_ne {ws : List Lexeme} {rest : List Char} (h : Pieces ws rest) {w : Lexeme}
    (hw : w ∈ ws) : w.kind ≠ .endOfInput := by
  obtain ⟨us, vs, rfl⟩ := List.mem_iff_append.mp hw
  exact (Pieces.append_iff.mp h).2.1

/-! ## Tokens at their places -/

/-- The end of the input. -/
def Lexeme.finish : Lexeme := ⟨.endOfInput, ""⟩

/-- The lexemes as tokens, one behind the other from a place on. -/
def placed (p : Place) : List Lexeme → List Token
  | [] => []
  | w :: ws =>
    ⟨w.kind, w.text, p.spanTo (p.past w.text.toList)⟩ :: placed (p.past w.text.toList) ws

theorem placed_append (p : Place) (ws vs : List Lexeme) :
    placed p (ws ++ vs) = placed p ws ++ placed (p.past (chars ws)) vs := by
  induction ws generalizing p with
  | nil => rfl
  | cons w ws ih => simp only [List.cons_append, placed, chars_cons, Place.past_append, ih]

@[simp] theorem lexemes_placed (p : Place) (ws : List Lexeme) :
    (placed p ws).map Token.lexeme = ws := by
  induction ws generalizing p with
  | nil => rfl
  | cons w ws ih => simp only [placed, List.map_cons, ih, Token.lexeme]

/-- Each token stands where the lexemes before it end. -/
theorem mem_placed {p : Place} {ws : List Lexeme} {t : Token} (h : t ∈ placed p ws) :
    ∃ us vs, ws = us ++ t.lexeme :: vs ∧
      t.span = (p.past (chars us)).spanTo (p.past (chars us ++ t.text.toList)) := by
  induction ws generalizing p with
  | nil => simp [placed] at h
  | cons w ws ih =>
    rcases List.mem_cons.mp h with rfl | h
    · exact ⟨[], ws, rfl, rfl⟩
    · obtain ⟨us, vs, hws, hspan⟩ := ih h
      refine ⟨w :: us, vs, by rw [hws, List.cons_append], ?_⟩
      simp only [hspan, chars_cons, Place.past_append]

/-! ## The run of a lexer -/

namespace Lexer

theorem pieceAt_of_behind {text : String} {before rest : List Char}
    (hcut : text.toList = before ++ rest) :
    pieceAt (behind text before rest).comments (behind text before rest).place.index rest =
      firstPiece rest := by
  rw [behind_index]
  simp only [behind, hcut]
  exact pieceAt_behind before rest

/-- At the end of the text the run is over. -/
theorem next_at_end (text : String) (before : List Char) :
    (behind text before []).next =
      .ok (⟨.endOfInput, "", (Place.first.past before).spanTo (Place.first.past before)⟩,
        behind text before []) := rfl

/-- One step takes the first piece of what is ahead. -/
theorem next_of_firstPiece {text : String} {before w rest : List Char} {kind : TokenKind}
    (hcut : text.toList = before ++ (w ++ rest))
    (h : firstPiece (w ++ rest) = .ok (kind, w.length)) :
    (behind text before (w ++ rest)).next =
      .ok (⟨kind, String.ofList w, (Place.first.past before).spanTo (Place.first.past (before ++ w))⟩,
        behind text (before ++ w) rest) := by
  rw [← pieceAt_of_behind hcut] at h
  rw [next_of_pieceAt h]
  simp only [behind, List.take_left, List.drop_left, Place.past_append]

/-- A text that is one piece gives that piece. -/
theorem next_of_whole {text : String} {kind : TokenKind}
    (h : firstPiece text.toList = .ok (kind, text.toList.length)) :
    ∃ t l', (ofText text).next = .ok (t, l') ∧ t.kind = kind ∧ t.text = text := by
  have hcut : text.toList = [] ++ (text.toList ++ []) := by simp
  rw [← List.append_nil text.toList] at h
  have hnext := next_of_firstPiece hcut (by simpa using h)
  rw [List.append_nil] at hnext
  exact ⟨_, _, hnext, rfl, String.ofList_toList⟩

/-- What a call finds behind a part of a text: a quoted piece that never ends, the end of the
input, or a token that is not empty. -/
inductive Found (text : String) (before : List Char) :
    List Char → Except LexError (Token × Lexer) → Prop
  | failure {rest : List Char} {u : Unterminated} (hne : rest ≠ [])
      (hpiece : firstPiece rest = .error u) :
      Found text before rest (.error ((behind text before rest).unterminated u))
  | finish : Found text before [] (.ok (⟨.endOfInput, "",
      (Place.first.past before).spanTo (Place.first.past before)⟩, behind text before []))
  | token {kind : TokenKind} {w rest : List Char} (hw : w ≠ []) (hk : kind ≠ .endOfInput)
      (hpiece : firstPiece (w ++ rest) = .ok (kind, w.length)) :
      Found text before (w ++ rest) (.ok (⟨kind, String.ofList w,
        (Place.first.past before).spanTo (Place.first.past (before ++ w))⟩,
        behind text (before ++ w) rest))

theorem found_next {text : String} {before rest : List Char}
    (hcut : text.toList = before ++ rest) :
    Found text before rest (behind text before rest).next := by
  have hpiece := pieceAt_of_behind hcut
  cases rest with
  | nil => exact .finish
  | cons c cs =>
    cases hfirst : firstPiece (c :: cs) with
    | error u =>
      rw [next_of_unterminated (hpiece.trans hfirst)]
      exact .failure (List.cons_ne_nil c cs) hfirst
    | ok piece =>
      obtain ⟨kind, n⟩ := piece
      have hform := firstPiece_eq_ok.mp hfirst
      have hpos := pos_of_pieceAt hfirst
      obtain ⟨w, rest, hw, rfl⟩ : ∃ w rest, c :: cs = w ++ rest ∧ w.length = n :=
        ⟨_, _, (List.take_append_drop n (c :: cs)).symm, List.length_take_of_le hform.le_length⟩
      rw [hw] at hfirst hcut ⊢
      rw [next_of_firstPiece hcut hfirst]
      exact .token (List.ne_nil_of_length_pos hpos) hform.ne_endOfInput hfirst

/-- A run that ends has found the pieces of what was ahead. -/
theorem pieces_of_collect {text : String} {l : Lexer} {ts : List Token}
    (h : l.collect (fun _ => true) = .ok ts) {before rest : List Char}
    (hcut : text.toList = before ++ rest) (hl : l = behind text before rest) :
    ∃ ws, Pieces ws [] ∧ chars ws = rest ∧ ts = placed l.place (ws ++ [.finish]) := by
  fun_induction collect (fun _ => true) l generalizing ts before rest with
  | case1 => simp at h
  | case2 l t l' hnext hk =>
    subst hl
    have hfound := found_next hcut
    rw [hnext] at hfound
    cases hfound with
    | finish => exact ⟨[], trivial, rfl, (Except.ok.inj h).symm⟩
    | token _ hk' _ => exact absurd hk hk'
  | case3 => simp at h
  | case4 l t l' hnext hk us hus ih =>
    subst hl
    have hfound := found_next hcut
    rw [hnext] at hfound
    cases hfound with
    | finish => exact absurd rfl hk
    | @token kind w rest _ hk' hpiece =>
      obtain ⟨ws, hws, rfl, rfl⟩ := ih hus (hcut.trans (List.append_assoc ..).symm) rfl
      refine ⟨⟨kind, String.ofList w⟩ :: ws, ⟨hk', ?_, hws⟩, by simp, ?_⟩
      · simpa using hpiece
      · rw [← Except.ok.inj h]
        simp [behind, placed, Place.past_append]

/-- The pieces of what is ahead are found. -/
theorem collect_of_pieces {text : String} {before : List Char} {ws : List Lexeme}
    (hcut : text.toList = before ++ chars ws) (h : Pieces ws []) :
    (behind text before (chars ws)).collect (fun _ => true) =
      .ok (placed (Place.first.past before) (ws ++ [.finish])) := by
  induction ws generalizing before with
  | nil => exact collect_of_end (next_at_end text before) rfl
  | cons w ws ih =>
    obtain ⟨hk, hfirst, hrest⟩ := h
    rw [List.append_nil] at hfirst
    rw [chars_cons] at hcut ⊢
    have hnext := next_of_firstPiece hcut hfirst
    rw [← List.append_assoc] at hcut
    rw [collect_of_kept hnext hk rfl (ih hcut hrest)]
    simp [placed, Place.past_append]

/-- Tokens that are not kept make no difference to the run. -/
theorem collect_eq_filter {keep : Token → Bool}
    (hkeep : ∀ t : Token, t.kind = .endOfInput → keep t = true) (l : Lexer) :
    l.collect keep = (l.collect fun _ => true).map (List.filter keep) := by
  fun_induction collect (fun _ => true) l with
  | case1 l e hnext =>
    unfold collect
    split
    · rename_i hnext'
      rw [hnext] at hnext'
      rw [← Except.error.inj hnext']
      rfl
    · rename_i hnext'
      simp [hnext] at hnext'
  | case2 l t l' hnext hk =>
    rw [collect_of_end hnext hk, Except.map, List.filter_cons_of_pos (hkeep t hk), List.filter_nil]
  | case3 l t l' hnext hk e he ih =>
    rw [he] at ih
    rw [collect]
    split
    · rename_i hnext'
      simp [hnext] at hnext'
    · rename_i hnext'
      obtain ⟨rfl, rfl⟩ : t = _ ∧ l' = _ := by simpa [hnext] using hnext'
      rw [dif_neg hk]
      simp only [ih]
      rfl
  | case4 l t l' hnext hk us hus ih =>
    rw [hus] at ih
    rw [collect_of_next hnext hk ih]
    simp [Except.map, List.filter_cons]

end Lexer

/-- The tokens of a text are its pieces at their places, and the end of the input. -/
theorem tokenizeAll_eq_ok {text : String} {tokens : List Token} :
    tokenizeAll text = .ok tokens ↔
      ∃ ws, Pieces ws [] ∧ chars ws = text.toList ∧ tokens = placed .first (ws ++ [.finish]) := by
  constructor
  · intro h
    exact Lexer.pieces_of_collect h (List.nil_append text.toList).symm rfl
  · rintro ⟨ws, hws, hchars, rfl⟩
    have hrun := Lexer.collect_of_pieces ((List.nil_append _).trans hchars).symm hws
    rwa [hchars] at hrun

/-- What a lexer finds from a place that its run comes to ends the run on the text. -/
theorem Lexer.Reaches.tokenizeAll_eq {text : String} {l : Lexer} (h : Lexer.Reaches text l) :
    ∃ passed, tokenizeAll text = (l.collect fun _ => true).map (passed ++ ·) := by
  induction h with
  | start => exact ⟨[], by unfold tokenizeAll; cases (Lexer.ofText text).collect _ <;> rfl⟩
  | @next l l' t hreaches hnext ih =>
    obtain ⟨passed, hpassed⟩ := ih
    by_cases hk : t.kind = .endOfInput
    · -- the end of the input leaves the lexer where it is
      obtain ⟨before, rest, hcut, rfl⟩ := hreaches.cut
      have hfound := Lexer.found_next hcut
      rw [hnext] at hfound
      cases hfound with
      | finish => exact ⟨passed, hpassed⟩
      | token _ hk' _ => exact absurd hk hk'
    · refine ⟨passed ++ [t], ?_⟩
      rw [hpassed, Lexer.collect_of_token hnext hk]
      cases l'.collect fun _ => true <;> simp [Except.map]

/-- Without the hidden tokens a text has the same tokens, or the same error. -/
theorem tokenize_eq_filter (text : String) :
    tokenize text = (tokenizeAll text).map (List.filter fun t => !t.kind.isHidden) := by
  apply Lexer.collect_eq_filter
  intro t ht
  rw [ht]
  rfl

/-- Whether a statement's meaning depends on the lexeme. -/
def Lexeme.isVisible (w : Lexeme) : Bool := !w.kind.isHidden

/-- The tokens that the meaning of a text depends on are its visible pieces at their places,
and the end of the input. -/
theorem tokenize_eq_ok {text : String} {tokens : List Token} :
    tokenize text = .ok tokens ↔
      ∃ ws, Pieces ws [] ∧ chars ws = text.toList ∧
        tokens = (placed .first (ws ++ [.finish])).filter fun t => t.lexeme.isVisible := by
  rw [tokenize_eq_filter]
  constructor
  · intro h
    cases hall : tokenizeAll text with
    | error e => simp [hall, Except.map] at h
    | ok all =>
      obtain ⟨ws, hws, hchars, rfl⟩ := tokenizeAll_eq_ok.mp hall
      rw [hall] at h
      exact ⟨ws, hws, hchars, (Except.ok.inj h).symm⟩
  · rintro ⟨ws, hws, hchars, rfl⟩
    rw [tokenizeAll_eq_ok.mpr ⟨ws, hws, hchars, rfl⟩]
    rfl

theorem lexemes_visible (p : Place) (ws : List Lexeme) :
    ((placed p ws).filter fun t => t.lexeme.isVisible).map Token.lexeme =
      ws.filter Lexeme.isVisible := by
  have hfilter := List.filter_map (f := Token.lexeme) (p := Lexeme.isVisible) (l := placed p ws)
  rw [lexemes_placed] at hfilter
  exact hfilter.symm

/-- A token that the meaning of a text depends on stands between two parts of the text. It is the
piece that the text goes on with there, or the end of the input. -/
theorem cut_of_token {text : String} {tokens : List Token} (h : tokenize text = .ok tokens)
    {t : Token} (ht : t ∈ tokens) :
    ∃ before rest, text.toList = before ++ (t.text.toList ++ rest) ∧
      t.span = (Place.first.past before).spanTo (Place.first.past (before ++ t.text.toList)) ∧
      t.lexeme.isVisible = true ∧
      (t.lexeme = .finish ∧ rest = [] ∨
        firstPiece (t.text.toList ++ rest) = .ok (t.kind, t.text.toList.length)) := by
  obtain ⟨ws, hws, hchars, rfl⟩ := tokenize_eq_ok.mp h
  obtain ⟨hplaced, hvisible⟩ := List.mem_filter.mp ht
  obtain ⟨us, vs, hcut, hspan⟩ := mem_placed hplaced
  rcases List.eq_nil_or_concat vs with rfl | ⟨vs, e, rfl⟩
  · obtain ⟨rfl, hfinish⟩ := List.append_inj' hcut rfl
    have hlast : t.lexeme = .finish := (List.cons.inj hfinish).1.symm
    have hempty : t.text.toList = [] := congrArg (fun w : Lexeme => w.text.toList) hlast
    exact ⟨chars ws, [], by simp [hempty, hchars], hspan, hvisible, .inl ⟨hlast, rfl⟩⟩
  · have hinner : ws ++ [.finish] = (us ++ t.lexeme :: vs) ++ [e] := by
      rw [hcut, List.concat_eq_append]
      simp
    obtain ⟨rfl, -⟩ := List.append_inj' hinner rfl
    obtain ⟨-, hpiece, -⟩ := (Pieces.append_iff.mp hws).2
    rw [List.append_nil] at hpiece
    exact ⟨chars us, chars vs, by rw [← hchars, chars_append, chars_cons]; rfl, hspan, hvisible,
      .inr hpiece⟩

/-! ## Bytes, lines and columns of a place -/

theorem Place.offset_past (p : Place) (cs : List Char) :
    (p.past cs).offset = p.offset + byteLength cs := by
  induction cs generalizing p with
  | nil => rfl
  | cons c cs ih =>
    have hstep : p.past (c :: cs) = (p.after c).past cs := rfl
    rw [hstep, ih]
    simp only [Place.after, byteLength]
    omega

theorem Place.offset_first (cs : List Char) : (Place.first.past cs).offset = byteLength cs := by
  rw [Place.offset_past]
  exact Nat.zero_add _

theorem countTo_cons (line column : Nat) (c : Char) (cs : List Char) (n : Nat) :
    countTo line column (c :: cs) (c.utf8Size + n) =
      if c = '\n' then countTo (line + 1) 1 cs n else countTo line (column + 1) cs n := by
  have hpos := c.utf8Size_pos
  obtain ⟨k, hk⟩ : ∃ k, c.utf8Size + n = k + 1 := ⟨c.utf8Size + n - 1, by omega⟩
  have hn : k + 1 - c.utf8Size = n := by omega
  rw [hk, countTo, hn]

/-- Counting from the start of a text up to a place gives the place's line and column. -/
theorem countTo_past (p : Place) (before rest : List Char) :
    countTo p.line p.column (before ++ rest) (byteLength before) =
      ((p.past before).line, (p.past before).column) := by
  induction before generalizing p with
  | nil => cases rest <;> rfl
  | cons c cs ih =>
    have hstep : p.past (c :: cs) = (p.after c).past cs := rfl
    have hafter := ih (p.after c)
    rw [hstep, ← hafter, List.cons_append, byteLength, countTo_cons]
    unfold Place.after
    split <;> rfl

theorem dropBytes?_append (cs ds : List Char) :
    dropBytes? (byteLength cs) (cs ++ ds) = some ds := by
  induction cs with
  | nil => exact dropBytes?.eq_1 ds
  | cons c cs ih =>
    have hpos := c.utf8Size_pos
    obtain ⟨k, hk⟩ : ∃ k, byteLength (c :: cs) = k + 1 :=
      ⟨byteLength (c :: cs) - 1, by simp only [byteLength]; omega⟩
    have hrest : k + 1 - c.utf8Size = byteLength cs := by simp only [byteLength] at hk; omega
    rw [hk, List.cons_append, dropBytes?, if_pos (by simp only [byteLength] at hk; omega), hrest, ih]

/-- The bytes between two parts of a text are those of what stands there. -/
theorem slice?_between (before inner rest : List Char) :
    slice? (before ++ (inner ++ rest)) (byteLength before) (byteLength (before ++ inner)) =
      some inner := by
  have hlength : byteLength (before ++ inner) - byteLength before = byteLength inner := by
    rw [byteLength_append]
    omega
  unfold slice?
  rw [if_pos (by rw [byteLength_append]; omega), dropBytes?_append, hlength]
  exact takeBytes?_append inner rest

/-- A lexer knows where it stands: how many bytes it has passed, and on which line and column. -/
theorem Lexer.Reaches.place {text : String} {l : Lexer} (h : Lexer.Reaches text l) :
    dropBytes? l.place.offset text.toList = some l.rest ∧
      (l.place.line, l.place.column) = lineColumn text l.place.offset := by
  obtain ⟨before, rest, hcut, rfl⟩ := h.cut
  simp only [Lexer.behind, Place.offset_first, lineColumn, hcut]
  exact ⟨dropBytes?_append before rest, (countTo_past .first before rest).symm⟩

/-! ## The law of the tokens of a text -/

theorem texts_placed (p : Place) (ws : List Lexeme) :
    ((placed p ws).map Token.text).flatMap String.toList = chars ws := by
  have htexts : (placed p ws).map Token.text = ws.map Lexeme.text := by
    rw [← lexemes_placed p ws, List.map_map, lexemes_placed]
    rfl
  rw [htexts, List.flatMap_map]
  rfl

theorem placed_contiguous (p : Place) (ws : List Lexeme) :
    (placed p ws).IsChain fun a b => a.span.stop = b.span.start := by
  induction ws generalizing p with
  | nil => exact .nil
  | cons w ws ih =>
    cases ws with
    | nil => exact .singleton _
    | cons v vs => exact .cons_cons rfl (ih _)

/-- No character is lost, doubled or misplaced. The texts of all tokens make the input; the
spans come one right behind the other, from the first byte to the last; each text is what
stands at its span, and each line and column is that of the span's start; only the end of
the input, which comes last, is empty. The tokens that are not hidden are what is left of
all tokens, with the same error when there is one. -/
theorem every_character_is_in_one_token (text : String) :
    (∀ tokens, tokenizeAll text = .ok tokens →
      String.join (tokens.map Token.text) = text ∧
      (tokens.head?.map fun t => t.span.start) = some 0 ∧
      (tokens.IsChain fun a b => a.span.stop = b.span.start) ∧
      (tokens.getLast?.map fun t => t.span.stop) = some (byteLength text.toList) ∧
      (∀ t ∈ tokens, slice? text.toList t.span.start t.span.stop = some t.text.toList ∧
        (t.span.line, t.span.column) = lineColumn text t.span.start) ∧
      ∃ us e, tokens = us ++ [e] ∧ e.kind = .endOfInput ∧
        ∀ u ∈ us, u.kind ≠ .endOfInput ∧ u.text ≠ "") ∧
    tokenize text = (tokenizeAll text).map (List.filter fun t => !t.kind.isHidden) := by
  refine ⟨?_, tokenize_eq_filter text⟩
  intro tokens h
  obtain ⟨ws, hws, hchars, rfl⟩ := tokenizeAll_eq_ok.mp h
  have hfinish : chars (ws ++ [.finish]) = text.toList := by
    rw [chars_append, hchars]
    exact List.append_nil _
  refine ⟨?_, ?_, placed_contiguous _ _, ?_, ?_, ?_⟩
  · rw [← String.toList_inj, String.toList_join, texts_placed, hfinish]
  · cases ws <;> rfl
  · rw [placed_append, placed, placed, List.getLast?_concat, Option.map_some, hchars]
    exact congrArg some (Place.offset_first text.toList)
  · intro t ht
    obtain ⟨us, vs, hcut, hspan⟩ := mem_placed ht
    have htext : text.toList = chars us ++ (t.text.toList ++ chars vs) := by
      rw [← hfinish, hcut, chars_append, chars_cons]
      rfl
    have hstart : t.span.start = byteLength (chars us) := by
      rw [hspan]
      exact Place.offset_first _
    have hstop : t.span.stop = byteLength (chars us ++ t.text.toList) := by
      rw [hspan]
      exact Place.offset_first _
    constructor
    · rw [hstart, hstop, htext]
      exact slice?_between _ _ _
    · rw [hstart, lineColumn, htext, hspan]
      exact (countTo_past .first (chars us) _).symm
  · refine ⟨placed .first ws, _, placed_append .first ws [.finish], rfl, ?_⟩
    intro u hu
    have hmem : u.lexeme ∈ ws := by
      rw [← lexemes_placed .first ws]
      exact List.mem_map_of_mem hu
    refine ⟨hws.kind_ne hmem, ?_⟩
    intro hempty
    apply hws.text_ne_nil hmem
    rw [← String.toList_empty, ← hempty]
    rfl

/-- A string over two lines, with a character of two bytes in it, and a word behind it. -/
theorem a_word_behind_a_string_of_two_lines :
    let tokens : List Token := [⟨.string, "'é\n'", ⟨0, 5, 1, 1⟩⟩, ⟨.whitespace, " ", ⟨5, 6, 2, 2⟩⟩,
      ⟨.identifier, "x", ⟨6, 7, 2, 3⟩⟩, ⟨.endOfInput, "", ⟨7, 7, 2, 4⟩⟩]
    tokenizeAll "'é\n' x" = .ok tokens ∧
      slice? "'é\n' x".toList 6 7 = some ['x'] ∧ lineColumn "'é\n' x" 6 = (2, 3) := by
  intro tokens
  have htokens : tokenizeAll "'é\n' x" = .ok tokens := by
    unfold tokenizeAll
    refine Lexer.collect_of_kept rfl (by simp) rfl ?_
    refine Lexer.collect_of_kept rfl (by simp) rfl ?_
    refine Lexer.collect_of_kept rfl (by simp) rfl ?_
    exact Lexer.collect_of_end rfl rfl
  obtain ⟨-, -, -, -, hplaces, -⟩ := (every_character_is_in_one_token "'é\n' x").1 tokens htokens
  have hword := hplaces ⟨.identifier, "x", ⟨6, 7, 2, 3⟩⟩ (by simp [tokens])
  exact ⟨htokens, hword.1, hword.2.symm⟩

end TagDialect
