-- The lexer fails on one thing alone: a quote at a token boundary that is never
-- closed. It stays there, so it fails in the same way each time it is asked.
import TagDialect.Proofs.TokenPlaces

namespace TagDialect

/-! ## Closed quotes -/

/-- From left to right, each backslash stands before a character that it hides. -/
inductive Paired : List Char → Prop
  | nil : Paired []
  | hidden {cs : List Char} (c : Char) (h : Paired cs) : Paired ('\\' :: c :: cs)
  | plain {c : Char} {cs : List Char} (hc : c ≠ '\\') (h : Paired cs) : Paired (c :: cs)

/-- From left to right, each tick stands before a second one. -/
inductive Twinned : List Char → Prop
  | nil : Twinned []
  | twins {cs : List Char} (h : Twinned cs) : Twinned ('`' :: '`' :: cs)
  | plain {c : Char} {cs : List Char} (hc : c ≠ '`') (h : Twinned cs) : Twinned (c :: cs)

/-- What opens with the quote is closed in the text behind it. A quote comes there again that no
backslash hides, or a tick that is left over when two in a row are skipped. -/
inductive ClosedIn : Char → List Char → Prop
  | string {quote : Char} {inner rest : List Char} (hq : quote = '\'' ∨ quote = '"')
      (h : Paired inner) : ClosedIn quote (inner ++ quote :: rest)
  | name {inner rest : List Char} (h : Twinned inner) (hrest : rest.head? ≠ some '`') :
      ClosedIn '`' (inner ++ '`' :: rest)

/-- A quote that is never closed in the text behind it. -/
structure Unclosed (quote : Char) (rest : List Char) : Prop where
  kind : (quote = '\'' ∨ quote = '"') ∨ quote = '`'
  never : ¬ ClosedIn quote rest

/-! ## The scans for the end of a quoted piece -/

theorem stringLength?_isSome_of_paired {quote : Char} (hq : quote ≠ '\\') {inner : List Char}
    (h : Paired inner) (rest : List Char) :
    (stringLength? quote (inner ++ quote :: rest)).isSome = true := by
  induction h with
  | nil => rw [List.nil_append, stringLength?_quote hq, Option.isSome_some]
  | hidden c _ ih => rw [List.cons_append, List.cons_append, stringLength?_slash, Option.isSome_map, ih]
  | @plain c cs hc _ ih =>
    by_cases hquote : c = quote
    · rw [List.cons_append, hquote, stringLength?_quote hq, Option.isSome_some]
    · rw [List.cons_append, stringLength?_cons _ hc hquote, Option.isSome_map, ih]

theorem exists_paired_of_stringLength? {quote : Char} {cs : List Char} {n : Nat}
    (h : stringLength? quote cs = some n) :
    ∃ inner rest, cs = inner ++ quote :: rest ∧ Paired inner := by
  fun_induction stringLength? quote cs generalizing n with
  | case1 => simp at h
  | case2 => simp at h
  | case3 d ds ih =>
    obtain ⟨m, hm, -⟩ := Option.map_eq_some_iff.mp h
    obtain ⟨inner, rest, rfl, hinner⟩ := ih hm
    exact ⟨'\\' :: d :: inner, rest, rfl, .hidden d hinner⟩
  | case4 cs _ => exact ⟨[], cs, rfl, .nil⟩
  | case5 c cs hslash _ ih =>
    obtain ⟨m, hm, -⟩ := Option.map_eq_some_iff.mp h
    obtain ⟨inner, rest, rfl, hinner⟩ := ih hm
    exact ⟨c :: inner, rest, rfl, .plain hslash hinner⟩

theorem nameLength?_isSome_of_twinned {inner rest : List Char} (h : Twinned inner)
    (hrest : rest.head? ≠ some '`') : (nameLength? (inner ++ '`' :: rest)).isSome = true := by
  induction h with
  | nil => rw [List.nil_append, nameLength?_tick hrest, Option.isSome_some]
  | twins _ ih => simp [nameLength?, ih]
  | plain hc _ ih => rw [List.cons_append, nameLength?_cons _ hc, Option.isSome_map, ih]

theorem exists_twinned_of_nameLength? {cs : List Char} {n : Nat} (h : nameLength? cs = some n) :
    ∃ inner rest, cs = inner ++ '`' :: rest ∧ Twinned inner ∧ rest.head? ≠ some '`' := by
  fun_induction nameLength? cs generalizing n with
  | case1 => simp at h
  | case2 => exact ⟨[], [], rfl, .nil, by simp⟩
  | case3 => simp at h
  | case4 cs ih =>
    obtain ⟨m, hm, -⟩ := Option.map_eq_some_iff.mp h
    obtain ⟨inner, rest, rfl, hinner, hrest⟩ := ih hm
    exact ⟨'`' :: '`' :: inner, rest, rfl, .twins hinner, hrest⟩
  | case5 d cs htick => exact ⟨[], d :: cs, rfl, .nil, by simpa using htick⟩
  | case6 c d cs htick ih =>
    obtain ⟨m, hm, -⟩ := Option.map_eq_some_iff.mp h
    obtain ⟨inner, rest, hcut, hinner, hrest⟩ := ih hm
    exact ⟨c :: inner, rest, by rw [hcut]; rfl, .plain htick hinner, hrest⟩

/-- A string's scan finds an end when the quote is closed. -/
theorem closedIn_iff_string {quote : Char} (hq : quote = '\'' ∨ quote = '"') (rest : List Char) :
    ClosedIn quote rest ↔ (stringLength? quote rest).isSome = true := by
  constructor
  · intro h
    cases h with
    | string _ hinner =>
      exact stringLength?_isSome_of_paired (by rcases hq with rfl | rfl <;> decide) hinner _
    | name => rcases hq with hq | hq <;> contradiction
  · intro h
    obtain ⟨n, hn⟩ := Option.isSome_iff_exists.mp h
    obtain ⟨inner, rest, rfl, hinner⟩ := exists_paired_of_stringLength? hn
    exact .string hq hinner

/-- A name's scan finds an end when the tick is closed. -/
theorem closedIn_iff_name (rest : List Char) :
    ClosedIn '`' rest ↔ (nameLength? rest).isSome = true := by
  constructor
  · intro h
    generalize hquote : '`' = quote at h
    cases h with
    | string hq => rcases hq with rfl | rfl <;> contradiction
    | name hinner hrest =>
      exact nameLength?_isSome_of_twinned hinner hrest
  · intro h
    obtain ⟨n, hn⟩ := Option.isSome_iff_exists.mp h
    obtain ⟨inner, rest, rfl, hinner, hrest⟩ := exists_twinned_of_nameLength? hn
    exact .name hinner hrest

/-! ## What stops a call -/

/-- No piece but a quoted one can be without an end. -/
theorem unclosed_of_firstPiece {c : Char} {cs : List Char} {u : Unterminated}
    (h : firstPiece (c :: cs) = .error u) : Unclosed c cs ∧ u.opener = c := by
  by_cases hq : c = '\'' ∨ c = '"'
  · rw [firstPiece_quote cs hq] at h
    cases hn : stringLength? c cs with
    | some n => simp [hn] at h
    | none =>
      obtain rfl : Unterminated.string c = u := by simpa [hn] using h
      exact ⟨⟨.inl hq, by simp [closedIn_iff_string hq, hn]⟩, rfl⟩
  · by_cases htick : c = '`'
    · subst htick
      rw [firstPiece_tick] at h
      cases hn : nameLength? cs with
      | some n => simp [hn] at h
      | none =>
        obtain rfl : Unterminated.name = u := by simpa [hn] using h
        exact ⟨⟨.inr rfl, by simp [closedIn_iff_name, hn]⟩, rfl⟩
    · by_cases ho : Comment.opens (c :: cs) = true
      · obtain ⟨body, hcut, -⟩ := Comment.eq_of_opens ho
        rw [hcut] at h ho
        rw [firstPiece_opener ho] at h
        cases hn : Comment.bodyLength? body <;> simp [hn] at h
      · rw [not_or] at hq
        rw [Bool.not_eq_true] at ho
        obtain ⟨kind, n, hpiece, -⟩ := chosen_pieceAt (.ofText (c :: cs)) 0 ⟨hq.1, hq.2, htick⟩ ho
        rw [firstPiece, hpiece] at h
        simp at h

theorem firstPiece_of_unclosed {quote : Char} {rest : List Char} (h : Unclosed quote rest) :
    ∃ u, firstPiece (quote :: rest) = .error u := by
  have hnever := h.never
  rcases h.kind with hq | rfl
  · rw [closedIn_iff_string hq, Option.not_isSome_iff_eq_none] at hnever
    exact ⟨.string quote, by rw [firstPiece_quote rest hq, hnever]⟩
  · rw [closedIn_iff_name, Option.not_isSome_iff_eq_none] at hnever
    exact ⟨.name, by rw [firstPiece_tick, hnever]⟩

namespace Lexer

variable {text : String} {l : Lexer} {e : LexError}

/-- A call on a lexer of a run fails when an unclosed quote is ahead, and on nothing else. -/
theorem Reaches.failure (h : Reaches text l) (hnext : l.next = .error e) :
    ∃ quote rest u, l.rest = quote :: rest ∧ Unclosed quote rest ∧ u.opener = quote ∧
      e = l.unterminated u := by
  obtain ⟨before, rest, hcut, rfl⟩ := h.cut
  have hfound := found_next hcut
  rw [hnext] at hfound
  cases hfound with
  | @failure _ u hne hpiece =>
    obtain ⟨c, cs, rfl⟩ := List.exists_cons_of_ne_nil hne
    obtain ⟨hunclosed, hopener⟩ := unclosed_of_firstPiece hpiece
    exact ⟨c, cs, u, rfl, hunclosed, hopener, rfl⟩

theorem Reaches.next_of_unclosed (h : Reaches text l) {quote : Char} {rest : List Char}
    (hrest : l.rest = quote :: rest) (hunclosed : Unclosed quote rest) :
    ∃ e, l.next = .error e := by
  obtain ⟨u, hpiece⟩ := firstPiece_of_unclosed hunclosed
  obtain ⟨before, rest', hcut, rfl⟩ := h.cut
  obtain rfl : rest' = quote :: rest := hrest
  exact ⟨_, next_of_unterminated ((pieceAt_of_behind hcut).trans hpiece)⟩

/-- A run that fails has come to a call that fails. -/
theorem Reaches.of_collect {keep : Token → Bool} (h : Reaches text l)
    (he : l.collect keep = .error e) : ∃ m, Reaches text m ∧ m.next = .error e := by
  fun_induction collect keep l with
  | case1 l e' hnext =>
    obtain rfl := Except.error.inj he
    exact ⟨l, h, hnext⟩
  | case2 => simp at he
  | case3 l t l' hnext _ e' hrest ih =>
    obtain rfl := Except.error.inj he
    exact ih (h.next hnext) hrest
  | case4 => simp at he

end Lexer

/-- The error of a text is that of a call on its way. -/
theorem tokenize_eq_error {text : String} {e : LexError} :
    tokenize text = .error e ↔ ∃ l, Lexer.Reaches text l ∧ l.next = .error e := by
  constructor
  · exact Lexer.Reaches.of_collect .start
  · rintro ⟨l, hreaches, hnext⟩
    obtain ⟨passed, hrun⟩ := hreaches.tokenizeAll_eq
    rw [tokenize_eq_filter, hrun, Lexer.collect_of_failure hnext]
    rfl

/-- The error of a text is about an unclosed quote behind a part of it. -/
theorem unclosed_of_tokenize {text : String} {e : LexError} (h : tokenize text = .error e) :
    ∃ before quote rest u, text.toList = before ++ quote :: rest ∧ Unclosed quote rest ∧
      e = (Lexer.behind text before (quote :: rest)).unterminated u := by
  obtain ⟨l, hreaches, hnext⟩ := tokenize_eq_error.mp h
  obtain ⟨quote, rest, u, hrest, hunclosed, -, he⟩ := hreaches.failure hnext
  obtain ⟨before, rest', hcut, rfl⟩ := hreaches.cut
  obtain rfl : rest' = quote :: rest := hrest
  exact ⟨before, quote, rest, u, hcut, hunclosed, he⟩

/-! ## The law -/

/-- A text cannot be cut into tokens if and only if the lexer comes to a quote that is never
closed in the text behind it. The error then says where that quote is, and runs from there to the
end of the text. The failing call leaves the lexer where it is, so that each further call fails
in the same way; and at the end of the input each call gives the same last token. -/
theorem only_an_unclosed_quote_stops_the_lexer (text : String) :
    ((∃ e, tokenize text = .error e) ↔
      ∃ l quote rest, Lexer.Reaches text l ∧ l.rest = quote :: rest ∧ Unclosed quote rest) ∧
    (∀ l quote rest, Lexer.Reaches text l → l.rest = quote :: rest → Unclosed quote rest →
      ∃ e, tokenize text = .error e ∧
        (e.offset = l.place.offset ∧ dropBytes? e.offset text.toList = some (quote :: rest) ∧
          e.unexpected = quote ∧ (e.line, e.column) = lineColumn text e.offset ∧
          e.extent = (e.offset, byteLength (quote :: rest))) ∧
        l.call = (.error e, l) ∧ ∀ n, l.calls n = List.replicate n (.error e)) ∧
    ∀ l, Lexer.Reaches text l → l.rest = [] →
      ∃ t : Token, t.kind = .endOfInput ∧ l.call = (.ok t, l) ∧
        ∀ n, l.calls n = List.replicate n (.ok t) := by
  refine ⟨⟨?_, ?_⟩, ?_, ?_⟩
  · rintro ⟨e, he⟩
    obtain ⟨l, hreaches, hnext⟩ := tokenize_eq_error.mp he
    obtain ⟨quote, rest, -, hrest, hunclosed, -⟩ := hreaches.failure hnext
    exact ⟨l, quote, rest, hreaches, hrest, hunclosed⟩
  · rintro ⟨l, quote, rest, hreaches, hrest, hunclosed⟩
    obtain ⟨e, hnext⟩ := hreaches.next_of_unclosed hrest hunclosed
    exact ⟨e, tokenize_eq_error.mpr ⟨l, hreaches, hnext⟩⟩
  · intro l quote rest hreaches hrest hunclosed
    obtain ⟨e, hnext⟩ := hreaches.next_of_unclosed hrest hunclosed
    obtain ⟨quote', rest', u, hrest', -, hopener, rfl⟩ := hreaches.failure hnext
    obtain ⟨rfl, -⟩ := List.cons.inj (hrest.symm.trans hrest')
    obtain ⟨hdrop, hplace⟩ := hreaches.place
    rw [hrest] at hdrop
    have hextent : (l.unterminated u).extent = (l.place.offset, byteLength (quote :: rest)) := by
      rw [Lexer.unterminated, hrest]
    have hcall := Lexer.call_of_failure hnext
    exact ⟨_, tokenize_eq_error.mpr ⟨l, hreaches, hnext⟩, ⟨rfl, hdrop, hopener, hplace, hextent⟩,
      hcall, Lexer.calls_of_still hcall⟩
  · intro l hreaches hrest
    obtain ⟨before, rest, hcut, rfl⟩ := hreaches.cut
    obtain rfl : rest = [] := hrest
    have hcall := Lexer.call_of_token (Lexer.next_at_end text before)
    exact ⟨_, rfl, hcall, Lexer.calls_of_still hcall⟩

/-- A backslash hides the only quote that could close the second string. -/
theorem a_hidden_quote_closes_nothing :
    let l : Lexer := ⟨.ofText "'a''\\'".toList, ⟨3, 3, 1, 4⟩, "'\\'".toList⟩
    Lexer.Reaches "'a''\\'" l ∧ Unclosed '\'' ['\\', '\''] ∧
      ∃ e, tokenize "'a''\\'" = .error e ∧ e.offset = 3 ∧ e.unexpected = '\'' ∧
        l.calls 2 = [.error e, .error e] := by
  intro l
  have hreaches : Lexer.Reaches "'a''\\'" l := .next .start rfl
  have hunclosed : Unclosed '\'' ['\\', '\''] :=
    ⟨.inl (.inl rfl), by rw [closedIn_iff_string (.inl rfl)]; decide⟩
  obtain ⟨-, hfails, -⟩ := only_an_unclosed_quote_stops_the_lexer "'a''\\'"
  obtain ⟨e, he, ⟨hoffset, -, hquote, -⟩, -, hcalls⟩ := hfails l '\'' _ hreaches rfl hunclosed
  exact ⟨hreaches, hunclosed, e, he, hoffset, hquote, hcalls 2⟩

end TagDialect
