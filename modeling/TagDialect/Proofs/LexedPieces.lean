-- Pieces that are known from what they say and from what comes right behind
-- them, in every text and at every place: the words, marks, numbers and quoted
-- values that the canonical text is made of.
import TagDialect.Proofs.LongestMatch
import TagDialect.Proofs.QuotedValues

namespace TagDialect

/-! ## A choice is the only one -/

theorem BestMatch.unique {kind kind' : TokenKind} {w w' rest rest' : List Char}
    (h : BestMatch kind w rest) (h' : BestMatch kind' w' rest') (hcut : w ++ rest = w' ++ rest') :
    kind = kind' ∧ w = w' := by
  have hforth := h.best kind' w' rest' hcut h'.fits
  have hback := h'.best kind w rest hcut.symm h.fits
  have hlength : w.length = w'.length := by omega
  refine ⟨?_, List.append_inj_left hcut hlength⟩
  rcases hforth with hlt | ⟨-, rfl | hrank⟩
  · omega
  · rfl
  · rcases hback with hlt | ⟨-, rfl | hrank'⟩
    · omega
    · rfl
    · omega

theorem Chosen.unique {cs : List Char} {kind kind' : TokenKind} {n n' : Nat}
    (h : Chosen cs kind n) (h' : Chosen cs kind' n') : kind = kind' ∧ n = n' := by
  rcases h with ⟨w, rest, hcut, rfl, hbest⟩ | ⟨rfl, rfl, hno⟩
  · rcases h' with ⟨w', rest', hcut', rfl, hbest'⟩ | ⟨rfl, rfl, hno⟩
    · obtain ⟨rfl, rfl⟩ := hbest.unique hbest' (hcut.symm.trans hcut')
      exact ⟨rfl, rfl⟩
    · exact absurd hbest.fits (hno _ _ _ hcut)
  · rcases h' with ⟨w', rest', hcut', rfl, hbest'⟩ | ⟨rfl, rfl, -⟩
    · exact absurd hbest'.fits (hno _ _ _ hcut')
    · exact ⟨rfl, rfl⟩

theorem opens_of_ne {c : Char} (cs : List Char) (h : c ≠ '/') : Comment.opens (c :: cs) = false := by
  cases cs <;> simp [Comment.opens, h]

/-- The piece that the rules choose is the one that the lexer takes, unless a quoted piece
or a comment starts there. -/
theorem pieceAt_of_chosen (comments : CommentIndex) (i : Nat) {c : Char} {cs : List Char}
    {kind : TokenKind} {n : Nat} (hquote : c ≠ '\'' ∧ c ≠ '"' ∧ c ≠ '`') (hslash : c ≠ '/')
    (h : Chosen (c :: cs) kind n) : pieceAt comments i (c :: cs) = .ok (kind, n) := by
  obtain ⟨kind', n', hpiece, h'⟩ := chosen_pieceAt comments i hquote (opens_of_ne cs hslash)
  obtain ⟨rfl, rfl⟩ := h.unique h'
  exact hpiece

/-! ## Pieces in front of a text -/

/-- In front of `rest`, the word is one piece of the kind, in every text and at every
place of it. -/
def Heads (kind : TokenKind) (w rest : List Char) : Prop :=
  ∀ comments i, pieceAt comments i (w ++ rest) = .ok (kind, w.length)

theorem heads_space {rest : List Char} (h : rest.takeWhile isBlank = []) :
    Heads .whitespace [' '] rest := by
  intro comments i
  have hchosen := @chosen_whitespace ' ' rest (by decide)
  rw [h] at hchosen
  exact pieceAt_of_chosen comments i (by decide) (by decide) hchosen

theorem heads_mark {kind : TokenKind} {c : Char} (rest : List Char) (hmark : Mark kind [c])
    (hdash : c = '-' → rest.head? ≠ some '-') (hdot : c ≠ '.') : Heads kind [c] rest := by
  intro comments i
  have hclass : (c ≠ '\'' ∧ c ≠ '"' ∧ c ≠ '`') ∧ c ≠ '/' := by
    cases hmark <;> decide
  exact pieceAt_of_chosen comments i hclass.1 hclass.2 (chosen_mark hmark hdash hdot)

theorem heads_arrow (rest : List Char) : Heads .arrow ['=', '>'] rest := by
  intro comments i
  exact pieceAt_of_chosen comments i (by decide) (by decide) (chosen_arrow rest)

/-- A point in front of no digit is no number. -/
theorem heads_dot {rest : List Char} (h : digitRun rest = 0) : Heads .dot ['.'] rest := by
  intro comments i
  refine pieceAt_of_chosen comments i (by decide) (by decide) (chosen_dot ?_)
  have hwhole : digitRun ('.' :: rest) = 0 := digitRun_cons_eq_zero rest (by decide)
  simp [Numeral.read?, Numeral.wholeReadings, Numeral.pointReadings, Numeral.pointLength?, hwhole,
    h, Numeral.longest?]

/-! ### Words -/

theorem takeWhile_of_endsWord {rest : List Char} (h : Numeral.endsWord rest = true) :
    rest.takeWhile isWordChar = [] := by
  cases rest with
  | nil => rfl
  | cons c cs =>
    have hc : isWordChar c = false := by simpa [Numeral.endsWord] using h
    rw [List.takeWhile_cons_of_neg (by simp [hc])]

theorem read?_of_letter {c : Char} (cs : List Char) (hdigit : c.isDigit = false) (hdot : c ≠ '.') :
    Numeral.read? (c :: cs) = none := by
  rcases hread : Numeral.read? (c :: cs) with _ | ⟨n, kind⟩
  · rfl
  · obtain ⟨⟨w, rest, hcut, -, hmatch⟩, -⟩ := Numeral.read?_eq_some hread
    cases begins_of_cut hcut hmatch with
    | mark h => cases h
    | number h => simp [hdigit, hdot] at h

/-- A word that starts with no digit is a keyword or a name up to where it ends. -/
theorem heads_word {c : Char} {cs rest : List Char} (hdigit : c.isDigit = false)
    (hall : ∀ d ∈ c :: cs, isWordChar d = true) (hend : Numeral.endsWord rest = true) :
    Heads (wordKind (c :: cs)) (c :: cs) rest := by
  intro comments i
  have hc : isWordChar c = true := hall c List.mem_cons_self
  have hclass : (c ≠ '\'' ∧ c ≠ '"' ∧ c ≠ '`') ∧ c ≠ '/' ∧ c ≠ '.' := by
    refine ⟨⟨?_, ?_, ?_⟩, ?_, ?_⟩ <;> rintro rfl <;> exact absurd hc (by decide)
  have hlength : wordLength (c :: cs ++ rest) = (c :: cs).length := by
    unfold wordLength
    rw [List.takeWhile_append_of_pos hall, takeWhile_of_endsWord hend, List.append_nil]
  have hread := read?_of_letter (cs ++ rest) hdigit hclass.2.2
  have hchosen := @chosen_word c (cs ++ rest) hc (by simp [hread])
  rw [← List.cons_append, hlength, List.take_left] at hchosen
  exact pieceAt_of_chosen comments i hclass.1 hclass.2.1 hchosen

theorem heads_keyword (k : Keyword) {rest : List Char} (hend : Numeral.endsWord rest = true) :
    Heads (.keyword k) k.text.toList rest := by
  obtain ⟨c, cs, htext, hdigit, hall⟩ := text_of_keyword k
  have hkind : wordKind (c :: cs) = .keyword k := by
    rw [← htext, wordKind, Keyword.ofWord?_text]
  have hheads := heads_word hdigit (List.all_eq_true.mp hall) hend
  rwa [hkind, ← htext] at hheads

/-! ### Quoted pieces -/

theorem pieceAt_tick (comments : CommentIndex) (i : Nat) {cs : List Char} {n : Nat}
    (h : nameLength? cs = some n) :
    pieceAt comments i ('`' :: cs) = .ok (.backquoted, 1 + n) := by
  simp only [pieceAt, opens_of_ne cs (show '`' ≠ '/' by decide)]
  rw [if_neg (by decide), if_neg (by simp), if_neg (by simp), if_neg (by decide), if_pos trivial, h]

theorem pieceAt_quote (comments : CommentIndex) (i : Nat) {cs : List Char} {n : Nat}
    (h : stringLength? '\'' cs = some n) :
    pieceAt comments i ('\'' :: cs) = .ok (.string, 1 + n) := by
  simp only [pieceAt, opens_of_ne cs (show '\'' ≠ '/' by decide)]
  rw [if_neg (by decide), if_neg (by simp), if_neg (by simp), if_pos (.inl trivial), h]

/-- A name in ticks ends where it was ended when no other tick comes behind it. -/
theorem heads_ticked (cs : List Char) {rest : List Char} (h : rest.head? ≠ some '`') :
    Heads .backquoted ('`' :: (doubleTicks cs ++ ['`'])) rest := by
  intro comments i
  have hpiece := pieceAt_tick comments i (nameLength?_doubleTicks cs h)
  rw [List.cons_append, List.append_assoc, List.singleton_append, hpiece]
  simp only [List.length_cons, List.length_append, List.length_nil]
  congr 2
  omega

theorem heads_string (value : String) (rest : List Char) :
    Heads .string (quoteString value).toList rest := by
  intro comments i
  have hpiece := pieceAt_quote comments i (stringLength?_escaped value.toList rest)
  rw [toList_quoteString, List.cons_append, List.append_assoc, List.singleton_append, hpiece]
  simp only [List.length_cons, List.length_append, List.length_nil]
  congr 2
  omega

/-! ### Numbers -/

/-- What may come behind a number in the canonical text: a blank, a comma or a parenthesis. -/
def Apart (rest : List Char) : Prop :=
  ∀ c, rest.head? = some c → c = ' ' ∨ c = ',' ∨ c = '(' ∨ c = ')'

theorem endsWord_of_apart {rest : List Char} (h : Apart rest) : Numeral.endsWord rest = true := by
  cases rest with
  | nil => rfl
  | cons c cs =>
    rcases h c rfl with rfl | rfl | rfl | rfl <;> rfl

/-- A number holds word characters, points and signs, and nothing else. -/
theorem not_mem_number {kind : NumberKind} {pointed : Bool} {w : List Char} {c : Char}
    (hw : NumberWord kind pointed w) (hword : isWordChar c = false)
    (hmark : c ≠ '.' ∧ c ≠ '+' ∧ c ≠ '-') : c ∉ w := by
  have hdigit : c.isDigit = false := by
    rw [← Bool.not_eq_true]
    intro hc
    simp [isWordChar_of_isDigit hc] at hword
  have hletter {d : Char} (hd : isWordChar d = true) : c ≠ d := by
    rintro rfl
    simp [hd] at hword
  have hE : c ≠ 'E' := hletter (by decide)
  cases hw with
  | suffixed hn hs =>
    have hL : c ≠ 'L' := hletter (by decide)
    have hS : c ≠ 'S' := hletter (by decide)
    have hY : c ≠ 'Y' := hletter (by decide)
    cases hs <;> simp [Numeral.not_mem_digits hn.2 hdigit, hL, hS, hY]
  | integer hn => exact Numeral.not_mem_digits hn.2 hdigit
  | exponent hm hx =>
    exact Numeral.not_mem_stem hm (.inr hx) hdigit ⟨hmark.1, hE, hmark.2⟩
  | decimal hd => exact Numeral.not_mem_mantissa hd hdigit (.inr hmark.1)
  | typed hm hx hs =>
    have hstem := Numeral.not_mem_stem hm hx hdigit ⟨hmark.1, hE, hmark.2⟩
    rw [← List.append_assoc, List.mem_append, not_or]
    refine ⟨hstem, ?_⟩
    have hF : c ≠ 'F' := hletter (by decide)
    have hD : c ≠ 'D' := hletter (by decide)
    have hB : c ≠ 'B' := hletter (by decide)
    cases hs <;> simp [hF, hD, hB]

/-- Whether a number has a decimal point in it can be seen from its word. -/
theorem dot_mem_iff {kind : NumberKind} {pointed : Bool} {w : List Char}
    (hw : NumberWord kind pointed w) : '.' ∈ w ↔ pointed = true := by
  have hmantissa {pointed : Bool} {m : List Char} (hm : Mantissa pointed m) :
      '.' ∈ m ↔ pointed = true := by
    cases hm with
    | whole hn => simp [Numeral.not_mem_digits hn.2 (show '.'.isDigit = false by decide)]
    | point _ _ => simp
    | fraction _ => simp
  cases hw with
  | suffixed hn hs =>
    have hdigits := hmantissa (.whole hn)
    cases hs <;> simpa using hdigits
  | integer hn => exact hmantissa (.whole hn)
  | exponent hm hx =>
    have hexponent := Numeral.not_mem_exponent (c := '.') (.inr hx) (by decide) (by decide)
    simpa [hexponent] using hmantissa hm
  | decimal hd => exact hmantissa hd
  | typed hm hx hs =>
    have hexponent := Numeral.not_mem_exponent (c := '.') hx (by decide) (by decide)
    cases hs <;> simpa [hexponent] using hmantissa hm

/-- A match minds what comes behind it only when it is a number with a point. -/
theorem RuleMatch.before {kind : TokenKind} {w rest rest' : List Char}
    (h : RuleMatch kind w rest)
    (hend : ∀ k, kind = .number k → '.' ∈ w → Numeral.endsWord rest' = true) :
    RuleMatch kind w rest' := by
  cases h with
  | whitespace hne hall => exact .whitespace hne hall
  | lineComment hbody hbreak => exact .lineComment hbody hbreak
  | mark hmark => exact .mark hmark
  | keyword hk => exact .keyword hk
  | identifier hne hall => exact .identifier hne hall
  | number hword _ => exact .number hword fun hp => hend _ rfl ((dot_mem_iff hword).mpr hp)

theorem number_of_match {kind : NumberKind} {w rest : List Char}
    (h : RuleMatch (.number kind) w rest) :
    (∃ pointed, NumberWord kind pointed w) ∧ ('.' ∈ w → Numeral.endsWord rest = true) := by
  cases h with
  | mark hmark => cases hmark
  | number hword hend => exact ⟨⟨_, hword⟩, fun hdot => hend ((dot_mem_iff hword).mp hdot)⟩

/-- A number that the rules choose in front of one text is also chosen where the text ends. -/
theorem BestMatch.alone {kind : NumberKind} {w rest : List Char}
    (h : BestMatch (.number kind) w rest) : BestMatch (.number kind) w [] := by
  refine ⟨h.fits.before fun _ _ _ => rfl, ?_⟩
  intro kind' w' rest' hcut hmatch
  rw [List.append_nil] at hcut
  have hmatch' : RuleMatch kind' w' (rest' ++ rest) := by
    apply hmatch.before
    rintro k rfl hdot
    have hend := (number_of_match hmatch).2 hdot
    cases rest' with
    | nil =>
      rw [List.append_nil] at hcut
      subst hcut
      exact (number_of_match h.fits).2 hdot
    | cons c cs => exact hend
  refine h.best kind' w' (rest' ++ rest) ?_ hmatch'
  rw [hcut, List.append_assoc]

/-- No match goes on from a number into what stands apart from it. -/
theorem not_match_past_number {kind : NumberKind} {pointed : Bool} {w cs rest : List Char}
    {c : Char} {kind' : TokenKind} (hw : NumberWord kind pointed w)
    (hc : c = ' ' ∨ c = ',' ∨ c = '(' ∨ c = ')') : ¬ RuleMatch kind' (w ++ c :: cs) rest := by
  intro h
  have hmem : c ∈ w ++ c :: cs := by simp
  have hword : isWordChar c = false := by rcases hc with rfl | rfl | rfl | rfl <;> decide
  obtain ⟨d, ds, rfl, hd⟩ := hw.head
  have hblank := isBlank_of_digitOrDot hd
  generalize hv : d :: ds ++ c :: cs = v at h hmem
  cases h with
  | whitespace _ hall =>
    subst hv
    simp [hall d List.mem_cons_self] at hblank
  | lineComment _ _ =>
    obtain ⟨rfl, -⟩ := List.cons.inj hv
    exact absurd hd (by decide)
  | mark hmark =>
    have hlength := congrArg List.length hv
    rw [List.length_append, List.length_cons, List.length_cons] at hlength
    cases hmark with
    | arrow =>
      obtain ⟨rfl, -⟩ := List.cons.inj hv
      exact absurd hd (by decide)
    | _ =>
      simp only [List.length_cons, List.length_nil] at hlength
      omega
  | keyword hk => simp [(word_of_keyword hk).1 c hmem] at hword
  | identifier _ hall => simp [hall c hmem] at hword
  | number hw' _ =>
    refine not_mem_number hw' hword ?_ hmem
    rcases hc with rfl | rfl | rfl | rfl <;> decide

/-- A number that the rules choose where the text ends is also chosen where something else
stands apart from it. -/
theorem BestMatch.inFront {kind : NumberKind} {w rest : List Char}
    (h : BestMatch (.number kind) w []) (hrest : Apart rest) :
    BestMatch (.number kind) w rest := by
  refine ⟨h.fits.before fun _ _ _ => endsWord_of_apart hrest, ?_⟩
  intro kind' w' rest' hcut hmatch
  have hshort {u : List Char} (hw : w = w' ++ u) (hu : rest' = u ++ rest) :
      w'.length < w.length ∨
        w'.length = w.length ∧ (kind' = .number kind ∨ (TokenKind.number kind).rank < kind'.rank) := by
    refine h.best kind' w' u (by rw [List.append_nil, hw]) (hmatch.before ?_)
    rintro k rfl hdot
    have hend := (number_of_match hmatch).2 hdot
    rw [hu] at hend
    cases u with
    | nil => rfl
    | cons c cs => exact hend
  obtain ⟨⟨pointed, hword⟩, -⟩ := number_of_match h.fits
  rcases List.append_eq_append_iff.mp hcut with ⟨u, rfl, hu⟩ | ⟨u, hw, hu⟩
  · cases u with
    | nil => exact hshort (u := []) (by simp) (by simpa using hu.symm)
    | cons c cs =>
      exact absurd hmatch (not_match_past_number hword (hrest c (by rw [hu]; rfl)))
  · exact hshort hw hu

theorem heads_number {kind : NumberKind} {w rest : List Char}
    (h : BestMatch (.number kind) w []) (hrest : Apart rest) : Heads (.number kind) w rest := by
  intro comments i
  obtain ⟨⟨pointed, hword⟩, -⟩ := number_of_match h.fits
  obtain ⟨c, cs, rfl, hc⟩ := hword.head
  have hclass : (c ≠ '\'' ∧ c ≠ '"' ∧ c ≠ '`') ∧ c ≠ '/' := by
    refine ⟨⟨?_, ?_, ?_⟩, ?_⟩ <;> rintro rfl <;> exact absurd hc (by decide)
  exact pieceAt_of_chosen comments i hclass.1 hclass.2 (.inl ⟨_, rest, rfl, rfl, h.inFront hrest⟩)

/-- What the lexer takes as a number is the number that the rules choose. -/
theorem bestMatch_of_pieceAt {comments : CommentIndex} {i n : Nat} {cs : List Char}
    {kind : NumberKind} (h : pieceAt comments i cs = .ok (.number kind, n)) :
    BestMatch (.number kind) (cs.take n) (cs.drop n) := by
  cases cs with
  | nil => simp [pieceAt] at h
  | cons c cs =>
    have hclass : (c ≠ '\'' ∧ c ≠ '"' ∧ c ≠ '`') ∧ Comment.opens (c :: cs) = false := by
      simp only [pieceAt] at h
      split at h
      · simp at h
      split at h
      · simp at h
      split at h
      · split at h <;> simp at h
      rename_i hopen
      split at h
      · split at h <;> simp at h
      rename_i hquote
      split at h
      · split at h <;> simp at h
      rename_i htick
      rw [not_or] at hquote
      exact ⟨⟨hquote.1, hquote.2, htick⟩, by simpa using hopen⟩
    obtain ⟨kind', n', hpiece, hchosen⟩ := chosen_pieceAt comments i hclass.1 hclass.2
    rw [hpiece, Except.ok.injEq, Prod.mk.injEq] at h
    obtain ⟨rfl, rfl⟩ := h
    rcases hchosen with ⟨w, rest, hcut, rfl, hbest⟩ | ⟨hkind, -⟩
    · rw [hcut, List.take_left, List.drop_left]
      exact hbest
    · simp at hkind

end TagDialect
