-- The law of the longest match. Where no quoted piece and no block comment
-- starts, the lexer takes the longest word that any lexical rule has there,
-- and of several rules with a word of that length the one of highest rank.
import TagDialect.Proofs.LexerRuns
import TagDialect.Proofs.NumeralReadings

namespace TagDialect

/-! ## The choice among the rules -/

/-- The rule of `kind` matches `w`, no rule matches more of the text, and every other rule
that matches as much comes later in rank. -/
structure BestMatch (kind : TokenKind) (w rest : List Char) : Prop where
  fits : RuleMatch kind w rest
  best : ∀ kind' w' rest', w ++ rest = w' ++ rest' → RuleMatch kind' w' rest' →
    w'.length < w.length ∨ w'.length = w.length ∧ (kind' = kind ∨ kind.rank < kind'.rank)

/-- No rule matches at the head of the text. -/
def NoMatch (cs : List Char) : Prop :=
  ∀ kind w rest, cs = w ++ rest → ¬ RuleMatch kind w rest

/-- The piece that the rules call for at the head of a text. -/
def Chosen (cs : List Char) (kind : TokenKind) (n : Nat) : Prop :=
  (∃ w rest, cs = w ++ rest ∧ w.length = n ∧ BestMatch kind w rest) ∨
    (kind = .unrecognized ∧ n = 1 ∧ NoMatch cs)

/-! ## How the matches begin -/

theorem isLower_or_toUpper_eq (c : Char) : c.isLower = true ∨ c.toUpper = c := by
  unfold Char.toUpper
  split
  · rename_i h
    rw [UInt32.le_iff_toNat_le, UInt32.le_iff_toNat_le] at h
    exact .inl ((isLower_iff c).mpr h)
  · right
    rfl

theorem isWordChar_of_isLower {c : Char} (h : c.isLower = true) : isWordChar c = true := by
  have halpha : c.isAlpha = true := by
    show (c.isUpper || c.isLower) = true
    rw [h, Bool.or_true]
  simp [isWordChar, Char.isAlphanum, halpha]

theorem isWordChar_of_toUpper {c : Char} (h : isWordChar c.toUpper = true) :
    isWordChar c = true := by
  rcases isLower_or_toUpper_eq c with hlower | hsame
  · exact isWordChar_of_isLower hlower
  · rwa [hsame] at h

theorem isDigit_of_isLower {c : Char} (h : c.isLower = true) : c.isDigit = false := by
  have hlower := (isLower_iff c).mp h
  simp only [Char.isDigit, Bool.and_eq_false_iff, decide_eq_false_iff_not,
    UInt32.le_iff_toNat_le, ge_iff_le]
  have h9 : '9'.val.toNat = 57 := rfl
  omega

theorem isDigit_of_toUpper {c : Char} (h : c.toUpper.isDigit = false) : c.isDigit = false := by
  rcases isLower_or_toUpper_eq c with hlower | hsame
  · exact isDigit_of_isLower hlower
  · rwa [hsame] at h

/-- The words of a keyword are words of the dialect, and start with no digit. -/
theorem word_of_keyword {k : Keyword} {w : List Char} (h : w.map Char.toUpper = k.text.toList) :
    (∀ c ∈ w, isWordChar c = true) ∧ ∃ c cs, w = c :: cs ∧ c.isDigit = false := by
  obtain ⟨d, ds, htext, hdigit, hall⟩ := text_of_keyword k
  rw [htext] at h
  constructor
  · intro c hc
    apply isWordChar_of_toUpper
    rw [List.all_eq_true] at hall
    apply hall
    rw [← h]
    exact List.mem_map_of_mem hc
  · obtain ⟨c, cs, rfl, hc, -⟩ := List.map_eq_cons_iff.mp h
    exact ⟨c, cs, rfl, isDigit_of_toUpper (by rw [hc]; exact hdigit)⟩

/-- What the first character of a match tells of its kind. -/
inductive Begins : TokenKind → Char → Prop
  | whitespace {c : Char} : isBlank c = true → Begins .whitespace c
  | lineComment : Begins .lineComment '-'
  | mark {kind : TokenKind} {c : Char} {cs : List Char} : Mark kind (c :: cs) → Begins kind c
  | keyword {k : Keyword} {c : Char} : isWordChar c = true → c.isDigit = false →
      Begins (.keyword k) c
  | identifier {c : Char} : isWordChar c = true → Begins .identifier c
  | number {kind : NumberKind} {c : Char} : c.isDigit = true ∨ c = '.' → Begins (.number kind) c

theorem RuleMatch.begins {kind : TokenKind} {w rest : List Char} (h : RuleMatch kind w rest) :
    ∃ c cs, w = c :: cs ∧ Begins kind c := by
  cases h with
  | whitespace hne hall =>
    obtain ⟨c, cs, rfl⟩ := List.exists_cons_of_ne_nil hne
    exact ⟨c, cs, rfl, .whitespace (hall c List.mem_cons_self)⟩
  | lineComment _ _ => exact ⟨'-', _, rfl, .lineComment⟩
  | mark hmark => cases hmark <;> exact ⟨_, _, rfl, .mark (by constructor)⟩
  | keyword hk =>
    obtain ⟨hall, c, cs, rfl, hdigit⟩ := word_of_keyword hk
    exact ⟨c, cs, rfl, .keyword (hall c List.mem_cons_self) hdigit⟩
  | identifier hne hall =>
    obtain ⟨c, cs, rfl⟩ := List.exists_cons_of_ne_nil hne
    exact ⟨c, cs, rfl, .identifier (hall c List.mem_cons_self)⟩
  | number hw _ =>
    obtain ⟨c, cs, rfl, hc⟩ := hw.head
    exact ⟨c, cs, rfl, .number hc⟩

theorem begins_of_cut {kind : TokenKind} {c : Char} {cs w rest : List Char}
    (hcut : c :: cs = w ++ rest) (h : RuleMatch kind w rest) : Begins kind c := by
  obtain ⟨d, ds, rfl, hd⟩ := h.begins
  rw [List.cons_append, List.cons.injEq] at hcut
  rwa [hcut.1]

/-- At a character that is no blank and starts neither a word nor a number, only a comment
or a mark can begin. -/
theorem Begins.commentOrMark {kind : TokenKind} {c : Char} (h : Begins kind c)
    (hblank : isBlank c = false) (hword : isWordChar c = false) (hdot : c ≠ '.') :
    kind = .lineComment ∧ c = '-' ∨ ∃ cs, Mark kind (c :: cs) := by
  cases h with
  | whitespace h => simp [h] at hblank
  | lineComment => exact .inl ⟨rfl, rfl⟩
  | mark h => exact .inr ⟨_, h⟩
  | keyword h _ => simp [h] at hword
  | identifier h => simp [h] at hword
  | number h =>
    rcases h with h | h
    · simp [isWordChar_of_isDigit h] at hword
    · exact absurd h hdot

/-! ## One branch of the lexer after the other -/

theorem chosen_of_best {kind : TokenKind} {cs w rest : List Char} (hcut : cs = w ++ rest)
    (hfits : RuleMatch kind w rest)
    (hbest : ∀ kind' w' rest', cs = w' ++ rest' → RuleMatch kind' w' rest' →
      w'.length < w.length ∨ w'.length = w.length ∧ (kind' = kind ∨ kind.rank < kind'.rank)) :
    Chosen cs kind w.length :=
  .inl ⟨w, rest, hcut, rfl, hfits, fun kind' w' rest' h => hbest kind' w' rest' (hcut.trans h)⟩

/-- The choice when every match at the head of the text is of one kind. -/
theorem chosen_of_only {kind : TokenKind} {cs w rest : List Char} (hcut : cs = w ++ rest)
    (hfits : RuleMatch kind w rest)
    (honly : ∀ kind' w' rest', cs = w' ++ rest' → RuleMatch kind' w' rest' →
      kind' = kind ∧ w'.length ≤ w.length) : Chosen cs kind w.length := by
  refine chosen_of_best hcut hfits ?_
  intro kind' w' rest' hcut' hmatch
  obtain ⟨hkind, hle⟩ := honly kind' w' rest' hcut' hmatch
  rcases Nat.lt_or_eq_of_le hle with hlt | heq
  · exact .inl hlt
  · exact .inr ⟨heq, .inl hkind⟩

theorem length_le_takeWhile {p : Char → Bool} {cs w rest : List Char} (hcut : cs = w ++ rest)
    (hall : ∀ c ∈ w, p c = true) : w.length ≤ (cs.takeWhile p).length := by
  rw [hcut, List.takeWhile_append_of_pos hall, List.length_append]
  omega

theorem chosen_whitespace {c : Char} {cs : List Char} (hc : isBlank c = true) :
    Chosen (c :: cs) .whitespace (1 + (cs.takeWhile isBlank).length) := by
  have hblank := eq_of_isBlank hc
  have hrun : (c :: cs).takeWhile isBlank = c :: cs.takeWhile isBlank := by
    rw [List.takeWhile_cons, if_pos hc]
  have hlength : 1 + (cs.takeWhile isBlank).length = ((c :: cs).takeWhile isBlank).length := by
    rw [hrun, List.length_cons, Nat.add_comm]
  rw [hlength]
  refine chosen_of_only List.takeWhile_append_dropWhile.symm (.whitespace ?_ ?_) ?_
  · rw [hrun]
    exact List.cons_ne_nil _ _
  · intro d hd
    exact List.mem_takeWhile_imp hd
  · intro kind w rest hcut hmatch
    have hbegins := begins_of_cut hcut hmatch
    have hkind : kind = .whitespace := by
      rcases hblank with rfl | rfl | rfl | rfl
      all_goals
        cases hbegins with
        | whitespace _ => rfl
        | mark h => cases h
        | keyword h _ => exact absurd h (by decide)
        | identifier h => exact absurd h (by decide)
        | number h => exact absurd h (by decide)
    subst hkind
    refine ⟨rfl, ?_⟩
    cases hmatch with
    | whitespace _ hall => exact length_le_takeWhile hcut hall
    | mark h => cases h

/-! ### Line comments -/

theorem Comment.lineLength_feed (cs : List Char) : lineLength ('\n' :: cs) = 1 := by
  unfold lineLength
  rfl

theorem Comment.lineLength_return (cs : List Char) :
    lineLength ('\r' :: cs) = if cs.head? = some '\n' then 2 else 1 := by
  unfold lineLength
  rfl

theorem exists_lineBody (cs : List Char) :
    ∃ body br rest, cs = body ++ br ++ rest ∧ LineBody body ∧ LineBreak br ∧
      (body ++ br).length = Comment.lineLength cs := by
  fun_induction Comment.lineLength cs with
  | case1 => exact ⟨[], [], [], rfl, .nil, .none, rfl⟩
  | case2 cs => exact ⟨[], ['\n'], cs, rfl, .nil, .lineFeed, rfl⟩
  | case3 cs hhead hn =>
    obtain ⟨rest, rfl⟩ := List.head?_eq_some_iff.mp hhead
    exact ⟨[], ['\r', '\n'], rest, rfl, .nil, .both, rfl⟩
  | case4 cs hhead hn => exact ⟨[], ['\r'], cs, rfl, .nil, .carriageReturn, rfl⟩
  | case5 c hn hr => exact ⟨[c], [], [], rfl, .char hr hn .nil, .none, rfl⟩
  | case6 c hn hr d ds hcarry ih =>
    obtain ⟨rfl, rfl⟩ := hcarry
    obtain ⟨body, br, rest, rfl, hbody, hbr, hlength⟩ := ih
    refine ⟨'\\' :: '\n' :: body, br, rest, rfl, .carried hbody, hbr, ?_⟩
    rw [← hlength]
    simp only [List.length_append, List.length_cons]
    omega
  | case7 c hn hr d ds hcarry ih =>
    obtain ⟨body, br, rest, hcut, hbody, hbr, hlength⟩ := ih
    refine ⟨c :: body, br, rest, by rw [hcut]; rfl, .char hr hn hbody, hbr, ?_⟩
    rw [← hlength]
    simp only [List.length_append, List.length_cons]
    omega

theorem lineBody_head {ds w rest : List Char} (hbody : LineBody w)
    (hcut : w ++ rest = '\n' :: ds) : w = [] := by
  cases hbody with
  | nil => rfl
  | carried _ => simp at hcut
  | char _ hfeed _ =>
    simp only [List.cons_append, List.cons.injEq] at hcut
    exact absurd hcut.1 hfeed

theorem length_le_lineLength {body br : List Char} (rest : List Char) (hbody : LineBody body)
    (hbr : LineBreak br) : (body ++ br).length ≤ Comment.lineLength (body ++ br ++ rest) := by
  induction hbody with
  | nil =>
    cases hbr with
    | none => exact Nat.zero_le _
    | carriageReturn =>
      rw [List.nil_append, List.singleton_append, Comment.lineLength_return]
      split <;> simp
    | lineFeed => exact Nat.le_of_eq (Comment.lineLength_feed rest).symm
    | both => exact Nat.le_of_eq (Comment.lineLength_return ('\n' :: rest)).symm
  | @carried w _ ih =>
    have hline : Comment.lineLength ('\\' :: '\n' :: (w ++ br ++ rest)) =
        2 + Comment.lineLength (w ++ br ++ rest) := by simp [Comment.lineLength]
    simp only [List.cons_append, hline, List.length_cons]
    omega
  | @char c w hreturn hfeed hw ih =>
    simp only [List.cons_append, List.length_cons]
    rcases hrest : w ++ br ++ rest with _ | ⟨d, ds⟩
    · have hzero : (w ++ br).length = 0 := by
        rw [List.append_eq_nil_iff] at hrest
        rw [hrest.1, List.length_nil]
      simp [Comment.lineLength, hreturn, hfeed, hzero]
    · rw [hrest] at ih
      by_cases hcarry : c = '\\' ∧ d = '\n'
      · -- The body could have taken the line feed with the backslash, so it ends here.
        obtain ⟨rfl, rfl⟩ := hcarry
        have hnil : w = [] := lineBody_head hw (by rw [← List.append_assoc]; exact hrest)
        subst hnil
        have hshort : br.length ≤ 1 := by
          cases hbr <;> simp_all
        have hline : Comment.lineLength ('\\' :: '\n' :: ds) = 2 + Comment.lineLength ds := by
          simp [Comment.lineLength]
        rw [hline, List.nil_append]
        omega
      · have hline : Comment.lineLength (c :: d :: ds) = 1 + Comment.lineLength (d :: ds) := by
          simp [Comment.lineLength, hreturn, hfeed, hcarry]
        rw [hline]
        omega

theorem chosen_lineComment (cs : List Char) :
    Chosen ('-' :: '-' :: cs) .lineComment (2 + Comment.lineLength cs) := by
  obtain ⟨body, br, rest, hcut, hbody, hbr, hlength⟩ := exists_lineBody cs
  have hword : 2 + Comment.lineLength cs = ('-' :: '-' :: (body ++ br)).length := by
    simp only [List.length_cons, ← hlength]
    omega
  have hwhole : '-' :: '-' :: cs = '-' :: '-' :: (body ++ br) ++ rest := by rw [hcut]; rfl
  rw [hword]
  refine chosen_of_best hwhole (.lineComment hbody hbr) ?_
  intro kind w rest' hcut' hmatch
  have hbegins := begins_of_cut hcut' hmatch
  rcases hbegins.commentOrMark (by decide) (by decide) (by decide) with ⟨rfl, -⟩ | ⟨_, hmark⟩
  · cases hmatch with
    | mark h => cases h
    | @lineComment body' br' _ hbody' hbr' =>
      simp only [List.cons_append, List.cons.injEq, true_and] at hcut'
      have hle := length_le_lineLength rest' hbody' hbr'
      rw [← hcut', ← hlength] at hle
      simp only [List.length_cons]
      rcases Nat.lt_or_eq_of_le hle with hlt | heq
      · exact .inl (by omega)
      · exact .inr ⟨by omega, .inl trivial⟩
  · cases hmark
    cases hmatch with
    | mark h =>
      cases h
      exact .inl (by simp)

/-! ### Marks -/

/-- A mark of one character stands alone, when no comment begins there. -/
theorem chosen_mark {kind : TokenKind} {c : Char} {cs : List Char} (hmark : Mark kind [c])
    (hdash : c = '-' → cs.head? ≠ some '-') (hdot : c ≠ '.') : Chosen (c :: cs) kind 1 := by
  have hclass : isBlank c = false ∧ isWordChar c = false := by
    cases hmark <;> exact ⟨by decide, by decide⟩
  have hcut : c :: cs = [c] ++ cs := rfl
  refine chosen_of_only hcut (.mark hmark) ?_
  intro kind' w rest hcut' hmatch
  have hbegins := begins_of_cut hcut' hmatch
  rcases hbegins.commentOrMark hclass.1 hclass.2 hdot with ⟨rfl, hc⟩ | ⟨ds, hmark'⟩
  · cases hmatch with
    | mark h => cases h
    | lineComment _ _ =>
      simp only [List.cons_append, List.cons.injEq] at hcut'
      exact absurd (by rw [hcut'.2]; rfl) (hdash hc)
  · have hsame : kind' = kind ∧ ds = [] := by
      cases hmark <;> cases hmark' <;> exact ⟨rfl, rfl⟩
    obtain ⟨rfl, rfl⟩ := hsame
    refine ⟨rfl, ?_⟩
    cases hmark <;> cases hmatch <;> rename_i h <;> cases h <;> exact Nat.le_refl _

theorem chosen_arrow (cs : List Char) : Chosen ('=' :: '>' :: cs) .arrow 2 := by
  have hcut : '=' :: '>' :: cs = ['=', '>'] ++ cs := rfl
  refine chosen_of_only hcut (.mark .arrow) ?_
  intro kind w rest hcut' hmatch
  have hbegins := begins_of_cut hcut' hmatch
  rcases hbegins.commentOrMark (by decide) (by decide) (by decide) with ⟨-, hc⟩ | ⟨ds, hmark⟩
  · exact absurd hc (by decide)
  · cases hmark
    refine ⟨rfl, ?_⟩
    cases hmatch with
    | mark h =>
      cases h
      exact Nat.le_refl _

/-- A character that starts no word, no number, no comment and no mark. -/
theorem chosen_unrecognized {c : Char} {cs : List Char} (hblank : isBlank c = false)
    (hword : isWordChar c = false) (hdot : c ≠ '.') (hmark : punctuation? c = none)
    (harrow : c = '=' → cs.head? ≠ some '>') : Chosen (c :: cs) .unrecognized 1 := by
  refine .inr ⟨rfl, rfl, ?_⟩
  intro kind w rest hcut hmatch
  have hbegins := begins_of_cut hcut hmatch
  rcases hbegins.commentOrMark hblank hword hdot with ⟨-, rfl⟩ | ⟨ds, hmark'⟩
  · exact absurd hmark (by decide)
  · cases hmark' with
    | arrow =>
      cases hmatch with
      | mark h =>
        cases h
        simp only [List.cons_append, List.cons.injEq] at hcut
        exact absurd (by rw [hcut.2]; rfl) (harrow rfl)
    | dot => exact absurd rfl hdot
    | _ => exact absurd hmark (by decide)

theorem mark_of_punctuation? {c : Char} {kind : TokenKind} (h : punctuation? c = some kind) :
    Mark kind [c] ∧ c ≠ '.' := by
  unfold punctuation? at h
  repeat' split at h
  all_goals simp only [Option.some.injEq, reduceCtorEq] at h
  all_goals subst_vars
  all_goals exact ⟨by constructor, by decide⟩

/-! ### Numbers and words -/

theorem rank_number_lt (kind : NumberKind) : (TokenKind.number kind).rank < 10 := by
  cases kind <;> decide

theorem chosen_dot_number {cs : List Char} {n : Nat} {kind : NumberKind}
    (h : Numeral.read? ('.' :: cs) = some (n, kind)) : Chosen ('.' :: cs) (.number kind) n := by
  obtain ⟨⟨w, rest, hcut, rfl, hfits⟩, hlongest⟩ := Numeral.read?_eq_some h
  refine chosen_of_best hcut hfits ?_
  intro kind' w' rest' hcut' hmatch
  cases begins_of_cut hcut' hmatch with
  | whitespace h => exact absurd h (by decide)
  | keyword h _ => exact absurd h (by decide)
  | identifier h => exact absurd h (by decide)
  | number _ =>
    rcases hlongest _ w' rest' hcut' hmatch with hlt | ⟨heq, rfl⟩
    · exact .inl hlt
    · exact .inr ⟨heq, .inl rfl⟩
  | mark hmark =>
    cases hmark
    have hshort : w'.length = 1 := by
      cases hmatch with | mark hmark => cases hmark; rfl
    obtain ⟨d, ds, rfl, -⟩ := hfits.begins
    have hrank := rank_number_lt kind
    have hdot : TokenKind.dot.rank = 11 := rfl
    simp only [List.length_cons]
    omega

theorem chosen_dot {cs : List Char} (h : Numeral.read? ('.' :: cs) = none) :
    Chosen ('.' :: cs) .dot 1 := by
  have hcut : '.' :: cs = ['.'] ++ cs := rfl
  refine chosen_of_only hcut (.mark .dot) ?_
  intro kind w rest hcut' hmatch
  cases begins_of_cut hcut' hmatch with
  | whitespace h => exact absurd h (by decide)
  | keyword h _ => exact absurd h (by decide)
  | identifier h => exact absurd h (by decide)
  | number _ => exact absurd hmatch (Numeral.read?_eq_none h _ w rest hcut')
  | mark hmark =>
    cases hmark
    cases hmatch with
    | mark hmark => cases hmark; exact ⟨rfl, Nat.le_refl _⟩

theorem ofWord?_eq_some (w : List Char) (k : Keyword) :
    Keyword.ofWord? w = some k ↔ w.map Char.toUpper = k.text.toList := by
  have hupper : k.text.toList.map Char.toUpper = k.text.toList := by cases k <;> decide
  constructor
  · intro h
    have hk := List.find?_some h
    rw [beq_iff_eq] at hk
    exact hk.symm
  · intro h
    rw [← Keyword.ofWord?_text k]
    unfold Keyword.ofWord?
    rw [h, hupper]

/-- At a word character only words and numbers begin, and a keyword begins with no digit. -/
theorem Begins.wordOrNumber {kind : TokenKind} {c : Char} (h : Begins kind c)
    (hc : isWordChar c = true) :
    (∃ k, kind = .keyword k ∧ c.isDigit = false) ∨ kind = .identifier ∨
      ∃ k, kind = .number k ∧ c.isDigit = true := by
  cases h with
  | whitespace h => simp [isBlank_of_isWordChar hc] at h
  | lineComment => exact absurd hc (by decide)
  | mark h => cases h <;> exact absurd hc (by decide)
  | keyword _ h => exact .inl ⟨_, rfl, h⟩
  | identifier _ => exact .inr (.inl rfl)
  | number h =>
    refine .inr (.inr ⟨_, rfl, h.resolve_right ?_⟩)
    rintro rfl
    exact absurd hc (by decide)

theorem length_le_wordLength {kind : TokenKind} {cs w rest : List Char} (hcut : cs = w ++ rest)
    (h : RuleMatch kind w rest) (hkind : (∃ k, kind = .keyword k) ∨ kind = .identifier) :
    w.length ≤ wordLength cs := by
  refine length_le_takeWhile hcut ?_
  rcases hkind with ⟨k, rfl⟩ | rfl
  · cases h with
    | mark h => cases h
    | keyword hk => exact (word_of_keyword hk).1
  · cases h with
    | mark h => cases h
    | identifier _ hall => exact hall

theorem chosen_number {c : Char} {cs : List Char} {n : Nat} {kind : NumberKind}
    (hc : isWordChar c = true) (hread : Numeral.read? (c :: cs) = some (n, kind))
    (hle : wordLength (c :: cs) ≤ n) : Chosen (c :: cs) (.number kind) n := by
  obtain ⟨⟨w, rest, hcut, rfl, hfits⟩, hlongest⟩ := Numeral.read?_eq_some hread
  refine chosen_of_best hcut hfits ?_
  intro kind' w' rest' hcut' hmatch
  rcases (begins_of_cut hcut' hmatch).wordOrNumber hc with ⟨k, rfl, hdigit⟩ | rfl | ⟨k, rfl, -⟩
  · rcases (begins_of_cut hcut hfits).wordOrNumber hc with ⟨_, h, -⟩ | h | ⟨_, -, hdigit'⟩
    · simp at h
    · simp at h
    · simp [hdigit] at hdigit'
  · have hword := length_le_wordLength hcut' hmatch (.inr rfl)
    have hrank := rank_number_lt kind
    have hten : TokenKind.identifier.rank = 10 := rfl
    omega
  · rcases hlongest _ w' rest' hcut' hmatch with hlt | ⟨heq, rfl⟩
    · exact .inl hlt
    · exact .inr ⟨heq, .inl rfl⟩

/-- The kind of a word that is no number. -/
def wordKind (w : List Char) : TokenKind :=
  match Keyword.ofWord? w with
  | some k => .keyword k
  | none => .identifier

theorem wordKind_fits {w : List Char} (rest : List Char) (hne : w ≠ [])
    (hall : ∀ c ∈ w, isWordChar c = true) : RuleMatch (wordKind w) w rest := by
  unfold wordKind
  split
  · rename_i k hk
    exact .keyword ((ofWord?_eq_some w k).mp hk)
  · exact .identifier hne hall

theorem wordKind_first {w : List Char} {kind : TokenKind} {rest : List Char}
    (h : RuleMatch kind w rest) (hkind : (∃ k, kind = .keyword k) ∨ kind = .identifier) :
    kind = wordKind w ∨ (wordKind w).rank < kind.rank := by
  unfold wordKind
  rcases hkind with ⟨k, rfl⟩ | rfl
  · cases h with
    | mark h => cases h
    | keyword hk =>
      rw [(ofWord?_eq_some w k).mpr hk]
      exact .inl rfl
  · split
    · exact .inr (by simp [TokenKind.rank])
    · exact .inl rfl

/-- The whole word is chosen when no number reaches as far. -/
theorem chosen_word {c : Char} {cs : List Char} (hc : isWordChar c = true)
    (hshort : ∀ n kind, Numeral.read? (c :: cs) = some (n, kind) → n < wordLength (c :: cs)) :
    Chosen (c :: cs) (wordKind ((c :: cs).take (wordLength (c :: cs)))) (wordLength (c :: cs)) := by
  have htake : (c :: cs).take (wordLength (c :: cs)) = (c :: cs).takeWhile isWordChar :=
    (List.prefix_iff_eq_take.mp (List.takeWhile_prefix isWordChar)).symm
  have hne : (c :: cs).takeWhile isWordChar ≠ [] := by
    rw [List.takeWhile_cons, if_pos hc]
    exact List.cons_ne_nil _ _
  have hcut : c :: cs = (c :: cs).takeWhile isWordChar ++ (c :: cs).dropWhile isWordChar :=
    List.takeWhile_append_dropWhile.symm
  rw [htake]
  refine chosen_of_best hcut (wordKind_fits _ hne fun d hd => List.mem_takeWhile_imp hd) ?_
  intro kind w rest hcut' hmatch
  have hword (hkind : (∃ k, kind = .keyword k) ∨ kind = .identifier) :
      w.length < ((c :: cs).takeWhile isWordChar).length ∨
        w.length = ((c :: cs).takeWhile isWordChar).length ∧
          (kind = wordKind ((c :: cs).takeWhile isWordChar) ∨
            (wordKind ((c :: cs).takeWhile isWordChar)).rank < kind.rank) := by
    rcases Nat.lt_or_eq_of_le (length_le_wordLength hcut' hmatch hkind) with hlt | heq
    · exact .inl hlt
    · have hsame : w = (c :: cs).takeWhile isWordChar :=
        List.append_inj_left (hcut'.symm.trans hcut) heq
      rw [← hsame]
      exact .inr ⟨rfl, wordKind_first hmatch hkind⟩
  rcases (begins_of_cut hcut' hmatch).wordOrNumber hc with ⟨k, rfl, -⟩ | rfl | ⟨k, rfl, -⟩
  · exact hword (.inl ⟨k, rfl⟩)
  · exact hword (.inr rfl)
  · left
    rcases hread : Numeral.read? (c :: cs) with _ | ⟨n, kind⟩
    · exact absurd hmatch (Numeral.read?_eq_none hread k w rest hcut')
    · have hlt := hshort n kind hread
      rcases (Numeral.read?_eq_some hread).2 k w rest hcut' hmatch with hlt' | ⟨heq, -⟩
      · exact Nat.lt_trans hlt' hlt
      · exact heq ▸ hlt

theorem wordOrNumber_eq (cs : List Char) :
    wordOrNumber cs =
      match Numeral.read? cs with
      | some (m, kind) =>
        if wordLength cs ≤ m then (.number kind, m)
        else (wordKind (cs.take (wordLength cs)), wordLength cs)
      | none => (wordKind (cs.take (wordLength cs)), wordLength cs) := by
  unfold wordOrNumber wordKind
  rcases hread : Numeral.read? cs with _ | ⟨m, kind⟩
  · rcases hk : Keyword.ofWord? (cs.take (wordLength cs)) with _ | k <;> simp only [hk]
  · rcases hk : Keyword.ofWord? (cs.take (wordLength cs)) with _ | k <;> simp only [hk]

theorem chosen_wordOrNumber {c : Char} {cs : List Char} (hc : isWordChar c = true) :
    Chosen (c :: cs) (wordOrNumber (c :: cs)).1 (wordOrNumber (c :: cs)).2 := by
  rw [wordOrNumber_eq]
  rcases hread : Numeral.read? (c :: cs) with _ | ⟨m, kind⟩
  · refine chosen_word hc ?_
    intro n kind h
    rw [hread] at h
    simp at h
  · by_cases hle : wordLength (c :: cs) ≤ m
    · simp only [hle, if_true]
      exact chosen_number hc hread hle
    · simp only [hle, if_false]
      refine chosen_word hc ?_
      intro n kind' h
      rw [hread, Option.some.injEq, Prod.mk.injEq] at h
      omega

/-! ## The piece that the lexer takes -/

theorem chosen_pieceAt (comments : CommentIndex) (i : Nat) {c : Char} {cs : List Char}
    (hquote : c ≠ '\'' ∧ c ≠ '"' ∧ c ≠ '`') (hopen : Comment.opens (c :: cs) = false) :
    ∃ kind n, pieceAt comments i (c :: cs) = .ok (kind, n) ∧ Chosen (c :: cs) kind n := by
  simp only [pieceAt]
  by_cases hblank : isBlank c = true
  · exact ⟨_, _, if_pos hblank, chosen_whitespace hblank⟩
  rw [if_neg hblank]
  rw [Bool.not_eq_true] at hblank
  by_cases hdash : c = '-' ∧ cs.head? = some '-'
  · obtain ⟨rfl, hhead⟩ := hdash
    obtain ⟨rest, rfl⟩ := List.head?_eq_some_iff.mp hhead
    exact ⟨_, _, if_pos ⟨rfl, rfl⟩, chosen_lineComment rest⟩
  rw [if_neg hdash, if_neg (by simp [hopen]), if_neg (by simp [hquote.1, hquote.2.1]),
    if_neg hquote.2.2]
  by_cases harrow : c = '=' ∧ cs.head? = some '>'
  · obtain ⟨rfl, hhead⟩ := harrow
    obtain ⟨rest, rfl⟩ := List.head?_eq_some_iff.mp hhead
    exact ⟨_, _, if_pos ⟨rfl, rfl⟩, chosen_arrow rest⟩
  rw [if_neg harrow]
  by_cases hdot : c = '.'
  · subst hdot
    rw [if_pos rfl]
    rcases hread : Numeral.read? ('.' :: cs) with _ | ⟨n, kind⟩
    · exact ⟨_, _, rfl, chosen_dot hread⟩
    · exact ⟨_, _, rfl, chosen_dot_number hread⟩
  rw [if_neg hdot]
  by_cases hword : isWordChar c = true
  · exact ⟨_, _, if_pos hword, chosen_wordOrNumber hword⟩
  rw [if_neg hword]
  rw [Bool.not_eq_true] at hword
  rcases hmark : punctuation? c with _ | kind
  · exact ⟨_, _, rfl, chosen_unrecognized hblank hword hdot hmark fun hc h => harrow ⟨hc, h⟩⟩
  · exact ⟨_, _, rfl, chosen_mark (mark_of_punctuation? hmark).1 (fun hc h => hdash ⟨hc, h⟩) hdot⟩

/-! ## The law -/

/-- In every state of a lexer, unless a quoted piece or a block comment starts at its place,
the next token is the longest match of the lexical rules, and of several kinds with a match
of that length the one of highest rank. It is one unrecognized character exactly when no
rule matches. -/
theorem the_next_token_is_the_longest_match (l : Lexer) (c : Char) (cs : List Char)
    (hrest : l.rest = c :: cs) (hquote : c ≠ '\'' ∧ c ≠ '"' ∧ c ≠ '`')
    (hopen : Comment.opens (c :: cs) = false) :
    ∃ t w l', l.next = .ok (t, l') ∧ c :: cs = w ++ l'.rest ∧ t.text = String.ofList w ∧
      ((t.kind = .unrecognized ∧ w = [c] ∧ NoMatch (c :: cs)) ∨
        BestMatch t.kind w l'.rest) := by
  obtain ⟨kind, n, hpiece, hchosen⟩ := chosen_pieceAt l.comments l.place.index hquote hopen
  rw [← hrest] at hpiece
  have hnext := Lexer.next_of_pieceAt hpiece
  rw [hrest] at hnext
  refine ⟨_, (c :: cs).take n, _, hnext, (List.take_append_drop n (c :: cs)).symm, rfl, ?_⟩
  rcases hchosen with ⟨w, rest, hcut, rfl, hbest⟩ | ⟨rfl, rfl, hno⟩
  · right
    simp only [hcut, List.take_left, List.drop_left]
    exact hbest
  · exact .inl ⟨rfl, rfl, hno⟩

/-- Every reading of `1.5E10x` that has the point in it would run into the word. -/
theorem a_number_with_a_point_stops_before_a_word :
    ((Lexer.ofText "1.5E10x").rest = '1' :: ".5E10x".toList ∧
      ('1' ≠ '\'' ∧ '1' ≠ '"' ∧ '1' ≠ '`') ∧ Comment.opens ('1' :: ".5E10x".toList) = false) ∧
    BestMatch (.number .integer) ['1'] ".5E10x".toList := by
  refine ⟨⟨by decide, by decide, by decide⟩, ?_⟩
  obtain ⟨t, w, l', hnext, hcut, -, hbest⟩ := the_next_token_is_the_longest_match
    (.ofText "1.5E10x") '1' ".5E10x".toList (by decide) (by decide) (by decide)
  have hone : (Lexer.ofText "1.5E10x").next = .ok (⟨.number .integer, "1", ⟨0, 1, 1, 1⟩⟩,
      ⟨(Lexer.ofText "1.5E10x").comments, ⟨1, 1, 1, 2⟩, ".5E10x".toList⟩) := by rfl
  rw [hone, Except.ok.injEq, Prod.mk.injEq] at hnext
  obtain ⟨rfl, rfl⟩ := hnext
  have hw : w = ['1'] := (List.append_cancel_right (show ['1'] ++ _ = w ++ _ from hcut)).symm
  subst hw
  rcases hbest with ⟨hkind, -⟩ | hbest
  · simp at hkind
  · exact hbest

end TagDialect
