-- Text behind a text. The pieces of a text stay the same when white space or other
-- characters come behind the last one that no piece goes on with. A token of the
-- white space itself is a run of blanks or a character that starts nothing.
import TagDialect.Proofs.PieceContexts
import TagDialect.Proofs.TokenPlaces

namespace TagDialect

/-! ## Comments that are cut off -/

theorem LineBody.cut {u v : List Char} (h : LineBody (u ++ v)) : LineBody u := by
  generalize hw : u ++ v = w at h
  induction h generalizing u with
  | nil =>
    obtain ⟨rfl, -⟩ := List.append_eq_nil_iff.mp hw
    exact .nil
  | carried hbody ih =>
    cases u with
    | nil => exact .nil
    | cons c u =>
      obtain ⟨rfl, htail⟩ := List.cons.inj hw
      cases u with
      | nil => exact .char (by decide) (by decide) .nil
      | cons d u =>
        obtain ⟨rfl, hrest⟩ := List.cons.inj htail
        exact .carried (ih hrest)
  | char hreturn hfeed hbody ih =>
    cases u with
    | nil => exact .nil
    | cons c u =>
      obtain ⟨rfl, htail⟩ := List.cons.inj hw
      exact .char hreturn hfeed (ih htail)

theorem LineBreak.cut {u v : List Char} (h : LineBreak (u ++ v)) : LineBreak u := by
  cases u with
  | nil => exact .none
  | cons c u =>
    generalize hw : c :: u ++ v = w at h
    cases h with
    | none => exact absurd hw (List.cons_ne_nil _ _)
    | carriageReturn | lineFeed =>
      obtain ⟨rfl, htail⟩ := List.cons.inj hw
      obtain ⟨rfl, -⟩ := List.append_eq_nil_iff.mp htail
      constructor
    | both =>
      obtain ⟨rfl, htail⟩ := List.cons.inj hw
      cases u with
      | nil => exact .carriageReturn
      | cons d u =>
        obtain ⟨rfl, hrest⟩ := List.cons.inj htail
        obtain ⟨rfl, -⟩ := List.append_eq_nil_iff.mp hrest
        exact .both

/-- What a line comment starts with is a line comment. -/
theorem lineComment_cut {u v rest : List Char} (rest' : List Char)
    (h : RuleMatch .lineComment ('-' :: '-' :: (u ++ v)) rest) :
    RuleMatch .lineComment ('-' :: '-' :: u) rest' := by
  generalize hw : '-' :: '-' :: (u ++ v) = w at h
  cases h with
  | mark hmark => cases hmark
  | lineComment hbody hbreak =>
    obtain ⟨-, hw⟩ := List.cons.inj hw
    obtain ⟨-, hw⟩ := List.cons.inj hw
    rcases List.append_eq_append_iff.mp hw with ⟨z, rfl, -⟩ | ⟨z, rfl, rfl⟩
    · have hcomment := @RuleMatch.lineComment _ _ rest' hbody.cut .none
      rwa [List.append_nil] at hcomment
    · exact .lineComment hbody hbreak.cut

/-! ## Texts that stop each piece before them -/

/-- No character of the text goes on with a piece before it, but with blanks and line comments. -/
def Inert (cs : List Char) : Prop := ∀ c ∈ cs, Stops c

theorem Inert.tail {c : Char} {cs : List Char} (h : Inert (c :: cs)) : Inert cs :=
  fun d hd => h d (List.mem_cons_of_mem c hd)

theorem inert_of_white {cs : List Char} (h : ∀ c ∈ cs, isWhite c = true) : Inert cs :=
  fun c hc => stops_of_isWhite (h c hc)

theorem Inert.not_mem {cs : List Char} (h : Inert cs) {c : Char}
    (hc : c ∈ ['.', '+', '-', '>', '*', '/', '\'', '"', '`']) : c ∉ cs :=
  fun hmem => (h c hmem).mark hc

theorem Inert.head?_ne {cs : List Char} (h : Inert cs) {c : Char}
    (hc : c ∈ ['.', '+', '-', '>', '*', '/', '\'', '"', '`']) : cs.head? ≠ some c :=
  fun hhead => h.not_mem hc (List.mem_of_head? hhead)

theorem Inert.endsWord {cs : List Char} (h : Inert cs) : Numeral.endsWord cs = true := by
  cases cs with
  | nil => rfl
  | cons c cs => simp [Numeral.endsWord, (h c List.mem_cons_self).word]

/-! ### Comments that an inert text stands behind -/

namespace Comment

variable {tail : List Char}

theorem opens_append_inert (cs : List Char) (h : Inert tail) : opens (cs ++ tail) = opens cs := by
  have hslash := h.head?_ne (c := '/') (by decide)
  have hstar := h.head?_ne (c := '*') (by decide)
  have hplus := h.head?_ne (c := '+') (by decide)
  match cs with
  | [] => rcases tail with _ | ⟨a, _ | ⟨b, ds⟩⟩ <;> simp_all [opens]
  | [a] => rcases tail with _ | ⟨b, ds⟩ <;> simp_all [opens]
  | [a, b] =>
    cases tail with
    | nil => rfl
    | cons d ds =>
      have hd : (some d != some '+') = true := by simpa using hplus
      simp [opens, hd]
  | a :: b :: c :: cs => rfl

theorem closes_append_inert (cs : List Char) (h : Inert tail) :
    closes (cs ++ tail) = closes cs := by
  have hslash := h.head?_ne (c := '/') (by decide)
  have hstar := h.head?_ne (c := '*') (by decide)
  match cs with
  | [] => rcases tail with _ | ⟨a, _ | ⟨b, ds⟩⟩ <;> simp_all [closes]
  | [a] => rcases tail with _ | ⟨b, ds⟩ <;> simp_all [closes]
  | a :: b :: cs => rfl

/-- Nothing balances in an inert text. -/
theorem balancedLength?_inert (depth : Nat) (h : Inert tail) :
    balancedLength? depth tail = none := by
  induction tail with
  | nil => rfl
  | cons a tail ih =>
    cases tail with
    | nil => rfl
    | cons b cs =>
      have ho : ¬ opens (a :: b :: cs) = true := by simpa [opens] using opens_append_inert [] h
      have hc : ¬ closes (a :: b :: cs) = true := by simpa [closes] using closes_append_inert [] h
      rw [balancedLength?_plain depth ho hc, ih h.tail, Option.map_none]

theorem balancedLength?_append_inert (depth : Nat) (cs : List Char) (h : Inert tail) :
    balancedLength? depth (cs ++ tail) = balancedLength? depth cs := by
  fun_induction balancedLength? depth cs with
  | case1 depth => exact balancedLength?_inert depth h
  | case2 depth a =>
    cases tail with
    | nil => rfl
    | cons b cs =>
      have ho : ¬ opens (a :: b :: cs) = true := by simpa [opens] using opens_append_inert [a] h
      have hc : ¬ closes (a :: b :: cs) = true := by simpa [closes] using closes_append_inert [a] h
      have hplain := balancedLength?_plain depth ho hc
      rwa [balancedLength?_inert depth h, Option.map_none] at hplain
  | case3 depth a b cs ho ih =>
    rw [← opens_append_inert _ h] at ho
    exact (balancedLength?_opener depth ho).trans (congrArg _ ih)
  | case4 a b cs ho hc =>
    rw [← opens_append_inert _ h] at ho
    rw [← closes_append_inert _ h] at hc
    exact balancedLength?_last ho hc
  | case5 a b cs ho hc depth ih =>
    rw [← opens_append_inert _ h] at ho
    rw [← closes_append_inert _ h] at hc
    exact (balancedLength?_closer depth ho hc).trans (congrArg _ ih)
  | case6 depth a b cs ho hc ih =>
    rw [← opens_append_inert _ h] at ho
    rw [← closes_append_inert _ h] at hc
    exact (balancedLength?_plain depth ho hc).trans (congrArg _ ih)

theorem firstCloseLength?_append_inert (cs : List Char) (h : Inert tail) :
    firstCloseLength? (cs ++ tail) = firstCloseLength? cs := by
  induction cs with
  | nil =>
    induction tail with
    | nil => rfl
    | cons c tail ih =>
      have hc : closes (c :: tail) = false := closes_append_inert [] h
      have hnone : firstCloseLength? tail = none := ih h.tail
      show firstCloseLength? (c :: tail) = none
      simp [firstCloseLength?, hc, hnone]
  | cons c cs ih =>
    have hc : closes (c :: (cs ++ tail)) = closes (c :: cs) := closes_append_inert (c :: cs) h
    simp only [List.cons_append, firstCloseLength?, hc, ih]

/-- Whether and where a block comment ends does not depend on an inert text behind it. -/
theorem bodyLength?_append_inert (body : List Char) (h : Inert tail) :
    bodyLength? (body ++ tail) = bodyLength? body := by
  simp only [bodyLength?, balancedLength?_append_inert _ _ h, firstCloseLength?_append_inert _ h]

end Comment

/-! ## Pieces in front of an inert text -/

/-- A piece of the kind may go on when any text comes behind it. -/
def OpenEnded (kind : TokenKind) : Prop := kind = .whitespace ∨ kind = .lineComment

/-- Where blanks or a line comment match, no other rule matches as much. -/
theorem RuleMatch.openEnded {kind kind' : TokenKind} {w v rest rest' : List Char}
    (h : RuleMatch kind w rest) (hk : OpenEnded kind) (h' : RuleMatch kind' (w ++ v) rest') :
    OpenEnded kind' := by
  rcases hk with rfl | rfl
  · cases h with
    | whitespace hne hall =>
      obtain ⟨c, cs, rfl⟩ := List.exists_cons_of_ne_nil hne
      have hbegins := begins_of_cut (List.cons_append ..) h'
      exact .inl (hbegins.eq_whitespace (hall c List.mem_cons_self))
    | mark hmark => cases hmark
  · cases h with
    | lineComment _ _ => exact .inr (RuleMatch.kind_of_dashes h')
    | mark hmark => cases hmark

/-- A match in a text with an inert text behind it ends in the text, or all of the text is blanks
or a line comment. -/
theorem RuleMatch.inside_or_beyond {kind : TokenKind} {text tail w rest : List Char}
    (h : RuleMatch kind w rest) (hcut : text ++ tail = w ++ rest) (hne : text ≠ [])
    (htail : Inert tail) :
    (∃ v, text = w ++ v ∧ RuleMatch kind w v) ∨
      ∃ kind', OpenEnded kind' ∧ RuleMatch kind' text [] := by
  have hinside {v : List Char} (hrest : rest = v ++ tail) : RuleMatch kind w v := by
    apply h.before
    rintro k rfl hdot
    exact endsWord_of_append (hrest ▸ (number_of_match h).2 hdot)
  rcases List.append_eq_append_iff.mp hcut with ⟨v, rfl, rfl⟩ | ⟨v, rfl, rfl⟩
  · cases v with
    | nil => exact .inl ⟨[], by simp, by simpa using hinside (v := []) rfl⟩
    | cons b v =>
      right
      rcases h.into_stop hne (htail b (by simp)) with hall | ⟨x, rfl⟩
      · exact ⟨.whitespace, .inl rfl, .whitespace hne hall⟩
      · refine ⟨.lineComment, .inr rfl, ?_⟩
        obtain rfl := RuleMatch.kind_of_dashes h
        exact lineComment_cut [] h
  · exact .inl ⟨v, rfl, hinside rfl⟩

/-- What the rules choose is chosen again when an inert text comes behind the text, unless blanks
or a line comment go up to the end of the text. -/
theorem BestMatch.before_inert {kind : TokenKind} {w rest tail : List Char}
    (h : BestMatch kind w rest) (hk : rest = [] → ¬ OpenEnded kind) (htail : Inert tail) :
    BestMatch kind w (rest ++ tail) := by
  have hne : w ≠ [] := by
    obtain ⟨c, cs, rfl, -⟩ := h.fits.begins
    exact List.cons_ne_nil c cs
  constructor
  · apply h.fits.before
    rintro k rfl hdot
    cases rest with
    | nil => exact htail.endsWord
    | cons c cs => exact (number_of_match h.fits).2 hdot
  · intro kind' w' r hcut hmatch
    rw [← List.append_assoc] at hcut
    have htext : w ++ rest ≠ [] := List.append_ne_nil_of_left_ne_nil hne rest
    rcases hmatch.inside_or_beyond hcut htext htail with ⟨v, hv, hshort⟩ | ⟨kind'', hopen, hall⟩
    · exact h.best kind' w' v hv hshort
    · -- what matches all of the text is no longer than the best match
      have hbest := h.best kind'' (w ++ rest) [] (List.append_nil _).symm hall
      rw [List.length_append] at hbest
      obtain rfl : rest = [] := List.length_eq_zero_iff.mp (by omega)
      rw [List.append_nil] at hall
      exact absurd (hall.openEnded hopen (v := []) (by simpa using h.fits)) (hk rfl)

/-- A character that starts nothing starts nothing when an inert text comes behind the text. -/
theorem NoMatch.before_inert {c : Char} {rest tail : List Char} (h : NoMatch (c :: rest))
    (htail : Inert tail) : NoMatch (c :: rest ++ tail) := by
  intro kind w r hcut hmatch
  have hne := List.cons_ne_nil c rest
  rcases hmatch.inside_or_beyond hcut hne htail with ⟨v, hv, hshort⟩ | ⟨kind', -, hall⟩
  · exact h kind w v hv hshort
  · exact h kind' (c :: rest) [] (List.append_nil _).symm hall

/-- The first piece of a text is the same one when an inert text comes behind the text, unless
blanks or a line comment go up to its end. -/
theorem PieceForm.before_inert {cs tail : List Char} {kind : TokenKind} {n : Nat}
    (h : PieceForm cs kind n) (hk : n = cs.length → ¬ OpenEnded kind) (htail : Inert tail) :
    PieceForm (cs ++ tail) kind n := by
  cases h with
  | comment ho hn =>
    rw [← Comment.opens_append_inert _ htail] at ho
    exact .comment ho ((Comment.bodyLength?_append_inert _ htail).trans hn)
  | slash ho hn =>
    rw [← Comment.opens_append_inert _ htail] at ho
    exact .slash ho ((Comment.bodyLength?_append_inert _ htail).trans hn)
  | string hq hn =>
    obtain ⟨v, rest, rfl, -, hends⟩ := exists_string hn
    have hsame := hends (rest ++ tail)
    rw [← List.append_assoc] at hsame
    exact .string hq hsame
  | ticked hn =>
    obtain ⟨v, rest, rfl, -, hhead, hends⟩ := exists_name hn
    have hsame := hends (rest ++ tail) (by
      cases rest with
      | nil => exact htail.head?_ne (by decide)
      | cons d ds => exact hhead)
    rw [← List.append_assoc] at hsame
    exact .ticked hsame
  | chosen hquote ho hchosen =>
    rw [← Comment.opens_append_inert _ htail] at ho
    refine .chosen hquote ho ?_
    rcases hchosen with ⟨w, rest, hcut, rfl, hbest⟩ | ⟨rfl, rfl, hno⟩
    · have hopen : rest = [] → ¬ OpenEnded kind := by
        rintro rfl
        exact hk (by rw [hcut, List.append_nil])
      have hcut' := (congrArg (· ++ tail) hcut).trans (List.append_assoc ..)
      exact .inl ⟨w, rest ++ tail, hcut', rfl, hbest.before_inert hopen htail⟩
    · exact .inr ⟨rfl, rfl, hno.before_inert htail⟩

theorem firstPiece_before_inert {w rest tail : List Char} {kind : TokenKind} (hne : w ≠ [])
    (h : firstPiece (w ++ rest) = .ok (kind, w.length)) (hk : rest = [] → ¬ OpenEnded kind)
    (htail : Inert tail) : firstPiece (w ++ (rest ++ tail)) = .ok (kind, w.length) := by
  obtain ⟨c, cs, rfl⟩ := List.exists_cons_of_ne_nil hne
  rw [← List.append_assoc]
  refine firstPiece_eq_ok.mpr ((firstPiece_eq_ok.mp h).before_inert ?_ htail)
  intro hlength
  exact hk (List.length_eq_zero_iff.mp (by simpa using hlength))

/-- The pieces of a text are the same ones when an inert text comes behind the text. -/
theorem Pieces.before_inert {ws : List Lexeme} {rest tail : List Char} (h : Pieces ws rest)
    (hlast : rest = [] → ∀ w ∈ ws.getLast?, ¬ OpenEnded w.kind) (htail : Inert tail) :
    Pieces ws (rest ++ tail) := by
  induction ws with
  | nil => trivial
  | cons w ws ih =>
    have hne := h.text_ne_nil List.mem_cons_self
    obtain ⟨hend, hpiece, hrest⟩ := h
    refine ⟨hend, ?_, ih hrest ?_⟩
    · rw [← List.append_assoc (chars ws)]
      refine firstPiece_before_inert hne hpiece ?_ htail
      intro hnil
      obtain ⟨hws, rfl⟩ := List.append_eq_nil_iff.mp hnil
      cases ws with
      | nil => exact hlast rfl w (by simp)
      | cons v vs =>
        exact absurd (List.append_eq_nil_iff.mp hws).1 (hrest.text_ne_nil List.mem_cons_self)
    · intro hnil v hv
      cases ws with
      | nil => simp at hv
      | cons u us => exact hlast hnil v (by simpa using hv)

/-! ## Texts in front of white space -/

/-- A text that ends in a visible piece, and has no comments in it. -/
structure Trimmed (ws : List Lexeme) : Prop where
  pieces : Pieces ws []
  visible : ∀ w ∈ ws, w.isVisible = true ∧ w.kind ≠ .unrecognized ∨ w.kind = .whitespace
  last : ∀ w ∈ ws.getLast?, w.isVisible = true

theorem not_openEnded_of_isVisible {w : Lexeme} (h : w.isVisible = true) : ¬ OpenEnded w.kind := by
  rintro (hk | hk) <;> simp [Lexeme.isVisible, TokenKind.isHidden, hk] at h

/-- Such a text has the same pieces in front of white space. -/
theorem Trimmed.before_white {ws : List Lexeme} (h : Trimmed ws) {tail : List Char}
    (htail : ∀ c ∈ tail, isWhite c = true) : Pieces ws tail := by
  refine h.pieces.before_inert ?_ (inert_of_white htail)
  intro _ w hw
  exact not_openEnded_of_isVisible (h.last w hw)

/-! ## The white space itself -/

/-- White space that is no blank starts nothing. -/
theorem firstPiece_white {c : Char} (cs : List Char) (hwhite : isWhite c = true)
    (hblank : isBlank c = false) : firstPiece (c :: cs) = .ok (.unrecognized, 1) := by
  have hword : isWordChar c = false := by
    rw [← Bool.not_eq_true]
    intro hword
    simp [isWhite_of_isWordChar hword] at hwhite
  have hne {d : Char} (hd : isWhite d = false) : c ≠ d := by
    rintro rfl
    simp [hwhite] at hd
  have hmark : punctuation? c = none := by
    simp [punctuation?, hne (show isWhite '(' = false by decide),
      hne (show isWhite ')' = false by decide), hne (show isWhite ',' = false by decide),
      hne (show isWhite ';' = false by decide), hne (show isWhite '+' = false by decide),
      hne (show isWhite '-' = false by decide)]
  have hchosen : Chosen (c :: cs) .unrecognized 1 :=
    chosen_unrecognized hblank hword (hne (by decide)) hmark
      fun heq _ => hne (show isWhite '=' = false by decide) heq
  exact firstPiece_eq_ok.mpr (.chosen
    ⟨hne (by decide), hne (by decide), hne (by decide)⟩ (opens_of_ne cs (hne (by decide))) hchosen)

/-- White space without unknown characters is made of blanks. -/
theorem blank_of_pieces {ws : List Lexeme} (h : Pieces ws [])
    (hwhite : ∀ c ∈ chars ws, isWhite c = true) (hk : ∀ w ∈ ws, w.kind ≠ .unrecognized) :
    ∀ c ∈ chars ws, isBlank c = true := by
  induction ws with
  | nil => simp
  | cons w ws ih =>
    obtain ⟨c, cs, hw⟩ := List.exists_cons_of_ne_nil (h.text_ne_nil List.mem_cons_self)
    obtain ⟨-, hpiece, hrest⟩ := h
    rw [chars_cons] at hwhite ⊢
    have hc : isBlank c = true := by
      rw [← Bool.not_eq_false]
      intro hblank
      rw [hw, List.cons_append, firstPiece_white _ (hwhite c (by simp [hw])) hblank] at hpiece
      simp only [Except.ok.injEq, Prod.mk.injEq] at hpiece
      exact hk w List.mem_cons_self hpiece.1.symm
    have hcs : ∀ d ∈ cs, isBlank d = true := by
      rw [hw, List.cons_append, firstPiece, pieceAt, if_pos hc] at hpiece
      simp only [Except.ok.injEq, Prod.mk.injEq, List.length_cons] at hpiece
      have htake : (cs ++ (chars ws ++ [])).takeWhile isBlank = cs := by
        have hprefix := List.takeWhile_prefix (l := cs ++ (chars ws ++ [])) isBlank
        obtain ⟨t, ht⟩ := hprefix
        exact List.append_inj_left ht (by omega)
      intro d hd
      rw [← htake] at hd
      exact List.mem_takeWhile_imp hd
    intro d hd
    rcases List.mem_append.mp hd with hd | hd
    · rw [hw] at hd
      rcases List.mem_cons.mp hd with rfl | hd
      · exact hc
      · exact hcs d hd
    · exact ih hrest (fun d hd => hwhite d (List.mem_append_right _ hd))
        (fun v hv => hk v (List.mem_cons_of_mem w hv)) d hd

end TagDialect
