-- The piece at the head of a text, without the table of comments: a comment
-- with its plain end, a quoted piece up to its closing mark, or what the
-- lexical rules choose. Nothing that stands before the piece matters to it.
import TagDialect.Proofs.CommentMatching
import TagDialect.Proofs.LexedPieces

namespace TagDialect

/-! ## Places do not matter -/

/-- The piece at the head of a text that has nothing before it. -/
def firstPiece (cs : List Char) : Except Unterminated (TokenKind × Nat) :=
  pieceAt (.ofText cs) 0 cs

/-- The table of comments is only asked for the body of the comment that opens here. -/
theorem pieceAt_congr {comments comments' : CommentIndex} {i i' : Nat} {cs : List Char}
    (h : comments.bodyLength? i (cs.drop 2) = comments'.bodyLength? i' (cs.drop 2)) :
    pieceAt comments i cs = pieceAt comments' i' cs := by
  cases cs with
  | nil => rfl
  | cons c cs =>
    rw [List.drop_succ_cons] at h
    simp only [pieceAt, h]

/-- What stands before a place of a text does not matter to the piece there. -/
theorem pieceAt_behind (before rest : List Char) :
    pieceAt (.ofText (before ++ rest)) before.length rest = firstPiece rest := by
  apply pieceAt_congr
  rw [CommentIndex.bodyLength?_ofText rfl]
  exact (CommentIndex.bodyLength?_ofText (List.nil_append rest).symm).symm

/-! ## The forms of a piece -/

/-- The pieces that a text can start with, by what they are and how long they are. -/
inductive PieceForm : List Char → TokenKind → Nat → Prop
  | comment {body : List Char} {n : Nat} (ho : Comment.opens ('/' :: '*' :: body) = true)
      (hn : Comment.bodyLength? body = some n) :
      PieceForm ('/' :: '*' :: body) .blockComment (2 + n)
  /-- A slash whose comment never ends. -/
  | slash {body : List Char} (ho : Comment.opens ('/' :: '*' :: body) = true)
      (hn : Comment.bodyLength? body = none) : PieceForm ('/' :: '*' :: body) .unrecognized 1
  | string {quote : Char} {cs : List Char} {n : Nat} (hq : quote = '\'' ∨ quote = '"')
      (hn : stringLength? quote cs = some n) : PieceForm (quote :: cs) .string (1 + n)
  | ticked {cs : List Char} {n : Nat} (hn : nameLength? cs = some n) :
      PieceForm ('`' :: cs) .backquoted (1 + n)
  | chosen {c : Char} {cs : List Char} {kind : TokenKind} {n : Nat}
      (hquote : c ≠ '\'' ∧ c ≠ '"' ∧ c ≠ '`') (ho : Comment.opens (c :: cs) = false)
      (h : Chosen (c :: cs) kind n) : PieceForm (c :: cs) kind n

theorem firstPiece_opener {body : List Char} (ho : Comment.opens ('/' :: '*' :: body) = true) :
    firstPiece ('/' :: '*' :: body) =
      match Comment.bodyLength? body with
      | some n => .ok (.blockComment, 2 + n)
      | none => .ok (.unrecognized, 1) := by
  have hbody : (CommentIndex.ofText ('/' :: '*' :: body)).bodyLength? 0 body =
      Comment.bodyLength? body := CommentIndex.bodyLength?_ofText (List.nil_append _).symm
  have hpiece := pieceAt_opener (CommentIndex.ofText ('/' :: '*' :: body)) 0 ho
  rw [hbody] at hpiece
  exact hpiece

theorem firstPiece_quote {quote : Char} (cs : List Char) (hq : quote = '\'' ∨ quote = '"') :
    firstPiece (quote :: cs) =
      match stringLength? quote cs with
      | some n => .ok (.string, 1 + n)
      | none => .error (.string quote) := by
  cases hn : stringLength? quote cs with
  | some n => rcases hq with rfl | rfl <;> simp [firstPiece, pieceAt, opens_of_ne, isBlank, hn]
  | none => rcases hq with rfl | rfl <;> simp [firstPiece, pieceAt, opens_of_ne, isBlank, hn]

theorem firstPiece_tick (cs : List Char) :
    firstPiece ('`' :: cs) =
      match nameLength? cs with
      | some n => .ok (.backquoted, 1 + n)
      | none => .error .name := by
  cases hn : nameLength? cs with
  | some n => simp [firstPiece, pieceAt, opens_of_ne, isBlank, hn]
  | none => simp [firstPiece, pieceAt, opens_of_ne, isBlank, hn]

/-- The lexer takes exactly the piece of one of the forms. -/
theorem firstPiece_eq_ok {c : Char} {cs : List Char} {kind : TokenKind} {n : Nat} :
    firstPiece (c :: cs) = .ok (kind, n) ↔ PieceForm (c :: cs) kind n := by
  constructor
  · intro h
    by_cases ho : Comment.opens (c :: cs) = true
    · obtain ⟨body, hcut, -⟩ := Comment.eq_of_opens ho
      rw [hcut] at h ho ⊢
      rw [firstPiece_opener ho] at h
      cases hn : Comment.bodyLength? body with
      | some m =>
        simp only [hn, Except.ok.injEq, Prod.mk.injEq] at h
        obtain ⟨rfl, rfl⟩ := h
        exact .comment ho hn
      | none =>
        simp only [hn, Except.ok.injEq, Prod.mk.injEq] at h
        obtain ⟨rfl, rfl⟩ := h
        exact .slash ho hn
    · by_cases hq : c = '\'' ∨ c = '"'
      · rw [firstPiece_quote cs hq] at h
        cases hn : stringLength? c cs with
        | some m =>
          simp only [hn, Except.ok.injEq, Prod.mk.injEq] at h
          obtain ⟨rfl, rfl⟩ := h
          exact .string hq hn
        | none => simp [hn] at h
      · by_cases htick : c = '`'
        · subst htick
          rw [firstPiece_tick] at h
          cases hn : nameLength? cs with
          | some m =>
            simp only [hn, Except.ok.injEq, Prod.mk.injEq] at h
            obtain ⟨rfl, rfl⟩ := h
            exact .ticked hn
          | none => simp [hn] at h
        · rw [not_or] at hq
          rw [Bool.not_eq_true] at ho
          have hquote : c ≠ '\'' ∧ c ≠ '"' ∧ c ≠ '`' := ⟨hq.1, hq.2, htick⟩
          obtain ⟨kind', n', hpiece, hchosen⟩ := chosen_pieceAt (.ofText (c :: cs)) 0 hquote ho
          rw [← firstPiece, h, Except.ok.injEq, Prod.mk.injEq] at hpiece
          obtain ⟨rfl, rfl⟩ := hpiece
          exact .chosen hquote ho hchosen
  · intro h
    generalize hcut : c :: cs = text at h ⊢
    cases h with
    | comment ho hn => rw [firstPiece_opener ho, hn]
    | slash ho hn => rw [firstPiece_opener ho, hn]
    | string hq hn => rw [firstPiece_quote _ hq, hn]
    | ticked hn => rw [firstPiece_tick, hn]
    | chosen hquote ho hchosen =>
      obtain ⟨kind', n', hpiece, hchosen'⟩ := chosen_pieceAt (.ofText _) 0 hquote ho
      obtain ⟨rfl, rfl⟩ := hchosen.unique hchosen'
      exact hpiece

/-! ## Where a piece ends -/

/-- A string ends at its closing quote, whatever comes behind it. -/
theorem exists_string {quote : Char} {cs : List Char} {n : Nat}
    (h : stringLength? quote cs = some n) :
    ∃ v rest, cs = v ++ rest ∧ v.length = n ∧ ∀ ds, stringLength? quote (v ++ ds) = some n := by
  fun_induction stringLength? quote cs generalizing n with
  | case1 => simp at h
  | case2 => simp at h
  | case3 d ds ih =>
    obtain ⟨m, hm, rfl⟩ := Option.map_eq_some_iff.mp h
    obtain ⟨v, rest, rfl, rfl, hv⟩ := ih hm
    refine ⟨'\\' :: d :: v, rest, rfl, rfl, ?_⟩
    intro es
    rw [List.cons_append, List.cons_append, stringLength?_slash, hv, Option.map_some]
  | case4 cs hslash =>
    obtain rfl : 1 = n := by simpa using h
    exact ⟨[quote], cs, rfl, rfl, fun ds => stringLength?_quote hslash ds⟩
  | case5 c cs hslash hquote ih =>
    obtain ⟨m, hm, rfl⟩ := Option.map_eq_some_iff.mp h
    obtain ⟨v, rest, rfl, rfl, hv⟩ := ih hm
    refine ⟨c :: v, rest, rfl, rfl, ?_⟩
    intro ds
    rw [List.cons_append, stringLength?_cons _ hslash hquote, hv, Option.map_some]

/-- A back-quoted name ends at a tick with no other tick behind it. -/
theorem exists_name {cs : List Char} {n : Nat} (h : nameLength? cs = some n) :
    ∃ v rest, cs = v ++ rest ∧ v.length = n ∧ rest.head? ≠ some '`' ∧
      ∀ ds : List Char, ds.head? ≠ some '`' → nameLength? (v ++ ds) = some n := by
  fun_induction nameLength? cs generalizing n with
  | case1 => simp at h
  | case2 =>
    obtain rfl : 1 = n := by simpa using h
    exact ⟨['`'], [], rfl, rfl, by simp, fun ds hds => nameLength?_tick hds⟩
  | case3 => simp at h
  | case4 cs ih =>
    obtain ⟨m, hm, rfl⟩ := Option.map_eq_some_iff.mp h
    obtain ⟨v, rest, rfl, rfl, hrest, hv⟩ := ih hm
    refine ⟨'`' :: '`' :: v, rest, rfl, rfl, hrest, ?_⟩
    intro ds hds
    simp [nameLength?, hv ds hds]
  | case5 d cs htick =>
    obtain rfl : 1 = n := by simpa using h
    exact ⟨['`'], d :: cs, rfl, rfl, by simpa using htick, fun ds hds => nameLength?_tick hds⟩
  | case6 c d cs htick ih =>
    obtain ⟨m, hm, rfl⟩ := Option.map_eq_some_iff.mp h
    obtain ⟨v, rest, hcut, rfl, hrest, hv⟩ := ih hm
    refine ⟨c :: v, rest, by rw [hcut]; rfl, rfl, hrest, ?_⟩
    intro ds hds
    rw [List.cons_append, nameLength?_cons _ htick, hv ds hds, Option.map_some]

theorem stringLength?_elsewhere {quote : Char} {cs rest : List Char}
    (h : stringLength? quote (cs ++ rest) = some cs.length) (ds : List Char) :
    stringLength? quote (cs ++ ds) = some cs.length := by
  obtain ⟨v, rest', hcut, hlength, hends⟩ := exists_string h
  obtain ⟨rfl, -⟩ := List.append_inj hcut hlength.symm
  exact hends ds

theorem nameLength?_elsewhere {cs rest : List Char}
    (h : nameLength? (cs ++ rest) = some cs.length) :
    rest.head? ≠ some '`' ∧
      ∀ ds : List Char, ds.head? ≠ some '`' → nameLength? (cs ++ ds) = some cs.length := by
  obtain ⟨v, rest', hcut, hlength, hhead, hends⟩ := exists_name h
  obtain ⟨rfl, rfl⟩ := List.append_inj hcut hlength.symm
  exact ⟨hhead, hends⟩

namespace Comment

/-- No closer is the start of an opener. -/
theorem not_opens_of_closes {a b : Char} {cs : List Char} (hc : closes (a :: b :: cs) = true)
    (ds : List Char) : ¬ opens (a :: b :: ds) = true := by
  intro ho
  obtain ⟨body, hcut, -⟩ := eq_of_opens ho
  simp only [List.cons.injEq] at hcut
  simp [closes, hcut.1] at hc

theorem two_le_of_balancedLength? {depth : Nat} {cs : List Char} {n : Nat}
    (h : balancedLength? depth cs = some n) : 2 ≤ n := by
  fun_induction balancedLength? depth cs generalizing n with
  | case1 => simp at h
  | case2 => simp at h
  | case4 => simp_all
  | case3 depth a b cs ho ih =>
    obtain ⟨m, -, rfl⟩ := Option.map_eq_some_iff.mp h
    omega
  | case5 a b cs ho hc depth ih =>
    obtain ⟨m, -, rfl⟩ := Option.map_eq_some_iff.mp h
    omega
  | case6 depth a b cs ho hc ih =>
    obtain ⟨m, hm, rfl⟩ := Option.map_eq_some_iff.mp h
    have := ih hm
    omega

/-- A comment that balances ends at its closer, whatever comes behind it. -/
theorem exists_balanced {depth : Nat} {cs : List Char} {n : Nat}
    (h : balancedLength? depth cs = some n) :
    ∃ v rest, cs = v ++ rest ∧ v.length = n ∧ ∀ ds, balancedLength? depth (v ++ ds) = some n := by
  fun_induction balancedLength? depth cs generalizing n with
  | case1 => simp at h
  | case2 => simp at h
  | case3 depth a b cs ho ih =>
    obtain ⟨m, hm, rfl⟩ := Option.map_eq_some_iff.mp h
    obtain ⟨v, rest, rfl, rfl, hv⟩ := ih hm
    have htwo := two_le_of_balancedLength? hm
    refine ⟨a :: b :: v, rest, rfl, rfl, ?_⟩
    intro ds
    -- The opener looks one character further, which is in the comment too.
    have ho' : opens (a :: b :: (v ++ ds)) = true := by
      cases v with
      | nil => simp at htwo
      | cons c v => exact ho
    rw [List.cons_append, List.cons_append, balancedLength?_opener depth ho', hv, Option.map_some]
  | case4 a b cs ho hc =>
    obtain rfl : 2 = n := by simpa using h
    refine ⟨[a, b], cs, rfl, rfl, ?_⟩
    intro ds
    exact balancedLength?_last (not_opens_of_closes hc ds) hc
  | case5 a b cs ho hc depth ih =>
    obtain ⟨m, hm, rfl⟩ := Option.map_eq_some_iff.mp h
    obtain ⟨v, rest, rfl, rfl, hv⟩ := ih hm
    refine ⟨a :: b :: v, rest, rfl, rfl, ?_⟩
    intro ds
    have hcloser := balancedLength?_closer depth (not_opens_of_closes hc (v ++ ds)) hc
    rw [hv, Option.map_some] at hcloser
    exact hcloser
  | case6 depth a b cs ho hc ih =>
    obtain ⟨m, hm, rfl⟩ := Option.map_eq_some_iff.mp h
    obtain ⟨v, rest, hcut, rfl, hv⟩ := ih hm
    have htwo := two_le_of_balancedLength? hm
    obtain ⟨b', c, v, rfl⟩ : ∃ b' c w, v = b' :: c :: w := by
      cases v with
      | nil => simp at htwo
      | cons b' w =>
        cases w with
        | nil => simp at htwo
        | cons c w => exact ⟨b', c, w, rfl⟩
    obtain ⟨rfl, rfl⟩ := List.cons.inj hcut
    refine ⟨a :: b :: c :: v, rest, rfl, rfl, ?_⟩
    intro ds
    have hplain := @balancedLength?_plain a b (c :: (v ++ ds)) depth ho hc
    rw [List.cons_append, List.cons_append, List.cons_append, hplain]
    exact congrArg (Option.map (· + 1)) (hv ds)

theorem balancedLength?_append {depth : Nat} {cs : List Char} {n : Nat} (ds : List Char)
    (h : balancedLength? depth cs = some n) : balancedLength? depth (cs ++ ds) = some n := by
  obtain ⟨v, rest, rfl, -, hv⟩ := exists_balanced h
  rw [List.append_assoc, hv]

theorem closes_append {cs : List Char} (ds : List Char) (h : 2 ≤ cs.length) :
    closes (cs ++ ds) = closes cs := by
  match cs, h with
  | a :: b :: cs, _ => rfl

/-- The first closer stays the first one when the text behind it changes. -/
theorem exists_firstClose {cs : List Char} {n : Nat} (h : firstCloseLength? cs = some n) :
    ∃ v rest, cs = v ++ rest ∧ v.length = n ∧ 2 ≤ n ∧
      ∀ ds, firstCloseLength? (v ++ ds) = some n := by
  induction cs generalizing n with
  | nil => simp [firstCloseLength?] at h
  | cons c cs ih =>
    unfold firstCloseLength? at h
    split at h
    · rename_i hc
      obtain rfl : 2 = n := by simpa using h
      cases cs with
      | nil => simp [closes] at hc
      | cons d cs =>
        refine ⟨[c, d], cs, rfl, rfl, Nat.le_refl 2, ?_⟩
        intro ds
        exact if_pos hc
    · rename_i hc
      obtain ⟨m, hm, rfl⟩ := Option.map_eq_some_iff.mp h
      obtain ⟨v, rest, rfl, rfl, htwo, hv⟩ := ih hm
      refine ⟨c :: v, rest, rfl, rfl, by omega, ?_⟩
      intro ds
      have hc' : ¬ closes (c :: (v ++ ds)) = true := by
        have htwo' : 2 ≤ (c :: v).length := by
          rw [List.length_cons]
          omega
        rw [← List.cons_append, closes_append ds htwo', ← closes_append rest htwo']
        exact hc
      rw [List.cons_append, firstCloseLength?, if_neg hc', hv, Option.map_some]

/-- The body of a comment stays the same when the text behind it is cut. -/
theorem exists_body {body : List Char} {n : Nat} (h : bodyLength? body = some n) :
    ∃ v rest, body = v ++ rest ∧ v.length = n ∧ 2 ≤ n ∧
      ∀ ds after, rest = ds ++ after → bodyLength? (v ++ ds) = some n := by
  unfold bodyLength? at h
  cases hb : balancedLength? 0 body with
  | some m =>
    obtain rfl : m = n := by simpa [hb] using h
    obtain ⟨v, rest, hcut, hlength, hv⟩ := exists_balanced hb
    refine ⟨v, rest, hcut, hlength, two_le_of_balancedLength? hb, ?_⟩
    intro ds _ _
    simp [bodyLength?, hv ds]
  | none =>
    have hfirst : firstCloseLength? body = some n := by simpa [hb] using h
    obtain ⟨v, rest, rfl, hlength, htwo, hv⟩ := exists_firstClose hfirst
    refine ⟨v, rest, rfl, hlength, htwo, ?_⟩
    rintro ds after rfl
    -- What does not balance does not balance in less text either.
    have hnone : balancedLength? 0 (v ++ ds) = none := by
      cases hcut : balancedLength? 0 (v ++ ds) with
      | none => rfl
      | some m =>
        have hmore := balancedLength?_append after hcut
        rw [List.append_assoc, hb] at hmore
        simp at hmore
    simp [bodyLength?, hnone, hv ds]

end Comment

/-- A piece lies inside the text. -/
theorem PieceForm.le_length {cs : List Char} {kind : TokenKind} {n : Nat}
    (h : PieceForm cs kind n) : n ≤ cs.length := by
  cases h with
  | comment _ hn =>
    obtain ⟨v, rest, rfl, rfl, -⟩ := Comment.exists_body hn
    simp only [List.length_cons, List.length_append]
    omega
  | slash => simp
  | string _ hn =>
    obtain ⟨v, rest, rfl, rfl, -⟩ := exists_string hn
    simp only [List.length_cons, List.length_append]
    omega
  | ticked hn =>
    obtain ⟨v, rest, rfl, rfl, -⟩ := exists_name hn
    simp only [List.length_cons, List.length_append]
    omega
  | chosen _ _ h =>
    rcases h with ⟨w, rest, hcut, rfl, -⟩ | ⟨-, rfl, -⟩
    · simp [hcut]
    · simp

theorem RuleMatch.ne_endOfInput {kind : TokenKind} {w rest : List Char}
    (h : RuleMatch kind w rest) : kind ≠ .endOfInput := by
  rintro rfl
  cases h with
  | mark hmark => cases hmark

/-- No piece of a text is the end of the input. -/
theorem PieceForm.ne_endOfInput {cs : List Char} {kind : TokenKind} {n : Nat}
    (h : PieceForm cs kind n) : kind ≠ .endOfInput := by
  cases h with
  | chosen _ _ h =>
    rcases h with ⟨w, rest, -, -, hbest⟩ | ⟨rfl, -, -⟩
    · exact hbest.fits.ne_endOfInput
    · simp
  | _ => simp

end TagDialect
