-- Other blanks between the same tokens. Each visible token of a text is the same
-- piece in front of a blank, so a text that is laid out anew has the same
-- tokens, and the parser reads the same statement off them.
import TagDialect.Proofs.PieceContexts
import TagDialect.Proofs.TokenPlaces
import TagDialect.Proofs.StatementReadings

namespace TagDialect

/-! ## Texts laid out anew -/

/-- Space, tab, carriage return and line feed, and nothing else. -/
def Blanks (s : String) : Prop := ∀ c ∈ s.toList, isBlank c = true

/-- The texts of the tokens, each with the gap behind it, and one more gap before them. -/
def relaid (lead : String) (laid : List (Token × String)) : String :=
  lead ++ String.join (laid.map fun p => p.1.text ++ p.2)

/-- A gap as lexemes. -/
def gapLexemes (gap : String) : List Lexeme := if gap = "" then [] else [⟨.whitespace, gap⟩]

/-- The tokens and the gaps behind them as lexemes. -/
def laidLexemes (laid : List (Token × String)) : List Lexeme :=
  laid.flatMap fun p => p.1.lexeme :: gapLexemes p.2

theorem laidLexemes_cons (p : Token × String) (laid : List (Token × String)) :
    laidLexemes (p :: laid) = p.1.lexeme :: (gapLexemes p.2 ++ laidLexemes laid) := rfl

@[simp] theorem chars_gapLexemes (gap : String) : chars (gapLexemes gap) = gap.toList := by
  unfold gapLexemes
  split
  · rename_i hgap
    rw [hgap]
    rfl
  · simp

theorem chars_laidLexemes (laid : List (Token × String)) :
    chars (laidLexemes laid) = laid.flatMap fun p => p.1.text.toList ++ p.2.toList := by
  induction laid with
  | nil => rfl
  | cons p laid ih =>
    rw [laidLexemes_cons, chars_cons, chars_append, chars_gapLexemes, ih, List.flatMap_cons,
      List.append_assoc]
    rfl

theorem toList_relaid (lead : String) (laid : List (Token × String)) :
    (relaid lead laid).toList = chars (gapLexemes lead ++ laidLexemes laid) := by
  simp only [relaid, String.toList_append, String.toList_join, List.flatMap_map, chars_append,
    chars_gapLexemes, chars_laidLexemes]

theorem visible_gapLexemes (gap : String) : (gapLexemes gap).filter Lexeme.isVisible = [] := by
  unfold gapLexemes
  split <;> rfl

theorem visible_laidLexemes {laid : List (Token × String)}
    (h : ∀ p ∈ laid, p.1.lexeme.isVisible = true) :
    (laidLexemes laid).filter Lexeme.isVisible = laid.map fun p => p.1.lexeme := by
  induction laid with
  | nil => rfl
  | cons p laid ih =>
    rw [laidLexemes_cons, List.filter_cons_of_pos (h p List.mem_cons_self), List.filter_append,
      visible_gapLexemes, ih fun q hq => h q (List.mem_cons_of_mem p hq)]
    rfl

/-! ## Lexemes that stand in front of a blank -/

/-- The lexeme is a piece in front of each blank, and in front of nothing. -/
structure Stands (w : Lexeme) : Prop where
  ne_end : w.kind ≠ .endOfInput
  ne_nil : w.text.toList ≠ []
  visible : w.isVisible = true
  piece (rest : List Char) (hgap : Gap rest) :
    firstPiece (w.text.toList ++ rest) = .ok (w.kind, w.text.toList.length)

/-- Each visible piece of a text stands in front of a blank. -/
theorem Pieces.stands {ws : List Lexeme} {rest : List Char} (h : Pieces ws rest) {w : Lexeme}
    (hw : w ∈ ws) (hv : w.isVisible = true) : Stands w := by
  have hne := h.text_ne_nil hw
  refine ⟨h.kind_ne hw, hne, hv, ?_⟩
  intro rest' hgap
  obtain ⟨us, vs, rfl⟩ := List.mem_iff_append.mp hw
  obtain ⟨-, hpiece, -⟩ := (Pieces.append_iff.mp h).2
  exact firstPiece_before_gap hne hpiece (by simpa [Lexeme.isVisible] using hv) hgap

/-- The text does not start with a blank. -/
def Unblank (cs : List Char) : Prop := ∀ c, cs.head? = some c → isBlank c = false

/-- What stands in front of a blank starts with none. -/
theorem Stands.unblank {w : Lexeme} (h : Stands w) (rest : List Char) :
    Unblank (w.text.toList ++ rest) := by
  intro c hc
  obtain ⟨d, ds, hcut⟩ := List.exists_cons_of_ne_nil h.ne_nil
  obtain rfl : d = c := by simpa [hcut] using hc
  rw [← Bool.not_eq_true]
  intro hblank
  have hfirst := h.piece [] (by simp [Gap])
  rw [hcut, List.append_nil, firstPiece, pieceAt, if_pos hblank, Except.ok.injEq,
    Prod.mk.injEq] at hfirst
  have hv := h.visible
  rw [Lexeme.isVisible, ← hfirst.1] at hv
  exact absurd hv (by decide)

/-! ## Gaps -/

theorem firstPiece_blanks {cs rest : List Char} (hne : cs ≠ []) (hall : ∀ c ∈ cs, isBlank c = true)
    (hrest : Unblank rest) : firstPiece (cs ++ rest) = .ok (.whitespace, cs.length) := by
  obtain ⟨c, cs, rfl⟩ := List.exists_cons_of_ne_nil hne
  have hnone : rest.takeWhile isBlank = [] := by
    cases rest with
    | nil => rfl
    | cons d ds => rw [List.takeWhile_cons_of_neg (by simp [hrest d rfl])]
  have htake : (cs ++ rest).takeWhile isBlank = cs := by
    rw [List.takeWhile_append_of_pos fun d hd => hall d (List.mem_cons_of_mem c hd), hnone,
      List.append_nil]
  rw [List.cons_append, firstPiece, pieceAt, if_pos (hall c List.mem_cons_self), htake,
    List.length_cons, Nat.add_comm]

/-- A gap is one piece or none, in front of what starts with no blank. -/
theorem pieces_gap {gap : String} {rest : List Char} (hblank : Blanks gap)
    (hrest : Unblank rest) : Pieces (gapLexemes gap) rest := by
  unfold gapLexemes
  split
  · trivial
  · rename_i hne
    refine ⟨by simp, ?_, trivial⟩
    exact firstPiece_blanks (fun h => hne (String.toList_eq_nil_iff.mp h)) hblank hrest

theorem gap_of_blanks {gap : String} (hblank : Blanks gap) : Gap gap.toList := by
  intro c hc
  exact hblank c (List.mem_of_mem_head? hc)

theorem gap_append {gap : String} (rest : List Char) (hblank : Blanks gap) (hne : gap ≠ "") :
    Gap (gap.toList ++ rest) := by
  have hnil : gap.toList ≠ [] := fun h => hne (String.toList_eq_nil_iff.mp h)
  intro c hc
  rw [List.head?_append_of_ne_nil _ hnil] at hc
  exact gap_of_blanks hblank c hc

/-! ## Pieces of a text laid out anew -/

/-- Lexemes that stand in front of blanks are the pieces of each text that has blanks between
them. -/
theorem pieces_laid {laid : List (Token × String)} (hstands : ∀ p ∈ laid, Stands p.1.lexeme)
    (hblank : ∀ p ∈ laid, Blanks p.2) (hne : ∀ p ∈ laid.dropLast, p.2 ≠ "") :
    Pieces (laidLexemes laid) [] ∧ Unblank (chars (laidLexemes laid)) := by
  induction laid with
  | nil => exact ⟨trivial, by simp [laidLexemes, Unblank]⟩
  | cons p laid ih =>
    have hp := hstands p List.mem_cons_self
    have hgap := hblank p List.mem_cons_self
    have hrest : Gap (p.2.toList ++ chars (laidLexemes laid)) := by
      cases laid with
      | nil => simpa [laidLexemes] using gap_of_blanks hgap
      | cons q laid => exact gap_append _ hgap (hne p (by simp))
    obtain ⟨hpieces, hunblank⟩ := ih (fun q hq => hstands q (List.mem_cons_of_mem p hq))
      (fun q hq => hblank q (List.mem_cons_of_mem p hq)) (by
        intro q hq
        apply hne
        cases laid with
        | nil => simp at hq
        | cons r laid => simpa using .inr hq)
    rw [laidLexemes_cons, chars_cons]
    refine ⟨⟨hp.ne_end, hp.piece _ ?_, Pieces.append_iff.mpr ⟨?_, hpieces⟩⟩, hp.unblank _⟩
    · rwa [List.append_nil, chars_append, chars_gapLexemes]
    · rw [List.append_nil]
      exact pieces_gap hgap hunblank

/-! ## The same statement -/

/-- The parser sees nothing of the tokens but their lexemes. -/
theorem exists_parse_iff {text : String} {tokens : List Token} (h : tokenize text = .ok tokens)
    (a : Statement) : (∃ s, parse text = .ok s ∧ s.bare = a) ↔
      ∃ s : Statement, s.DerivesWhole (tokens.map Token.lexeme) ∧ s.bare = a := by
  constructor
  · rintro ⟨s, hs, hbare⟩
    obtain ⟨d, hd⟩ := (parse_eq_ok h).mp hs
    exact ⟨s, Parse.whole_sound (closed_tokenize h) hd, hbare⟩
  · rintro ⟨s, hs, hbare⟩
    obtain ⟨t, d, ht, hd⟩ := Parse.whole_complete (c := .ofTokens tokens) hs
    exact ⟨t, (parse_eq_ok h).mpr ⟨d, hd⟩, ht.trans hbare⟩

/-- A text that parses has no unrecognized characters in it. -/
theorem known_of_parse {text : String} {s : Statement} (h : parse text = .ok s) {ws : List Lexeme}
    (hws : Pieces ws []) (hchars : chars ws = text.toList) : ∀ w ∈ ws, w.kind ≠ .unrecognized := by
  intro w hw hunknown
  have htokens := tokenize_eq_ok.mpr ⟨ws, hws, hchars, rfl⟩
  obtain ⟨t, ht, -⟩ := (exists_parse_iff htokens s.bare).mp ⟨s, h, rfl⟩
  have hplace := ht.placed w (by
    rw [lexemes_visible, List.filter_append]
    refine List.mem_append_left _ (List.mem_filter.mpr ⟨hw, ?_⟩)
    simp [Lexeme.isVisible, hunknown, TokenKind.isHidden])
  simp [hunknown, TokenKind.hasPlace] at hplace

/-- Layout does not matter. Take the tokens of a text, whatever blanks and comments stood
between them, and put blanks of any kind behind each, with at least one between each two, and
before the first. The new text has the same kinds and texts of tokens, and the parser reads
the same statement off it, up to spans, or none off both. -/
theorem layout_does_not_matter {text lead : String} {laid : List (Token × String)} {e : Token}
    (h : tokenize text = .ok (laid.map Prod.fst ++ [e])) (hlead : Blanks lead)
    (hblank : ∀ p ∈ laid, Blanks p.2) (hne : ∀ p ∈ laid.dropLast, p.2 ≠ "") :
    (∃ tokens, tokenize (relaid lead laid) = .ok tokens ∧
      tokens.map Token.lexeme = laid.map (fun p => p.1.lexeme) ++ [.finish]) ∧
    ∀ a : Statement, (∃ s, parse (relaid lead laid) = .ok s ∧ s.bare = a) ↔
      ∃ s, parse text = .ok s ∧ s.bare = a := by
  obtain ⟨ws, hws, -, htokens⟩ := tokenize_eq_ok.mp h
  have hlexemes : laid.map (fun p => p.1.lexeme) ++ [e.lexeme] =
      ws.filter Lexeme.isVisible ++ [.finish] := by
    have hmap := congrArg (List.map Token.lexeme) htokens
    rw [lexemes_visible, List.filter_append, List.map_append, List.map_map] at hmap
    exact hmap
  obtain ⟨hvisible, hfinish⟩ := List.append_inj' hlexemes rfl
  have hstands : ∀ p ∈ laid, Stands p.1.lexeme := by
    intro p hp
    have hmem : p.1.lexeme ∈ ws.filter Lexeme.isVisible := by
      rw [← hvisible]
      exact List.mem_map_of_mem (f := fun p : Token × String => p.1.lexeme) hp
    obtain ⟨hw, hv⟩ := List.mem_filter.mp hmem
    exact hws.stands hw hv
  obtain ⟨hpieces, hunblank⟩ := pieces_laid hstands hblank hne
  have hnew : tokenize (relaid lead laid) = .ok ((placed .first
      (gapLexemes lead ++ laidLexemes laid ++ [.finish])).filter fun t => t.lexeme.isVisible) := by
    refine tokenize_eq_ok.mpr ⟨_, Pieces.append_iff.mpr ⟨?_, hpieces⟩, (toList_relaid _ _).symm, rfl⟩
    rw [List.append_nil]
    exact pieces_gap hlead hunblank
  have hsame : ((placed .first (gapLexemes lead ++ laidLexemes laid ++ [.finish])).filter
      fun t => t.lexeme.isVisible).map Token.lexeme =
        laid.map (fun p => p.1.lexeme) ++ [.finish] := by
    rw [lexemes_visible, List.filter_append, List.filter_append, visible_gapLexemes,
      visible_laidLexemes fun p hp => (hstands p hp).visible]
    rfl
  refine ⟨⟨_, hnew, hsame⟩, ?_⟩
  intro a
  rw [exists_parse_iff hnew, exists_parse_iff h, hsame, htokens, lexemes_visible,
    List.filter_append, ← hvisible]
  rfl

/-- A comment gives way to a tab, and a point that no blank stood next to is the same point
between blanks. -/
theorem a_name_with_digits_is_laid_out_anew :
    let laid : List (Token × String) := [(⟨.keyword .show, "show", ⟨0, 4, 1, 1⟩⟩, "\t"),
      (⟨.keyword .tags, "tags", ⟨8, 12, 1, 9⟩⟩, "\r\n"),
      (⟨.identifier, "1_", ⟨13, 15, 1, 14⟩⟩, " "), (⟨.dot, ".", ⟨15, 16, 1, 16⟩⟩, " "),
      (⟨.identifier, "2_", ⟨16, 18, 1, 17⟩⟩, "")]
    tokenize "show/**/tags 1_.2_" =
      .ok (laid.map Prod.fst ++ [⟨.endOfInput, "", ⟨18, 18, 1, 19⟩⟩]) ∧
    ∀ a : Statement, (∃ s, parse "show\ttags\r\n1_ . 2_" = .ok s ∧ s.bare = a) ↔
      ∃ s, parse "show/**/tags 1_.2_" = .ok s ∧ s.bare = a := by
  intro laid
  have hcomment : firstPiece "/**/tags 1_.2_".toList = .ok (.blockComment, 4) :=
    firstPiece_opener rfl
  have htokens : tokenize "show/**/tags 1_.2_" =
      .ok (laid.map Prod.fst ++ [⟨.endOfInput, "", ⟨18, 18, 1, 19⟩⟩]) := by
    refine tokenize_eq_ok.mpr ⟨[⟨.keyword .show, "show"⟩, ⟨.blockComment, "/**/"⟩,
      ⟨.keyword .tags, "tags"⟩, ⟨.whitespace, " "⟩, ⟨.identifier, "1_"⟩, ⟨.dot, "."⟩,
      ⟨.identifier, "2_"⟩], ?_, rfl, rfl⟩
    exact ⟨by simp, rfl, by simp, hcomment, by simp, rfl, by simp, rfl, by simp, rfl, by simp, rfl,
      by simp, rfl, trivial⟩
  refine ⟨htokens, ?_⟩
  have hlead : Blanks "" := by simp [Blanks]
  exact (layout_does_not_matter htokens hlead (by simp [laid, Blanks, isBlank]) (by simp [laid])).2

end TagDialect
