-- Texts whose pieces are all known: what tokens they have, and which texts are
-- one number from their start to their end.
import TagDialect.Proofs.LexedPieces
import TagDialect.Proofs.Grammar

namespace TagDialect

/-! ## Texts of known pieces -/

/-- The lexemes of a text that is cut into known pieces, without the single spaces between
them. -/
inductive Lexes : List Char → List Lexeme → Prop
  | finish : Lexes [] [⟨.endOfInput, ""⟩]
  | space {rest : List Char} {ws : List Lexeme} (h : Heads .whitespace [' '] rest)
      (hs : Lexes rest ws) : Lexes (' ' :: rest) ws
  | visible {kind : TokenKind} {w rest : List Char} {ws : List Lexeme} (h : Heads kind w rest)
      (hk : kind.isHidden = false) (hend : kind ≠ .endOfInput) (hs : Lexes rest ws) :
      Lexes (w ++ rest) (⟨kind, String.ofList w⟩ :: ws)

/-- A lexer with such a text ahead finds just these lexemes. -/
theorem Lexes.collect {cs : List Char} {ws : List Lexeme} (h : Lexes cs ws) {l : Lexer}
    (hrest : l.rest = cs) : ∃ ts, l.collect (fun t => !t.kind.isHidden) = .ok ts ∧
      ts.map Token.lexeme = ws := by
  induction h generalizing l with
  | finish =>
    have hpiece : pieceAt l.comments l.place.index l.rest = .ok (.endOfInput, 0) := by
      rw [hrest]
      rfl
    exact ⟨_, Lexer.collect_of_end (Lexer.next_of_pieceAt hpiece) rfl, rfl⟩
  | @space rest ws hheads _ ih =>
    have hpiece := hheads l.comments l.place.index
    rw [List.singleton_append, ← hrest] at hpiece
    have hnext := Lexer.next_of_pieceAt hpiece
    rw [hrest] at hnext
    obtain ⟨ts, hts, hmap⟩ := ih (l := ⟨l.comments, l.place.past [' '], rest⟩) rfl
    exact ⟨ts, Lexer.collect_of_dropped hnext (by simp) rfl hts, hmap⟩
  | @visible kind w rest ws hheads hk hend _ ih =>
    have hpiece := hheads l.comments l.place.index
    rw [← hrest] at hpiece
    have hnext := Lexer.next_of_pieceAt hpiece
    rw [hrest, List.take_left, List.drop_left] at hnext
    obtain ⟨ts, hts, hmap⟩ := ih (l := ⟨l.comments, l.place.past w, rest⟩) rfl
    refine ⟨_, Lexer.collect_of_kept hnext hend (by simp [hk]) hts, ?_⟩
    rw [List.map_cons, hmap]
    rfl

theorem tokenize_of_lexes {text : String} {ws : List Lexeme} (h : Lexes text.toList ws) :
    ∃ ts, tokenize text = .ok ts ∧ ts.map Token.lexeme = ws :=
  h.collect rfl

/-! ## Texts that are one number -/

/-- The text is one number of the kind from its start to its end. -/
def IsNumeral (kind : NumberKind) (text : String) : Prop :=
  ∃ t e, tokenize text = .ok [t, e] ∧ t.kind = .number kind ∧ t.text = text

theorem isNumeral_of_best {kind : NumberKind} {text : String}
    (h : BestMatch (.number kind) text.toList []) : IsNumeral kind text := by
  have hheads : Heads (.number kind) text.toList [] := heads_number h (by simp [Apart])
  have hlexes := Lexes.visible hheads rfl (by simp) .finish
  rw [List.append_nil, String.ofList_toList] at hlexes
  obtain ⟨ts, hts, hmap⟩ := tokenize_of_lexes hlexes
  obtain ⟨t, rs, rfl, ht, hrs⟩ := List.map_eq_cons_iff.mp hmap
  obtain ⟨e, rfl, -⟩ := List.map_eq_singleton_iff.mp hrs
  exact ⟨t, e, hts, congrArg Lexeme.kind ht, congrArg Lexeme.text ht⟩

/-- A number among the tokens of a text is also a number where it stands alone. -/
theorem best_of_collect {keep : Token → Bool} {l : Lexer} {ts : List Token}
    (h : l.collect keep = .ok ts) {t : Token} (ht : t ∈ ts) {kind : NumberKind}
    (hk : t.kind = .number kind) : BestMatch (.number kind) t.text.toList [] := by
  have hnext {l l' : Lexer} {t : Token} (h : l.next = .ok (t, l')) (hk : t.kind = .number kind) :
      BestMatch (.number kind) t.text.toList [] := by
    obtain ⟨n, hpiece, htext, -⟩ := Lexer.pieceAt_of_next h
    rw [hk] at hpiece
    rw [htext, String.toList_ofList]
    exact (bestMatch_of_pieceAt hpiece).alone
  fun_induction Lexer.collect keep l generalizing ts with
  | case1 => simp at h
  | case2 l u l' hn hend =>
    simp only [Except.ok.injEq] at h
    subst h
    rw [List.mem_singleton.mp ht] at hk ⊢
    exact hnext hn hk
  | case3 => simp at h
  | case4 l u l' hn _ rs hrs ih =>
    simp only [Except.ok.injEq] at h
    subst h
    split at ht
    · rcases List.mem_cons.mp ht with rfl | ht
      · exact hnext hn hk
      · exact ih hrs ht
    · exact ih hrs ht

theorem best_of_isNumeral {kind : NumberKind} {text : String} (h : IsNumeral kind text) :
    BestMatch (.number kind) text.toList [] := by
  obtain ⟨t, e, htokens, hk, htext⟩ := h
  have hbest := best_of_collect htokens List.mem_cons_self hk
  rwa [htext] at hbest

end TagDialect
