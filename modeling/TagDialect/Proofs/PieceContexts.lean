-- A piece that is found again in front of another text: in front of a blank or
-- of nothing, and in front of a text that is cut off somewhere behind it.
import TagDialect.Proofs.PieceForms

namespace TagDialect

/-! ## Matches in front of another text -/

/-- A match that reads as a number with a point is one, so no word goes on behind it. -/
theorem endsWord_of_match {kind : TokenKind} {w rest : List Char} {k : NumberKind}
    (h : RuleMatch kind w rest) (hw : NumberWord k true w) : Numeral.endsWord rest = true := by
  have hdot : '.' ∈ w := (dot_mem_iff hw).mpr rfl
  obtain ⟨c, cs, rfl, hc⟩ := hw.head
  cases h with
  | whitespace _ hall => exact absurd (hall '.' hdot) (by decide)
  | lineComment _ _ => exact absurd hc (by decide)
  | mark hmark =>
    cases hmark with
    | dot =>
      have halone : RuleMatch (.number k) ['.'] [] := .number hw fun _ => rfl
      exact absurd halone (Numeral.read?_eq_none (show Numeral.read? ['.'] = none by decide) k ['.'] [] rfl)
    | _ => exact absurd hc (by decide)
  | keyword hk => exact absurd ((word_of_keyword hk).1 '.' hdot) (by decide)
  | identifier _ hall => exact absurd (hall '.' hdot) (by decide)
  | number hword hend => exact hend ((dot_mem_iff hword).mp hdot)

/-- A best match is best in front of another text too, when no word goes on there behind a
number with a point and no match goes on into that text. -/
theorem BestMatch.elsewhere {kind : TokenKind} {w rest rest' : List Char}
    (h : BestMatch kind w rest) (hend : Numeral.endsWord rest = true → Numeral.endsWord rest' = true)
    (hpast : ∀ kind' u r, u ≠ [] → rest' = u ++ r → ¬ RuleMatch kind' (w ++ u) r) :
    BestMatch kind w rest' := by
  constructor
  · apply h.fits.before
    rintro k rfl hdot
    exact hend ((number_of_match h.fits).2 hdot)
  · intro kind' w' r hcut hmatch
    have hshort {u : List Char} (hw : w = w' ++ u) (hr : r = u ++ rest') :
        w'.length < w.length ∨
          w'.length = w.length ∧ (kind' = kind ∨ kind.rank < kind'.rank) := by
      refine h.best kind' w' (u ++ rest) (by rw [hw, List.append_assoc]) (hmatch.before ?_)
      rintro k rfl hdot
      obtain ⟨⟨pointed, hword⟩, hnext⟩ := number_of_match hmatch
      cases u with
      | nil =>
        obtain rfl := (dot_mem_iff hword).mp hdot
        rw [List.append_nil] at hw
        subst hw
        exact endsWord_of_match h.fits hword
      | cons c u =>
        rw [hr] at hnext
        exact hnext hdot
    rcases List.append_eq_append_iff.mp hcut with ⟨u, rfl, hu⟩ | ⟨u, hw, hr⟩
    · cases u with
      | nil => exact hshort (u := []) (by simp) (by simpa using hu.symm)
      | cons c u => exact absurd hmatch (hpast kind' (c :: u) r (by simp) hu)
    · exact hshort hw hr

/-- A piece is the one that the rules choose, a character that starts nothing, a block comment, or
a quoted piece. -/
theorem bestMatch_or_special {c : Char} {w rest : List Char} {kind : TokenKind}
    (h : firstPiece (c :: w ++ rest) = .ok (kind, (c :: w).length)) :
    BestMatch kind (c :: w) rest ∨ kind = .unrecognized ∨ (kind = .blockComment ∧ c = '/') ∨
      (kind = .string ∧ (c = '\'' ∨ c = '"')) ∨ (kind = .backquoted ∧ c = '`') := by
  rw [List.cons_append, firstPiece_eq_ok] at h
  generalize hlength : (c :: w).length = n at h
  generalize hcut : c :: (w ++ rest) = text at h
  cases h with
  | comment _ _ => exact .inr (.inr (.inl ⟨rfl, (List.cons.inj hcut).1⟩))
  | slash _ _ => exact .inr (.inl rfl)
  | string hq _ =>
    obtain ⟨rfl, -⟩ := List.cons.inj hcut
    exact .inr (.inr (.inr (.inl ⟨rfl, hq⟩)))
  | ticked _ => exact .inr (.inr (.inr (.inr ⟨rfl, (List.cons.inj hcut).1⟩)))
  | chosen _ _ hchosen =>
    rcases hchosen with ⟨v, rest', hv, rfl, hbest⟩ | ⟨rfl, -, -⟩
    · rw [← hcut, ← List.cons_append] at hv
      obtain ⟨rfl, rfl⟩ := List.append_inj hv hlength
      exact .inl hbest
    · exact .inr (.inl rfl)

/-- A piece that starts with no slash and no quote is the one that the rules choose. -/
theorem bestMatch_of_plain {c : Char} {w rest : List Char} {kind : TokenKind}
    (h : firstPiece (c :: w ++ rest) = .ok (kind, (c :: w).length)) (hk : kind ≠ .unrecognized)
    (hc : c ≠ '/' ∧ c ≠ '\'' ∧ c ≠ '"' ∧ c ≠ '`') : BestMatch kind (c :: w) rest := by
  rcases bestMatch_or_special h with hbest | hkind | ⟨-, hslash⟩ | ⟨-, hquote⟩ | ⟨-, htick⟩
  · exact hbest
  · exact absurd hkind hk
  · exact absurd hslash hc.1
  · exact (hquote.elim hc.2.1 hc.2.2.1).elim
  · exact absurd htick hc.2.2.2

/-- No rule matches a slash. -/
theorem RuleMatch.ne_slash {kind : TokenKind} {c : Char} {w rest : List Char}
    (h : RuleMatch kind (c :: w) rest) : c ≠ '/' := by
  rintro rfl
  rcases (begins_of_cut (List.cons_append ..) h).commentOrMark (by decide) (by decide) (by decide)
    with ⟨-, hc⟩ | ⟨_, hmark⟩
  · exact absurd hc (by decide)
  · cases hmark

/-- Only a line comment starts with two dashes. -/
theorem RuleMatch.kind_of_dashes {kind : TokenKind} {w rest : List Char}
    (h : RuleMatch kind ('-' :: '-' :: w) rest) : kind = .lineComment := by
  rcases (begins_of_cut (List.cons_append ..) h).commentOrMark (by decide) (by decide) (by decide)
    with ⟨hkind, -⟩ | ⟨_, hmark⟩
  · exact hkind
  · cases hmark
    cases h with
    | mark hmark => cases hmark

/-! ## In front of a blank, or of nothing -/

/-- The text is empty or starts with a blank. -/
def Gap (rest : List Char) : Prop := ∀ c, rest.head? = some c → isBlank c = true

theorem endsWord_of_gap {rest : List Char} (h : Gap rest) : Numeral.endsWord rest = true := by
  cases rest with
  | nil => rfl
  | cons c cs =>
    have hc : isWordChar c = false := by
      rw [← Bool.not_eq_true]
      intro hword
      have hblank := h c rfl
      simp [isBlank_of_isWordChar hword] at hblank
    simp [Numeral.endsWord, hc]

/-- Only blanks themselves start with a blank. -/
theorem Begins.eq_whitespace {kind : TokenKind} {c : Char} (h : Begins kind c)
    (hc : isBlank c = true) : kind = .whitespace := by
  cases h with
  | whitespace _ => rfl
  | lineComment => exact absurd hc (by decide)
  | mark hmark => cases hmark <;> exact absurd hc (by decide)
  | keyword hword _ => simp [isBlank_of_isWordChar hword] at hc
  | identifier hword => simp [isBlank_of_isWordChar hword] at hc
  | number hword => simp [isBlank_of_digitOrDot hword] at hc

/-- A character that goes on with no word, no number and no mark, that opens or closes nothing
quoted, and that is no part of what opens or closes a block comment. -/
structure Stops (c : Char) : Prop where
  word : isWordChar c = false
  mark : c ∉ ['.', '+', '-', '>', '*', '/', '\'', '"', '`']

theorem stops_of_isWhite {c : Char} (h : isWhite c = true) : Stops c := by
  constructor
  · rw [← Bool.not_eq_true]
    intro hword
    simp [isWhite_of_isWordChar hword] at h
  · intro hmem
    simp only [List.mem_cons, List.not_mem_nil, or_false] at hmem
    rcases hmem with rfl | rfl | rfl | rfl | rfl | rfl | rfl | rfl | rfl <;>
      exact absurd h (by decide)

/-- A match that goes on into a character that stops words and marks is one of blanks, or a line
comment. -/
theorem RuleMatch.into_stop {kind : TokenKind} {w u rest : List Char} {b : Char} (hne : w ≠ [])
    (hb : Stops b) (h : RuleMatch kind (w ++ b :: u) rest) :
    (∀ c ∈ w, isBlank c = true) ∨ ∃ v, w = '-' :: '-' :: v := by
  obtain ⟨a, as, rfl⟩ := List.exists_cons_of_ne_nil hne
  have hmem : b ∈ a :: as ++ b :: u := by simp
  have hword := hb.word
  have hmark : b ≠ '.' ∧ b ≠ '+' ∧ b ≠ '-' ∧ b ≠ '>' := by
    refine ⟨?_, ?_, ?_, ?_⟩ <;> rintro rfl <;> exact hb.mark (by decide)
  generalize hv : a :: as ++ b :: u = v at h hmem
  cases h with
  | whitespace _ hall =>
    left
    intro c hc
    exact hall c (hv ▸ List.mem_append_left _ hc)
  | lineComment _ _ =>
    right
    rw [List.cons_append, List.cons.injEq] at hv
    obtain ⟨rfl, hv⟩ := hv
    cases as with
    | nil =>
      rw [List.nil_append, List.cons.injEq] at hv
      exact absurd hv.1 hmark.2.2.1
    | cons d ds =>
      rw [List.cons_append, List.cons.injEq] at hv
      exact ⟨ds, by rw [hv.1]⟩
  | mark hmark' =>
    have hlength := congrArg List.length hv
    cases hmark' with
    | arrow =>
      cases as with
      | nil =>
        simp only [List.cons_append, List.nil_append, List.cons.injEq] at hv
        exact absurd hv.2.1 hmark.2.2.2
      | cons d ds => simp at hlength
    | _ => simp at hlength
  | keyword hk => simp [(word_of_keyword hk).1 b hmem] at hword
  | identifier _ hall => simp [hall b hmem] at hword
  | number hw _ =>
    exact absurd hmem (not_mem_number hw hword ⟨hmark.1, hmark.2.1, hmark.2.2.1⟩)

/-- What is neither blank nor a comment is found again in front of a blank. -/
theorem BestMatch.before_gap {kind : TokenKind} {w rest rest' : List Char}
    (h : BestMatch kind w rest) (hk : kind.isHidden = false) (hgap : Gap rest') :
    BestMatch kind w rest' := by
  refine h.elsewhere (fun _ => endsWord_of_gap hgap) ?_
  intro kind' u r hne hcut hmatch
  obtain ⟨b, bs, rfl⟩ := List.exists_cons_of_ne_nil hne
  obtain ⟨c, cs, rfl, hbegins⟩ := h.fits.begins
  have hb : isBlank b = true := hgap b (by rw [hcut]; rfl)
  have hstops := stops_of_isWhite (isWhite_of_isBlank hb)
  rcases hmatch.into_stop (by simp) hstops with hall | ⟨v, hv⟩
  · rw [hbegins.eq_whitespace (hall c List.mem_cons_self)] at hk
    exact absurd hk (by decide)
  · have hfits := h.fits
    rw [hv] at hfits
    rw [hfits.kind_of_dashes] at hk
    exact absurd hk (by decide)

/-- A character that starts nothing starts nothing in front of a blank. -/
theorem NoMatch.before_gap {c : Char} {rest rest' : List Char} (h : NoMatch (c :: rest))
    (hgap : Gap rest') : NoMatch (c :: rest') := by
  have hdot : c ≠ '.' := by
    rintro rfl
    exact h .dot ['.'] rest rfl (.mark .dot)
  have hblank : isBlank c = false := by
    rw [← Bool.not_eq_true]
    intro hc
    exact h .whitespace [c] rest rfl (.whitespace (by simp) (by simpa using hc))
  intro kind w r hcut hmatch
  obtain ⟨d, u, rfl, -⟩ := hmatch.begins
  obtain ⟨rfl, hu⟩ := List.cons.inj hcut
  cases u with
  | nil =>
    refine h kind [c] rest rfl (hmatch.before ?_)
    rintro k rfl hmem
    exact absurd (List.mem_singleton.mp hmem).symm hdot
  | cons b u =>
    have hb : isBlank b = true := hgap b (by rw [hu]; rfl)
    have hstops := stops_of_isWhite (isWhite_of_isBlank hb)
    rcases RuleMatch.into_stop (w := [c]) (by simp) hstops hmatch with hall | ⟨v, hv⟩
    · simp [hall c List.mem_cons_self] at hblank
    · simp at hv

theorem not_opens_before_gap {c : Char} {rest : List Char} (hgap : Gap rest) :
    Comment.opens (c :: rest) = false := by
  rw [← Bool.not_eq_true]
  intro ho
  obtain ⟨body, hcut, -⟩ := Comment.eq_of_opens ho
  obtain ⟨-, rfl⟩ := List.cons.inj hcut
  exact absurd (hgap '*' rfl) (by decide)

/-- Each piece that is neither blank nor a comment is the same piece in front of a blank. -/
theorem firstPiece_before_gap {w rest rest' : List Char} {kind : TokenKind} (hne : w ≠ [])
    (h : firstPiece (w ++ rest) = .ok (kind, w.length)) (hk : kind.isHidden = false)
    (hgap : Gap rest') : firstPiece (w ++ rest') = .ok (kind, w.length) := by
  obtain ⟨c, cs, rfl⟩ := List.exists_cons_of_ne_nil hne
  rw [List.cons_append, firstPiece_eq_ok] at h ⊢
  generalize hlength : (c :: cs).length = n at h ⊢
  generalize hcut : c :: (cs ++ rest) = text at h
  cases h with
  | comment _ _ => exact absurd hk (by decide)
  | slash ho hn =>
    obtain ⟨rfl, -⟩ := List.cons.inj hcut
    obtain rfl : cs = [] := by simpa using hlength
    refine .chosen (by decide) (not_opens_before_gap hgap) (.inr ⟨rfl, rfl, ?_⟩)
    intro kind w r hcut hmatch
    obtain ⟨d, u, rfl, -⟩ := hmatch.begins
    exact hmatch.ne_slash (List.cons.inj hcut).1.symm
  | string hq hn =>
    obtain ⟨rfl, rfl⟩ := List.cons.inj hcut
    obtain rfl := Nat.add_left_cancel ((Nat.add_comm 1 cs.length).trans hlength)
    exact .string hq (stringLength?_elsewhere hn rest')
  | ticked hn =>
    obtain ⟨rfl, rfl⟩ := List.cons.inj hcut
    obtain rfl := Nat.add_left_cancel ((Nat.add_comm 1 cs.length).trans hlength)
    refine .ticked ((nameLength?_elsewhere hn).2 rest' ?_)
    intro htick
    exact absurd (hgap '`' htick) (by decide)
  | chosen hquote ho hchosen =>
    obtain ⟨rfl, rfl⟩ := List.cons.inj hcut
    rcases hchosen with ⟨w, r, hw, rfl, hbest⟩ | ⟨rfl, rfl, hno⟩
    · have hsame : c :: cs = w := List.append_inj_left hw hlength
      subst hsame
      exact .chosen hquote (opens_of_ne _ hbest.fits.ne_slash)
        (.inl ⟨_, rest', rfl, hlength.symm, hbest.before_gap hk hgap⟩)
    · obtain rfl : cs = [] := by simpa using hlength
      exact .chosen hquote (not_opens_before_gap hgap) (.inr ⟨rfl, rfl, hno.before_gap hgap⟩)

/-! ## In front of a text that is cut off -/

theorem endsWord_of_append {rest after : List Char}
    (h : Numeral.endsWord (rest ++ after) = true) : Numeral.endsWord rest = true := by
  cases rest with
  | nil => rfl
  | cons c cs => exact h

/-- What the rules choose is chosen again where the text behind it is cut off, unless a number
with a point goes up to the cut. -/
theorem BestMatch.cut {kind : TokenKind} {w rest after : List Char}
    (h : BestMatch kind w (rest ++ after))
    (hpoint : rest ≠ [] → ∀ k, ¬ NumberWord k true (w ++ rest)) : BestMatch kind w rest := by
  refine h.elsewhere endsWord_of_append ?_
  rintro kind' u r hne rfl hmatch
  have hfull : RuleMatch kind' (w ++ u) (r ++ after) := by
    apply hmatch.before
    rintro k rfl hdot
    obtain ⟨⟨pointed, hword⟩, hend⟩ := number_of_match hmatch
    cases r with
    | nil =>
      obtain rfl := (dot_mem_iff hword).mp hdot
      rw [List.append_nil] at hpoint
      exact absurd hword (hpoint hne k)
    | cons c r => exact hend hdot
  have hbest := h.best kind' (w ++ u) (r ++ after) (by simp) hfull
  have hpos := List.length_pos_iff.mpr hne
  rw [List.length_append] at hbest
  omega

/-- A piece is the same piece where the text behind it is cut off, unless a number with a point
goes from its start up to the cut. -/
theorem firstPiece_cut {w rest after : List Char} {kind : TokenKind} (hne : w ≠ [])
    (h : firstPiece (w ++ (rest ++ after)) = .ok (kind, w.length)) (hk : kind ≠ .unrecognized)
    (hpoint : rest ≠ [] → ∀ k, ¬ NumberWord k true (w ++ rest)) :
    firstPiece (w ++ rest) = .ok (kind, w.length) := by
  obtain ⟨c, cs, rfl⟩ := List.exists_cons_of_ne_nil hne
  rw [List.cons_append, firstPiece_eq_ok] at h ⊢
  generalize hlength : (c :: cs).length = n at h ⊢
  generalize hcut : c :: (cs ++ (rest ++ after)) = text at h
  cases h with
  | comment ho hn =>
    obtain ⟨rfl, htail⟩ := List.cons.inj hcut
    obtain ⟨v, rest', hbody, rfl, htwo, hv⟩ := Comment.exists_body hn
    subst hbody
    rw [← List.cons_append] at htail
    obtain ⟨rfl, rfl⟩ := List.append_inj htail (by
      simp only [List.length_cons] at hlength ⊢
      omega)
    refine .comment ?_ (hv rest after rfl)
    -- The opener looks one character further, which is in the comment too.
    cases v with
    | nil => simp at htwo
    | cons d v => exact ho
  | slash _ _ => exact absurd rfl hk
  | string hq hn =>
    obtain ⟨rfl, rfl⟩ := List.cons.inj hcut
    obtain rfl := Nat.add_left_cancel ((Nat.add_comm 1 cs.length).trans hlength)
    exact .string hq (stringLength?_elsewhere hn rest)
  | ticked hn =>
    obtain ⟨rfl, rfl⟩ := List.cons.inj hcut
    obtain rfl := Nat.add_left_cancel ((Nat.add_comm 1 cs.length).trans hlength)
    obtain ⟨hhead, hends⟩ := nameLength?_elsewhere hn
    refine .ticked (hends rest ?_)
    intro htick
    cases rest with
    | nil => simp at htick
    | cons d ds => exact hhead htick
  | chosen hquote _ hchosen =>
    obtain ⟨rfl, rfl⟩ := List.cons.inj hcut
    rcases hchosen with ⟨w, r, hw, rfl, hbest⟩ | ⟨rfl, -, -⟩
    · rw [← List.cons_append] at hw
      obtain ⟨rfl, rfl⟩ := List.append_inj hw hlength
      exact .chosen hquote (opens_of_ne _ hbest.fits.ne_slash)
        (.inl ⟨_, rest, rfl, hlength.symm, hbest.cut hpoint⟩)
    · exact absurd rfl hk

end TagDialect
