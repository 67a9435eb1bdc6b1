-- Keywords in other letters. A text whose keywords are spelled anew has the same
-- pieces at the same places, unless a keyword takes the first letter of its new
-- spelling away to the number right before it.
import TagDialect.Proofs.CutTexts
import TagDialect.Proofs.LetterCase

namespace TagDialect

/-! ## Letters in numbers -/

/-- A character that the first part does not have is in the second one. -/
theorem split_behind {n t p us : List Char} {x : Char} (hx : x ∉ n)
    (h : p ++ x :: us = n ++ t) : ∃ z, p = n ++ z ∧ t = z ++ x :: us := by
  rcases List.append_eq_append_iff.mp h with ⟨z, rfl, hz⟩ | ⟨z, rfl, hz⟩
  · cases z with
    | nil => exact ⟨[], by simp, by simpa using hz.symm⟩
    | cons y z =>
      obtain ⟨rfl, -⟩ := List.cons.inj hz
      simp at hx
  · exact ⟨z, rfl, hz⟩

/-- A letter in an exponent is its first one, with a sign or a digit behind it. -/
theorem Exponent.letter {e z us : List Char} {x : Char} (h : Exponent e) (hx : x.isAlpha = true)
    (hcut : e = z ++ x :: us) : x = 'E' ∧ ∃ d ds, us = d :: ds ∧ d.isAlpha = false := by
  obtain @⟨sign, digits, hsign, hdigits⟩ := h
  have hdigit : ∀ d ∈ digits, d.isAlpha = false := by
    intro d hd
    rw [← Bool.not_eq_true]
    intro halpha
    have hclass := (class_of_isAlpha halpha).2.1
    simp [hdigits.2 d hd] at hclass
  have htail : ∀ d ∈ sign ++ digits, d.isAlpha = false := by
    intro d hd
    rcases List.mem_append.mp hd with hd | hd
    · rcases hsign with rfl | rfl | rfl
      · exact nomatch hd
      · rw [List.mem_singleton.mp hd]
        decide
      · rw [List.mem_singleton.mp hd]
        decide
    · exact hdigit d hd
  cases z with
  | nil =>
    obtain ⟨rfl, rfl⟩ := List.cons.inj hcut
    obtain ⟨d, ds, hcons⟩ :=
      List.exists_cons_of_ne_nil (List.append_ne_nil_of_right_ne_nil sign hdigits.1)
    rw [hcons] at htail ⊢
    exact ⟨rfl, d, ds, rfl, htail d List.mem_cons_self⟩
  | cons y z =>
    obtain ⟨-, hcut⟩ := List.cons.inj hcut
    simp [htail x (by rw [hcut]; simp)] at hx

/-- A letter in a suffix is the whole of it, or one of two. -/
theorem AnySuffix.letter {kind : NumberKind} {s z us : List Char} {x : Char} (h : AnySuffix kind s)
    (hcut : s = z ++ x :: us) :
    (x = 'B' ∧ us = ['D']) ∨ us = [] ∧ (x = 'D' ∨ x = 'F') ∧ (z = [] ∨ z = ['B']) := by
  cases h with
  | float | double =>
    cases z with
    | nil =>
      obtain ⟨rfl, rfl⟩ := List.cons.inj hcut
      simp
    | cons y z => simp at hcut
  | bigDecimal =>
    match z with
    | [] =>
      obtain ⟨rfl, rfl⟩ := List.cons.inj hcut
      simp
    | [y] =>
      simp only [List.cons_append, List.nil_append, List.cons.injEq] at hcut
      obtain ⟨rfl, rfl, rfl⟩ := hcut
      simp
    | _ :: _ :: z => simp at hcut

/-- A number without its suffix is all digits, or has an exponent, or has a point. -/
theorem NumberWord.stem {pointed : Bool} {m e : List Char} (hm : Mantissa pointed m)
    (he : e = [] ∨ Exponent e) :
    pointed = true ∨ Digits (m ++ e) ∨ NumberWord .exponent false (m ++ e) := by
  cases hm with
  | whole hn =>
    rcases he with rfl | he
    · rw [List.append_nil]
      exact .inr (.inl hn)
    · exact .inr (.inr (.exponent (.whole hn) he))
  | point _ _ => exact .inl rfl
  | fraction _ => exact .inl rfl

/-- What stands in a number before a letter that is neither of its exponent nor the first of two. -/
inductive Stem (x : Char) : List Char → Prop
  | digits {p : List Char} (h : Digits p) : Stem x p
  | exponent {p : List Char} (h : NumberWord .exponent false p) (hx : x = 'D' ∨ x = 'F') : Stem x p
  | half {k : NumberKind} {q : List Char} (h : NumberWord k false q) : Stem x (q ++ ['B'])

/-- A letter in a number is that of its exponent, or of its suffix. -/
theorem NumberWord.letter {kind : NumberKind} {pointed : Bool} {p us : List Char} {x : Char}
    (h : NumberWord kind pointed (p ++ x :: us)) (hx : x.isAlpha = true) :
    (x = 'E' ∧ ∃ d ds, us = d :: ds ∧ d.isAlpha = false) ∨ (x = 'B' ∧ us = ['D']) ∨
      us = [] ∧ x ≠ 'B' ∧ (pointed = true ∨ Stem x p) := by
  have hdot : x ≠ '.' := by
    rintro rfl
    exact absurd hx (by decide)
  have hmantissa {pointed : Bool} {m : List Char} (hm : Mantissa pointed m) : x ∉ m :=
    Numeral.not_mem_mantissa hm (class_of_isAlpha hx).2.1 (.inr hdot)
  -- Behind the mantissa and the exponent is the suffix, of one letter or two.
  have hsuffix {pointed : Bool} {m e s z : List Char} {kind : NumberKind} (hm : Mantissa pointed m)
      (he : e = [] ∨ Exponent e) (hs : AnySuffix kind s) (hcut : s = z ++ x :: us) :
      (x = 'B' ∧ us = ['D']) ∨ us = [] ∧ x ≠ 'B' ∧ (pointed = true ∨ Stem x (m ++ e ++ z)) := by
    rcases hs.letter hcut with hpair | ⟨hnil, hletter, hz⟩
    · exact .inl hpair
    · refine .inr ⟨hnil, by rcases hletter with rfl | rfl <;> decide, ?_⟩
      rcases NumberWord.stem hm he with hpoint | hdigits | hexponent
      · exact .inl hpoint
      · rcases hz with rfl | rfl
        · rw [List.append_nil]
          exact .inr (.digits hdigits)
        · exact .inr (.half (.integer hdigits))
      · rcases hz with rfl | rfl
        · rw [List.append_nil]
          exact .inr (.exponent hexponent hletter)
        · exact .inr (.half hexponent)
  generalize hcut : p ++ x :: us = w at h
  cases h with
  | @suffixed _ n c hn hs =>
    obtain ⟨z, rfl, hz⟩ := split_behind (hmantissa (.whole hn)) hcut
    cases z with
    | nil =>
      obtain ⟨rfl, rfl⟩ := List.cons.inj hz
      rw [List.append_nil]
      exact .inr (.inr ⟨rfl, by cases hs <;> decide, .inr (.digits hn)⟩)
    | cons y z => simp at hz
  | integer hn => exact absurd (by rw [← hcut]; simp) (hmantissa (.whole hn))
  | exponent hm he =>
    obtain ⟨z, rfl, hz⟩ := split_behind (hmantissa hm) hcut
    exact .inl (he.letter hx hz)
  | decimal hd => exact absurd (by rw [← hcut]; simp) (hmantissa hd)
  | @typed _ _ m e s hm he hs =>
    obtain ⟨z, rfl, hz⟩ := split_behind (hmantissa hm) hcut
    rcases List.append_eq_append_iff.mp hz with ⟨t, rfl, ht⟩ | ⟨t, het, ht⟩
    · rw [← List.append_assoc]
      exact .inr (hsuffix hm he hs ht)
    · cases t with
      | nil =>
        rw [List.append_nil] at het
        subst het
        rw [← List.append_nil (m ++ e)]
        exact .inr (hsuffix hm he hs ht.symm)
      | cons y t =>
        obtain ⟨rfl, rfl⟩ := List.cons.inj ht
        have hexponent := he.resolve_left (by rw [het]; simp)
        obtain ⟨hE, d, ds, rfl, hd⟩ := hexponent.letter hx het
        exact .inl ⟨hE, d, ds ++ s, rfl, hd⟩

/-! ## Words -/

/-- A piece of word characters is the whole word. -/
theorem BestMatch.not_word {kind : TokenKind} {w u rest : List Char} {d : Char}
    (h : BestMatch kind w (u ++ d :: rest)) (hall : ∀ c ∈ w ++ u, isWordChar c = true)
    (hd : isWordChar d = true) : False := by
  have hword : RuleMatch .identifier (w ++ (u ++ [d])) rest := by
    refine .identifier (by simp) fun c hc => ?_
    rw [← List.append_assoc] at hc
    rcases List.mem_append.mp hc with hc | hc
    · exact hall c hc
    · rwa [List.mem_singleton.mp hc]
  have hbest := h.best .identifier (w ++ (u ++ [d])) rest (by simp) hword
  simp only [List.length_append, List.length_singleton] at hbest
  omega

theorem bestMatch_of_word {c : Char} {w rest : List Char} {kind : TokenKind}
    (h : firstPiece (c :: w ++ rest) = .ok (kind, (c :: w).length)) (hk : kind ≠ .unrecognized)
    (hc : isWordChar c = true) : BestMatch kind (c :: w) rest := by
  refine bestMatch_of_plain h hk ⟨?_, ?_, ?_, ?_⟩ <;> rintro rfl <;> exact absurd hc (by decide)

/-- What is read in front of a word is no part of a longer number there, unless it has an exponent
or stands before the first letter of a suffix of two. -/
theorem BestMatch.stem {kind : TokenKind} {c x d : Char} {w v rest : List Char}
    (h : BestMatch kind (c :: w) (v ++ d :: rest)) (hc : c.isDigit = true ∨ c = '.')
    (hd : isWordChar d = true) (hstem : Stem x (c :: w ++ v)) :
    v = [] ∧ kind = .number .exponent ∧ (x = 'D' ∨ x = 'F') ∨ v = ['B'] := by
  have hkind := (begins_of_cut rfl h.fits).isNumeral hc
  generalize hp : c :: w ++ v = p at hstem
  cases hstem with
  | digits hdigits =>
    exact (h.not_word (fun e he => isWordChar_of_isDigit (hdigits.2 e (hp ▸ he))) hd).elim
  | exponent hnumber hx =>
    have hbest := h.best (.number .exponent) p (d :: rest) (by rw [← hp, List.append_assoc])
      (.number hnumber (by simp))
    rw [← hp, List.length_append] at hbest
    obtain rfl : v = [] := List.length_eq_zero_iff.mp (by omega)
    rw [List.append_nil] at hp
    subst hp
    refine .inl ⟨rfl, ?_, hx⟩
    rcases hbest with hlt | ⟨-, hsame | hrank⟩
    · simp at hlt
    · exact hsame.symm
    · rcases hkind with rfl | hnumeral
      · simp [TokenKind.rank] at hrank
      · unfold TokenKind.isNumeral at hnumeral
        split at hnumeral
        · rename_i k
          obtain ⟨⟨pointed, hword⟩, -⟩ := number_of_match h.fits
          rw [← Numeral.family_of_word hword, Numeral.family_of_word hnumber]
        · simp [TokenKind.rank] at hrank
        · simp at hnumeral
  | @half k q hnumber =>
    have hbest := h.best (.number k) q ('B' :: (d :: rest)) (by
      rw [← List.append_assoc, hp, List.append_assoc, List.singleton_append])
      (.number hnumber (by simp))
    rcases List.eq_nil_or_concat v with rfl | ⟨v', b, rfl⟩
    · -- The piece itself ends in the letter, but no number does, and no word goes on.
      rw [List.append_nil] at hp
      rcases hkind with rfl | hnumeral
      · cases h.fits with
        | mark hmark => cases hmark
        | identifier _ hall =>
          exact (h.not_word (by rwa [List.append_nil]) hd).elim
      · unfold TokenKind.isNumeral at hnumeral
        split at hnumeral
        · obtain ⟨⟨pointed, hword⟩, -⟩ := number_of_match h.fits
          rw [hp] at hword
          rcases hword.letter (by decide) with ⟨hE, -⟩ | ⟨-, hnil⟩ | ⟨-, hB, -⟩
          · exact absurd hE (by decide)
          · exact absurd hnil (by simp)
          · exact absurd rfl hB
        · cases h.fits with
          | mark hmark =>
            cases hmark
            cases q <;> simp at hp
        · simp at hnumeral
    · have hlength := congrArg List.length hp
      simp only [List.concat_eq_append, ← List.append_assoc] at hp
      obtain ⟨-, hb⟩ := List.append_inj' hp rfl
      simp only [List.concat_eq_append, List.length_append, List.length_cons,
        List.length_nil] at hlength hbest
      obtain rfl : v' = [] := List.length_eq_zero_iff.mp (by omega)
      exact .inr (by simpa using hb)

/-- A keyword is two letters at least, and the first one is no `B`. -/
theorem letters_of_keyword {k : Keyword} {v : List Char} (h : v.map Char.toUpper = k.text.toList) :
    ∃ x y ys, v = x :: y :: ys ∧ x.isAlpha = true ∧ y.isAlpha = true ∧ x ≠ 'B' := by
  obtain ⟨c, d, cs, htext, hc, hd, hne⟩ : ∃ c d cs, k.text.toList = c :: d :: cs ∧
      c.isAlpha = true ∧ d.isAlpha = true ∧ c ≠ 'B' := by
    cases k <;> exact ⟨_, _, _, rfl, by decide, by decide, by decide⟩
  have halpha (a : Char) : a.toUpper.isAlpha = a.isAlpha := apply_toUpper (fun _ ha => ha) a
  rw [htext] at h
  obtain ⟨x, xs, rfl, rfl, hxs⟩ := List.map_eq_cons_iff.mp h
  obtain ⟨y, ys, rfl, rfl, -⟩ := List.map_eq_cons_iff.mp hxs
  rw [halpha] at hc hd
  refine ⟨x, y, ys, rfl, hc, hd, ?_⟩
  rintro rfl
  exact hne rfl

theorem Pieces.eq_nil {ws : List Lexeme} {rest : List Char} (h : Pieces ws rest)
    (hnil : chars ws = []) : ws = [] := by
  cases ws with
  | nil => rfl
  | cons w ws =>
    rw [chars_cons] at hnil
    exact absurd (List.append_eq_nil_iff.mp hnil).1 (h.text_ne_nil List.mem_cons_self)

/-- A keyword's piece is the keyword in some mix of upper and lower case. -/
theorem Pieces.spelling {ws : List Lexeme} {rest : List Char} (h : Pieces ws rest) {w : Lexeme}
    (hw : w ∈ ws) (hk : w.kind.isKeyword = true) :
    ∃ k : Keyword, w.text.toList.map Char.toUpper = k.text.toList := by
  have hne := h.text_ne_nil hw
  obtain ⟨us, vs, rfl⟩ := List.mem_iff_append.mp hw
  obtain ⟨-, hpiece, -⟩ := (Pieces.append_iff.mp h).2
  obtain ⟨kind, text⟩ := w
  obtain ⟨k, rfl⟩ : ∃ k, kind = .keyword k := by
    cases kind <;> first | exact ⟨_, rfl⟩ | simp [TokenKind.isKeyword] at hk
  obtain ⟨c, cs, hcs⟩ := List.exists_cons_of_ne_nil hne
  simp only [hcs] at hpiece ⊢
  rw [List.cons_append, firstPiece_eq_ok] at hpiece
  generalize hlength : (c :: cs).length = n at hpiece
  generalize hcut : c :: (cs ++ (chars vs ++ rest)) = text at hpiece
  cases hpiece with
  | chosen _ _ hchosen =>
    rcases hchosen with ⟨v, rest', hv, rfl, hbest⟩ | ⟨hunknown, -, -⟩
    · rw [← hcut, ← List.cons_append] at hv
      obtain ⟨rfl, rfl⟩ := List.append_inj hv hlength
      cases hbest.fits with
      | mark hmark => cases hmark
      | keyword hk => exact ⟨k, hk⟩
    · cases hunknown

/-! ## Keywords spelled anew -/

/-- The second part is the token's text or, for a keyword, the same letters in other case. -/
def Respelt (p : Token × String) : Prop :=
  p.2 = p.1.text ∨ p.1.kind.isKeyword = true ∧ SameLetters p.2.toList p.1.text.toList

instance (p : Token × String) : Decidable (Respelt p) :=
  inferInstanceAs (Decidable (p.2 = p.1.text ∨ p.1.kind.isKeyword = true ∧
    p.2.toList.map Char.toUpper = p.1.text.toList.map Char.toUpper))

/-- The token in its new spelling. -/
def respeltToken (p : Token × String) : Token := { p.1 with text := p.2 }

/-- The lexeme in its new spelling. -/
def respeltLexeme (p : Token × String) : Lexeme := ⟨p.1.kind, p.2⟩

theorem Respelt.sameLetters {p : Token × String} (h : Respelt p) :
    SameLetters p.2.toList p.1.text.toList := by
  rcases h with h | ⟨-, h⟩
  · rw [h]
    exact .refl _
  · exact h

theorem sameLetters_chars {ps : List (Token × String)} (h : ∀ p ∈ ps, Respelt p) :
    SameLetters (chars (ps.map respeltLexeme)) (chars (ps.map fun p => p.1.lexeme)) := by
  induction ps with
  | nil => exact .refl _
  | cons p ps ih =>
    obtain ⟨hp, hps⟩ := List.forall_mem_cons.mp h
    exact hp.sameLetters.append (ih hps)

/-- What the new text starts with is what the old one starts with, or goes into a keyword. -/
theorem reaches_keyword {ps : List (Token × String)} (h : ∀ p ∈ ps, Respelt p) {u r : List Char}
    (hcut : chars (ps.map respeltLexeme) = u ++ r) :
    (∃ r', chars (ps.map fun p => p.1.lexeme) = u ++ r' ∧ SameLetters r r') ∨
      ∃ as b bs x us, ps = as ++ b :: bs ∧ b.1.kind.isKeyword = true ∧
        u = chars (as.map fun p => p.1.lexeme) ++ x :: us ∧
        x :: us ++ r = b.2.toList ++ chars (bs.map respeltLexeme) := by
  induction ps generalizing u with
  | nil =>
    obtain ⟨rfl, rfl⟩ := List.append_eq_nil_iff.mp hcut.symm
    exact .inl ⟨[], rfl, .refl _⟩
  | cons p ps ih =>
    obtain ⟨hp, hps⟩ := List.forall_mem_cons.mp h
    cases u with
    | nil =>
      refine .inl ⟨_, rfl, ?_⟩
      rw [← List.nil_append r, ← hcut]
      exact sameLetters_chars h
    | cons x us =>
      by_cases hk : p.1.kind.isKeyword = true
      · exact .inr ⟨[], p, ps, x, us, rfl, hk, rfl, hcut.symm⟩
      have htext : p.2 = p.1.text := hp.resolve_right fun h => hk h.1
      rw [List.map_cons, chars_cons, respeltLexeme, htext] at hcut
      rw [List.map_cons, chars_cons, Token.lexeme]
      rcases List.append_eq_append_iff.mp hcut with ⟨t, ht, hrest⟩ | ⟨t, ht, hrest⟩
      · rcases ih hps hrest with ⟨r', hold, hsame⟩ | ⟨as, b, bs, y, vs, rfl, hb, rfl, hnew⟩
        · refine .inl ⟨r', ?_, hsame⟩
          rw [hold, ht, List.append_assoc]
        · refine .inr ⟨p :: as, b, bs, y, vs, rfl, hb, ?_, hnew⟩
          rw [ht, List.map_cons, chars_cons, List.append_assoc]
          rfl
      · refine .inl ⟨t ++ chars (ps.map fun p => p.1.lexeme), ?_, ?_⟩
        · rw [ht, List.append_assoc]
        · rw [hrest]
          exact (SameLetters.refl t).append (sameLetters_chars hps)

/-- A match that goes on over the same letters as in the old text is longer than the best one. -/
theorem BestMatch.not_over_letters {kind kind' : TokenKind} {w old u r r' : List Char}
    (h : BestMatch kind w old) (hold : old = u ++ r') (hsame : SameLetters r r') (hne : u ≠ []) :
    ¬ RuleMatch kind' (w ++ u) r := by
  intro hmatch
  have hmatch' : RuleMatch kind' (w ++ u) r' := by
    refine hmatch.before ?_
    rintro k rfl hdot
    rw [← hsame.apply endsWord_toUpper]
    exact (number_of_match hmatch).2 hdot
  have hbest := h.best kind' (w ++ u) r' (by rw [hold, List.append_assoc]) hmatch'
  have hpos := List.length_pos_iff.mpr hne
  rw [List.length_append] at hbest
  omega

/-- No piece is one word character with a word behind it. -/
theorem Pieces.not_word_before {w : Lexeme} {ws : List Lexeme} {a d : Char} {rest : List Char}
    (h : Pieces (w :: ws) []) (hk : w.kind ≠ .unrecognized) (hw : w.text.toList = [a])
    (ha : isWordChar a = true) (hd : isWordChar d = true) : chars ws ≠ d :: rest := by
  intro hchars
  obtain ⟨-, hpiece, -⟩ := h
  rw [hw, hchars, List.append_nil] at hpiece
  have hbest := bestMatch_of_word hpiece hk ha
  have hall : ∀ c ∈ [a] ++ [], isWordChar c = true := by simpa using ha
  exact hbest.not_word hall hd

/-- No match goes on from a word or a number into keywords spelled anew, unless a number takes
the `D` or the `F` of the keyword right behind it. -/
theorem BestMatch.not_into_respelt {kind : TokenKind} {c : Char} {w : List Char}
    {ps : List (Token × String)}
    (h : BestMatch kind (c :: w) (chars (ps.map fun p => p.1.lexeme)))
    (hc : c.isDigit = true ∨ c = '.')
    (hpieces : Pieces (ps.map fun p => p.1.lexeme) []) (hk : ∀ p ∈ ps, p.1.kind ≠ .unrecognized)
    (hcase : ∀ p ∈ ps, Respelt p)
    (hnext : ∀ b ∈ ps.head?, kind = .number .exponent → b.1.kind.isKeyword = true →
      ∀ x ∈ b.2.toList.head?, x ≠ 'D' ∧ x ≠ 'F')
    {kind' : TokenKind} {u r : List Char} (hne : u ≠ [])
    (hcut : chars (ps.map respeltLexeme) = u ++ r) : ¬ RuleMatch kind' (c :: w ++ u) r := by
  intro hmatch
  rcases reaches_keyword hcase hcut with ⟨r', hold, hsame⟩ | ⟨as, b, bs, x, us, rfl, hb, rfl, hrest⟩
  · exact h.not_over_letters hold hsame hne hmatch
  -- The match goes into a keyword, and takes its first letter.
  have hbold : b.1.lexeme ∈ (as ++ b :: bs).map fun p => p.1.lexeme := by simp
  obtain ⟨k, hspelling⟩ := hpieces.spelling hbold hb
  obtain ⟨x₀, y₀, ys₀, htext, hx₀, -, -⟩ := letters_of_keyword hspelling
  have hnew := (hcase b (by simp)).sameLetters.trans hspelling
  obtain ⟨x', y, ys, hb2, hx, hy, hxB⟩ := letters_of_keyword hnew
  rw [hb2, List.cons_append, List.cons_append, List.cons_append] at hrest
  obtain ⟨rfl, hbehind⟩ := List.cons.inj hrest
  have hold : chars ((as ++ b :: bs).map fun p => p.1.lexeme) =
      chars (as.map fun p => p.1.lexeme) ++
        x₀ :: (y₀ :: ys₀ ++ chars (bs.map fun p => p.1.lexeme)) := by
    rw [List.map_append, chars_append, List.map_cons, chars_cons, htext]
    rfl
  rw [hold] at h
  have hpiecesAs := (Pieces.append_iff.mp (List.map_append ▸ hpieces)).1
  generalize hchars : chars (as.map fun p => p.1.lexeme) = v at h hmatch hpiecesAs
  have hnotword (hall : ∀ d ∈ c :: w ++ v, isWordChar d = true) : False :=
    h.not_word hall (class_of_isAlpha hx₀).1
  have hkind := (begins_of_cut rfl h.fits).isNumeral hc
  rcases (begins_of_cut (List.cons_append ..).symm hmatch).isNumeral hc with rfl | hnumeral
  · cases hmatch with
    | mark hmark => cases hmark
    | identifier _ hall =>
      refine hnotword fun d hd => hall d ?_
      rw [← List.append_assoc]
      exact List.mem_append_left _ hd
  unfold TokenKind.isNumeral at hnumeral
  split at hnumeral
  · obtain ⟨⟨pointed, hword⟩, hend⟩ := number_of_match hmatch
    have hdot := dot_mem_iff hword
    rw [← List.append_assoc] at hword
    rcases hword.letter hx with ⟨-, d, ds, rfl, hd⟩ | ⟨rfl, -⟩ | ⟨rfl, -, rfl | hstem⟩
    · obtain ⟨rfl, -⟩ := List.cons.inj hbehind
      simp [hy] at hd
    · exact hxB rfl
    · rw [List.nil_append] at hbehind
      have hword' := hend (hdot.mpr rfl)
      simp [hbehind, Numeral.endsWord, (class_of_isAlpha hy).1] at hword'
    · rcases h.stem hc (class_of_isAlpha hx₀).1 hstem with ⟨rfl, rfl, hletter⟩ | rfl
      · have has := hpiecesAs.eq_nil hchars
        rw [List.map_eq_nil_iff] at has
        subst has
        have hfirst := hnext b rfl rfl hb x (by rw [hb2]; rfl)
        rcases hletter with rfl | rfl
        · exact hfirst.1 rfl
        · exact hfirst.2 rfl
      · -- A word ends right before the keyword, which no word does.
        cases as with
        | nil => simp at hchars
        | cons a as =>
          rw [List.map_cons, chars_cons, List.append_eq_singleton_iff] at hchars
          rcases hchars with ⟨hnil, -⟩ | ⟨hB, hnil⟩
          · exact hpiecesAs.text_ne_nil List.mem_cons_self hnil
          · have htail : chars ((as ++ b :: bs).map fun p => p.1.lexeme) =
                x₀ :: (y₀ :: ys₀ ++ chars (bs.map fun p => p.1.lexeme)) := by
              rw [List.map_append, chars_append, hnil, List.nil_append, List.map_cons, chars_cons,
                htext]
              rfl
            exact hpieces.not_word_before (hk a (by simp)) hB (by decide) (class_of_isAlpha hx₀).1
              htail
  · cases hmatch with
    | mark hmark =>
      generalize hmark' : c :: w ++ (v ++ x :: us) = m at hmark
      cases hmark
      simp at hmark'
  · simp at hnumeral

/-! ## Pieces spelled anew -/

/-- No keyword that begins with `D` or `F` in its new spelling stands right behind a number with
an exponent. -/
def Unsuffixed (ps : List (Token × String)) : Prop :=
  ps.IsChain fun a b => a.1.kind = .number .exponent → b.1.kind.isKeyword = true →
    ∀ c ∈ b.2.toList.head?, c ≠ 'D' ∧ c ≠ 'F'

instance (ps : List (Token × String)) : Decidable (Unsuffixed ps) :=
  -- The question is about one character, not about each one there is.
  have (b : Token × String) : Decidable (∀ c ∈ b.2.toList.head?, c ≠ 'D' ∧ c ≠ 'F') :=
    Option.decidableForallMem _
  inferInstanceAs (Decidable (List.IsChain _ ps))

theorem Pieces.respelt {ps : List (Token × String)} (h : Pieces (ps.map fun p => p.1.lexeme) [])
    (hk : ∀ p ∈ ps, p.1.kind ≠ .unrecognized) (hcase : ∀ p ∈ ps, Respelt p)
    (hsuffix : Unsuffixed ps) : Pieces (ps.map respeltLexeme) [] := by
  induction ps with
  | nil => trivial
  | cons p ps ih =>
    have hne := h.text_ne_nil List.mem_cons_self
    have hsame := sameLetters_chars hcase
    have hword := h.spelling (List.mem_cons_self (a := p.1.lexeme))
    obtain ⟨hend, hpiece, hrest⟩ := h
    obtain ⟨hp, hps⟩ := List.forall_mem_cons.mp hcase
    obtain ⟨hkp, hkps⟩ := List.forall_mem_cons.mp hk
    refine ⟨hend, ?_, ih hrest hkps hps hsuffix.tail⟩
    obtain ⟨c, w, hw⟩ := List.exists_cons_of_ne_nil hne
    rw [List.append_nil] at hpiece ⊢
    by_cases hc : c.isDigit = true ∨ c = '.'
    · have htext : p.2 = p.1.text := by
        refine hp.resolve_right ?_
        rintro ⟨hkeyword, -⟩
        obtain ⟨k, hspelling⟩ := hword hkeyword
        obtain ⟨x, y, ys, hcut, hx, -, -⟩ := letters_of_keyword hspelling
        obtain rfl := (List.cons.inj (hw.symm.trans hcut)).1
        rcases hc with hc | rfl
        · simp [(class_of_isAlpha hx).2.1] at hc
        · exact absurd hx (by decide)
      have hnew : (respeltLexeme p).text.toList = c :: w := by
        rw [respeltLexeme, htext]
        exact hw
      rw [hw] at hpiece
      rw [hnew]
      have hbest := bestMatch_of_firstPiece hpiece hkp hc
      have hbest' : BestMatch p.1.kind (c :: w) (chars (ps.map respeltLexeme)) := by
        refine hbest.elsewhere ?_ ?_
        · rw [(sameLetters_chars hps).apply endsWord_toUpper]
          exact id
        · intro kind' u r hu hcut
          refine hbest.not_into_respelt hc hrest hkps hps ?_ hu hcut
          intro b hb hkind hkeyword
          exact hsuffix.rel_head? hb hkind hkeyword
      have hclass : (c ≠ '\'' ∧ c ≠ '"' ∧ c ≠ '`') ∧ c ≠ '/' := by
        refine ⟨⟨?_, ?_, ?_⟩, ?_⟩ <;> rintro rfl <;> exact absurd hc (by decide)
      exact firstPiece_eq_ok.mpr
        (.chosen hclass.1 (opens_of_ne _ hclass.2) (.inl ⟨_, _, rfl, rfl, hbest'⟩))
    · rw [not_or, Bool.not_eq_true] at hc
      rw [hw] at hpiece
      have hlength : p.2.toList.length = (c :: w).length := by
        rw [hp.sameLetters.length_eq]
        exact congrArg List.length hw
      have hnew : SameLetters (p.2.toList ++ chars (ps.map respeltLexeme))
          (c :: (w ++ chars (ps.map fun p => p.1.lexeme))) := by
        rw [← List.cons_append, ← hw]
        exact hsame
      have hsamePiece := firstPiece_of_sameLetters hnew hc.1 hc.2
      rw [← List.cons_append, hpiece] at hsamePiece
      show firstPiece (p.2.toList ++ chars (ps.map respeltLexeme)) =
        .ok (p.1.kind, p.2.toList.length)
      rw [hsamePiece, hlength]
      rfl

end TagDialect
