-- Pieces that stay the same when the text behind them is cut off. Only a number
-- with a point could come to reach further than it did, and then a number or a
-- point stood right next to another one.
import TagDialect.Proofs.NumberNeighbours
import TagDialect.Proofs.PieceContexts
import TagDialect.Proofs.TokenPlaces
import Mathlib.Data.List.Basic

namespace TagDialect

/-! ## Numbers with a point -/

/-- A number with a point has digits before it, and no other point behind it. -/
theorem NumberWord.point {kind : NumberKind} {w : List Char} (h : NumberWord kind true w) :
    ∃ n t, w = n ++ '.' :: t ∧ (∀ c ∈ n, c.isDigit = true) ∧ '.' ∉ t := by
  have hmantissa {m : List Char} (tail : List Char) (hm : Mantissa true m) (htail : '.' ∉ tail) :
      ∃ n t, m ++ tail = n ++ '.' :: t ∧ (∀ c ∈ n, c.isDigit = true) ∧ '.' ∉ t := by
    have hdigits {m : List Char} (hm : ∀ c ∈ m, c.isDigit = true) : '.' ∉ m ++ tail := by
      simp [Numeral.not_mem_digits hm (show '.'.isDigit = false by decide), htail]
    cases hm with
    | @point n m hn hm => exact ⟨n, m ++ tail, by simp, hn.2, hdigits hm⟩
    | @fraction m hm => exact ⟨[], m ++ tail, rfl, by simp, hdigits hm.2⟩
  have hexponent {x : List Char} (hx : x = [] ∨ Exponent x) : '.' ∉ x :=
    Numeral.not_mem_exponent hx (by decide) (by decide)
  cases h with
  | exponent hm hx => exact hmantissa _ hm (hexponent (.inr hx))
  | decimal hd =>
    have hpoint := hmantissa [] hd (by simp)
    rwa [List.append_nil] at hpoint
  | typed hm hx hs => exact hmantissa _ hm (by cases hs <;> simp [hexponent hx])

/-- What stands behind a point at the head of a number is a number without a point. -/
theorem NumberWord.behind_point {kind : NumberKind} {w : List Char}
    (h : NumberWord kind true ('.' :: w)) : ∃ kind', NumberWord kind' false w := by
  have hmantissa {m tail : List Char} (hm : Mantissa true m) (hcut : '.' :: w = m ++ tail) :
      ∃ n, Digits n ∧ w = n ++ tail := by
    cases hm with
    | point hn _ =>
      obtain ⟨hne, hall⟩ := hn
      obtain ⟨c, cs, rfl⟩ := List.exists_cons_of_ne_nil hne
      obtain ⟨rfl, -⟩ := List.cons.inj hcut
      exact absurd (hall '.' List.mem_cons_self) (by decide)
    | fraction hm => exact ⟨_, hm, (List.cons.inj hcut).2⟩
  generalize hcut : '.' :: w = v at h
  cases h with
  | exponent hm hx =>
    obtain ⟨n, hn, rfl⟩ := hmantissa hm hcut
    exact ⟨_, .exponent (.whole hn) hx⟩
  | decimal hd =>
    obtain ⟨n, hn, rfl⟩ := hmantissa hd (hcut.trans (List.append_nil _).symm)
    exact ⟨_, .integer (by rwa [List.append_nil])⟩
  | typed hm hx hs =>
    obtain ⟨n, hn, rfl⟩ := hmantissa hm hcut
    exact ⟨_, .typed (.whole hn) hx hs⟩

/-! ## Numbers and signs -/

/-- No number ends in the letter of an exponent. -/
theorem NumberWord.last {kind : NumberKind} {pointed : Bool} {w : List Char}
    (h : NumberWord kind pointed w) : ∀ c ∈ w.getLast?, c ≠ 'E' := by
  have hdigits {n : List Char} (before : List Char) (hn : Digits n) :
      ∀ c ∈ (before ++ n).getLast?, c ≠ 'E' := by
    rw [List.getLast?_append_of_ne_nil before hn.1]
    rintro c hc rfl
    exact absurd (hn.2 'E' (List.mem_of_getLast? hc)) (by decide)
  cases h with
  | suffixed _ hs => cases hs <;> simp
  | integer hn => exact hdigits [] hn
  | @exponent _ m _ _ hx =>
    obtain @⟨sign, digits, -, hn⟩ := hx
    have hlast := hdigits (m ++ 'E' :: sign) hn
    rwa [List.append_assoc, List.cons_append] at hlast
  | decimal hd =>
    cases hd with
    | @point n m _ hm =>
      rw [List.getLast?_append_of_ne_nil n (List.cons_ne_nil _ _)]
      cases m with
      | nil => simp
      | cons d m => exact hdigits ['.'] ⟨List.cons_ne_nil _ _, hm⟩
    | fraction hm => exact hdigits ['.'] hm
  | @typed _ _ m x _ _ _ hs =>
    rw [← List.append_assoc]
    cases hs <;> simp

/-- Before a sign in a number stands the letter of its exponent. -/
theorem NumberWord.before_sign {kind : NumberKind} {pointed : Bool} {w cs : List Char} {c : Char}
    (h : NumberWord kind pointed (w ++ c :: cs)) (hc : c = '+' ∨ c = '-') :
    ∃ v, w = v ++ ['E'] := by
  have hdigit : c.isDigit = false := by rcases hc with rfl | rfl <;> decide
  have hdot : c ≠ '.' := by rcases hc with rfl | rfl <;> decide
  have hE : c ≠ 'E' := by rcases hc with rfl | rfl <;> decide
  have hmantissa {pointed : Bool} {m : List Char} (hm : Mantissa pointed m) : c ∉ m :=
    Numeral.not_mem_mantissa hm hdigit (.inr hdot)
  have hmem : c ∈ w ++ c :: cs := by simp
  -- There is a sign at one place of an exponent alone.
  have hexponent {pointed : Bool} {m x s : List Char} (hm : Mantissa pointed m) (hx : Exponent x)
      (hs : c ∉ s) (hcut : w ++ c :: cs = m ++ (x ++ s)) : ∃ v, w = v ++ ['E'] := by
    obtain @⟨sign, digits, hsign, hn⟩ := hx
    have hn := Numeral.not_mem_digits hn.2 hdigit
    have hone (d : Char) (hd : sign = [d]) : ∃ v, w = v ++ ['E'] := by
      subst hd
      have hcut' : m ++ ['E'] ++ d :: (digits ++ s) = w ++ c :: cs := by
        rw [hcut]
        simp
      have hsame := (List.append_cons_inj_of_notMem (by simp [hmantissa hm, hE])
        (by simp [hn, hs])).mp hcut'
      exact ⟨m, hsame.1.symm⟩
    rcases hsign with hnone | hplus | hminus
    · rw [hcut, hnone] at hmem
      simp [hmantissa hm, hE, hn, hs] at hmem
    · exact hone '+' hplus
    · exact hone '-' hminus
  generalize hcut : w ++ c :: cs = u at h hmem
  cases h with
  | suffixed hn hs =>
    have hstem := Numeral.not_mem_digits hn.2 hdigit
    cases hs <;> rcases hc with rfl | rfl <;> simp [hstem] at hmem
  | integer hn => exact absurd hmem (Numeral.not_mem_digits hn.2 hdigit)
  | exponent hm hx => exact hexponent (s := []) hm hx (by simp) (by rw [hcut, List.append_nil])
  | decimal hd => exact absurd hmem (hmantissa hd)
  | @typed _ _ _ _ s hm hx hs =>
    have hsuffix : c ∉ s := by cases hs <;> rcases hc with rfl | rfl <;> decide
    rcases hx with rfl | hx
    · simp [hmantissa hm, hsuffix] at hmem
    · exact hexponent hm hx hsuffix hcut

/-! ## What a number with a point is made of -/

/-- A match at a digit or a point is one of a name, or of a number or a point. -/
theorem Begins.isNumeral {kind : TokenKind} {c : Char} (h : Begins kind c)
    (hc : c.isDigit = true ∨ c = '.') : kind = .identifier ∨ kind.isNumeral = true := by
  cases h with
  | whitespace hblank => simp [isBlank_of_digitOrDot hc] at hblank
  | lineComment => exact absurd hc (by decide)
  | mark hmark =>
    cases hmark with
    | dot => exact .inr rfl
    | _ => exact absurd hc (by decide)
  | keyword hword hdigit =>
    rcases hc with hc | rfl
    · simp [hc] at hdigit
    · exact absurd hword (by decide)
  | identifier _ => exact .inl rfl
  | number _ => exact .inr rfl

theorem RuleMatch.isNumeral {kind : TokenKind} {c : Char} {w rest : List Char}
    (h : RuleMatch kind (c :: w) rest) (hc : c.isDigit = true ∨ c = '.') (hdot : '.' ∈ c :: w) :
    kind.isNumeral = true := by
  rcases (begins_of_cut rfl h).isNumeral hc with rfl | hnumeral
  · cases h with
    | mark hmark => cases hmark
    | identifier _ hall => exact absurd (hall '.' hdot) (by decide)
  · exact hnumeral

/-- A match with a point in it is the point alone, or a number in front of no word. -/
theorem RuleMatch.point {kind : TokenKind} {c : Char} {w rest : List Char}
    (h : RuleMatch kind (c :: w) rest) (hc : c.isDigit = true ∨ c = '.') (hdot : '.' ∈ c :: w) :
    (c = '.' ∧ w = []) ∨ ∃ k, NumberWord k true (c :: w) ∧ Numeral.endsWord rest = true := by
  have hnumeral := h.isNumeral hc hdot
  cases h with
  | mark hmark =>
    cases hmark with
    | dot => exact .inl ⟨rfl, rfl⟩
    | _ => exact absurd hc (by decide)
  | number hnumber hend =>
    obtain rfl := (dot_mem_iff hnumber).mp hdot
    exact .inr ⟨_, hnumber, hend rfl⟩
  | _ => simp [TokenKind.isNumeral] at hnumeral

/-- A piece at a digit or a point is the one that the rules choose. -/
theorem bestMatch_of_firstPiece {c : Char} {w rest : List Char} {kind : TokenKind}
    (h : firstPiece (c :: w ++ rest) = .ok (kind, (c :: w).length)) (hk : kind ≠ .unrecognized)
    (hc : c.isDigit = true ∨ c = '.') : BestMatch kind (c :: w) rest := by
  refine bestMatch_of_plain h hk ⟨?_, ?_, ?_, ?_⟩ <;> rintro rfl <;> exact absurd hc (by decide)

/-- What the rules choose at the head of a number without a point is a number or a point, and
as long as that number at least. -/
theorem BestMatch.of_number {kind : TokenKind} {w u rest : List Char} {k : NumberKind}
    (h : BestMatch kind w (u ++ rest)) (hword : NumberWord k false (w ++ u)) :
    kind.isNumeral = true ∧ u = [] := by
  have hbest := h.best _ (w ++ u) rest (List.append_assoc ..).symm (.number hword (by simp))
  obtain rfl : u = [] := by
    rw [List.length_append] at hbest
    exact List.length_eq_zero_iff.mp (by omega)
  rw [List.append_nil] at hword hbest
  obtain ⟨c, cs, rfl, hc⟩ := hword.head
  refine ⟨?_, rfl⟩
  rcases (begins_of_cut rfl h.fits).isNumeral hc with rfl | hnumeral
  · have hrank := rank_number_lt k
    simp only [TokenKind.rank, reduceCtorEq, false_or] at hbest hrank
    omega
  · exact hnumeral

/-- A number with a point in front of no word goes on with nothing that is part of a number. -/
theorem not_pointed_past_number {k k' : NumberKind} {w cs : List Char} {c : Char}
    (hw : NumberWord k true w) (hc : isWordChar c = false) :
    ¬ NumberWord k' true (w ++ c :: cs) := by
  intro h
  have hdot : c ≠ '.' := by
    rintro rfl
    obtain ⟨n, t, rfl, -, -⟩ := hw.point
    obtain ⟨n', t', hcut, hn', ht'⟩ := h.point
    have hcut' : n' ++ '.' :: t' = n ++ '.' :: (t ++ '.' :: cs) := by
      rw [← hcut]
      simp
    have hsame := (List.append_cons_inj_of_notMem
      (Numeral.not_mem_digits hn' (show '.'.isDigit = false by decide)) ht').mp hcut'
    rw [hsame.2.2] at ht'
    simp at ht'
  by_cases hsign : c = '+' ∨ c = '-'
  · obtain ⟨v, rfl⟩ := h.before_sign hsign
    exact hw.last 'E' (by simp) rfl
  · rw [not_or] at hsign
    exact not_mem_number h hc ⟨hdot, hsign⟩ (by simp)

theorem isVisible_of_isNumeral {w : Lexeme} (h : w.kind.isNumeral = true) :
    w.isVisible = true := by
  unfold Lexeme.isVisible
  unfold TokenKind.isNumeral at h
  split at h <;> simp_all [TokenKind.isHidden]

/-- A number with a point that several pieces make up starts with two of numbers and points. -/
theorem isNumeral_of_pointed {c d : Char} {w v rest after : List Char} {kind kind' : TokenKind}
    {k : NumberKind} (hword : NumberWord k true (c :: w ++ (d :: v ++ rest)))
    (hw : firstPiece (c :: w ++ (d :: v ++ rest ++ after)) = .ok (kind, (c :: w).length))
    (hv : firstPiece (d :: v ++ (rest ++ after)) = .ok (kind', (d :: v).length))
    (hk : kind ≠ .unrecognized) (hk' : kind' ≠ .unrecognized) :
    kind.isNumeral = true ∧ kind'.isNumeral = true := by
  obtain ⟨c', cs', hhead, hc⟩ := hword.head
  obtain rfl := (List.cons.inj hhead).1
  have hbest := bestMatch_of_firstPiece hw hk hc
  by_cases hdot : '.' ∈ c :: w
  · -- The first piece is the point, or a number that a blank or a mark has to come behind.
    have hfits := hbest.fits
    refine ⟨hfits.isNumeral hc hdot, ?_⟩
    rcases hfits.point hc hdot with ⟨rfl, rfl⟩ | ⟨k', hnumber, hend⟩
    · obtain ⟨k', hnumber⟩ := hword.behind_point
      obtain ⟨d', ds', hhead', hd⟩ := hnumber.head
      obtain rfl := (List.cons.inj hhead').1
      exact ((bestMatch_of_firstPiece hv hk' hd).of_number hnumber).1
    · have hend : isWordChar d = false := by simpa [Numeral.endsWord] using hend
      exact absurd hword (not_pointed_past_number hnumber hend)
  · -- The first piece is all digits before the point, and the next one starts with the point.
    obtain ⟨n, t, hcut, hn, -⟩ := hword.point
    obtain ⟨u, rfl, hu⟩ : ∃ u, n = c :: w ++ u ∧ d :: v ++ rest = u ++ '.' :: t := by
      rcases List.append_eq_append_iff.mp hcut with hlonger | ⟨u, hw', hu⟩
      · exact hlonger
      · cases u with
        | nil => exact ⟨[], by simpa using hw'.symm, hu.symm⟩
        | cons e u =>
          obtain rfl := (List.cons.inj hu).1
          simp [hw'] at hdot
    have hinteger : NumberWord .integer false (c :: w ++ u) := .integer ⟨by simp, hn⟩
    rw [hu, List.append_assoc] at hbest
    obtain ⟨hnumeral, rfl⟩ := hbest.of_number hinteger
    obtain rfl := (List.cons.inj hu).1
    have hfits := (bestMatch_of_firstPiece hv hk' (.inr rfl)).fits
    exact ⟨hnumeral, hfits.isNumeral (.inr rfl) List.mem_cons_self⟩

/-! ## Pieces of a text that is cut off -/

/-- Where numbers and points are spread, each piece stays the same when the text behind the
last of them is cut off. -/
theorem Pieces.cut {ws : List Lexeme} {after : List Char} (h : Pieces ws after)
    (hk : ∀ w ∈ ws, w.kind ≠ .unrecognized) (hs : Spread (ws.filter Lexeme.isVisible)) :
    Pieces ws [] := by
  induction ws with
  | nil => trivial
  | cons w ws ih =>
    have hne := h.text_ne_nil List.mem_cons_self
    have hkw := hk w List.mem_cons_self
    obtain ⟨hend, hpiece, hrest⟩ := h
    have hspread : Spread (ws.filter Lexeme.isVisible) := by
      rw [List.filter_cons] at hs
      split at hs
      · exact List.IsChain.tail hs
      · exact hs
    refine ⟨hend, ?_, ih hrest (fun v hv => hk v (List.mem_cons_of_mem w hv)) hspread⟩
    rw [List.append_nil]
    refine firstPiece_cut hne hpiece hkw ?_
    intro hchars k hword
    -- A number from here to the cut would hold the next piece too, and that one is no neighbour
    -- for a number or a point.
    cases ws with
    | nil => exact hchars rfl
    | cons v ws =>
      obtain ⟨c, w', hw⟩ := List.exists_cons_of_ne_nil hne
      obtain ⟨d, v', hv⟩ := List.exists_cons_of_ne_nil (hrest.text_ne_nil List.mem_cons_self)
      obtain ⟨-, hnext, -⟩ := hrest
      have hkv := hk v (by simp)
      rw [chars_cons, hw, hv] at hpiece hword
      rw [hv] at hnext
      obtain ⟨hnumeral, hnumeral'⟩ := isNumeral_of_pointed hword hpiece hnext hkw hkv
      rw [List.filter_cons_of_pos (isVisible_of_isNumeral hnumeral),
        List.filter_cons_of_pos (isVisible_of_isNumeral hnumeral')] at hs
      simp [(List.isChain_cons_cons.mp hs).1 hnumeral] at hnumeral'

end TagDialect
