-- Texts that differ in the case of letters alone. Their pieces are the same,
-- unless a number begins there: case does not matter to words and marks, but
-- it matters to the letters of a number.
import TagDialect.Proofs.PieceForms
import TagDialect.Proofs.PieceContexts

namespace TagDialect

/-! ## Letters -/

theorem isUpper_toUpper {c : Char} (h : c.isLower = true) : c.toUpper.isUpper = true := by
  have hlower := (isLower_iff c).mp h
  have hupper : c.toUpper.val.toNat = c.val.toNat - 32 := by
    unfold Char.toUpper
    rw [dif_pos (by rw [UInt32.le_iff_toNat_le, UInt32.le_iff_toNat_le]; exact hlower)]
    have hdistance : ('A'.val - 'a'.val).toNat = 4294967264 := by decide
    simp only [UInt32.toNat_add, hdistance]
    omega
  rw [isUpper_iff]
  omega

/-- What all letters have in common does not depend on their case. -/
theorem apply_toUpper {β : Type} {p : Char → β} {b : β} (h : ∀ a : Char, a.isAlpha = true → p a = b)
    (c : Char) : p c.toUpper = p c := by
  rcases isLower_or_toUpper_eq c with hc | hc
  · have hlower := (isAlpha_iff c).mpr (.inr ((isLower_iff c).mp hc))
    have hupper := (isAlpha_iff c.toUpper).mpr (.inl ((isUpper_iff _).mp (isUpper_toUpper hc)))
    rw [h _ hupper, h _ hlower]
  · rw [hc]

theorem class_of_isAlpha {c : Char} (h : c.isAlpha = true) :
    isWordChar c = true ∧ c.isDigit = false ∧ c.utf8Size = 1 := by
  have hrange := (isAlpha_iff c).mp h
  refine ⟨by simp [isWordChar, Char.isAlphanum, h], ?_, ?_⟩
  · have hcodes : '0'.val.toNat = 48 ∧ '9'.val.toNat = 57 := by decide
    rw [← Bool.not_eq_true]
    simp only [Char.isDigit, Bool.and_eq_true, decide_eq_true_eq, ge_iff_le,
      UInt32.le_iff_toNat_le]
    omega
  · rw [Char.utf8Size_eq_one_iff, UInt32.le_iff_toNat_le]
    have hlast : (127 : UInt32).toNat = 127 := rfl
    omega

@[simp] theorem isWordChar_toUpper (c : Char) : isWordChar c.toUpper = isWordChar c :=
  apply_toUpper (fun _ h => (class_of_isAlpha h).1) c

@[simp] theorem isDigit_toUpper (c : Char) : c.toUpper.isDigit = c.isDigit :=
  apply_toUpper (fun _ h => (class_of_isAlpha h).2.1) c

@[simp] theorem utf8Size_toUpper (c : Char) : c.toUpper.utf8Size = c.utf8Size :=
  apply_toUpper (fun _ h => (class_of_isAlpha h).2.2) c

@[simp] theorem isBlank_toUpper (c : Char) : isBlank c.toUpper = isBlank c :=
  apply_toUpper (fun _ h => isBlank_of_isWordChar (class_of_isAlpha h).1) c

/-- Only a mark is written as a mark, in any case. -/
theorem toUpper_eq_mark {c x : Char} (hx : x.isAlpha = false) : c.toUpper = x ↔ c = x := by
  have hsame := apply_toUpper (p := fun a => decide (a = x)) (b := false) (c := c) fun a ha => by
    rw [decide_eq_false_iff_not]
    rintro rfl
    simp [ha] at hx
  simpa using hsame

theorem toUpper_toUpper (c : Char) : c.toUpper.toUpper = c.toUpper := by
  rcases isLower_or_toUpper_eq c with hc | hc
  · rcases isLower_or_toUpper_eq c.toUpper with hlower | hsame
    · have hupper := (isUpper_iff _).mp (isUpper_toUpper hc)
      have hrange := (isLower_iff c.toUpper).mp hlower
      omega
    · exact hsame
  · rw [hc, hc]

/-- The characters are the same up to the case of letters. -/
def SameLetters (cs ds : List Char) : Prop := cs.map Char.toUpper = ds.map Char.toUpper

theorem SameLetters.refl (cs : List Char) : SameLetters cs cs := rfl

theorem SameLetters.length_eq {cs ds : List Char} (h : SameLetters cs ds) :
    cs.length = ds.length := by
  simpa using congrArg List.length h

theorem SameLetters.append {cs ds us vs : List Char} (h : SameLetters cs ds)
    (h' : SameLetters us vs) : SameLetters (cs ++ us) (ds ++ vs) := by
  rw [SameLetters, List.map_append, List.map_append, h, h']

/-- What a function makes of letters of either case alike is the same for both texts. -/
theorem SameLetters.apply {β : Type} {f : List Char → β}
    (hf : ∀ cs : List Char, f (cs.map Char.toUpper) = f cs) {cs ds : List Char}
    (h : SameLetters cs ds) : f cs = f ds := by
  rw [← hf cs, h, hf ds]

/-! ## Ends of pieces -/

section
variable (cs : List Char)

theorem takeWhile_toUpper {p : Char → Bool} (h : ∀ c : Char, p c.toUpper = p c) :
    (cs.map Char.toUpper).takeWhile p = (cs.takeWhile p).map Char.toUpper := by
  rw [List.takeWhile_map]
  congr 2
  exact funext h

theorem head?_toUpper {x : Char} (hx : x.isAlpha = false) :
    (cs.map Char.toUpper).head? = some x ↔ cs.head? = some x := by
  cases cs with
  | nil => rfl
  | cons c cs => simp [toUpper_eq_mark hx]

theorem wordLength_toUpper : wordLength (cs.map Char.toUpper) = wordLength cs := by
  rw [wordLength, takeWhile_toUpper cs isWordChar_toUpper, List.length_map, wordLength]

theorem endsWord_toUpper : Numeral.endsWord (cs.map Char.toUpper) = Numeral.endsWord cs := by
  cases cs with
  | nil => rfl
  | cons c cs => simp [Numeral.endsWord]

theorem lineLength_toUpper : Comment.lineLength (cs.map Char.toUpper) = Comment.lineLength cs := by
  have hmark (c x : Char) (hx : x.isAlpha = false) : c.toUpper = x ↔ c = x := toUpper_eq_mark hx
  fun_induction Comment.lineLength cs with
  | case1 => rfl
  | case2 cs => exact Comment.lineLength_feed _
  | case3 cs hfeed =>
    exact (Comment.lineLength_return _).trans (if_pos ((head?_toUpper cs (by decide)).mpr hfeed))
  | case4 cs hfeed =>
    exact (Comment.lineLength_return _).trans (if_neg (mt (head?_toUpper cs (by decide)).mp hfeed))
  | case5 c hfeed hreturn =>
    simp [Comment.lineLength, hmark, hfeed, hreturn]
  | case6 c hfeed hreturn d ds hboth ih => simp [Comment.lineLength, hboth, ih]
  | case7 c hfeed hreturn d ds hboth ih =>
    rw [List.map_cons] at ih
    simp [Comment.lineLength, hmark, hfeed, hreturn, hboth, ih]

theorem opens_toUpper : Comment.opens (cs.map Char.toUpper) = Comment.opens cs := by
  match cs with
  | [] => rfl
  | [_] => rfl
  | a :: b :: cs =>
    simp [Comment.opens, Bool.beq_eq_decide_eq, toUpper_eq_mark, bne]

theorem closes_toUpper : Comment.closes (cs.map Char.toUpper) = Comment.closes cs := by
  match cs with
  | [] => rfl
  | [_] => rfl
  | a :: b :: cs => simp [Comment.closes, Bool.beq_eq_decide_eq, toUpper_eq_mark]

theorem balancedLength?_toUpper (depth : Nat) :
    Comment.balancedLength? depth (cs.map Char.toUpper) = Comment.balancedLength? depth cs := by
  have hopens (a b : Char) (cs : List Char) := opens_toUpper (a :: b :: cs)
  have hcloses (a b : Char) (cs : List Char) := closes_toUpper (a :: b :: cs)
  simp only [List.map_cons] at hopens hcloses
  fun_induction Comment.balancedLength? depth cs <;>
    simp_all [Comment.balancedLength?]

theorem firstCloseLength?_toUpper :
    Comment.firstCloseLength? (cs.map Char.toUpper) = Comment.firstCloseLength? cs := by
  induction cs with
  | nil => rfl
  | cons c cs ih =>
    have hcloses := closes_toUpper (c :: cs)
    rw [List.map_cons] at hcloses ⊢
    simp only [Comment.firstCloseLength?, hcloses, ih]

theorem bodyLength?_toUpper :
    Comment.bodyLength? (cs.map Char.toUpper) = Comment.bodyLength? cs := by
  simp only [Comment.bodyLength?, balancedLength?_toUpper, firstCloseLength?_toUpper]

theorem stringLength?_toUpper {quote : Char} (hq : quote.isAlpha = false) :
    stringLength? quote (cs.map Char.toUpper) = stringLength? quote cs := by
  have hmark (c x : Char) (hx : x.isAlpha = false) : c.toUpper = x ↔ c = x := toUpper_eq_mark hx
  fun_induction stringLength? quote cs with
  | case1 => rfl
  | case2 => rfl
  | case3 d ds ih => exact congrArg (Option.map (· + 2)) ih
  | case4 cs hslash =>
    rw [List.map_cons, (hmark quote quote hq).mpr rfl, stringLength?_quote hslash]
  | case5 c cs hslash hquote ih =>
    rw [List.map_cons, stringLength?_cons _ (mt (hmark c '\\' (by decide)).mp hslash)
      (mt (hmark c quote hq).mp hquote), ih]

theorem nameLength?_toUpper : nameLength? (cs.map Char.toUpper) = nameLength? cs := by
  have hmark (c x : Char) (hx : x.isAlpha = false) : c.toUpper = x ↔ c = x := toUpper_eq_mark hx
  fun_induction nameLength? cs <;> simp_all [nameLength?]

end

/-! ## Pieces -/

theorem wordKind_toUpper (w : List Char) : wordKind (w.map Char.toUpper) = wordKind w := by
  have hword : Keyword.ofWord? (w.map Char.toUpper) = Keyword.ofWord? w := by
    simp only [Keyword.ofWord?, List.map_map, Function.comp_def, toUpper_toUpper]
  rw [wordKind, hword, wordKind]

theorem punctuation?_toUpper (c : Char) : punctuation? c.toUpper = punctuation? c := by
  refine apply_toUpper (b := none) (fun a ha => ?_) c
  unfold punctuation?
  repeat' split
  all_goals first | rfl | (subst a; exact absurd ha (by decide))

/-- At the head of a text, what is neither a digit nor a point is a piece of the same kind and
length in either case. -/
theorem firstPiece_toUpper {c : Char} (cs : List Char) (hdigit : c.isDigit = false)
    (hdot : c ≠ '.') : firstPiece ((c :: cs).map Char.toUpper) = firstPiece (c :: cs) := by
  have hmark (a x : Char) (hx : x.isAlpha = false) : a.toUpper = x ↔ a = x := toUpper_eq_mark hx
  have hopens := opens_toUpper (c :: cs)
  by_cases ho : Comment.opens (c :: cs) = true
  · obtain ⟨body, hcut, -⟩ := Comment.eq_of_opens ho
    rw [hcut] at ho hopens ⊢
    rw [ho] at hopens
    have hpiece : firstPiece ('/' :: '*' :: body.map Char.toUpper) = _ := firstPiece_opener hopens
    rw [bodyLength?_toUpper] at hpiece
    rw [firstPiece_opener ho]
    exact hpiece
  by_cases hq : c = '\'' ∨ c = '"'
  · have hupper : c.toUpper = c ∧ c.isAlpha = false := by
      rcases hq with rfl | rfl <;> decide
    rw [List.map_cons, hupper.1, firstPiece_quote _ hq, firstPiece_quote _ hq,
      stringLength?_toUpper cs hupper.2]
  by_cases htick : c = '`'
  · subst htick
    have hupper : '`'.toUpper = '`' := by decide
    rw [List.map_cons, hupper, firstPiece_tick, firstPiece_tick, nameLength?_toUpper]
  rw [Bool.not_eq_true] at ho
  rw [ho] at hopens
  have hword : wordOrNumber ((c :: cs).map Char.toUpper) = wordOrNumber (c :: cs) := by
    have hread := read?_of_letter cs hdigit hdot
    have hread' := read?_of_letter (cs.map Char.toUpper) (c := c.toUpper)
      (by rwa [isDigit_toUpper]) (mt (hmark c '.' (by decide)).mp hdot)
    rw [← List.map_cons] at hread'
    rw [wordOrNumber_eq, wordOrNumber_eq, hread, hread', wordLength_toUpper, ← List.map_take,
      wordKind_toUpper]
  have hblanks := takeWhile_toUpper cs isBlank_toUpper
  have hline := lineLength_toUpper (cs.drop 1)
  rw [List.map_drop] at hline
  have hhead (x : Char) (hx : x.isAlpha = false) := head?_toUpper cs hx
  rw [List.map_cons] at hopens hword ⊢
  simp (disch := decide) only [firstPiece, pieceAt, isBlank_toUpper, hblanks, List.length_map,
    hmark, hhead, hline, ho, hopens, hq, htick, hdot, hword, isWordChar_toUpper,
    punctuation?_toUpper, Bool.false_eq_true, if_false]

theorem firstPiece_of_sameLetters {cs : List Char} {d : Char} {ds : List Char}
    (h : SameLetters cs (d :: ds)) (hdigit : d.isDigit = false) (hdot : d ≠ '.') :
    firstPiece cs = firstPiece (d :: ds) := by
  obtain ⟨c, cs, rfl, hc, -⟩ := List.map_eq_cons_iff.mp (show _ = _ :: _ from h)
  have hdigit' : c.isDigit = false := by rw [← isDigit_toUpper, hc, isDigit_toUpper, hdigit]
  have hdot' : c ≠ '.' := by
    rintro rfl
    exact hdot ((toUpper_eq_mark (by decide)).mp hc.symm)
  rw [← firstPiece_toUpper cs hdigit' hdot', h, firstPiece_toUpper ds hdigit hdot]

end TagDialect
