-- The law of written names. A name is written bare where a bare word is read as that name, and in
-- ticks everywhere else. Either way it reads back as itself, and a name in ticks is written in the
-- one way that it can be read.
import TagDialect.Proofs.CanonicalTexts
import TagDialect.Proofs.SafeTexts

namespace TagDialect

/-! ## Reading a written name -/

theorem nameValue?_writeName {value : String} (h : needsTicks value.toList = true) :
    nameValue? (writeName value) = some value := by
  have hname := nameValue?_doubleTicks value.toList
  rw [String.ofList_toList] at hname
  unfold writeName
  rw [if_pos h, List.cons_append, hname]

/-- The parser takes the token of a written name for the name. -/
theorem identifier_of_nameLexeme {value : String} {t : Token} (h : t.lexeme = nameLexeme value)
    (behind ts : List Token) :
    Parse.identifier ⟨behind, t :: ts⟩ =
      .ok ⟨value, needsTicks value.toList, t.span⟩ ⟨t :: behind, ts⟩ := by
  have hkind : t.kind = (nameLexeme value).kind := congrArg Lexeme.kind h
  have htext : t.text = writeName value := congrArg Lexeme.text h
  have hcan := canBeIdentifier_nameLexeme value
  have hcurrent : (Cursor.mk behind (t :: ts)).current = t := rfl
  unfold Parse.identifier Rule.identifier
  rw [Parse.look_bind, hcurrent]
  by_cases hticks : needsTicks value.toList = true
  · have hticked : t.kind = .backquoted := by rw [hkind, nameLexeme, if_pos hticks]
    rw [if_pos hticked, htext, nameValue?_writeName hticks, hticks]
    rfl
  · have hword : t.kind = wordKind value.toList := by rw [hkind, nameLexeme, if_neg hticks]
    have hne : t.kind ≠ .backquoted := by
      rw [hword]
      unfold wordKind
      split <;> simp
    have hbare : t.text = value := by rw [htext, writeName, if_neg hticks]
    rw [Bool.not_eq_true] at hticks
    rw [if_neg hne, if_pos (by rw [hkind, hcan]), hbare, hticks]
    rfl

/-! ## When a name is written bare -/

theorem length_le_doubleTicks (cs : List Char) : cs.length ≤ (doubleTicks cs).length := by
  induction cs with
  | nil => exact Nat.zero_le _
  | cons c cs ih =>
    rw [doubleTicks_cons, List.length_append, List.length_cons]
    split
    · simp only [List.length_cons, List.length_nil]
      omega
    · simp only [List.length_cons, List.length_nil]
      omega

theorem writeName_eq_self {value : String} :
    writeName value = value ↔ needsTicks value.toList = false := by
  unfold writeName
  by_cases hticks : needsTicks value.toList = true
  · rw [if_pos hticks, hticks]
    refine iff_of_false ?_ (by simp)
    intro heq
    have hlength := congrArg (fun s => s.toList.length) heq
    have hge := length_le_doubleTicks value.toList
    simp only [String.toList_ofList, List.length_append, List.length_cons, List.length_nil]
      at hlength
    omega
  · rw [if_neg hticks]
    simpa using hticks

/-- The value alone is read as one token, and that token is the value as a bare name. -/
def ReadBare (value : String) : Prop :=
  ∃ t e, tokenize value = .ok [t, e] ∧ t.kind ≠ .backquoted ∧ t.kind.canBeIdentifier = true ∧
    t.text = value

theorem readBare_of_needsTicks {value : String} (h : needsTicks value.toList = false) :
    ReadBare value := by
  have hbare := writeName_eq_self.mpr h
  have hkind : (nameLexeme value).kind = wordKind value.toList := by simp [nameLexeme, h]
  have hlexes := (readAs_nameLexeme value).lexes rfl (by simp) .finish
  rw [List.append_nil, hbare] at hlexes
  obtain ⟨tokens, htokens, hmap⟩ := tokenize_of_lexes hlexes
  obtain ⟨t, rest, rfl, ht, hrest⟩ := List.map_eq_cons_iff.mp hmap
  obtain ⟨e, rfl, -⟩ := List.map_eq_singleton_iff.mp hrest
  have htkind : t.kind = (nameLexeme value).kind := congrArg Lexeme.kind ht
  refine ⟨t, e, htokens, ?_, ?_, ?_⟩
  · rw [htkind, hkind]
    unfold wordKind
    split <;> simp
  · rw [htkind]
    exact canBeIdentifier_nameLexeme value
  · exact (congrArg Lexeme.text ht).trans hbare

/-- What a bare name matches is a word. -/
theorem word_of_match {kind : TokenKind} {w rest : List Char} (h : RuleMatch kind w rest)
    (hcan : kind.canBeIdentifier = true) : w ≠ [] ∧ ∀ c ∈ w, isWordChar c = true := by
  cases h with
  | identifier hne hall => exact ⟨hne, hall⟩
  | keyword hk =>
    obtain ⟨hall, c, cs, rfl, -⟩ := word_of_keyword hk
    exact ⟨List.cons_ne_nil c cs, hall⟩
  | mark hmark => cases hmark <;> simp [TokenKind.canBeIdentifier, TokenKind.isNonReserved] at hcan
  | _ => simp [TokenKind.canBeIdentifier, TokenKind.isNonReserved] at hcan

theorem word_of_form {c : Char} {cs : List Char} {kind : TokenKind} {n : Nat}
    (h : PieceForm (c :: cs) kind n) (hticks : kind ≠ .backquoted)
    (hcan : kind.canBeIdentifier = true) :
    ∃ w rest, c :: cs = w ++ rest ∧ w.length = n ∧ ∀ d ∈ w, isWordChar d = true := by
  cases h with
  | chosen _ _ h =>
    rcases h with ⟨w, rest, hcut, hlength, hbest⟩ | ⟨rfl, -, -⟩
    · exact ⟨w, rest, hcut, hlength, (word_of_match hbest.fits hcan).2⟩
    · simp [TokenKind.canBeIdentifier, TokenKind.isNonReserved] at hcan
  | ticked => exact absurd rfl hticks
  | _ => simp [TokenKind.canBeIdentifier, TokenKind.isNonReserved] at hcan

/-- A word that is read as a name needs no ticks, unless it starts with a digit. -/
theorem needsTicks_of_readBare {value : String} (h : ReadBare value)
    (hdigit : ∀ c, value.toList.head? = some c → c.isDigit = false) :
    needsTicks value.toList = false := by
  obtain ⟨t, e, htokens, hticks, hcan, htext⟩ := h
  obtain ⟨before, rest, hcut, -, -, hpiece⟩ := cut_of_token htokens List.mem_cons_self
  -- the token takes the whole value, so nothing stands before it or behind it
  have hlength := congrArg List.length hcut
  simp only [htext, List.length_append] at hlength
  obtain rfl : rest = [] := List.eq_nil_of_length_eq_zero (by omega)
  rcases hpiece with ⟨hfinish, -⟩ | hpiece
  · have hkind : t.kind = .endOfInput := congrArg Lexeme.kind hfinish
    simp [hkind, TokenKind.canBeIdentifier, TokenKind.isNonReserved] at hcan
  · rw [htext, List.append_nil] at hpiece
    cases hvalue : value.toList with
    | nil =>
      rw [hvalue] at hpiece
      have hkind : TokenKind.endOfInput = t.kind := congrArg Prod.fst (Except.ok.inj hpiece)
      simp [← hkind, TokenKind.canBeIdentifier, TokenKind.isNonReserved] at hcan
    | cons c cs =>
      rw [hvalue] at hpiece hdigit
      obtain ⟨w, rest, hw, hwlength, hall⟩ := word_of_form (firstPiece_eq_ok.mp hpiece) hticks hcan
      have hwhole : w = c :: cs := by
        have hlength := congrArg List.length hw
        rw [List.length_append, hwlength] at hlength
        obtain rfl : rest = [] := List.eq_nil_of_length_eq_zero (by omega)
        rw [hw, List.append_nil]
      rw [hwhole] at hall
      have hheads : Heads (wordKind (c :: cs)) (c :: cs) [] := heads_word (hdigit c rfl) hall rfl
      have hword := hheads.firstPiece
      rw [List.append_nil, hpiece] at hword
      have hkind : t.kind = wordKind (c :: cs) := congrArg Prod.fst (Except.ok.inj hword)
      rw [hkind] at hcan
      have hreserved : ∀ k, Keyword.ofWord? (c :: cs) = some k → k.isReserved = false := by
        intro k hk
        simpa [wordKind, hk, TokenKind.canBeIdentifier, TokenKind.isNonReserved] using hcan
      simp only [needsTicks, hdigit c rfl, List.all_eq_true.mpr hall, Bool.not_true, Bool.or_false,
        Bool.false_or]
      cases hk : Keyword.ofWord? (c :: cs) with
      | none => rfl
      | some k => exact hreserved k hk

/-! ## Names in ticks -/

/-- What the scan passes over up to the closing tick is a name with its ticks doubled. -/
theorem doubled_of_nameLength? {cs : List Char} (h : nameLength? cs = some cs.length) :
    ∃ name, cs = doubleTicks name ++ ['`'] := by
  fun_induction nameLength? cs with
  | case1 => simp at h
  | case2 => exact ⟨[], rfl⟩
  | case3 => simp at h
  | case4 cs ih =>
    obtain ⟨n, hn, hlength⟩ := Option.map_eq_some_iff.mp h
    obtain rfl : n = cs.length := by simpa using hlength
    obtain ⟨name, rfl⟩ := ih hn
    exact ⟨'`' :: name, rfl⟩
  | case5 d cs htick => simp at h
  | case6 c d cs htick ih =>
    obtain ⟨n, hn, hlength⟩ := Option.map_eq_some_iff.mp h
    obtain rfl : n = (d :: cs).length := by simpa using hlength
    obtain ⟨name, hname⟩ := ih hn
    refine ⟨c :: name, ?_⟩
    rw [doubleTicks_cons, if_neg htick, hname]
    rfl

theorem exact_of_backquoted {text : String} {l l' : Lexer} {t : Token}
    (hreaches : Lexer.Reaches text l) (hnext : l.next = .ok (t, l'))
    (hkind : t.kind = .backquoted) :
    ∃ name, nameValue? t.text = some name ∧
      t.text = String.ofList ('`' :: (doubleTicks name.toList ++ ['`'])) := by
  obtain ⟨rest, hform⟩ := hreaches.form hnext (by simp [hkind])
  rcases hform.quoted (.inr hkind) with ⟨-, -, hstring, -⟩ | ⟨v, -, htext, hlength⟩
  · rw [hkind] at hstring
    contradiction
  · obtain ⟨name, rfl⟩ := doubled_of_nameLength? hlength
    have hwritten : t.text = String.ofList ('`' :: (doubleTicks name ++ ['`'])) := by
      rw [← String.ofList_toList (s := t.text), htext]
    refine ⟨String.ofList name, ?_, ?_⟩
    · rw [hwritten, nameValue?_doubleTicks]
    · rw [hwritten, String.toList_ofList]

/-! ## The law -/

/-- A name is written as one token that is read back as the name, in front of anything that
neither goes on with the word nor doubles the tick. It is written bare when it is read as that
name without ticks, and only then, digits at its start apart. And a name in ticks has no other text
than its ticks doubled between two ticks. -/
theorem names_are_written_as_they_are_read :
    (∀ (value : String) (rest : List Char) (l : Lexer), Numeral.endsWord rest = true →
      rest.head? ≠ some '`' → l.rest = (writeName value).toList ++ rest →
        ∃ t l', l.next = .ok (t, l') ∧ t.text = writeName value ∧ l'.rest = rest ∧
          ∀ behind ts, Parse.identifier ⟨behind, t :: ts⟩ =
            .ok ⟨value, needsTicks value.toList, t.span⟩ ⟨t :: behind, ts⟩) ∧
    (∀ value : String, writeName value = value ↔
      (∀ c, value.toList.head? = some c → c.isDigit = false) ∧ ReadBare value) ∧
    ∀ (text : String) (l l' : Lexer) (t : Token), Lexer.Reaches text l → l.next = .ok (t, l') →
      t.kind = .backquoted → ∃ name, nameValue? t.text = some name ∧
        t.text = String.ofList ('`' :: (doubleTicks name.toList ++ ['`'])) := by
  refine ⟨?_, ?_, ?_⟩
  · intro value rest l hend htick hrest
    have hpiece := heads_nameLexeme value hend htick l.comments l.place.index
    rw [← hrest] at hpiece
    have hnext := Lexer.next_of_pieceAt hpiece
    rw [hrest, List.take_left, List.drop_left, String.ofList_toList] at hnext
    exact ⟨_, _, hnext, rfl, rfl, identifier_of_nameLexeme rfl⟩
  · intro value
    rw [writeName_eq_self]
    constructor
    · intro hbare
      refine ⟨?_, readBare_of_needsTicks hbare⟩
      obtain ⟨⟨c, cs, hcut, hdigit⟩, -⟩ := needsTicks_eq_false hbare
      rintro d hd
      rw [hcut] at hd
      rwa [← Option.some.inj hd]
    · rintro ⟨hdigit, hread⟩
      exact needsTicks_of_readBare hread hdigit
  · intro text l l' t hreaches hnext hkind
    exact exact_of_backquoted hreaches hnext hkind

/-- A reserved word is written in ticks, a free keyword is not, and a tick inside a name is read
back from its two ticks. -/
theorem a_reserved_word_is_written_in_ticks :
    (writeName "to" = "`to`" ∧ ∃ t l', (Lexer.ofText "`to`(").next = .ok (t, l') ∧
      t.text = "`to`" ∧ l'.rest = ['('] ∧
      Parse.identifier ⟨[], [t]⟩ = .ok ⟨"to", true, t.span⟩ ⟨[t], []⟩) ∧
    (writeName "tag" = "tag" ∧ ReadBare "tag") ∧
    ∃ t l' name, (Lexer.ofText "`a``b`").next = .ok (t, l') ∧ t.kind = .backquoted ∧
      nameValue? t.text = some name ∧ name = "a`b" ∧
      t.text = String.ofList ('`' :: (doubleTicks name.toList ++ ['`'])) := by
  obtain ⟨hreads, hbare, hexact⟩ := names_are_written_as_they_are_read
  refine ⟨⟨by decide, ?_⟩, ⟨by decide, ?_⟩, ?_⟩
  · obtain ⟨t, l', hnext, htext, hrest, hparse⟩ :=
      hreads "to" ['('] (Lexer.ofText "`to`(") rfl (by decide) (by decide)
    exact ⟨t, l', hnext, htext.trans (by decide), hrest, hparse [] []⟩
  · exact ((hbare "tag").mp (by decide)).2
  · have hpiece : firstPiece "`a``b`".toList = .ok (.backquoted, "`a``b`".toList.length) := by
      simp [firstPiece_tick, nameLength?]
    obtain ⟨t, l', hnext, hkind, htext⟩ := Lexer.next_of_whole hpiece
    obtain ⟨name, hname, hwritten⟩ := hexact "`a``b`" _ _ t .start hnext hkind
    refine ⟨t, l', name, hnext, hkind, hname, ?_, hwritten⟩
    rw [htext] at hname
    exact (Option.some.inj hname).symm.trans (by decide)

end TagDialect
