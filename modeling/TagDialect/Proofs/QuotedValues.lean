-- The laws of quoting: a value that is written between quotes ends where it was
-- ended, and reads back as itself, whatever characters it holds.
import TagDialect.Quoting

namespace TagDialect

/-! ## Bytes between two quotes -/

theorem byteLength_append (cs ds : List Char) :
    byteLength (cs ++ ds) = byteLength cs + byteLength ds := by
  induction cs with
  | nil => simp [byteLength]
  | cons c cs ih =>
    simp only [List.cons_append, byteLength, ih]
    omega

theorem takeBytes?_append (cs ds : List Char) :
    takeBytes? (byteLength cs) (cs ++ ds) = some cs := by
  induction cs with
  | nil => simp [byteLength, takeBytes?]
  | cons c cs ih =>
    obtain ⟨n, hn⟩ : ∃ n, byteLength (c :: cs) = n + 1 :=
      ⟨byteLength (c :: cs) - 1, by have := c.utf8Size_pos; simp only [byteLength]; omega⟩
    have hle : c.utf8Size ≤ n + 1 := by simp only [byteLength] at hn; omega
    have hrest : n + 1 - c.utf8Size = byteLength cs := by simp only [byteLength] at hn; omega
    rw [hn, List.cons_append, takeBytes?, if_pos hle, hrest, ih]
    rfl

/-- Between two quotes of one byte each stands the interior. -/
theorem interior?_between {open' close' : Char} (ho : open'.utf8Size = 1)
    (hc : close'.utf8Size = 1) (inner : List Char) :
    interior? (open' :: (inner ++ [close'])) = some inner := by
  have hlength : byteLength (open' :: (inner ++ [close'])) = byteLength inner + 2 := by
    simp only [byteLength, byteLength_append, ho, hc]
    omega
  have hdrop : dropBytes? 1 (open' :: (inner ++ [close'])) = some (inner ++ [close']) := by
    rw [dropBytes?, if_pos (by omega), ho]
    exact dropBytes?.eq_1 _
  unfold interior? slice?
  rw [hlength, if_neg (by omega), if_pos (by omega), hdrop]
  exact takeBytes?_append inner [close']

/-! ## Strings -/

/-- A character stands for itself, or for an escape that is one letter long, or it is the
zero character with its four digits. -/
theorem escapeChar_cases (c : Char) :
    (escapeChar c = [c] ∧ c ≠ '\\' ∧ c ≠ '\'') ∨
      (escapeChar c = ['\\', 'u', '0', '0', '0', '0'] ∧ c = '\x00') ∨
      ∃ d, escapeChar c = ['\\', d] ∧ d ≠ 'u' ∧ d ≠ '0' ∧ d ≠ '1' ∧ letterEscape d = [c] := by
  unfold escapeChar
  repeat' split
  all_goals first
    | (subst c; exact .inr (.inr ⟨_, rfl, by decide, by decide, by decide, by decide⟩))
    | exact .inr (.inl ⟨rfl, ‹_›⟩)
    | exact .inl ⟨rfl, ‹_›, ‹_›⟩

theorem stringLength?_cons {quote c : Char} (cs : List Char) (hslash : c ≠ '\\')
    (hquote : c ≠ quote) :
    stringLength? quote (c :: cs) = (stringLength? quote cs).map (· + 1) := by
  cases cs <;> simp [stringLength?, hslash, hquote]

theorem stringLength?_slash (quote c : Char) (cs : List Char) :
    stringLength? quote ('\\' :: c :: cs) = (stringLength? quote cs).map (· + 2) := by
  simp [stringLength?]

theorem stringLength?_quote {quote : Char} (hslash : quote ≠ '\\') (cs : List Char) :
    stringLength? quote (quote :: cs) = some 1 := by
  cases cs <;> simp [stringLength?, hslash]

/-- An escaped character never ends its string. -/
theorem stringLength?_escapeChar (c : Char) (cs : List Char) :
    stringLength? '\'' (escapeChar c ++ cs) =
      (stringLength? '\'' cs).map (· + (escapeChar c).length) := by
  rcases escapeChar_cases c with ⟨h, hslash, hquote⟩ | ⟨h, -⟩ | ⟨d, h, -⟩
  · rw [h, List.singleton_append, stringLength?_cons cs hslash hquote]
    rfl
  · have hzero (ds : List Char) :
        stringLength? '\'' ('0' :: ds) = (stringLength? '\'' ds).map (· + 1) :=
      stringLength?_cons ds (by decide) (by decide)
    rw [h]
    simp only [List.cons_append, List.nil_append, stringLength?_slash, hzero, Option.map_map]
    rfl
  · rw [h]
    exact stringLength?_slash '\'' d cs

/-- A written string ends at its own closing quote, whatever comes behind it. -/
theorem stringLength?_escaped (cs rest : List Char) :
    stringLength? '\'' (cs.flatMap escapeChar ++ '\'' :: rest) =
      some ((cs.flatMap escapeChar).length + 1) := by
  induction cs with
  | nil => exact stringLength?_quote (by decide) rest
  | cons c cs ih =>
    rw [List.flatMap_cons, List.append_assoc, stringLength?_escapeChar, ih, Option.map_some,
      List.length_append]
    congr 1
    omega

theorem unicodeEscape?_of_ne {c : Char} (cs : List Char) (h : c ≠ 'u') :
    unicodeEscape? (c :: cs) = none := by
  unfold unicodeEscape?
  split
  · rename_i heq
    rw [List.cons.injEq] at heq
    rw [if_neg (heq.1 ▸ h)]
  · rfl

theorem octalEscape?_of_ne {c : Char} (cs : List Char) (h : c ≠ '0') (h' : c ≠ '1') :
    octalEscape? (c :: cs) = none := by
  unfold octalEscape?
  split
  · rename_i heq
    rw [List.cons.injEq] at heq
    rw [if_neg (by rw [← heq.1]; simp [h, h'])]
  · rfl

theorem unescapeFrom_escapeChar (c : Char) (cs : List Char) :
    unescapeFrom 0 (escapeChar c ++ cs) = c :: unescapeFrom 0 cs := by
  rcases escapeChar_cases c with ⟨h, hslash, -⟩ | ⟨h, rfl⟩ | ⟨d, h, hu, hzero, hone, hletter⟩
  · rw [h, List.singleton_append, unescapeFrom, if_neg hslash]
  · rw [h]
    rfl
  · have hescape : escapeAt (d :: cs) = ([c], 1) := by
      unfold escapeAt
      rw [unicodeEscape?_of_ne cs hu, octalEscape?_of_ne cs hzero hone]
      simp only [hletter]
    rw [h, List.cons_append, List.singleton_append, unescapeFrom, if_pos rfl, hescape]
    rfl

/-- Escapes resolve to the characters that they were written for. -/
theorem unescape_escaped (cs : List Char) : unescape (cs.flatMap escapeChar) = cs := by
  unfold unescape
  induction cs with
  | nil => rfl
  | cons c cs ih => rw [List.flatMap_cons, unescapeFrom_escapeChar, ih]

theorem toList_quoteString (value : String) :
    (quoteString value).toList = '\'' :: (value.toList.flatMap escapeChar ++ ['\'']) := by
  rw [quoteString, String.toList_ofList]
  rfl

/-- A string reads back as the value that it was written for. -/
theorem stringValue?_quoteString (value : String) :
    stringValue? (quoteString value) = some value := by
  unfold stringValue?
  rw [toList_quoteString, interior?_between (by decide) (by decide), Option.map_some,
    unescape_escaped, String.ofList_toList]

/-! ## Names in ticks -/

theorem nameLength?_cons {c : Char} (cs : List Char) (h : c ≠ '`') :
    nameLength? (c :: cs) = (nameLength? cs).map (· + 1) := by
  cases cs <;> simp [nameLength?, h]

/-- A closing tick ends the name when no other tick comes behind it. -/
theorem nameLength?_tick {rest : List Char} (h : rest.head? ≠ some '`') :
    nameLength? ('`' :: rest) = some 1 := by
  cases rest with
  | nil => rfl
  | cons d ds =>
    have hd : d ≠ '`' := by simpa using h
    simp [nameLength?, hd]

theorem doubleTicks_cons (c : Char) (cs : List Char) :
    doubleTicks (c :: cs) = (if c = '`' then ['`', '`'] else [c]) ++ doubleTicks cs := rfl

/-- A name in ticks ends at its own closing tick. -/
theorem nameLength?_doubleTicks (cs : List Char) {rest : List Char}
    (h : rest.head? ≠ some '`') :
    nameLength? (doubleTicks cs ++ '`' :: rest) = some ((doubleTicks cs).length + 1) := by
  induction cs with
  | nil => exact nameLength?_tick h
  | cons c cs ih =>
    rw [doubleTicks_cons]
    split
    · simp only [List.cons_append, List.nil_append, nameLength?, if_true, ih]
      simp
    · rename_i hc
      rw [List.singleton_append, List.cons_append, nameLength?_cons _ hc, ih]
      rfl

theorem halveTicks_cons {c : Char} (cs : List Char) (h : c ≠ '`') :
    halveTicks (c :: cs) = c :: halveTicks cs := by
  cases cs <;> simp [halveTicks, h]

theorem halveTicks_doubleTicks (cs : List Char) : halveTicks (doubleTicks cs) = cs := by
  induction cs with
  | nil => rfl
  | cons c cs ih =>
    rw [doubleTicks_cons]
    split
    · rename_i hc
      simp [halveTicks, ih, hc]
    · rename_i hc
      rw [List.singleton_append, halveTicks_cons _ hc, ih]

/-- A name in ticks reads back as the name that it was written for. -/
theorem nameValue?_doubleTicks (cs : List Char) :
    nameValue? (String.ofList ('`' :: (doubleTicks cs ++ ['`']))) = some (String.ofList cs) := by
  unfold nameValue?
  rw [String.toList_ofList, interior?_between (by decide) (by decide), Option.map_some,
    halveTicks_doubleTicks]

end TagDialect
