-- The line and the column of an offset lead back to it: a later offset has a later place, and on
-- the line with that number, the column is where the character at the offset stands.
import TagDialect.Proofs.SourceLines

namespace TagDialect

/-! ## Offsets at the edges of characters -/

/-- The characters before a byte offset of the text, and those from it on. There are none when
the offset is inside a character or past the end. -/
structure CutAt (text : String) (offset : Nat) (before rest : List Char) : Prop where
  cut : text.toList = before ++ rest
  offset : offset = byteLength before

/-- Whether the offset is at the edge of a character. -/
def IsEdge (text : String) (offset : Nat) : Prop := ∃ before rest, CutAt text offset before rest

theorem CutAt.lineColumn {text : String} {offset : Nat} {before rest : List Char}
    (h : CutAt text offset before rest) : lineColumn text offset =
      ((Place.first.past before).line, (Place.first.past before).column) := by
  rw [TagDialect.lineColumn, h.cut, h.offset]
  exact countTo_past .first before rest

/-- Of two edges, the later one has more characters before it. -/
theorem CutAt.between {text : String} {o p : Nat} {before rest before' rest' : List Char}
    (h : CutAt text o before rest) (h' : CutAt text p before' rest') (hlt : o < p) :
    ∃ inner, inner ≠ [] ∧ before' = before ++ inner := by
  have hcut : before ++ rest = before' ++ rest' := h.cut.symm.trans h'.cut
  rw [h.offset, h'.offset] at hlt
  rcases List.append_eq_append_iff.mp hcut with ⟨inner, rfl, -⟩ | ⟨inner, rfl, -⟩
  · refine ⟨inner, ?_, rfl⟩
    rintro rfl
    simp at hlt
  · rw [byteLength_append] at hlt
    omega

/-- Behind some more characters the line or, on the same line, the column is greater. -/
theorem Place.lex_past (p : Place) {cs : List Char} (h : cs ≠ []) :
    Prod.Lex (· < ·) (· < ·) (p.line, p.column) ((p.past cs).line, (p.past cs).column) := by
  rw [Prod.lex_def, Place.line_past]
  by_cases hfeed : '\n' ∈ cs
  · have hpos : 0 < cs.count '\n' := List.count_pos_iff.mpr hfeed
    exact .inl (by omega)
  · have hpos : 0 < cs.length := List.length_pos_iff.mpr h
    rw [List.count_eq_zero.mpr hfeed, Place.column_past p hfeed]
    exact .inr ⟨rfl, by omega⟩

/-! ## The line that a place is on -/

/-- The place behind `before` is on the line, at one of its characters or in its break: there is
no line feed between the lines above and the place. -/
structure OnLine (text before above left line below : List Char) : Prop where
  line : LineAt text above line below
  before : before = above ++ left
  left : '\n' ∉ left

/-- The character comes next, and it is no part of a break. -/
def NextInLine (rest : List Char) (c : Char) : Prop :=
  rest.head? = some c ∧ c ≠ '\n' ∧ ¬ (c = '\r' ∧ rest.tail.head? = some '\n')

/-- A whole break comes next, or the end of the text. -/
def BeforeBreak (before rest : List Char) : Prop :=
  rest = [] ∨ (rest.head? = some '\n' ∧ before.getLast? ≠ some '\r') ∨
    ∃ cs, rest = '\r' :: '\n' :: cs

/-- The place is between the carriage return and the line feed of a break. -/
def InsideBreak (before rest : List Char) : Prop :=
  before.getLast? = some '\r' ∧ rest.head? = some '\n'

theorem exists_onLine (before rest : List Char) :
    ∃ above left line below, OnLine (before ++ rest) before above left line below := by
  by_cases hinside : InsideBreak before rest
  · -- the line is that of the carriage return
    obtain ⟨hreturn, hfeed⟩ := hinside
    obtain ⟨bs, rfl⟩ := List.getLast?_eq_some_iff.mp hreturn
    obtain ⟨rs, rfl⟩ := List.head?_eq_some_iff.mp hfeed
    have hplain : ¬ (bs.getLast? = some '\r' ∧ ('\r' :: '\n' :: rs).head? = some '\n') := by
      simp
    obtain ⟨above, left, right, below, rfl, -, hline⟩ := exists_lineAt hplain
    have hleft : '\n' ∉ left := fun hmem => hline.inside (List.mem_append_left right hmem)
    refine ⟨above, left ++ ['\r'], left ++ right, below, ?_, ?_, ?_⟩
    · rwa [List.append_assoc (above ++ left)]
    · exact List.append_assoc ..
    · simp [hleft]
  · obtain ⟨above, left, right, below, rfl, rfl, hline⟩ := exists_lineAt hinside
    exact ⟨above, left, left ++ right, below, hline, rfl,
      fun hmem => hline.inside (List.mem_append_left right hmem)⟩

variable {before rest above left line below : List Char}

/-- Where a place is on its line, with so many characters on its left: at one of the line's
characters, right behind the last one, or inside the break. -/
inductive Standing (before rest content : List Char) (width : Nat) : Prop
  | next {c : Char} (h : NextInLine rest c) (hc : content[width]? = some c)
  | behind (h : BeforeBreak before rest) (hwidth : width = content.length)
  | inside (h : InsideBreak before rest) (hwidth : width = content.length + 1)

namespace OnLine

/-- The line and what comes below it are the characters around the place. -/
theorem append_eq (h : OnLine (before ++ rest) before above left line below) :
    left ++ rest = line ++ below := by
  have hcut := h.line.cut
  rwa [h.before, List.append_assoc, List.append_cancel_left_eq] at hcut

theorem getLast?_left (h : OnLine (before ++ rest) before above left line below)
    (hlast : before.getLast? = some '\r') : left.getLast? = some '\r' := by
  rw [h.before] at hlast
  by_cases hleft : left = []
  · rw [hleft, List.append_nil] at hlast
    rcases h.line.above with habove | habove
    · simp [habove] at hlast
    · simp [habove] at hlast
  · rwa [List.getLast?_append_of_ne_nil _ hleft] at hlast

/-- A character of the line comes next. -/
theorem next_of_append {c : Char} {right : List Char} (hinside : '\n' ∉ left ++ c :: right)
    (hend : LineEnd (left ++ c :: right) below) : NextInLine (c :: right ++ below) c := by
  refine ⟨rfl, fun hc => by simp [hc] at hinside, ?_⟩
  rintro ⟨rfl, hfeed⟩
  cases right with
  | nil =>
    cases hend with
    | finish => simp at hfeed
    | feed hlast => simp at hlast
    | returned => simp at hfeed
  | cons d ds =>
    obtain rfl : d = '\n' := by simpa using hfeed
    simp at hinside

/-- Right behind the last character of a line its break comes next. -/
theorem beforeBreak (h : OnLine (before ++ rest) before above line line rest) :
    BeforeBreak before rest := by
  cases h.line.below with
  | finish => exact .inl rfl
  | feed hlast => exact .inr (.inl ⟨rfl, fun hbefore => hlast (h.getLast?_left hbefore)⟩)
  | returned => exact .inr (.inr ⟨_, rfl⟩)

/-- Only a carriage return that belongs to the break is on a place's left behind the line. -/
theorem insideBreak {c : Char} {more : List Char}
    (h : OnLine (before ++ rest) before above (line ++ c :: more) line (c :: more ++ rest)) :
    InsideBreak before rest ∧ more = [] := by
  have hmore : '\n' ∉ c :: more := fun hmem => h.left (List.mem_append_right line hmem)
  have hlast := h.before
  generalize hcut : c :: more ++ rest = below at h
  cases h.line.below with
  | finish => simp at hcut
  | feed => simp_all
  | returned =>
    obtain ⟨rfl, hcut⟩ := List.cons.inj hcut
    cases more with
    | cons d ds => simp_all
    | nil =>
      obtain rfl : rest = '\n' :: _ := by simpa using hcut
      exact ⟨⟨by simp [hlast, List.getLast?_append], rfl⟩, rfl⟩

theorem standing (h : OnLine (before ++ rest) before above left line below) :
    Standing before rest line left.length := by
  rcases List.append_eq_append_iff.mp h.append_eq with ⟨right, rfl, rfl⟩ | ⟨more, rfl, rfl⟩
  · cases right with
    | nil =>
      rw [List.append_nil] at h ⊢
      exact .behind h.beforeBreak rfl
    | cons c right => exact .next (next_of_append h.line.inside h.line.below) (by simp)
  · cases more with
    | nil =>
      rw [List.append_nil] at h ⊢
      exact .behind h.beforeBreak rfl
    | cons c more =>
      obtain ⟨hinside, rfl⟩ := h.insideBreak
      exact .inside hinside (by simp)

theorem lineColumn {text : String} {offset : Nat} (hcut : CutAt text offset before rest)
    (h : OnLine (before ++ rest) before above left line below) :
    TagDialect.lineColumn text offset = (above.count '\n' + 1, left.length + 1) := by
  obtain ⟨hline, hcolumn⟩ := Place.on_line h.line.above h.left
  rw [hcut.lineColumn, h.before, hline, hcolumn]

/-- The number of a place's line leads to the line, unless nothing is left of the text. -/
theorem lineContent? {text : String} (hcut : text.toList = before ++ rest)
    (h : OnLine (before ++ rest) before above left line below) :
    TagDialect.lineContent? text (above.count '\n' + 1) =
      if left ++ rest = [] then none else some (String.ofList line) := by
  rw [TagDialect.lineContent?, Nat.add_sub_cancel, hcut, h.line.getElem?_splitLines, h.append_eq]
  split <;> rfl

/-- Nothing is left exactly at the end of whole lines. -/
theorem append_eq_nil_iff (h : OnLine (before ++ rest) before above left line below) :
    left ++ rest = [] ↔ rest = [] ∧ WholeLines (before ++ rest) := by
  rw [List.append_eq_nil_iff]
  constructor
  · rintro ⟨rfl, rfl⟩
    refine ⟨rfl, ?_⟩
    rw [h.before, List.append_nil, List.append_nil]
    exact h.line.above
  · rintro ⟨rfl, hwhole⟩
    refine ⟨?_, rfl⟩
    rw [List.append_nil, h.before] at hwhole
    rcases hwhole with hnil | hlast
    · exact (List.append_eq_nil_iff.mp hnil).2
    · by_contra hne
      rw [List.getLast?_append_of_ne_nil _ hne] at hlast
      exact h.left (List.mem_of_getLast? hlast)

end OnLine

/-! ## The three ways to stand on a line exclude each other -/

theorem NextInLine.not_beforeBreak {c : Char} (h : NextInLine rest c) :
    ¬ BeforeBreak before rest := by
  obtain ⟨hhead, hfeed, hreturn⟩ := h
  rintro (rfl | ⟨hrest, -⟩ | ⟨cs, rfl⟩)
  · simp at hhead
  · exact hfeed (Option.some.inj (hhead.symm.trans hrest))
  · obtain rfl : '\r' = c := Option.some.inj hhead
    exact hreturn ⟨rfl, rfl⟩

theorem NextInLine.not_insideBreak {c : Char} (h : NextInLine rest c) :
    ¬ InsideBreak before rest := by
  rintro ⟨-, hrest⟩
  exact h.2.1 (Option.some.inj (h.1.symm.trans hrest))

theorem InsideBreak.not_beforeBreak (h : InsideBreak before rest) : ¬ BeforeBreak before rest := by
  obtain ⟨hlast, hhead⟩ := h
  rintro (rfl | ⟨-, hother⟩ | ⟨cs, rfl⟩)
  · simp at hhead
  · exact hother hlast
  · simp at hhead

namespace Standing

variable {content : List Char} {width : Nat}

theorem getElem?_of_next {c : Char} (h : Standing before rest content width)
    (hnext : NextInLine rest c) : content[width]? = some c := by
  cases h with
  | next hother hc => rwa [← hother.1.symm.trans hnext.1]
  | behind hbreak => exact absurd hbreak hnext.not_beforeBreak
  | inside hbreak => exact absurd hbreak hnext.not_insideBreak

theorem eq_of_beforeBreak (h : Standing before rest content width)
    (hbreak : BeforeBreak before rest) : width = content.length := by
  cases h with
  | next hnext => exact absurd hbreak hnext.not_beforeBreak
  | behind _ hwidth => exact hwidth
  | inside hinside => exact absurd hbreak hinside.not_beforeBreak

theorem eq_of_insideBreak (h : Standing before rest content width)
    (hinside : InsideBreak before rest) : width = content.length + 1 := by
  cases h with
  | next hnext => exact absurd hinside hnext.not_insideBreak
  | behind hbreak => exact absurd hbreak hinside.not_beforeBreak
  | inside _ hwidth => exact hwidth

end Standing

/-- Line and column lead back to the place. A later edge has a later line or, on the same line, a
later column. There is no line with the number of a place's line exactly at the end of a text that
is empty or ends in a line feed; the column is the first one then. Else there is the line that the
place is on, without its break: the character that comes next is at the column, when it is no part
of a break; before a break and at the end of the text the column is right behind the line, and
inside a break it is one further. -/
theorem line_and_column_lead_back_to_the_place (text : String) :
    (∀ o p, IsEdge text o → IsEdge text p → o < p →
      Prod.Lex (· < ·) (· < ·) (lineColumn text o) (lineColumn text p)) ∧
    ∀ offset before rest, CutAt text offset before rest →
      ∃ number column, lineColumn text offset = (number, column) ∧ 1 ≤ number ∧ 1 ≤ column ∧
        (lineContent? text number = none ↔
          rest = [] ∧ (text = "" ∨ text.toList.getLast? = some '\n')) ∧
        (lineContent? text number = none → column = 1) ∧
        ∀ content, lineContent? text number = some content →
          (∃ above left below, OnLine text.toList before above left content.toList below) ∧
          (∀ c, NextInLine rest c → content.toList[column - 1]? = some c) ∧
          (BeforeBreak before rest → column - 1 = content.length) ∧
          (InsideBreak before rest → column - 1 = content.length + 1) := by
  constructor
  · rintro o p ⟨before, rest, h⟩ ⟨before', rest', h'⟩ hlt
    obtain ⟨inner, hinner, rfl⟩ := h.between h' hlt
    rw [h.lineColumn, h'.lineColumn, Place.past_append]
    exact Place.lex_past _ hinner
  · intro offset before rest hcut
    obtain ⟨above, left, line, below, h⟩ := exists_onLine before rest
    have hlookup := h.lineContent? hcut.cut
    refine ⟨_, _, h.lineColumn hcut, by omega, by omega, ?_, fun hnone => ?_,
      fun content hcontent => ?_⟩
    · have hnone : TagDialect.lineContent? text (above.count '\n' + 1) = none ↔
          left ++ rest = [] := by simp [hlookup]
      rw [hnone, h.append_eq_nil_iff, ← String.toList_eq_nil_iff, hcut.cut]
      exact Iff.rfl
    · have hnil : left ++ rest = [] := by simpa [hlookup] using hnone
      rw [(List.append_eq_nil_iff.mp hnil).1]
      rfl
    · obtain rfl : String.ofList line = content := by
        rw [hlookup] at hcontent
        split at hcontent
        · contradiction
        · exact Option.some.inj hcontent
      rw [hcut.cut, String.toList_ofList, String.length_ofList, Nat.add_sub_cancel]
      exact ⟨⟨above, left, below, h⟩, fun c => h.standing.getElem?_of_next,
        h.standing.eq_of_beforeBreak, h.standing.eq_of_insideBreak⟩

/-- Between the carriage return and the line feed of the first break. -/
theorem a_place_inside_a_break_is_one_column_further :
    let text := "é\r\nx"
    CutAt text 3 ['é', '\r'] ['\n', 'x'] ∧ lineColumn text 3 = (1, 3) ∧
      lineContent? text 1 = some "é" ∧ 3 - 1 = "é".length + 1 ∧
      Prod.Lex (· < ·) (· < ·) (lineColumn text 2) (lineColumn text 4) := by
  intro text
  have htext : text.toList = ['é', '\r', '\n', 'x'] := by decide
  have hcut : CutAt text 3 ['é', '\r'] ['\n', 'x'] := ⟨htext, rfl⟩
  obtain ⟨hlater, hback⟩ := line_and_column_lead_back_to_the_place text
  obtain ⟨number, column, hplace, -, -, -, -, hline⟩ := hback 3 _ _ hcut
  have hcount : lineColumn text 3 = (1, 3) := by rw [lineColumn, htext]; rfl
  have hcontent : lineContent? text 1 = some "é" := by rw [lineContent?, htext]; rfl
  obtain ⟨rfl, rfl⟩ := Prod.mk.inj (hcount.symm.trans hplace)
  exact ⟨hcut, hplace, hcontent, (hline _ hcontent).2.2.2 ⟨rfl, rfl⟩,
    hlater 2 4 ⟨['é'], ['\r', '\n', 'x'], htext, rfl⟩ ⟨['é', '\r', '\n'], ['x'], htext, rfl⟩
      (by decide)⟩

end TagDialect
