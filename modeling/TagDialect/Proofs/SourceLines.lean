-- Lines of a text where they stand. A line is cut out with the whole lines above
-- it and what comes behind it, so that its number and each column on it are counts.
import TagDialect.Proofs.TokenPlaces

namespace TagDialect

/-! ## A line and what is around it -/

/-- Whole lines, each with its break. -/
def WholeLines (cs : List Char) : Prop := cs = [] ∨ cs.getLast? = some '\n'

/-- What comes behind the characters of a line: the end of the text, or a break. A carriage return
right before a line feed is part of the break. -/
inductive LineEnd (line : List Char) : List Char → Prop
  | finish : LineEnd line []
  | feed {cs : List Char} (h : line.getLast? ≠ some '\r') : LineEnd line ('\n' :: cs)
  | returned {cs : List Char} : LineEnd line ('\r' :: '\n' :: cs)

/-- The text has the line below whole lines, and the rest behind it. -/
structure LineAt (text above line below : List Char) : Prop where
  cut : text = above ++ (line ++ below)
  above : WholeLines above
  inside : '\n' ∉ line
  below : LineEnd line below

theorem WholeLines.tail {c : Char} {cs : List Char} (h : WholeLines (c :: cs)) :
    WholeLines cs ∧ (c ≠ '\n' → '\n' ∈ cs) := by
  cases cs with
  | nil =>
    refine ⟨.inl rfl, fun hc => absurd ?_ hc⟩
    simpa [WholeLines] using h
  | cons d ds =>
    have hlast : (d :: ds).getLast? = some '\n' := by simpa [WholeLines] using h
    exact ⟨.inr hlast, fun _ => List.mem_of_getLast? hlast⟩

theorem LineEnd.tail {c : Char} {line below : List Char} (h : LineEnd (c :: line) below) :
    LineEnd line below := by
  cases h with
  | finish => exact .finish
  | returned => exact .returned
  | feed h =>
    refine .feed fun hlast => h ?_
    cases line with
    | nil => simp at hlast
    | cons d ds => exact hlast

/-! ## Finding a line by its number -/

/-- Whole lines are so many entries, whatever comes below them. -/
theorem splitLines_above {above : List Char} (h : WholeLines above) (rest : List Char) :
    ∃ lines, splitLines (above ++ rest) = lines ++ splitLines rest ∧
      lines.length = above.count '\n' := by
  induction above with
  | nil => exact ⟨[], rfl, rfl⟩
  | cons c cs ih =>
    obtain ⟨htail, hmem⟩ := h.tail
    obtain ⟨lines, hlines, hlength⟩ := ih htail
    rw [List.cons_append, splitLines]
    by_cases hfeed : c = '\n'
    · refine ⟨[] :: lines, ?_, ?_⟩
      · rw [if_pos hfeed, hlines, List.cons_append]
      · rw [List.length_cons, hlength, hfeed, List.count_cons_self]
    · rw [if_neg hfeed, hlines, List.count_cons_of_ne hfeed]
      split
      · exact ⟨lines, rfl, hlength⟩
      · -- the line that `c` goes on has its break in `cs`
        have hpos : 0 < cs.count '\n' := List.count_pos_iff.mpr (hmem hfeed)
        obtain ⟨line, lines, rfl⟩ := List.exists_cons_of_length_pos (hlength ▸ hpos)
        exact ⟨(c :: line) :: lines, rfl, hlength⟩

/-- A text that starts with a line has it as its first entry, unless there is nothing at all. -/
theorem head?_splitLines {line below : List Char} (hin : '\n' ∉ line) (h : LineEnd line below) :
    (splitLines (line ++ below)).head? = if line ++ below = [] then none else some line := by
  induction line with
  | nil => cases h <;> simp [splitLines]
  | cons c line ih =>
    have hfeed : c ≠ '\n' := fun hc => hin (hc ▸ List.mem_cons_self)
    have hreturn : ¬ (c = '\r' ∧ (line ++ below).head? = some '\n') := by
      rintro ⟨rfl, hhead⟩
      cases line with
      | cons d ds =>
        obtain rfl : d = '\n' := by simpa using hhead
        simp at hin
      | nil =>
        cases h with
        | finish => simp at hhead
        | returned => simp at hhead
        | feed hlast => simp at hlast
    have hhead := ih (fun hmem => hin (List.mem_cons_of_mem c hmem)) h.tail
    rw [List.cons_append, splitLines, if_neg hfeed, if_neg hreturn, if_neg (List.cons_ne_nil _ _)]
    cases hlines : splitLines (line ++ below) with
    | nil =>
      have hnil : line ++ below = [] := by simpa [hlines] using hhead
      simp [(List.append_eq_nil_iff.mp hnil).1]
    | cons first lines =>
      by_cases hnil : line ++ below = []
      · rw [hnil] at hlines
        simp [splitLines] at hlines
      · obtain rfl : first = line := by simpa [hlines, hnil] using hhead
        rfl

/-- The line below so many line feeds, unless the text ends there. -/
theorem LineAt.getElem?_splitLines {text above line below : List Char}
    (h : LineAt text above line below) :
    (splitLines text)[above.count '\n']? = if line ++ below = [] then none else some line := by
  obtain ⟨lines, hlines, hlength⟩ := splitLines_above h.above (line ++ below)
  rw [h.cut, hlines, ← hlength, List.getElem?_append_right (Nat.le_refl _), Nat.sub_self,
    ← List.head?_eq_getElem?]
  exact head?_splitLines h.inside h.below

theorem LineAt.lineContent? {text : String} {above line below : List Char}
    (h : LineAt text.toList above line below) :
    (TagDialect.lineContent? text (above.count '\n' + 1)).getD "" = String.ofList line := by
  rw [TagDialect.lineContent?, Nat.add_sub_cancel, h.getElem?_splitLines]
  split
  · rename_i hnil
    rw [(List.append_eq_nil_iff.mp hnil).1]
    rfl
  · rfl

/-! ## The line of a place -/

theorem exists_above (cs : List Char) :
    ∃ above left, cs = above ++ left ∧ WholeLines above ∧ '\n' ∉ left := by
  induction cs using List.reverseRecOn with
  | nil => exact ⟨[], [], rfl, .inl rfl, List.not_mem_nil⟩
  | append_singleton cs c ih =>
    by_cases hc : c = '\n'
    · exact ⟨cs ++ [c], [], (List.append_nil _).symm, .inr (by simp [hc]), List.not_mem_nil⟩
    · obtain ⟨above, left, rfl, habove, hleft⟩ := ih
      exact ⟨above, left ++ [c], List.append_assoc .., habove, by simp [hleft, Ne.symm hc]⟩

theorem exists_below (cs : List Char) :
    ∃ right below, cs = right ++ below ∧ '\n' ∉ right ∧ LineEnd right below := by
  induction cs with
  | nil => exact ⟨[], [], rfl, List.not_mem_nil, .finish⟩
  | cons c cs ih =>
    by_cases hfeed : c = '\n'
    · exact ⟨[], c :: cs, rfl, List.not_mem_nil, hfeed ▸ .feed (by simp)⟩
    · by_cases hreturn : c = '\r' ∧ cs.head? = some '\n'
      · obtain ⟨ds, rfl⟩ := List.head?_eq_some_iff.mp hreturn.2
        exact ⟨[], c :: '\n' :: ds, rfl, List.not_mem_nil, hreturn.1 ▸ .returned⟩
      · obtain ⟨right, below, rfl, hright, hend⟩ := ih
        refine ⟨c :: right, below, rfl, by simp [hright, Ne.symm hfeed], ?_⟩
        cases hend with
        | finish => exact .finish
        | returned => exact .returned
        | feed hlast =>
          refine .feed ?_
          cases right with
          | nil => simpa using hreturn
          | cons d ds => exact hlast

/-- Each place of a text is on a line, unless it is inside a break. -/
theorem exists_lineAt {before rest : List Char}
    (h : ¬ (before.getLast? = some '\r' ∧ rest.head? = some '\n')) :
    ∃ above left right below, before = above ++ left ∧ rest = right ++ below ∧
      LineAt (before ++ rest) above (left ++ right) below := by
  obtain ⟨above, left, rfl, habove, hleft⟩ := exists_above before
  obtain ⟨right, below, rfl, hright, hend⟩ := exists_below rest
  refine ⟨above, left, right, below, rfl, rfl, ?_, habove, ?_, ?_⟩
  · simp only [List.append_assoc]
  · simp [hleft, hright]
  · cases hend with
    | finish => exact .finish
    | returned => exact .returned
    | feed hlast =>
      refine .feed fun hbreak => ?_
      cases right with
      | cons d ds => exact hlast (by simpa [List.getLast?_append] using hbreak)
      | nil =>
        rw [List.append_nil] at hbreak
        exact h ⟨by simp [List.getLast?_append, hbreak], rfl⟩

theorem Place.line_past (p : Place) (cs : List Char) :
    (p.past cs).line = p.line + cs.count '\n' := by
  induction cs generalizing p with
  | nil => rfl
  | cons c cs ih =>
    have hstep : p.past (c :: cs) = (p.after c).past cs := rfl
    rw [hstep, ih]
    by_cases hc : c = '\n'
    · simp only [Place.after, hc, if_true, List.count_cons_self]
      omega
    · simp only [Place.after, hc, if_false, List.count_cons_of_ne hc]

theorem Place.column_past (p : Place) {cs : List Char} (h : '\n' ∉ cs) :
    (p.past cs).column = p.column + cs.length := by
  induction cs generalizing p with
  | nil => rfl
  | cons c cs ih =>
    have hc : c ≠ '\n' := fun hc => h (hc ▸ List.mem_cons_self)
    have hstep : p.past (c :: cs) = (p.after c).past cs := rfl
    rw [hstep, ih _ fun hmem => h (List.mem_cons_of_mem c hmem)]
    simp only [Place.after, hc, if_false, List.length_cons]
    omega

/-- Behind whole lines a new line starts. -/
theorem Place.column_whole {above : List Char} (h : WholeLines above) :
    (Place.first.past above).column = 1 := by
  rcases h with rfl | hlast
  · rfl
  · obtain ⟨cs, rfl⟩ := List.getLast?_eq_some_iff.mp hlast
    rw [Place.past_append]
    rfl

/-- The line of a place is one more than the line feeds above, and its column one more than the
characters to its left. -/
theorem Place.on_line {above left : List Char} (habove : WholeLines above) (hleft : '\n' ∉ left) :
    (Place.first.past (above ++ left)).line = above.count '\n' + 1 ∧
      (Place.first.past (above ++ left)).column = left.length + 1 := by
  rw [Place.line_past, List.count_append, List.count_eq_zero.mpr hleft, Place.past_append,
    Place.column_past _ hleft, Place.column_whole habove]
  simp only [Place.first]
  omega

end TagDialect
