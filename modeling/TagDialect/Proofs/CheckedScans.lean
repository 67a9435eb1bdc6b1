-- Checked scans over bytes. On any bytes whatever the runs, the depth and the table entries
-- of a scan are in order, and it finds what the same scan finds unchecked. So does the walk
-- over the characters of a quoted piece that resolves its escapes.
import TagDialect.ByteScanner
import TagDialect.Proofs.CommentMatching
import Mathlib.Data.List.Induction

namespace TagDialect

/-! ## The longest of several readings -/

namespace Numeral

theorem longest?_cons (r : Nat × NumberKind) (rs : List (Nat × NumberKind)) :
    longest? (r :: rs) =
      match longest? rs with
      | none => some r
      | some s => Octets.offer (some r) s.1 s.2 := by
  rw [longest?]
  rfl

/-- One more reading of lower priority has to be longer than all before it. -/
theorem longest?_concat (rs : List (Nat × NumberKind)) (r : Nat × NumberKind) :
    longest? (rs ++ [r]) = Octets.offer (longest? rs) r.1 r.2 := by
  induction rs with
  | nil => rfl
  | cons s rs ih =>
    rw [List.cons_append, longest?_cons, longest?_cons, ih]
    rcases longest? rs with - | t
    · rfl
    · simp only [Octets.offer]
      grind

/-- The longest reading is the best when they are offered one after the other. -/
theorem longest?_eq_foldl (rs : List (Nat × NumberKind)) :
    longest? rs = rs.foldl (fun best r => Octets.offer best r.1 r.2) none := by
  induction rs using List.reverseRecOn with
  | nil => rfl
  | append_singleton rs r ih => rw [longest?_concat, ih, List.foldl_append, List.foldl_cons,
      List.foldl_nil]

theorem longest?_append (rs ss : List (Nat × NumberKind)) :
    longest? (rs ++ ss) = ss.foldl (fun best r => Octets.offer best r.1 r.2) (longest? rs) := by
  rw [longest?_eq_foldl, List.foldl_append, ← longest?_eq_foldl]

end Numeral

namespace Octets

variable {bytes : List Char} {start i : Nat}

theorem runLength_eq (h : start ≤ bytes.length) (belongs : Char → Bool) :
    runLength bytes start belongs = .ok ((bytes.drop start).takeWhile belongs).length := by
  rw [runLength, if_pos h]

/-! ## Numbers -/

theorem getElem?_of_drop {c : Char} {cs : List Char} (h : bytes.drop i = c :: cs) :
    bytes[i]? = some c ∧ bytes.drop (i + 1) = cs ∧ i + 1 ≤ bytes.length := by
  have hlength := congrArg List.length h
  rw [List.length_drop, List.length_cons] at hlength
  refine ⟨?_, ?_, by omega⟩
  · rw [← List.head?_drop, h]
    rfl
  · rw [← List.drop_drop, h]
    rfl

theorem exponentLength_eq (bytes : List Char) (i : Nat) :
    exponentLength bytes i = .ok (Numeral.exponentLength (bytes.drop i)) := by
  unfold exponentLength
  rcases hdrop : bytes.drop i with - | ⟨c, cs⟩
  · rw [if_neg (by simp [← List.head?_drop, hdrop])]
    rfl
  · obtain ⟨hget, hcs, hle⟩ := getElem?_of_drop hdrop
    by_cases hc : c = 'E'
    · have hsign : (if bytes[i + 1]? = some '+' ∨ bytes[i + 1]? = some '-' then 1 else 0) =
          Numeral.signLength cs := by
        rw [← List.head?_drop, hcs]
        cases cs <;> simp [Numeral.signLength]
      -- The sign, when there is one, is a byte of the text.
      have hrun : i + 1 + Numeral.signLength cs ≤ bytes.length := by
        have hlength := congrArg List.length hcs
        rw [List.length_drop] at hlength
        have hone : Numeral.signLength cs ≤ cs.length := by
          unfold Numeral.signLength
          grind
        omega
      rw [hget, hc, if_pos rfl, hsign]
      simp only [runLength_eq hrun, ← List.drop_drop, hcs]
      refine congrArg Except.ok ?_
      unfold Numeral.exponentLength digitRun
      grind
    · rw [if_neg (by simp [hget, hc])]
      simp only [Numeral.exponentLength, if_neg hc]
      rfl

theorem wholeNumber?_eq (bytes : List Char) (start : Nat) :
    wholeNumber? bytes start (digitRun (bytes.drop start)) =
      .ok (Numeral.longest? (Numeral.wholeReadings (bytes.drop start))) := by
  unfold wholeNumber? Numeral.wholeReadings
  simp only
  by_cases hn : digitRun (bytes.drop start) = 0
  · rw [if_pos hn, if_pos hn]
    rfl
  · rw [if_neg hn, if_neg hn]
    simp only [exponentLength_eq, ← List.drop_drop]
    generalize (bytes.drop start).drop (digitRun (bytes.drop start)) = rest
    refine congrArg Except.ok ?_
    rw [Numeral.longest?_eq_foldl]
    rcases Numeral.wholeSuffix? rest <;>
      rcases Numeral.anySuffix? (rest.drop (Numeral.exponentLength rest)) <;>
      by_cases he : Numeral.exponentLength rest = 0 <;> simp [he]

theorem pointLength?_eq (bytes : List Char) (start : Nat) :
    pointLength? bytes start (digitRun (bytes.drop start)) =
      .ok (Numeral.pointLength? (bytes.drop start)) := by
  unfold pointLength? Numeral.pointLength?
  simp only
  rw [List.drop_drop]
  generalize digitRun (bytes.drop start) = n
  rcases hdrop : bytes.drop (start + n) with - | ⟨c, cs⟩
  · rw [if_neg (by simp [← List.head?_drop, hdrop])]
    rfl
  · obtain ⟨hget, hcs, hle⟩ := getElem?_of_drop hdrop
    by_cases hc : c = '.'
    · rw [if_pos (by rw [hget, hc]), runLength_eq hle, hcs]
      refine congrArg Except.ok ?_
      unfold digitRun
      grind
    · rw [if_neg (by simp [hget, hc])]
      simp [hc]
      rfl

/-- The scan finds the longest number. -/
theorem number?_eq (h : start ≤ bytes.length) :
    number? bytes start = .ok (Numeral.read? (bytes.drop start)) := by
  have hdigits : runLength bytes start Char.isDigit = .ok (digitRun (bytes.drop start)) :=
    runLength_eq h _
  have hwhole := wholeNumber?_eq bytes start
  have hpoint := pointLength?_eq bytes start
  unfold Numeral.read?
  rw [Numeral.longest?_append]
  unfold number? Numeral.pointReadings
  simp only [hdigits, hwhole, hpoint, exponentLength_eq, bind, Except.bind, pure, Except.pure]
  rcases hn : Numeral.pointLength? (bytes.drop start) with - | n
  · rfl
  · simp only [List.drop_drop, List.filter_append, List.foldl_append]
    refine congrArg Except.ok ?_
    generalize Numeral.exponentLength (bytes.drop (start + n)) = e
    generalize Numeral.longest? (Numeral.wholeReadings (bytes.drop start)) = best
    rcases Numeral.anySuffix? (bytes.drop (start + n + e)) with - | ⟨m, kind⟩ <;>
      by_cases he : e = 0 <;> grind

/-! ## Comments -/

open CommentIndex

/-- Inside a comment the depth is never zero. -/
theorem nestedLength?_succ (depth : Nat) (cs : List Char) :
    nestedLength? (depth + 1) cs = .ok (Comment.balancedLength? depth cs) := by
  fun_induction Comment.balancedLength? depth cs with
  | case1 depth => rfl
  | case2 depth c => rfl
  | case3 depth a b cs ho ih =>
    unfold nestedLength?
    rw [if_pos ho, ih]
    rfl
  | case4 a b cs ho hc =>
    unfold nestedLength?
    rw [if_neg ho, if_pos hc]
  | case5 a b cs ho hc depth ih =>
    unfold nestedLength?
    rw [if_neg ho, if_pos hc]
    simp only [ih]
    rfl
  | case6 depth a b cs ho hc ih =>
    unfold nestedLength?
    rw [if_neg ho, if_neg hc, ih]
    rfl

theorem nestedLength?_opener {cs : List Char} (h : Comment.opens cs = true) :
    nestedLength? 0 cs = .ok ((Comment.balancedLength? 0 (cs.drop 2)).map (· + 2)) := by
  obtain ⟨body, rfl, -⟩ := Comment.eq_of_opens h
  unfold nestedLength?
  rw [if_pos h, nestedLength?_succ]
  rfl

/-- An opener with the end of its comment, where the other table has the length of the comment
behind the opener. -/
def ending (e : Nat × Option Nat) : Nat × Option Nat := (e.1, e.2.map (e.1 + 2 + ·))

/-- Closing the same entry in both tables keeps them the same. -/
theorem modify_ending {openers : Array (Nat × Option Nat)} {k : Nat} {e : Nat × Option Nat}
    {f g : Nat × Option Nat → Nat × Option Nat} (hget : openers[k]? = some e)
    (h : f (ending e) = ending (g e)) :
    (openers.map ending).modify k f = (openers.modify k g).map ending := by
  refine Array.ext_getElem? fun j => ?_
  rw [Array.getElem?_modify, Array.getElem?_map, Array.getElem?_map, Array.getElem?_modify]
  by_cases hj : k = j
  · rw [if_pos hj, if_pos hj, ← hj, hget]
    exact congrArg some h
  · rw [if_neg hj, if_neg hj]

/-- The entries on the stack exist. -/
theorem pair_eq {i : Nat} {rest : List Char} {stack : List Nat}
    {openers : Array (Nat × Option Nat)} (h : Walked bytes i rest stack openers) :
    pair i stack (openers.map ending) rest =
      .ok ((CommentIndex.pair i stack openers rest).map ending) := by
  fun_induction CommentIndex.pair i stack openers rest with
  | case1 i stack openers => rfl
  | case2 i stack openers c => rfl
  | case3 i stack openers a b cs ho ih =>
    have hpush := ih (h.opener ho)
    rw [Array.map_push] at hpush
    unfold pair
    rw [if_pos ho, Array.size_map]
    exact hpush
  | case4 i openers a b cs ho hc ih =>
    unfold pair
    rw [if_neg ho, if_pos hc]
    exact ih h.stray
  | case5 i openers a b cs ho hc k stack ih =>
    obtain ⟨o, hget, hle, -⟩ := h.opened 0 k rfl
    unfold pair
    rw [if_neg ho, if_pos hc]
    simp only [Array.size_map, lt_size_of_getElem? hget, if_true]
    refine Eq.trans (congrArg (pair (i + 2) stack · cs) (modify_ending hget ?_))
      (ih (h.closer ho hc))
    have hlength : o + 2 + (i - o) = i + 2 := by omega
    simp only [ending, Option.map_some, hlength]
  | case6 i stack openers a b cs ho hc ih =>
    unfold pair
    rw [if_neg ho, if_neg hc]
    exact ih (h.plain ho hc)

theorem search_ending (openers : Array (Nat × Option Nat)) (key low high : Nat) :
    search (openers.map ending) key low high =
      (search openers key low high).map fun found => found.map (key + 2 + ·) := by
  fun_induction search openers key low high with
  | case1 low high hlt mid hget =>
    unfold search
    simp [hlt, mid, hget]
  | case2 low high hlt mid found hget =>
    unfold search
    simp [hlt, mid, hget, ending]
  | case3 low high hlt mid k found hget hne hless ih =>
    rw [← ih, search.eq_def (openers.map ending) key low high]
    simp only [hlt, mid, hget, ending, hne, hless, Array.getElem?_map, Option.map_some, dif_pos,
      if_true, if_false]
  | case4 low high hlt mid k found hget hne hless ih =>
    rw [← ih, search.eq_def (openers.map ending) key low high]
    simp only [hlt, mid, hget, ending, hne, hless, Array.getElem?_map, Option.map_some, dif_pos,
      if_false]
  | case5 low high hlt =>
    unfold search
    rw [dif_neg hlt]
    rfl

/-! ## The values of quoted pieces -/

section

variable {chars cs : List Char} {c : Char} {i : Nat}

theorem length_of_drop (h : chars.drop i = c :: cs) : chars.length = i + 1 + cs.length := by
  have hlength := congrArg List.length h
  rw [List.length_drop, List.length_cons] at hlength
  omega

theorem charAt_of_drop (h : chars.drop i = c :: cs) : charAt chars i = .ok c := by
  unfold charAt
  rw [(getElem?_of_drop h).1]

theorem stretch_of_drop {w : List Char} (h : chars.drop i = w ++ cs) (hi : i ≤ chars.length) :
    stretch chars i (i + w.length) = .ok w := by
  have hlength := congrArg List.length h
  rw [List.length_drop, List.length_append] at hlength
  unfold stretch
  rw [if_pos (by omega), List.drop_take, h, Nat.add_sub_cancel_left, List.take_left]

theorem drop_succ_of_drop (h : chars.drop i = c :: cs) : chars.drop (i + 1) = cs :=
  (getElem?_of_drop h).2.1

theorem unicodeEscape?_eq {d : Char} (h : chars.drop i = c :: d :: cs) :
    unicodeEscape? chars i = .ok (TagDialect.unicodeEscape? (d :: cs)) := by
  have hlength := length_of_drop h
  have hd := drop_succ_of_drop h
  have hcs : chars.drop (i + 2) = cs := drop_succ_of_drop hd
  unfold unicodeEscape?
  rw [charAt_of_drop hd]
  simp only [bind, Except.bind]
  by_cases hu : d = 'u'
  · rcases cs with - | ⟨p, - | ⟨q, - | ⟨r, - | ⟨s, rest⟩⟩⟩⟩
    iterate 4
      rw [if_neg (by simp at hlength; omega)]
      rfl
    simp only [List.length_cons] at hlength
    have hdigits : stretch chars (i + 2) (i + 6) = .ok [p, q, r, s] :=
      stretch_of_drop (w := [p, q, r, s]) hcs (by omega)
    rw [if_pos ⟨hu, by omega⟩, hdigits]
    simp only [List.all_cons, List.all_nil, TagDialect.unicodeEscape?, if_pos hu, spelledBy,
      List.foldl_cons, List.foldl_nil]
    rcases Option.eq_none_or_eq_some (hexValue? p) with hp | ⟨_, hp⟩ <;>
      rcases Option.eq_none_or_eq_some (hexValue? q) with hq | ⟨_, hq⟩ <;>
      rcases Option.eq_none_or_eq_some (hexValue? r) with hr | ⟨_, hr⟩ <;>
      rcases Option.eq_none_or_eq_some (hexValue? s) with hs | ⟨_, hs⟩ <;>
      simp [hp, hq, hr, hs] <;> rfl
  · rw [if_neg (by simp [hu])]
    rcases cs with - | ⟨p, - | ⟨q, - | ⟨r, - | ⟨s, rest⟩⟩⟩⟩ <;>
      simp only [TagDialect.unicodeEscape?, if_neg hu] <;> rfl

theorem octalEscape?_eq {d : Char} (h : chars.drop i = c :: d :: cs) :
    octalEscape? chars i = .ok (TagDialect.octalEscape? (d :: cs)) := by
  have hlength := length_of_drop h
  have hd := drop_succ_of_drop h
  unfold octalEscape?
  rcases cs with - | ⟨p, - | ⟨q, rest⟩⟩
  iterate 2
    rw [if_neg (by simp at hlength; omega)]
    rfl
  have hp := drop_succ_of_drop hd
  simp only [List.length_cons] at hlength
  have hdigits : stretch chars (i + 1) (i + 4) = .ok [d, p, q] :=
    stretch_of_drop (w := [d, p, q]) hd (by omega)
  rw [if_pos (by omega), charAt_of_drop hd, charAt_of_drop hp,
    charAt_of_drop (drop_succ_of_drop hp), hdigits]
  simp only [bind, Except.bind, TagDialect.octalEscape?]
  by_cases hone : d = '0' ∨ d = '1'
  · -- A digit that is at most one has an octal value.
    obtain ⟨n, hn⟩ : ∃ n, octalValue? d = some n := by
      rcases hone with rfl | rfl
      · exact ⟨0, rfl⟩
      · exact ⟨1, rfl⟩
    rw [if_pos hone]
    rcases hp : octalValue? p with - | p' <;> rcases hq : octalValue? q with - | q' <;>
      simp [hone, hn, hp, hq, spelledBy] <;> rfl
  · rw [if_neg hone, if_neg fun h => hone h.1]
    rfl

theorem unescapeFrom_eq_drop (n : Nat) (cs : List Char) :
    unescapeFrom n cs = unescapeFrom 0 (cs.drop n) := by
  induction n generalizing cs with
  | zero => rfl
  | succ n ih =>
    cases cs with
    | nil => rfl
    | cons c cs => exact ih cs

theorem resolveAt_eq (h : chars.drop i = c :: cs) :
    resolveAt chars i = .ok (if c = '\\' then escapeAt cs else ([c], 0)) := by
  have hlength := length_of_drop h
  unfold resolveAt
  rw [charAt_of_drop h]
  simp only [bind, Except.bind]
  by_cases hslash : c = '\\'
  · rcases cs with - | ⟨d, rest⟩
    · rw [if_pos (.inr (by simp only [List.length_nil] at hlength; omega)), if_pos hslash, hslash]
      rfl
    · rw [if_neg (by simp only [List.length_cons] at hlength; simp [hslash]; omega), if_pos hslash,
        unicodeEscape?_eq h, octalEscape?_eq h, charAt_of_drop (drop_succ_of_drop h)]
      unfold escapeAt
      cases TagDialect.unicodeEscape? (d :: rest) <;> cases TagDialect.octalEscape? (d :: rest) <;>
        rfl
  · rw [if_pos (.inl hslash), if_neg hslash]
    rfl

/-- No index into the characters and no stretch of them fails. -/
theorem resolve_eq (chars : List Char) (i : Nat) :
    resolve chars i = .ok (unescapeFrom 0 (chars.drop i)) := by
  fun_induction resolve chars i with
  | case1 i hi m hm =>
    rw [resolveAt_eq (List.drop_eq_getElem_cons hi)] at hm
    contradiction
  | case2 i hi out n hm ih =>
    have hdrop := List.drop_eq_getElem_cons hi
    rw [resolveAt_eq hdrop, Except.ok.injEq] at hm
    rw [ih, hdrop, unescapeFrom, ← List.drop_drop, ← unescapeFrom_eq_drop]
    by_cases hslash : chars[i] = '\\'
    · rw [if_pos hslash] at hm ⊢
      rw [hm]
      rfl
    · rw [if_neg hslash, Prod.mk.injEq] at hm
      rw [if_neg hslash, ← hm.1, ← hm.2]
      rfl
  | case3 i hi =>
    rw [List.drop_eq_nil_of_le (by omega)]
    rfl

end

theorem interior_eq {raw : String} {inner : List Char} (h : interior? raw.toList = some inner) :
    interior raw = .ok inner := by
  unfold interior? at h
  unfold interior
  by_cases hshort : byteLength raw.toList < 2
  · rw [if_pos hshort, Option.some.injEq] at h
    rw [if_pos hshort, h]
    rfl
  · rw [if_neg hshort] at h
    rw [if_neg hshort, difference, if_pos (by omega)]
    simp only [bind, Except.bind, h]
    rfl

theorem stringValue_eq {raw value : String} (h : stringValue? raw = some value) :
    stringValue raw = .ok value := by
  obtain ⟨inner, hinner, rfl⟩ := Option.map_eq_some_iff.mp h
  unfold stringValue
  rw [interior_eq hinner]
  simp only [bind, Except.bind, resolve_eq, List.drop_zero]
  rfl

theorem nameValue_eq {raw value : String} (h : nameValue? raw = some value) :
    nameValue raw = .ok value := by
  obtain ⟨inner, hinner, rfl⟩ := Option.map_eq_some_iff.mp h
  unfold nameValue
  rw [interior_eq hinner]
  rfl

end Octets

end TagDialect
