-- The readings of a numeral are its rules. Each reading is a word of its
-- family, and no word of any family reaches further than some reading.
import TagDialect.Proofs.LexicalRules
import Mathlib.Data.List.TakeWhile
import Mathlib.Tactic.ByContra

namespace TagDialect

/-! ## Runs of digits -/

theorem digitRun_append {n : List Char} (rest : List Char) (hn : ∀ c ∈ n, c.isDigit = true) :
    digitRun (n ++ rest) = n.length + digitRun rest := by
  unfold digitRun
  rw [List.takeWhile_append_of_pos hn, List.length_append]

/-- A text is its first run of digits and a rest that starts with none. -/
theorem exists_digitRun (cs : List Char) :
    ∃ n rest, cs = n ++ rest ∧ n.length = digitRun cs ∧ (∀ c ∈ n, c.isDigit = true) ∧
      digitRun rest = 0 := by
  refine ⟨cs.takeWhile Char.isDigit, cs.dropWhile Char.isDigit,
    List.takeWhile_append_dropWhile.symm, rfl, fun c hc => List.mem_takeWhile_imp hc, ?_⟩
  have hsplit := digitRun_append (n := cs.takeWhile Char.isDigit) (cs.dropWhile Char.isDigit)
    fun c hc => List.mem_takeWhile_imp hc
  rw [List.takeWhile_append_dropWhile] at hsplit
  have hdef : digitRun cs = (cs.takeWhile Char.isDigit).length := rfl
  omega

theorem digitRun_cons_eq_zero {c : Char} (cs : List Char) (h : c.isDigit = false) :
    digitRun (c :: cs) = 0 := by
  simp [digitRun, h]

theorem digits_of_pos {n : List Char} (hpos : n.length ≠ 0) (hn : ∀ c ∈ n, c.isDigit = true) :
    Digits n := ⟨fun h => hpos (by rw [h]; rfl), hn⟩

theorem length_ne_zero {n : List Char} (hn : Digits n) : n.length ≠ 0 := by
  rw [Ne, List.length_eq_zero_iff]
  exact hn.1

theorem digitRun_of_endsWord {rest : List Char} (h : Numeral.endsWord rest = true) :
    digitRun rest = 0 := by
  cases rest with
  | nil => rfl
  | cons c cs =>
    apply digitRun_cons_eq_zero
    by_contra hdigit
    rw [Bool.not_eq_false] at hdigit
    simp [Numeral.endsWord, isWordChar_of_isDigit hdigit] at h

namespace Numeral

/-! ## The parts of a literal -/

theorem signLength_append {sign : List Char} {c : Char} (cs : List Char)
    (h : sign = [] ∨ sign = ['+'] ∨ sign = ['-']) (hc : c.isDigit = true) :
    signLength (sign ++ c :: cs) = sign.length := by
  rcases h with rfl | rfl | rfl
  · have hplus : c ≠ '+' := by rintro rfl; simp at hc
    have hminus : c ≠ '-' := by rintro rfl; simp at hc
    simp [signLength, hplus, hminus]
  · rfl
  · rfl

theorem exponentLength_append {x : List Char} (rest : List Char) (hx : Exponent x) :
    exponentLength (x ++ rest) = x.length + digitRun rest := by
  obtain ⟨hsign, hdigits⟩ := hx
  rename_i sign digits
  have hrun := digitRun_append rest hdigits.2
  have hlength : digits.length ≠ 0 := length_ne_zero hdigits
  have hsl : signLength (sign ++ (digits ++ rest)) = sign.length := by
    obtain ⟨c, cs, rfl⟩ := List.exists_cons_of_ne_nil hdigits.1
    exact signLength_append _ hsign (hdigits.2 c List.mem_cons_self)
  rw [List.cons_append, List.append_assoc]
  simp only [exponentLength, if_true, hsl, List.drop_left, hrun, List.length_cons,
    List.length_append]
  split <;> omega

theorem exists_exponent {cs : List Char} (h : exponentLength cs ≠ 0) :
    ∃ x rest, cs = x ++ rest ∧ x.length = exponentLength cs ∧ Exponent x := by
  cases cs with
  | nil => simp [exponentLength] at h
  | cons c cs =>
    by_cases hc : c = 'E'
    · subst hc
      obtain ⟨sign, tail, rfl, hsign⟩ : ∃ sign tail, cs = sign ++ tail ∧
          ((sign = [] ∨ sign = ['+'] ∨ sign = ['-']) ∧ sign.length = signLength cs) := by
        unfold signLength
        cases cs with
        | nil => exact ⟨[], [], rfl, .inl rfl, rfl⟩
        | cons s tail =>
          by_cases hs : s = '+' ∨ s = '-'
          · refine ⟨[s], tail, rfl, ?_, ?_⟩
            · rcases hs with rfl | rfl <;> simp
            · simp [hs]
          · exact ⟨[], s :: tail, rfl, .inl rfl, by simp [hs]⟩
      obtain ⟨hsign, hlength⟩ := hsign
      obtain ⟨digits, rest, rfl, hrun, hall, -⟩ := exists_digitRun tail
      have hdrop : (sign ++ (digits ++ rest)).drop (signLength (sign ++ (digits ++ rest))) =
          digits ++ rest := by rw [← hlength, List.drop_left]
      have hdigits : Digits digits := by
        refine digits_of_pos ?_ hall
        intro hzero
        apply h
        simp only [exponentLength, if_true, hdrop, ← hrun, hzero]
      have hx : Exponent ('E' :: (sign ++ digits)) := .mk hsign hdigits
      refine ⟨'E' :: (sign ++ digits), rest, by simp, ?_, hx⟩
      have := exponentLength_append rest hx
      have hrest := digitRun_append rest hall
      rw [List.cons_append, List.append_assoc] at this
      omega
    · simp [exponentLength, hc] at h

theorem exponentLength_of_ne {c : Char} (cs : List Char) (h : c ≠ 'E') :
    exponentLength (c :: cs) = 0 := by
  simp [exponentLength, h]

theorem wholeSuffix?_cons {kind : NumberKind} {c : Char} (rest : List Char)
    (h : WholeSuffix kind c) : wholeSuffix? (c :: rest) = some kind := by
  cases h <;> rfl

theorem exists_wholeSuffix {cs : List Char} {kind : NumberKind} (h : wholeSuffix? cs = some kind) :
    ∃ c rest, cs = c :: rest ∧ WholeSuffix kind c := by
  unfold wholeSuffix? at h
  split at h
  · rename_i c rest
    refine ⟨c, rest, rfl, ?_⟩
    split at h
    · subst_vars; cases h; exact .bigInt
    · split at h
      · subst_vars; cases h; exact .smallInt
      · split at h
        · subst_vars; cases h; exact .tinyInt
        · simp at h
  · simp at h

theorem anySuffix?_append {kind : NumberKind} {s : List Char} (rest : List Char)
    (h : AnySuffix kind s) : anySuffix? (s ++ rest) = some (s.length, kind) := by
  cases h <;> rfl

theorem exists_anySuffix {cs : List Char} {kind : NumberKind} {n : Nat}
    (h : anySuffix? cs = some (n, kind)) :
    ∃ s rest, cs = s ++ rest ∧ s.length = n ∧ AnySuffix kind s := by
  unfold anySuffix? at h
  split at h
  · rename_i c rest
    split at h
    · subst_vars; cases h; exact ⟨['F'], rest, rfl, rfl, .float⟩
    · split at h
      · subst_vars; cases h; exact ⟨['D'], rest, rfl, rfl, .double⟩
      · split at h
        · rename_i hc
          obtain ⟨rfl, hhead⟩ := hc
          cases h
          obtain ⟨rest, rfl⟩ := List.head?_eq_some_iff.mp hhead
          exact ⟨['B', 'D'], rest, rfl, rfl, .bigDecimal⟩
        · simp at h
  · simp at h

/-- A suffix is neither a digit nor the start of an exponent. -/
theorem anySuffix_head {kind : NumberKind} {s : List Char} (rest : List Char)
    (h : AnySuffix kind s) : digitRun (s ++ rest) = 0 ∧ exponentLength (s ++ rest) = 0 := by
  cases h <;> exact ⟨digitRun_cons_eq_zero _ (by decide), exponentLength_of_ne _ (by decide)⟩

theorem pointLength?_append {d : List Char} (rest : List Char) (hd : Mantissa true d) :
    pointLength? (d ++ rest) = some (d.length + digitRun rest) := by
  cases hd with
  | @point n m hn hm =>
    have hwhole : digitRun (n ++ ('.' :: (m ++ rest))) = n.length := by
      rw [digitRun_append _ hn.2, digitRun_cons_eq_zero _ (by decide), Nat.add_zero]
    have hlength := length_ne_zero hn
    rw [List.append_assoc, List.cons_append]
    unfold pointLength?
    simp only [hwhole, List.drop_left, digitRun_append rest hm, List.length_append,
      List.length_cons]
    rw [if_pos ⟨trivial, .inl hlength⟩]
    congr 1
    omega
  | @fraction m hm =>
    have hlength := length_ne_zero hm
    have hwhole : digitRun ('.' :: (m ++ rest)) = 0 := digitRun_cons_eq_zero _ (by decide)
    rw [List.cons_append]
    unfold pointLength?
    simp only [hwhole, List.drop_zero, digitRun_append rest hm.2, List.length_cons]
    rw [if_pos ⟨trivial, .inr (by omega)⟩]
    congr 1
    omega

theorem exists_point {cs : List Char} {n : Nat} (h : pointLength? cs = some n) :
    ∃ d rest, cs = d ++ rest ∧ d.length = n ∧ Mantissa true d := by
  obtain ⟨w, tail, rfl, hw, hall, -⟩ := exists_digitRun cs
  unfold pointLength? at h
  simp only [← hw, List.drop_left] at h
  split at h
  · rename_i c after
    split at h
    · rename_i hc
      obtain ⟨rfl, hside⟩ := hc
      obtain ⟨m, rest, rfl, hm, hmall, -⟩ := exists_digitRun after
      rw [Option.some.injEq, ← hm] at h
      refine ⟨w ++ '.' :: m, rest, by simp, by simp; omega, ?_⟩
      by_cases hzero : w.length = 0
      · rw [List.length_eq_zero_iff] at hzero
        subst hzero
        exact .fraction (digits_of_pos (by simpa [hm] using hside) hmall)
      · exact .point (digits_of_pos hzero hall) hmall
    · simp at h
  · simp at h

/-! ## The readings behind a mantissa -/

/-- The readings that start with a mantissa of `n` characters, when `rest` comes behind it:
the mantissa alone, with an exponent, and with a suffix. -/
def readingsBehind (n : Nat) (base : NumberKind) (rest : List Char) : List (Nat × NumberKind) :=
  [(n, base)] ++
    (if exponentLength rest = 0 then [] else [(n + exponentLength rest, NumberKind.exponent)]) ++
    (match anySuffix? (rest.drop (exponentLength rest)) with
      | some (s, kind) => [(n + exponentLength rest + s, kind)]
      | none => [])

theorem wholeReadings_append {n : List Char} {rest : List Char} (hn : Digits n)
    (hrest : digitRun rest = 0) :
    wholeReadings (n ++ rest) =
      (match wholeSuffix? rest with
        | some kind => [(n.length + 1, kind)]
        | none => []) ++ readingsBehind n.length .integer rest := by
  have hrun : digitRun (n ++ rest) = n.length := by
    rw [digitRun_append rest hn.2, hrest, Nat.add_zero]
  simp only [wholeReadings, readingsBehind, hrun, List.drop_left, List.append_assoc]
  exact if_neg (length_ne_zero hn)

theorem pointReadings_append {d : List Char} {rest : List Char} (hd : Mantissa true d)
    (hrest : digitRun rest = 0) :
    pointReadings (d ++ rest) =
      (readingsBehind d.length .decimal rest).filter
        fun (length, _) => endsWord ((d ++ rest).drop length) := by
  have hpoint := pointLength?_append rest hd
  rw [hrest, Nat.add_zero] at hpoint
  have hbehind : readingsBehind d.length .decimal ((d ++ rest).drop d.length) =
      readingsBehind d.length .decimal rest := by rw [List.drop_left]
  rw [← hbehind]
  unfold pointReadings
  rw [hpoint]
  rfl

/-- The family of a mantissa that stands alone. -/
theorem numberWord_alone {pointed : Bool} {m : List Char} (hm : Mantissa pointed m) :
    NumberWord (if pointed then .decimal else .integer) pointed m := by
  cases pointed with
  | false => cases hm with | whole hn => exact .integer hn
  | true => exact .decimal hm

/-- Each reading behind a mantissa is a word of its family. -/
theorem word_of_mem_readingsBehind {pointed : Bool} {m rest : List Char} {r : Nat × NumberKind}
    (hm : Mantissa pointed m)
    (hr : r ∈ readingsBehind m.length (if pointed then .decimal else .integer) rest) :
    ∃ w tail, m ++ rest = w ++ tail ∧ w.length = r.1 ∧ NumberWord r.2 pointed w := by
  obtain ⟨x, behind, hcut, hx, hexp⟩ : ∃ x behind, rest = x ++ behind ∧
      x.length = exponentLength rest ∧ (x = [] ∨ Exponent x) := by
    by_cases hzero : exponentLength rest = 0
    · exact ⟨[], rest, rfl, hzero.symm, .inl rfl⟩
    · obtain ⟨x, behind, hcut, hx, hexp⟩ := exists_exponent hzero
      exact ⟨x, behind, hcut, hx, .inr hexp⟩
  unfold readingsBehind at hr
  rw [← hx] at hr
  subst hcut
  rw [List.drop_left] at hr
  simp only [List.mem_append, List.mem_singleton] at hr
  rcases hr with (rfl | hr) | hr
  · exact ⟨m, x ++ behind, rfl, rfl, numberWord_alone hm⟩
  · split at hr
    · simp at hr
    · rename_i hne
      rw [List.mem_singleton] at hr
      subst hr
      have hexp' : Exponent x := hexp.resolve_left fun h => hne (by rw [h]; rfl)
      exact ⟨m ++ x, behind, by simp, by simp, .exponent hm hexp'⟩
  · split at hr
    · rename_i n kind hs
      rw [List.mem_singleton] at hr
      subst hr
      obtain ⟨s, tail, rfl, rfl, hsuffix⟩ := exists_anySuffix hs
      exact ⟨m ++ (x ++ s), tail, by simp, by simp; omega, .typed hm hexp hsuffix⟩
    · simp at hr

/-- Some reading reaches as far as `n`, and is of the same family if it reaches no further. -/
def Covers (readings : List (Nat × NumberKind)) (n : Nat) (kind : NumberKind) : Prop :=
  ∃ r ∈ readings, n < r.1 ∨ r = (n, kind)

theorem Covers.append_left {rs : List (Nat × NumberKind)} {n : Nat} {kind : NumberKind}
    (before : List (Nat × NumberKind)) (h : Covers rs n kind) : Covers (before ++ rs) n kind := by
  obtain ⟨r, hr, hn⟩ := h
  exact ⟨r, List.mem_append_right before hr, hn⟩

theorem mem_readingsBehind_exponent {n : Nat} {base : NumberKind} {rest : List Char}
    (h : exponentLength rest ≠ 0) :
    (n + exponentLength rest, NumberKind.exponent) ∈ readingsBehind n base rest := by
  simp [readingsBehind, h]

/-- An exponent behind a mantissa is part of a reading, whatever comes behind it. -/
theorem covers_exponent {n : Nat} {base : NumberKind} {x : List Char} (rest : List Char)
    (hx : Exponent x) : Covers (readingsBehind n base (x ++ rest)) (n + x.length) .exponent := by
  have hlength := exponentLength_append rest hx
  have hpos : x.length ≠ 0 := by cases hx; simp
  refine ⟨_, mem_readingsBehind_exponent (by omega), ?_⟩
  rw [hlength, Prod.mk.injEq]
  by_cases hrun : digitRun rest = 0
  · exact .inr ⟨by omega, rfl⟩
  · exact .inl (by simp only; omega)

/-- A suffix behind a mantissa and an exponent, or none, gives the last reading. -/
theorem mem_readingsBehind_suffix {n : Nat} {base kind : NumberKind} {x s : List Char}
    (rest : List Char) (hx : x = [] ∨ Exponent x) (hs : AnySuffix kind s) :
    (n + (x ++ s).length, kind) ∈ readingsBehind n base (x ++ s ++ rest) := by
  obtain ⟨hrun, hzero⟩ := anySuffix_head rest hs
  have hlength : exponentLength (x ++ s ++ rest) = x.length := by
    rw [List.append_assoc]
    rcases hx with rfl | hx
    · exact hzero
    · rw [exponentLength_append _ hx, hrun, Nat.add_zero]
  have hsuffix := anySuffix?_append rest hs
  unfold readingsBehind
  rw [hlength, List.append_assoc x s rest, List.drop_left, hsuffix, List.length_append,
    ← Nat.add_assoc]
  simp

/-! ## All readings -/

theorem longest?_eq_none {rs : List (Nat × NumberKind)} (h : longest? rs = none) : rs = [] := by
  cases rs with
  | nil => rfl
  | cons r rs =>
    unfold longest? at h
    split at h
    · simp at h
    · split at h <;> simp at h

theorem le_of_longest? {rs : List (Nat × NumberKind)} {r : Nat × NumberKind}
    (h : longest? rs = some r) : ∀ s ∈ rs, s.1 ≤ r.1 := by
  induction rs generalizing r with
  | nil => simp [longest?] at h
  | cons t rs ih =>
    intro s hs
    rw [List.mem_cons] at hs
    unfold longest? at h
    split at h
    · rename_i hnone
      rw [longest?_eq_none hnone] at hs
      cases h
      rcases hs with rfl | hs
      · exact Nat.le_refl _
      · simp at hs
    · rename_i best hbest
      split at h
      · rename_i hlt
        cases h
        rcases hs with rfl | hs
        · omega
        · exact ih hbest s hs
      · cases h
        rcases hs with rfl | hs
        · exact Nat.le_refl _
        · have := ih hbest s hs
          omega

/-- Each reading is a word of its family, with a rest that the rule allows. -/
theorem word_of_mem {cs : List Char} {r : Nat × NumberKind}
    (hr : r ∈ wholeReadings cs ++ pointReadings cs) :
    ∃ w rest pointed, cs = w ++ rest ∧ w.length = r.1 ∧ NumberWord r.2 pointed w ∧
      (pointed = true → endsWord rest = true) := by
  rw [List.mem_append] at hr
  rcases hr with hr | hr
  · obtain ⟨n, rest, rfl, hlength, hall, hrest⟩ := exists_digitRun cs
    by_cases hzero : n.length = 0
    · simp [wholeReadings, ← hlength, hzero] at hr
    · have hn := digits_of_pos hzero hall
      rw [wholeReadings_append hn hrest, List.mem_append] at hr
      rcases hr with hr | hr
      · split at hr
        · rename_i kind hsuffix
          rw [List.mem_singleton] at hr
          subst hr
          obtain ⟨c, tail, rfl, hc⟩ := exists_wholeSuffix hsuffix
          exact ⟨n ++ [c], tail, false, by simp, by simp, .suffixed hn hc, by simp⟩
        · simp at hr
      · obtain ⟨w, tail, hcut, hw, hword⟩ :=
          word_of_mem_readingsBehind (.whole hn) (by simpa using hr)
        exact ⟨w, tail, false, hcut, hw, hword, by simp⟩
  · rcases hp : pointLength? cs with _ | k
    · simp [pointReadings, hp] at hr
    · obtain ⟨d, rest, rfl, rfl, hd⟩ := exists_point hp
      have hrest : digitRun rest = 0 := by
        rw [pointLength?_append rest hd, Option.some.injEq] at hp
        omega
      rw [pointReadings_append hd hrest, List.mem_filter] at hr
      obtain ⟨w, tail, hcut, hw, hword⟩ := word_of_mem_readingsBehind hd (by simpa using hr.1)
      have hend := hr.2
      simp only [hcut, ← hw, List.drop_left] at hend
      exact ⟨w, tail, true, hcut, hw, hword, fun _ => hend⟩

theorem covers_whole {n rest : List Char} {k : Nat} {kind : NumberKind} (hn : Digits n)
    (hrest : digitRun rest = 0) (h : Covers (readingsBehind n.length .integer rest) k kind) :
    Covers (wholeReadings (n ++ rest) ++ pointReadings (n ++ rest)) k kind := by
  rw [wholeReadings_append hn hrest]
  obtain ⟨r, hr, hk⟩ := h
  exact ⟨r, List.mem_append_left _ (List.mem_append_right _ hr), hk⟩

theorem covers_point {d tail rest : List Char} {kind : NumberKind} (hd : Mantissa true d)
    (hrest : digitRun (tail ++ rest) = 0) (hend : endsWord rest = true)
    (h : (d.length + tail.length, kind) ∈ readingsBehind d.length .decimal (tail ++ rest)) :
    Covers (wholeReadings (d ++ tail ++ rest) ++ pointReadings (d ++ tail ++ rest))
      (d ++ tail).length kind := by
  refine Covers.append_left _ ⟨((d ++ tail).length, kind), ?_, .inr rfl⟩
  rw [List.append_assoc, pointReadings_append hd hrest, List.mem_filter]
  refine ⟨by rwa [List.length_append], ?_⟩
  simp only [← List.append_assoc, List.drop_left]
  exact hend

theorem digitRun_exponent {x : List Char} (rest : List Char) (hx : Exponent x) :
    digitRun (x ++ rest) = 0 := by
  cases hx
  exact digitRun_cons_eq_zero _ (by decide)

theorem digitRun_typed {kind : NumberKind} {x s : List Char} (rest : List Char)
    (hx : x = [] ∨ Exponent x) (hs : AnySuffix kind s) : digitRun (x ++ s ++ rest) = 0 := by
  rw [List.append_assoc]
  rcases hx with rfl | hx
  · exact (anySuffix_head rest hs).1
  · exact digitRun_exponent _ hx

/-- No word of a family of numbers reaches further than every reading. A reading that
reaches no further is of the same family. -/
theorem covers_of_word {kind : NumberKind} {pointed : Bool} {w rest : List Char}
    (hw : NumberWord kind pointed w) (hend : pointed = true → endsWord rest = true) :
    Covers (wholeReadings (w ++ rest) ++ pointReadings (w ++ rest)) w.length kind := by
  cases hw with
  | @suffixed _ n c hn hc =>
    have hrun : digitRun (c :: rest) = 0 := by cases hc <;> exact digitRun_cons_eq_zero _ (by decide)
    rw [List.append_assoc, List.singleton_append, wholeReadings_append hn hrun,
      wholeSuffix?_cons rest hc, List.length_append, List.length_singleton]
    exact ⟨_, List.mem_append_left _ (List.mem_append_left _ List.mem_cons_self), .inr rfl⟩
  | integer hn =>
    obtain ⟨m, tail, rfl, -, hm, htail⟩ := exists_digitRun rest
    have hnm : Digits (w ++ m) := by
      refine ⟨by simp [hn.1], ?_⟩
      intro c hc
      rw [List.mem_append] at hc
      exact hc.elim (hn.2 c) (hm c)
    rw [← List.append_assoc]
    refine covers_whole hnm htail ⟨((w ++ m).length, .integer), by simp [readingsBehind], ?_⟩
    cases m with
    | nil => exact .inr (by rw [List.append_nil])
    | cons c m => exact .inl (by simp)
  | @exponent pointed m x hm hx =>
    cases pointed with
    | false =>
      cases hm with
      | whole hn =>
        rw [List.append_assoc, List.length_append]
        exact covers_whole hn (digitRun_exponent rest hx) (covers_exponent rest hx)
    | true =>
      have hlength := exponentLength_append rest hx
      rw [digitRun_of_endsWord (hend rfl), Nat.add_zero] at hlength
      have hpos : exponentLength (x ++ rest) ≠ 0 := by cases hx; rw [hlength]; simp
      refine covers_point hm (digitRun_exponent rest hx) (hend rfl) ?_
      rw [← hlength]
      exact mem_readingsBehind_exponent hpos
  | decimal hd =>
    have hmem : (w.length + ([] : List Char).length, NumberKind.decimal) ∈
        readingsBehind w.length .decimal ([] ++ rest) := by simp [readingsBehind]
    have hrun : digitRun ([] ++ rest) = 0 := digitRun_of_endsWord (hend rfl)
    have hcover := covers_point hd hrun (hend rfl) hmem
    rwa [List.append_nil] at hcover
  | @typed _ pointed m x s hm hx hs =>
    have hmem {base : NumberKind} : (m.length + (x ++ s).length, kind) ∈
        readingsBehind m.length base (x ++ s ++ rest) := mem_readingsBehind_suffix rest hx hs
    cases pointed with
    | false =>
      cases hm with
      | whole hn =>
        rw [List.append_assoc, List.length_append]
        exact covers_whole hn (digitRun_typed rest hx hs) ⟨_, hmem, .inr rfl⟩
    | true => exact covers_point hm (digitRun_typed rest hx hs) (hend rfl) hmem

/-! ## One family for each word -/

/-- The family that the letters of a word tell. -/
def family (w : List Char) : NumberKind :=
  if 'L' ∈ w then .bigInt
  else if 'S' ∈ w then .smallInt
  else if 'Y' ∈ w then .tinyInt
  else if 'F' ∈ w then .float
  else if 'B' ∈ w then .bigDecimal
  else if 'D' ∈ w then .double
  else if 'E' ∈ w then .exponent
  else if '.' ∈ w then .decimal
  else .integer

theorem not_mem_digits {n : List Char} {c : Char} (hn : ∀ c ∈ n, c.isDigit = true)
    (hc : c.isDigit = false) : c ∉ n := by
  intro hmem
  have := hn c hmem
  simp [hc] at this

theorem not_mem_mantissa {pointed : Bool} {m : List Char} {c : Char} (hm : Mantissa pointed m)
    (hc : c.isDigit = false) (hdot : pointed = false ∨ c ≠ '.') : c ∉ m := by
  cases hm with
  | whole hn => exact not_mem_digits hn.2 hc
  | point hn hm =>
    have hne := hdot.resolve_left (by simp)
    simp [not_mem_digits hn.2 hc, not_mem_digits hm hc, hne]
  | fraction hm =>
    have hne := hdot.resolve_left (by simp)
    simp [not_mem_digits hm.2 hc, hne]

theorem not_mem_exponent {x : List Char} {c : Char} (hx : x = [] ∨ Exponent x)
    (hc : c.isDigit = false) (hletter : c ≠ 'E' ∧ c ≠ '+' ∧ c ≠ '-') : c ∉ x := by
  rcases hx with rfl | hx
  · exact List.not_mem_nil
  · obtain ⟨hE, hplus, hminus⟩ := hletter
    cases hx with
    | mk hsign hdigits =>
      have hdigit := not_mem_digits hdigits.2 hc
      rcases hsign with rfl | rfl | rfl <;> simp [hE, hplus, hminus, hdigit]

/-- The letter `c` tells families apart: it is in no mantissa and in no exponent. -/
theorem not_mem_stem {pointed : Bool} {m x : List Char} {c : Char} (hm : Mantissa pointed m)
    (hx : x = [] ∨ Exponent x) (hc : c.isDigit = false)
    (hletter : c ≠ '.' ∧ c ≠ 'E' ∧ c ≠ '+' ∧ c ≠ '-') : c ∉ m ++ x := by
  rw [List.mem_append, not_or]
  exact ⟨not_mem_mantissa hm hc (.inr hletter.1), not_mem_exponent hx hc hletter.2⟩

theorem family_of_word {kind : NumberKind} {pointed : Bool} {w : List Char}
    (hw : NumberWord kind pointed w) : family w = kind := by
  have hdot {d : List Char} (hd : Mantissa true d) : '.' ∈ d := by cases hd <;> simp
  have hstem {pointed : Bool} {m x : List Char} (hm : Mantissa pointed m)
      (hx : x = [] ∨ Exponent x) : 'L' ∉ m ++ x ∧ 'S' ∉ m ++ x ∧ 'Y' ∉ m ++ x ∧ 'F' ∉ m ++ x ∧
        'B' ∉ m ++ x ∧ 'D' ∉ m ++ x := by
    refine ⟨?_, ?_, ?_, ?_, ?_, ?_⟩ <;> exact not_mem_stem hm hx (by decide) (by decide)
  cases hw with
  | suffixed hn hc =>
    obtain ⟨hL, hS, hY, -⟩ := hstem (.whole hn) (.inl rfl)
    rw [List.append_nil] at hL hS hY
    cases hc <;> simp [family, hL, hS, hY]
  | integer hn =>
    obtain ⟨hL, hS, hY, hF, hB, hD⟩ := hstem (.whole hn) (.inl rfl)
    rw [List.append_nil] at hL hS hY hF hB hD
    have hE : 'E' ∉ w := not_mem_digits hn.2 (by decide)
    have hpoint : '.' ∉ w := not_mem_digits hn.2 (by decide)
    simp [family, hL, hS, hY, hF, hB, hD, hE, hpoint]
  | @exponent _ m x hm hx =>
    obtain ⟨hL, hS, hY, hF, hB, hD⟩ := hstem hm (.inr hx)
    have hE : 'E' ∈ x := by cases hx; exact List.mem_cons_self
    simp only [family, hL, hS, hY, hF, hB, hD, if_false]
    exact if_pos (List.mem_append_right m hE)
  | decimal hd =>
    obtain ⟨hL, hS, hY, hF, hB, hD⟩ := hstem hd (.inl rfl)
    rw [List.append_nil] at hL hS hY hF hB hD
    have hE : 'E' ∉ w := not_mem_mantissa hd (by decide) (.inr (by decide))
    simp [family, hL, hS, hY, hF, hB, hD, hE, hdot hd]
  | typed hm hx hs =>
    obtain ⟨hL, hS, hY, hF, hB, hD⟩ := hstem hm hx
    rw [← List.append_assoc]
    cases hs <;> simp_all [family]

/-- The numeral at the head of a text is the longest word that a family of numbers has
there, and no other family has a word of that length. -/
theorem read?_eq_some {cs : List Char} {n : Nat} {kind : NumberKind}
    (h : read? cs = some (n, kind)) :
    (∃ w rest, cs = w ++ rest ∧ w.length = n ∧ RuleMatch (.number kind) w rest) ∧
      ∀ kind' w rest, cs = w ++ rest → RuleMatch (.number kind') w rest →
        w.length < n ∨ w.length = n ∧ kind' = kind := by
  obtain ⟨w, rest, pointed, hcut, hlength, hword, hend⟩ := word_of_mem (longest?_mem h)
  refine ⟨⟨w, rest, hcut, hlength, .number hword hend⟩, ?_⟩
  rintro kind' w' rest' rfl hmatch
  cases hmatch with
  | mark hmark => cases hmark
  | number hword' hend' =>
    obtain ⟨r, hr, hcover⟩ := covers_of_word hword' hend'
    have hle := le_of_longest? h r hr
    by_cases hlt : w'.length < n
    · exact .inl hlt
    · have heq : w'.length = n := by
        rcases hcover with hcover | rfl
        · simp only at hle; omega
        · simp only at hle; omega
      have hsame : w' = w := List.append_inj_left hcut (heq.trans hlength.symm)
      subst hsame
      exact .inr ⟨heq, (family_of_word hword').symm.trans (family_of_word hword)⟩

theorem read?_eq_none {cs : List Char} (h : read? cs = none) (kind : NumberKind)
    (w rest : List Char) (hcut : cs = w ++ rest) : ¬ RuleMatch (.number kind) w rest := by
  intro hmatch
  cases hmatch with
  | mark hmark => cases hmark
  | number hword hend =>
    subst hcut
    obtain ⟨r, hr, -⟩ := covers_of_word hword hend
    rw [longest?_eq_none h] at hr
    simp at hr

end Numeral

end TagDialect
