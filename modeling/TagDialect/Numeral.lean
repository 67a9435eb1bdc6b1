-- Numeric literals: every way to read one at the head of a text, and the
-- longest of them. A literal with a decimal point must not run into a word.
import TagDialect.Token
import TagDialect.Chars

namespace TagDialect

/-- How many characters at the head of a text are words' characters. -/
def wordLength (cs : List Char) : Nat := (cs.takeWhile isWordChar).length

/-- How many characters at the head of a text are digits. -/
def digitRun (cs : List Char) : Nat := (cs.takeWhile Char.isDigit).length

namespace Numeral

/-! ## Parts of a literal -/

/-- The length of the sign at the head of an exponent's digits. -/
def signLength : List Char → Nat
  | c :: _ => if c = '+' ∨ c = '-' then 1 else 0
  | [] => 0

/-- The length of an exponent at the head of a text: `E`, a sign or none, and digits. It
is zero when there is no exponent. -/
def exponentLength : List Char → Nat
  | c :: cs =>
    if c = 'E' then
      match digitRun (cs.drop (signLength cs)) with
      | 0 => 0
      | n + 1 => 1 + signLength cs + (n + 1)
    else 0
  | [] => 0

/-- The suffix letter of a whole number. -/
def wholeSuffix? : List Char → Option NumberKind
  | c :: _ =>
    if c = 'L' then some .bigInt
    else if c = 'S' then some .smallInt
    else if c = 'Y' then some .tinyInt
    else none
  | [] => none

/-- The suffix of a number of any shape, with its length. -/
def anySuffix? : List Char → Option (Nat × NumberKind)
  | c :: cs =>
    if c = 'F' then some (1, .float)
    else if c = 'D' then some (1, .double)
    else if c = 'B' ∧ cs.head? = some 'D' then some (2, .bigDecimal)
    else none
  | [] => none

/-- The length of a number with a decimal point at the head of a text: digits, a point
and more digits. One side of the point may be empty, but not both. -/
def pointLength? (cs : List Char) : Option Nat :=
  let whole := digitRun cs
  match cs.drop whole with
  | c :: rest =>
    if c = '.' ∧ (whole ≠ 0 ∨ digitRun rest ≠ 0) then some (whole + 1 + digitRun rest) else none
  | [] => none

/-- Whether the text does not go on with a word. -/
def endsWord : List Char → Bool
  | c :: _ => !isWordChar c
  | [] => true

/-! ## Readings -/

/-- The readings without a decimal point, of higher priority first. -/
def wholeReadings (cs : List Char) : List (Nat × NumberKind) :=
  let n := digitRun cs
  if n = 0 then []
  else
    let rest := cs.drop n
    let e := exponentLength rest
    (match wholeSuffix? rest with
      | some kind => [(n + 1, kind)]
      | none => []) ++
    [(n, .integer)] ++
    (if e = 0 then [] else [(n + e, NumberKind.exponent)]) ++
    (match anySuffix? (rest.drop e) with
      | some (s, kind) => [(n + e + s, kind)]
      | none => [])

/-- The readings with a decimal point, of higher priority first. -/
def pointReadings (cs : List Char) : List (Nat × NumberKind) :=
  match pointLength? cs with
  | none => []
  | some n =>
    let rest := cs.drop n
    let e := exponentLength rest
    ([(n, NumberKind.decimal)] ++
      (if e = 0 then [] else [(n + e, NumberKind.exponent)]) ++
      (match anySuffix? (rest.drop e) with
        | some (s, kind) => [(n + e + s, kind)]
        | none => [])).filter fun (length, _) => endsWord (cs.drop length)

/-- The first of the longest readings. -/
def longest? : List (Nat × NumberKind) → Option (Nat × NumberKind)
  | [] => none
  | r :: rs =>
    match longest? rs with
    | none => some r
    | some s => if r.1 < s.1 then some s else some r

/-- The numeric literal at the head of a text, with its length. -/
def read? (cs : List Char) : Option (Nat × NumberKind) :=
  longest? (wholeReadings cs ++ pointReadings cs)

/-! ## A literal is never empty -/

theorem longest?_mem {rs : List (Nat × NumberKind)} {r : Nat × NumberKind}
    (h : longest? rs = some r) : r ∈ rs := by
  induction rs generalizing r with
  | nil => simp [longest?] at h
  | cons a as ih =>
    unfold longest? at h
    split at h
    · simp_all
    · rename_i s hs
      split at h
      · simp only [Option.some.injEq] at h
        subst h
        exact List.mem_cons_of_mem _ (ih hs)
      · simp_all

theorem pos_of_pointLength? {cs : List Char} {n : Nat} (h : pointLength? cs = some n) :
    0 < n := by
  unfold pointLength? at h
  simp only at h
  split at h
  · split at h
    · simp only [Option.some.injEq] at h
      omega
    · simp at h
  · simp at h

theorem pos_of_read? {cs : List Char} {n : Nat} {kind : NumberKind}
    (h : read? cs = some (n, kind)) : 0 < n := by
  have hm := longest?_mem h
  rw [List.mem_append] at hm
  rcases hm with hm | hm
  · unfold wholeReadings at hm
    simp only at hm
    split at hm
    · simp at hm
    · simp only [List.mem_append] at hm
      rcases hm with ((hm | hm) | hm) | hm
      · split at hm <;> simp at hm
        omega
      · simp at hm
        omega
      · split at hm <;> simp at hm
        omega
      · split at hm <;> simp at hm
        omega
  · unfold pointReadings at hm
    split at hm
    · simp at hm
    · rename_i m hp
      have hpos := pos_of_pointLength? hp
      simp only [List.mem_filter, List.mem_append] at hm
      rcases hm.1 with (hm | hm) | hm
      · simp at hm
        omega
      · split at hm <;> simp at hm
        omega
      · split at hm <;> simp at hm
        omega

end Numeral

end TagDialect
