-- What the scans read in the bytes of a text. A character of one byte is that byte, and all
-- bytes of a wider one are past those that any rule asks for, so a scan over the bytes finds
-- what the scan over the characters finds, measured in bytes.
import TagDialect.ByteScanner
import TagDialect.Proofs.QuotedValues
import TagDialect.Proofs.CommentMatching
import TagDialect.Proofs.NumeralReadings

namespace TagDialect

/-! ## The bytes of characters -/

/-- The bytes of characters, each as the character with its code. -/
def bytesOf (cs : List Char) : List Char :=
  cs.flatMap fun c => (String.utf8EncodeChar c).map Char.ofUInt8

theorem octets_eq (text : String) : octets text = bytesOf text.toList := by
  have hbytes : text.toUTF8.data.toList = text.toList.flatMap String.utf8EncodeChar := by
    conv => lhs; rw [← String.ofList_toList (s := text)]
    rw [String.toUTF8_eq_toByteArray, String.toByteArray_ofList, List.utf8Encode]
    simp [List.data_toByteArray]
  rw [octets, hbytes, List.map_flatMap]
  rfl

/-- A character past the first 128, which no rule of the dialect asks for. -/
def IsWide (c : Char) : Prop := 128 ≤ c.toNat

instance (c : Char) : Decidable (IsWide c) := inferInstanceAs (Decidable (_ ≤ _))

theorem utf8Size_of_narrow {c : Char} (h : ¬ IsWide c) : c.utf8Size = 1 := by
  rw [Char.utf8Size_eq_one_iff, UInt32.le_iff_toNat_le]
  have hval : c.toNat = c.val.toNat := rfl
  have hmax : (127 : UInt32).toNat = 127 := rfl
  unfold IsWide at h
  omega

theorem utf8Size_of_wide {c : Char} (h : IsWide c) : c.utf8Size ≠ 1 := by
  rw [Ne, Char.utf8Size_eq_one_iff, UInt32.le_iff_toNat_le]
  have hval : c.toNat = c.val.toNat := rfl
  have hmax : (127 : UInt32).toNat = 127 := rfl
  unfold IsWide at h
  omega

theorem bytesOf_narrow {c : Char} (h : ¬ IsWide c) (cs : List Char) :
    bytesOf (c :: cs) = c :: bytesOf cs := by
  have hbyte : Char.ofUInt8 c.val.toUInt8 = c := by
    apply Char.ext
    apply UInt32.toNat_inj.mp
    have hval : c.toNat = c.val.toNat := rfl
    have hcode : (Char.ofUInt8 c.val.toUInt8).val = c.val.toUInt8.toUInt32 := rfl
    unfold IsWide at h
    rw [hcode, UInt8.toNat_toUInt32, UInt32.toNat_toUInt8]
    omega
  rw [bytesOf, List.flatMap_cons, String.utf8EncodeChar_eq_singleton (utf8Size_of_narrow h),
    List.map_singleton, hbyte]
  rfl

/-- Each byte of a wide character has its highest bit set. -/
theorem isWide_of_mem_bytes {c o : Char} (h : IsWide c)
    (ho : o ∈ (String.utf8EncodeChar c).map Char.ofUInt8) : IsWide o := by
  have hor : ∀ a b : UInt8, 128 ≤ b.toNat → 128 ≤ (a ||| b).toNat := fun a b hb => by
    rw [UInt8.toNat_or]
    exact Nat.le_trans hb Nat.right_le_or
  have hall : ∀ b ∈ String.utf8EncodeChar c, 128 ≤ b.toNat := by
    rcases Char.utf8Size_eq c with h1 | h2 | h3 | h4
    · exact absurd h1 (utf8Size_of_wide h)
    · rw [String.utf8EncodeChar_eq_cons_cons h2]
      simp only [List.forall_mem_cons]
      exact ⟨hor _ _ (by decide), hor _ _ (by decide), by simp⟩
    · rw [String.utf8EncodeChar_eq_cons_cons_cons h3]
      simp only [List.forall_mem_cons]
      exact ⟨hor _ _ (by decide), hor _ _ (by decide), hor _ _ (by decide), by simp⟩
    · rw [String.utf8EncodeChar_eq_cons_cons_cons_cons h4]
      simp only [List.forall_mem_cons]
      exact ⟨hor _ _ (by decide), hor _ _ (by decide), hor _ _ (by decide), hor _ _ (by decide),
        by simp⟩
  obtain ⟨b, hb, rfl⟩ := List.mem_map.mp ho
  exact hall b hb

theorem bytesOf_wide {c : Char} (h : IsWide c) (cs : List Char) :
    ∃ o os, bytesOf (c :: cs) = o :: os ++ bytesOf cs ∧ (∀ x ∈ o :: os, IsWide x) ∧
      os.length + 1 = c.utf8Size := by
  obtain ⟨o, os, hos⟩ := List.exists_cons_of_ne_nil
    (l := (String.utf8EncodeChar c).map Char.ofUInt8) (by simp [String.utf8EncodeChar_ne_nil])
  refine ⟨o, os, ?_, ?_, ?_⟩
  · rw [← hos]
    rfl
  · rw [← hos]
    exact fun x hx => isWide_of_mem_bytes h hx
  · rw [← List.length_cons (a := o), ← hos, List.length_map, String.length_utf8EncodeChar]

theorem length_bytesOf (cs : List Char) : (bytesOf cs).length = byteLength cs := by
  induction cs with
  | nil => rfl
  | cons c cs ih =>
    rw [bytesOf, List.flatMap_cons, List.length_append, List.length_map,
      String.length_utf8EncodeChar, byteLength, ← ih]
    rfl

theorem bytesOf_append (cs ds : List Char) : bytesOf (cs ++ ds) = bytesOf cs ++ bytesOf ds :=
  List.flatMap_append

/-! ## Wide characters in the rules -/

theorem ne_of_wide {c d : Char} (h : IsWide c) (hd : ¬ IsWide d) : c ≠ d := fun heq => hd (heq ▸ h)

theorem isWordChar_wide {c : Char} (h : IsWide c) : isWordChar c = false := by
  rw [Bool.eq_false_iff]
  intro hword
  have hhigh := (toNat_of_isWordChar hword).2
  unfold IsWide at h
  omega

theorem isDigit_wide {c : Char} (h : IsWide c) : c.isDigit = false := by
  rw [Bool.eq_false_iff]
  intro hdigit
  have hword := isWordChar_wide h
  simp [isWordChar, Char.isAlphanum, hdigit] at hword

theorem isBlank_wide {c : Char} (h : IsWide c) : isBlank c = false := by
  simp [isBlank, ne_of_wide h (d := ' ') (by decide), ne_of_wide h (d := '\t') (by decide),
    ne_of_wide h (d := '\r') (by decide), ne_of_wide h (d := '\n') (by decide)]

/-! ## Words -/

/-- What starts with narrow characters starts with the same bytes. -/
theorem bytesOf_narrow_append {w : List Char} (hw : ∀ c ∈ w, ¬ IsWide c) (cs : List Char) :
    bytesOf (w ++ cs) = w ++ bytesOf cs := by
  induction w with
  | nil => rfl
  | cons c w ih =>
    obtain ⟨hc, hw⟩ := List.forall_mem_cons.mp hw
    rw [List.cons_append, bytesOf_narrow hc, ih hw, List.cons_append]

/-- Narrow bytes at the head are the characters at the head. -/
theorem narrow_of_bytesOf {w rest cs : List Char} (hw : ∀ c ∈ w, ¬ IsWide c)
    (h : bytesOf cs = w ++ rest) : ∃ ds, cs = w ++ ds ∧ bytesOf ds = rest := by
  induction w generalizing cs with
  | nil => exact ⟨cs, rfl, h⟩
  | cons c w ih =>
    obtain ⟨hc, hws⟩ := List.forall_mem_cons.mp hw
    cases cs with
    | nil => simp [bytesOf] at h
    | cons d cs =>
      by_cases hd : IsWide d
      · obtain ⟨o, os, hos, hwide, -⟩ := bytesOf_wide hd cs
        rw [hos, List.cons_append, List.cons_append, List.cons.injEq] at h
        exact absurd (h.1 ▸ hwide o List.mem_cons_self) hc
      · rw [bytesOf_narrow hd, List.cons_append, List.cons.injEq] at h
        obtain ⟨rfl, hrest⟩ := h
        obtain ⟨ds, rfl, hds⟩ := ih hws hrest
        exact ⟨ds, rfl, hds⟩

theorem byteLength_narrow {w : List Char} (hw : ∀ c ∈ w, ¬ IsWide c) : byteLength w = w.length := by
  rw [← length_bytesOf, ← List.append_nil w, bytesOf_narrow_append hw]
  simp [bytesOf]

/-- A run of a class without wide characters is the same in the bytes. -/
theorem takeWhile_bytesOf {belongs : Char → Bool} (h : ∀ c, IsWide c → belongs c = false)
    (cs : List Char) : (bytesOf cs).takeWhile belongs = cs.takeWhile belongs := by
  induction cs with
  | nil => rfl
  | cons c cs ih =>
    by_cases hc : IsWide c
    · obtain ⟨o, os, hos, hwide, -⟩ := bytesOf_wide hc cs
      have ho := h o (hwide o List.mem_cons_self)
      rw [hos, List.cons_append, List.takeWhile_cons_of_neg (by simp [ho]),
        List.takeWhile_cons_of_neg (by simp [h c hc])]
    · rw [bytesOf_narrow hc, List.takeWhile_cons, List.takeWhile_cons, ih]

theorem narrow_takeWhile {belongs : Char → Bool} (h : ∀ c, IsWide c → belongs c = false)
    (cs : List Char) : ∀ c ∈ cs.takeWhile belongs, ¬ IsWide c := by
  intro c hc hwide
  have hbelongs := List.mem_takeWhile_imp hc
  rw [h c hwide] at hbelongs
  contradiction

/-! ## Numbers -/

namespace Numeral

theorem endsWord_bytesOf (cs : List Char) : endsWord (bytesOf cs) = endsWord cs := by
  cases cs with
  | nil => rfl
  | cons c cs =>
    by_cases hc : IsWide c
    · obtain ⟨o, os, hos, hwide, -⟩ := bytesOf_wide hc cs
      rw [hos]
      simp [endsWord, isWordChar_wide hc, isWordChar_wide (hwide o List.mem_cons_self)]
    · rw [bytesOf_narrow hc]
      rfl

theorem narrow_numberWord {kind : NumberKind} {pointed : Bool} {w : List Char}
    (hw : NumberWord kind pointed w) : ∀ c ∈ w, ¬ IsWide c := by
  intro c hc hwide
  have hdigit := isDigit_wide hwide
  have hne : ∀ d, ¬ IsWide d → c ≠ d := fun d => ne_of_wide hwide
  have hletter : c ≠ '.' ∧ c ≠ 'E' ∧ c ≠ '+' ∧ c ≠ '-' :=
    ⟨hne _ (by decide), hne _ (by decide), hne _ (by decide), hne _ (by decide)⟩
  cases hw with
  | suffixed hn hsuffix =>
    rcases List.mem_append.mp hc with hc | hc
    · exact not_mem_digits hn.2 hdigit hc
    · rw [List.mem_singleton] at hc
      cases hsuffix <;> exact hne _ (by decide) hc
  | integer hn => exact not_mem_digits hn.2 hdigit hc
  | exponent hm hx => exact not_mem_stem hm (.inr hx) hdigit hletter hc
  | decimal hd => exact not_mem_mantissa hd hdigit (.inr hletter.1) hc
  | typed hm hx hs =>
    rw [← List.append_assoc] at hc
    rcases List.mem_append.mp hc with hc | hc
    · exact not_mem_stem hm hx hdigit hletter hc
    · cases hs <;> simp [hne 'F' (by decide), hne 'D' (by decide), hne 'B' (by decide)] at hc

/-- A number stands at the head of the bytes when it stands at the head of the characters. -/
theorem ruleMatch_bytesOf {kind : NumberKind} {w rest : List Char} :
    RuleMatch (.number kind) w (bytesOf rest) ↔ RuleMatch (.number kind) w rest := by
  constructor
  · intro h
    cases h with
    | mark hmark => cases hmark
    | number hw hend => exact .number hw (by rwa [endsWord_bytesOf] at hend)
  · intro h
    cases h with
    | mark hmark => cases hmark
    | number hw hend => exact .number hw (by rwa [endsWord_bytesOf])

theorem narrow_ruleMatch {kind : NumberKind} {w rest : List Char}
    (h : RuleMatch (.number kind) w rest) : ∀ c ∈ w, ¬ IsWide c := by
  cases h with
  | mark hmark => cases hmark
  | number hw _ => exact narrow_numberWord hw

/-- The longest number in the bytes is the longest number in the characters. -/
theorem read?_bytesOf (cs : List Char) : read? (bytesOf cs) = read? cs := by
  have hbytes : ∀ {kind w rest}, cs = w ++ rest → RuleMatch (.number kind) w rest →
      ∃ rest', bytesOf cs = w ++ rest' ∧ RuleMatch (.number kind) w rest' := by
    rintro kind w rest rfl h
    exact ⟨bytesOf rest, bytesOf_narrow_append (narrow_ruleMatch h) rest, ruleMatch_bytesOf.mpr h⟩
  have hchars : ∀ {kind w rest}, bytesOf cs = w ++ rest → RuleMatch (.number kind) w rest →
      ∃ rest', cs = w ++ rest' ∧ RuleMatch (.number kind) w rest' := by
    intro kind w rest hcut h
    obtain ⟨ds, hds, rfl⟩ := narrow_of_bytesOf (narrow_ruleMatch h) hcut
    exact ⟨ds, hds, ruleMatch_bytesOf.mp h⟩
  rcases hread : read? cs with - | ⟨n, kind⟩
  · rcases hread' : read? (bytesOf cs) with - | ⟨n', kind'⟩
    · rfl
    · obtain ⟨⟨w, rest, hcut, -, hmatch⟩, -⟩ := read?_eq_some hread'
      obtain ⟨rest', hcut', hmatch'⟩ := hchars hcut hmatch
      exact absurd hmatch' (read?_eq_none hread kind' w rest' hcut')
  · obtain ⟨⟨w, rest, hcut, hlength, hmatch⟩, hlongest⟩ := read?_eq_some hread
    obtain ⟨rest', hcut', hmatch'⟩ := hbytes hcut hmatch
    rcases hread' : read? (bytesOf cs) with - | ⟨n', kind'⟩
    · exact absurd hmatch' (read?_eq_none hread' kind w rest' hcut')
    · obtain ⟨⟨v, tail, hv, hvlength, hvmatch⟩, hvlongest⟩ := read?_eq_some hread'
      obtain ⟨tail', hv', hvmatch'⟩ := hchars hv hvmatch
      -- Neither of the two is longer than the other.
      have hle := hlongest kind' v tail' hv' hvmatch'
      have hge := hvlongest kind w rest' hcut' hmatch'
      obtain ⟨rfl, rfl⟩ : n' = n ∧ kind' = kind := by grind
      rfl

end Numeral

end TagDialect
