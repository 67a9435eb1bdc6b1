-- The lexer and the reader of values agree on the backslashes of a string. Both pair each of
-- them with the character behind it, so a quote that the lexer passes over is part of an escape,
-- and no escape is cut off by the end of the string.
import TagDialect.Proofs.SafeTexts

namespace TagDialect

/-! ## The parts of a quoted text -/

/-- A part of the text between two quotes: a character that stands alone, or a backslash with the
character that it hides. -/
inductive QuotedPart where
  | plain (c : Char)
  | pair (c : Char)
deriving DecidableEq

def QuotedPart.chars : QuotedPart → List Char
  | .plain c => [c]
  | .pair c => ['\\', c]

/-- Only a character that is no backslash and no delimiter stands alone. -/
def QuotedPart.Fits (quote : Char) : QuotedPart → Prop
  | .plain c => c ≠ '\\' ∧ c ≠ quote
  | .pair _ => True

/-- The text splits into the parts. -/
structure Splits (quote : Char) (inner : List Char) (parts : List QuotedPart) : Prop where
  cut : parts.flatMap QuotedPart.chars = inner
  fits : ∀ p ∈ parts, p.Fits quote

namespace Splits

variable {quote c : Char} {cs : List Char} {p : QuotedPart} {ps : List QuotedPart}

theorem nil : Splits quote [] [] := ⟨rfl, by simp⟩

theorem cons (hp : p.Fits quote) (h : Splits quote cs ps) :
    Splits quote (p.chars ++ cs) (p :: ps) := by
  refine ⟨?_, List.forall_mem_cons.mpr ⟨hp, h.fits⟩⟩
  rw [List.flatMap_cons, h.cut]

/-- The parts behind the first one split the text behind it. -/
theorem tail (h : Splits quote cs (p :: ps)) :
    p.Fits quote ∧ ∃ ds, cs = p.chars ++ ds ∧ Splits quote ds ps := by
  obtain ⟨hp, hps⟩ := List.forall_mem_cons.mp h.fits
  exact ⟨hp, _, h.cut.symm, rfl, hps⟩

/-- A text splits in one way. -/
theorem unique {qs : List QuotedPart} (h : Splits quote cs ps) (h' : Splits quote cs qs) :
    ps = qs := by
  induction ps generalizing cs qs with
  | nil =>
    obtain rfl : [] = cs := h.cut
    cases qs with
    | nil => rfl
    | cons q qs =>
      obtain ⟨-, ds, hds, -⟩ := h'.tail
      cases q <;> simp [QuotedPart.chars] at hds
  | cons p ps ih =>
    obtain ⟨hp, ds, rfl, hps⟩ := h.tail
    cases qs with
    | nil =>
      have hnil := h'.cut
      cases p <;> simp [QuotedPart.chars] at hnil
    | cons q qs =>
      obtain ⟨hq, es, hes, hqs⟩ := h'.tail
      -- the first character tells a plain part from a pair
      cases p with
      | plain c =>
        cases q with
        | plain d =>
          obtain ⟨rfl, rfl⟩ := List.cons.inj hes
          rw [ih hps hqs]
        | pair d => exact absurd (List.cons.inj hes).1 hp.1
      | pair c =>
        cases q with
        | plain d => exact absurd (List.cons.inj hes).1.symm hq.1
        | pair d =>
          obtain ⟨-, htail⟩ := List.cons.inj hes
          obtain ⟨rfl, rfl⟩ := List.cons.inj htail
          rw [ih hps hqs]

end Splits

/-- What the lexer passes over up to the closing quote splits into parts. -/
theorem splits_of_stringLength? {quote : Char} {cs : List Char}
    (h : stringLength? quote cs = some cs.length) :
    ∃ inner parts, cs = inner ++ [quote] ∧ Splits quote inner parts := by
  fun_induction stringLength? quote cs with
  | case1 => simp at h
  | case2 => simp at h
  | case3 d ds ih =>
    obtain ⟨n, hn, hlength⟩ := Option.map_eq_some_iff.mp h
    obtain rfl : n = ds.length := by simpa using hlength
    obtain ⟨inner, parts, rfl, hparts⟩ := ih hn
    exact ⟨'\\' :: d :: inner, .pair d :: parts, rfl, hparts.cons (p := .pair d) trivial⟩
  | case4 cs hslash =>
    obtain rfl : cs = [] := by simpa using h
    exact ⟨[], [], rfl, .nil⟩
  | case5 c cs hslash hquote ih =>
    obtain ⟨n, hn, hlength⟩ := Option.map_eq_some_iff.mp h
    obtain rfl : n = cs.length := by simpa using hlength
    obtain ⟨inner, parts, rfl, hparts⟩ := ih hn
    exact ⟨c :: inner, .plain c :: parts, rfl, hparts.cons (p := .plain c) ⟨hslash, hquote⟩⟩

/-! ## The turns of the reader -/

/-- One turn of resolving escapes: the characters that it takes, and what they stand for. -/
structure Turn where
  source : List Char
  value : List Char
deriving DecidableEq

/-- The turns of `unescapeFrom`. A turn that takes a backslash takes its escape with it. -/
def turns : Nat → List Char → List Turn
  | _, [] => []
  | skip + 1, _ :: cs => turns skip cs
  | 0, c :: cs =>
    if c = '\\' then
      ⟨c :: cs.take (escapeAt cs).2, (escapeAt cs).1⟩ :: turns (escapeAt cs).2 cs
    else ⟨[c], [c]⟩ :: turns 0 cs

theorem values_of_turns (skip : Nat) (cs : List Char) :
    (turns skip cs).flatMap Turn.value = unescapeFrom skip cs := by
  fun_induction turns skip cs with
  | case1 => simp [unescapeFrom]
  | case2 skip c cs ih => rw [ih, unescapeFrom]
  | case3 cs ih => rw [List.flatMap_cons, ih, unescapeFrom, if_pos rfl]
  | case4 c cs hc ih => rw [List.flatMap_cons, ih, unescapeFrom, if_neg hc]; rfl

/-- The turns take each character once, in order. -/
theorem sources_of_turns (skip : Nat) (cs : List Char) :
    (turns skip cs).flatMap Turn.source = cs.drop skip := by
  fun_induction turns skip cs with
  | case1 => simp
  | case2 skip c cs ih => rw [ih, List.drop_succ_cons]
  | case3 cs ih =>
    rw [List.flatMap_cons, ih, List.cons_append, List.take_append_drop]
    rfl
  | case4 c cs hc ih =>
    rw [List.flatMap_cons, ih]
    rfl

/-- What an escape takes behind its pair: nothing, or the digits of a code. -/
inductive EscapeTail : Char → List Char → Prop
  | letter (c : Char) : EscapeTail c []
  | unicode {us : List Char} (hlength : us.length = 4) (hhex : ∀ u ∈ us, (hexValue? u).isSome) :
      EscapeTail 'u' us
  | octal {c : Char} {us : List Char} (hc : c = '0' ∨ c = '1') (hlength : us.length = 2)
      (hoctal : ∀ u ∈ us, (octalValue? u).isSome) : EscapeTail c us

theorem EscapeTail.ne_slash {c u : Char} {us : List Char} (h : EscapeTail c us) (hu : u ∈ us) :
    u ≠ '\\' := by
  rintro rfl
  cases h with
  | letter => simp at hu
  | unicode _ hhex =>
    have hslash := hhex _ hu
    simp [hexValue?] at hslash
  | octal _ _ hoctal =>
    have hslash := hoctal _ hu
    simp [octalValue?] at hslash

theorem unicodeEscape?_eq_some {cs : List Char} {c : Char} (h : unicodeEscape? cs = some c) :
    ∃ us ds, cs = 'u' :: (us ++ ds) ∧ us.length = 4 ∧ ∀ u ∈ us, (hexValue? u).isSome := by
  unfold unicodeEscape? at h
  split at h
  · rename_i u a b c d ds
    split at h
    · rename_i hu
      subst hu
      simp only [Option.bind_eq_bind, Option.bind_eq_some_iff] at h
      obtain ⟨_, ha, _, hb, _, hc, _, hd, -⟩ := h
      exact ⟨[a, b, c, d], ds, rfl, rfl, by simp [ha, hb, hc, hd]⟩
    · simp at h
  · simp at h

theorem octalEscape?_eq_some {cs : List Char} {c : Char} (h : octalEscape? cs = some c) :
    ∃ a us ds, cs = a :: (us ++ ds) ∧ (a = '0' ∨ a = '1') ∧ us.length = 2 ∧
      ∀ u ∈ us, (octalValue? u).isSome := by
  unfold octalEscape? at h
  split at h
  · rename_i a b c ds
    split at h
    · rename_i ha
      simp only [Option.bind_eq_bind, Option.bind_eq_some_iff] at h
      obtain ⟨_, -, _, hb, _, hc, -⟩ := h
      exact ⟨a, [b, c], ds, rfl, ha, rfl, by simp [hb, hc]⟩
    · simp at h
  · simp at h

/-- An escape takes the character behind its backslash, and plain characters behind that. -/
theorem escapeAt_cons (c : Char) (cs : List Char) :
    ∃ us ds, cs = us ++ ds ∧ (escapeAt (c :: cs)).2 = us.length + 1 ∧ EscapeTail c us := by
  unfold escapeAt
  cases hunicode : unicodeEscape? (c :: cs) with
  | some d =>
    obtain ⟨us, ds, hcut, hlength, hhex⟩ := unicodeEscape?_eq_some hunicode
    obtain ⟨rfl, rfl⟩ := List.cons.inj hcut
    exact ⟨us, ds, rfl, by rw [hlength], .unicode hlength hhex⟩
  | none =>
    cases hoctal : octalEscape? (c :: cs) with
    | some d =>
      obtain ⟨a, us, ds, hcut, ha, hlength, hdigits⟩ := octalEscape?_eq_some hoctal
      obtain ⟨rfl, rfl⟩ := List.cons.inj hcut
      exact ⟨us, ds, rfl, by rw [hlength], .octal ha hlength hdigits⟩
    | none => exact ⟨[], cs, rfl, rfl, .letter c⟩

/-! ## Turn by turn -/

/-- The turns go along with the parts: a turn takes a plain part, or it takes a pair with the plain
parts that its escape needs. -/
inductive GoAlong : List QuotedPart → List Turn → Prop
  | nil : GoAlong [] []
  | plain {c : Char} {parts : List QuotedPart} {ts : List Turn} (hc : c ≠ '\\')
      (h : GoAlong parts ts) : GoAlong (.plain c :: parts) (⟨[c], [c]⟩ :: ts)
  | escape {c : Char} {us value : List Char} {parts : List QuotedPart} {ts : List Turn}
      (hus : EscapeTail c us) (h : GoAlong parts ts) :
      GoAlong (.pair c :: (us.map .plain ++ parts)) (⟨'\\' :: c :: us, value⟩ :: ts)

/-- Characters that are no backslashes are parts of their own. -/
theorem Splits.plain_run {quote : Char} {us ds : List Char} {parts : List QuotedPart}
    (hus : ∀ u ∈ us, u ≠ '\\') (h : Splits quote (us ++ ds) parts) :
    ∃ rest, parts = us.map .plain ++ rest ∧ Splits quote ds rest := by
  induction us generalizing parts with
  | nil => exact ⟨parts, rfl, h⟩
  | cons u us ih =>
    obtain ⟨hu, hus⟩ := List.forall_mem_cons.mp hus
    cases parts with
    | nil =>
      have hnil := h.cut
      simp at hnil
    | cons p parts =>
      obtain ⟨-, es, hes, hparts⟩ := h.tail
      cases p with
      | plain c =>
        obtain ⟨rfl, rfl⟩ := List.cons.inj hes
        obtain ⟨rest, rfl, hrest⟩ := ih hus hparts
        exact ⟨rest, rfl, hrest⟩
      | pair c => exact absurd (List.cons.inj hes).1 hu

theorem turns_append (us ds : List Char) : turns us.length (us ++ ds) = turns 0 ds := by
  induction us with
  | nil => rfl
  | cons u us ih => rw [List.length_cons, List.cons_append, turns, ih]

/-- An escape is one turn, and the turns go on behind it. -/
theorem turns_escape {c : Char} {us ds : List Char}
    (h : (escapeAt (c :: (us ++ ds))).2 = us.length + 1) :
    ∃ value, turns 0 ('\\' :: c :: (us ++ ds)) = ⟨'\\' :: c :: us, value⟩ :: turns 0 ds := by
  rw [turns, if_pos rfl, h, List.take_succ_cons, List.take_left, turns, turns_append]
  exact ⟨_, rfl⟩

theorem Splits.goAlong {quote : Char} {cs : List Char} {parts : List QuotedPart}
    (h : Splits quote cs parts) : GoAlong parts (turns 0 cs) := by
  -- an escape passes over more than one part, so the induction is on the text that is left
  induction hn : cs.length using Nat.strongRecOn generalizing cs parts with
  | ind n ih =>
    subst hn
    cases parts with
    | nil =>
      obtain rfl : [] = cs := h.cut
      exact .nil
    | cons p parts =>
      obtain ⟨hp, ds, rfl, hparts⟩ := h.tail
      cases p with
      | plain c =>
        have hturns : turns 0 (c :: ds) = ⟨[c], [c]⟩ :: turns 0 ds := by rw [turns, if_neg hp.1]
        rw [QuotedPart.chars, List.singleton_append, hturns]
        exact .plain hp.1 (ih _ (by simp [QuotedPart.chars]) hparts rfl)
      | pair c =>
        obtain ⟨us, es, rfl, hlength, hus⟩ := escapeAt_cons c ds
        obtain ⟨rest, rfl, hrest⟩ := hparts.plain_run fun u hu => hus.ne_slash hu
        obtain ⟨value, hturns⟩ := turns_escape hlength
        rw [QuotedPart.chars, List.cons_append, List.singleton_append, hturns]
        refine .escape hus (ih _ ?_ hrest rfl)
        simp only [QuotedPart.chars, List.length_append, List.length_cons]
        omega

/-! ## Places -/

/-- Where the pieces that begin with a backslash begin, when the first piece stands at `i`. -/
def slashPlaces (i : Nat) : List (List Char) → List Nat
  | [] => []
  | w :: ws =>
    if w.head? = some '\\' then i :: slashPlaces (i + w.length) ws
    else slashPlaces (i + w.length) ws

/-- Where the pairs of a split text begin. -/
def pairPlaces (parts : List QuotedPart) : List Nat := slashPlaces 0 (parts.map QuotedPart.chars)

/-- Where the escapes begin that the reader resolves. -/
def escapePlaces (inner : List Char) : List Nat := slashPlaces 0 ((turns 0 inner).map Turn.source)

theorem slashPlaces_plain (i : Nat) {us : List Char} (hus : ∀ u ∈ us, u ≠ '\\')
    (ws : List (List Char)) :
    slashPlaces i ((us.map QuotedPart.plain).map QuotedPart.chars ++ ws) =
      slashPlaces (i + us.length) ws := by
  induction us generalizing i with
  | nil => rfl
  | cons u us ih =>
    obtain ⟨hu, hus⟩ := List.forall_mem_cons.mp hus
    have hhead : (QuotedPart.plain u).chars.head? ≠ some '\\' := by
      simpa [QuotedPart.chars] using hu
    rw [List.map_cons, List.map_cons, List.cons_append, slashPlaces, if_neg hhead, ih _ hus]
    congr 1
    simp only [QuotedPart.chars, List.length_cons, List.length_nil]
    omega

/-- Escapes begin where pairs begin. -/
theorem GoAlong.places {parts : List QuotedPart} {ts : List Turn} (h : GoAlong parts ts) (i : Nat) :
    slashPlaces i (ts.map Turn.source) = slashPlaces i (parts.map QuotedPart.chars) := by
  induction h generalizing i with
  | nil => rfl
  | plain hc h ih => simp [slashPlaces, QuotedPart.chars, hc, ih]
  | @escape c us value parts ts hus h ih =>
    rw [List.map_cons, List.map_cons, List.map_append, slashPlaces, slashPlaces,
      if_pos (by rfl), if_pos (by rfl), slashPlaces_plain _ (fun u hu => hus.ne_slash hu), ih]
    congr 2
    simp only [QuotedPart.chars, List.length_cons, List.length_nil]
    omega

/-- A turn that begins with a backslash is an escape: a pair with plain characters behind it. -/
theorem GoAlong.escapes {parts : List QuotedPart} {ts : List Turn} (h : GoAlong parts ts) {t : Turn}
    (ht : t ∈ ts) (hslash : t.source.head? = some '\\') :
    ∃ c us, t.source = '\\' :: c :: us ∧ EscapeTail c us ∧ .pair c ∈ parts ∧
      ∀ u ∈ us, .plain u ∈ parts := by
  induction h with
  | nil => simp at ht
  | plain hc h ih =>
    rcases List.mem_cons.mp ht with rfl | ht
    · exact absurd (Option.some.inj hslash) hc
    · obtain ⟨c, us, hsource, htail, hpair, hplain⟩ := ih ht
      exact ⟨c, us, hsource, htail, List.mem_cons_of_mem _ hpair,
        fun u hu => List.mem_cons_of_mem _ (hplain u hu)⟩
  | @escape c us value parts ts hus h ih =>
    rcases List.mem_cons.mp ht with rfl | ht
    · refine ⟨c, us, rfl, hus, List.mem_cons_self, ?_⟩
      intro u hu
      exact List.mem_cons_of_mem _ (List.mem_append_left _ (List.mem_map_of_mem hu))
    · obtain ⟨d, vs, hsource, htail, hpair, hplain⟩ := ih ht
      exact ⟨d, vs, hsource, htail, List.mem_cons_of_mem _ (List.mem_append_right _ hpair),
        fun u hu => List.mem_cons_of_mem _ (List.mem_append_right _ (hplain u hu))⟩

theorem slashPlaces_add (i d : Nat) (ws : List (List Char)) :
    slashPlaces (i + d) ws = (slashPlaces i ws).map (· + d) := by
  induction ws generalizing i with
  | nil => rfl
  | cons w ws ih =>
    have hnext : slashPlaces (i + d + w.length) ws =
        (slashPlaces (i + w.length) ws).map (· + d) := by
      rw [← ih]
      congr 1
      omega
    by_cases hw : w.head? = some '\\'
    · rw [slashPlaces, slashPlaces, if_pos hw, if_pos hw, hnext, List.map_cons]
    · rw [slashPlaces, slashPlaces, if_neg hw, if_neg hw, hnext]

theorem pairPlaces_plain {c : Char} (hc : c ≠ '\\') (parts : List QuotedPart) :
    pairPlaces (.plain c :: parts) = (pairPlaces parts).map (· + 1) := by
  have hhead : (QuotedPart.plain c).chars.head? ≠ some '\\' := by simpa [QuotedPart.chars] using hc
  unfold pairPlaces
  rw [← slashPlaces_add, List.map_cons, slashPlaces, if_neg hhead]
  rfl

theorem pairPlaces_pair (c : Char) (parts : List QuotedPart) :
    pairPlaces (.pair c :: parts) = 0 :: (pairPlaces parts).map (· + 2) := by
  unfold pairPlaces
  rw [← slashPlaces_add, List.map_cons, slashPlaces, if_pos (by rfl)]
  rfl

/-- A delimiter inside the text stands right behind the backslash of a pair. -/
theorem Splits.quote_behind_slash {quote : Char} (hquote : quote ≠ '\\') {cs : List Char}
    {parts : List QuotedPart} (h : Splits quote cs parts) {k : Nat} (hk : cs[k]? = some quote) :
    ∃ j ∈ pairPlaces parts, k = j + 1 := by
  induction parts generalizing cs k with
  | nil =>
    obtain rfl : [] = cs := h.cut
    simp at hk
  | cons p parts ih =>
    obtain ⟨hp, ds, rfl, hparts⟩ := h.tail
    cases p with
    | plain c =>
      rw [pairPlaces_plain hp.1]
      cases k with
      | zero => exact absurd (Option.some.inj hk) hp.2
      | succ k =>
        obtain ⟨j, hj, rfl⟩ := ih hparts hk
        exact ⟨j + 1, List.mem_map_of_mem hj, rfl⟩
    | pair c =>
      rw [pairPlaces_pair]
      match k with
      | 0 => exact absurd (Option.some.inj hk).symm hquote
      | 1 => exact ⟨0, List.mem_cons_self, rfl⟩
      | k + 2 =>
        obtain ⟨j, hj, rfl⟩ := ih hparts hk
        exact ⟨j + 2, List.mem_cons_of_mem _ (List.mem_map_of_mem hj), rfl⟩

/-! ## Pairs in the bytes -/

theorem Splits.append {quote : Char} {cs ds : List Char} {ps qs : List QuotedPart}
    (h : Splits quote cs ps) (h' : Splits quote ds qs) : Splits quote (cs ++ ds) (ps ++ qs) := by
  refine ⟨?_, List.forall_mem_append.mpr ⟨h.fits, h'.fits⟩⟩
  rw [List.flatMap_append, h.cut, h'.cut]

theorem splits_wide {quote : Char} (hquote : ¬ IsWide quote) {os : List Char}
    (hos : ∀ o ∈ os, IsWide o) : Splits quote os (os.map .plain) := by
  induction os with
  | nil => exact .nil
  | cons o os ih =>
    obtain ⟨ho, hos⟩ := List.forall_mem_cons.mp hos
    exact (ih hos).cons (p := .plain o) ⟨ne_of_wide ho (by decide), ne_of_wide ho hquote⟩

theorem pairPlaces_run {us : List Char} (hus : ∀ u ∈ us, u ≠ '\\') (parts : List QuotedPart) :
    pairPlaces (us.map .plain ++ parts) = (pairPlaces parts).map (· + us.length) := by
  unfold pairPlaces
  rw [List.map_append, slashPlaces_plain 0 hus, slashPlaces_add]

/-- The bytes split at the same places: a pair whose character is wide takes the first byte of it,
and the others stand alone. -/
theorem Splits.bytes {quote : Char} (hquote : ¬ IsWide quote) {cs : List Char}
    {parts : List QuotedPart} (h : Splits quote cs parts) :
    ∃ octets, Splits quote (bytesOf cs) octets ∧
      pairPlaces octets = (pairPlaces parts).map (inBytes cs) := by
  have hslash : ¬ IsWide '\\' := by decide
  induction parts generalizing cs with
  | nil =>
    obtain rfl : [] = cs := h.cut
    exact ⟨[], .nil, rfl⟩
  | cons p parts ih =>
    obtain ⟨hp, ds, rfl, hparts⟩ := h.tail
    obtain ⟨octets, hoctets, hplaces⟩ := ih hparts
    cases p with
    | plain c =>
      have hshift : (pairPlaces octets).map (· + c.utf8Size) =
          (pairPlaces (.plain c :: parts)).map (inBytes (c :: ds)) := by
        rw [hplaces, pairPlaces_plain hp.1, List.map_map, List.map_map]
        congr 1
        funext n
        simp only [Function.comp_apply, inBytes_succ]
        omega
      rw [QuotedPart.chars, List.singleton_append, ← hshift]
      by_cases hc : IsWide c
      · obtain ⟨o, os, hos, hwide, hlength⟩ := bytesOf_wide hc ds
        refine ⟨(o :: os).map .plain ++ octets, ?_, ?_⟩
        · rw [hos]
          exact (splits_wide hquote hwide).append hoctets
        · rw [pairPlaces_run fun u hu => ne_of_wide (hwide u hu) hslash, List.length_cons, hlength]
      · refine ⟨.plain c :: octets, ?_, ?_⟩
        · rw [bytesOf_narrow hc]
          exact hoctets.cons (p := .plain c) hp
        · rw [pairPlaces_plain hp.1, utf8Size_of_narrow hc]
    | pair c =>
      have hshift : 0 :: (pairPlaces octets).map (· + (c.utf8Size + 1)) =
          (pairPlaces (.pair c :: parts)).map (inBytes ('\\' :: c :: ds)) := by
        rw [hplaces, pairPlaces_pair, List.map_cons, List.map_map, List.map_map]
        congr 2
        funext n
        simp only [Function.comp_apply, inBytes_succ, utf8Size_of_narrow hslash]
        omega
      rw [QuotedPart.chars, List.cons_append, List.singleton_append, ← hshift,
        bytesOf_narrow hslash]
      by_cases hc : IsWide c
      · obtain ⟨o, os, hos, hwide, hlength⟩ := bytesOf_wide hc ds
        obtain ⟨-, hwides⟩ := List.forall_mem_cons.mp hwide
        refine ⟨.pair o :: (os.map .plain ++ octets), ?_, ?_⟩
        · rw [hos]
          exact ((splits_wide hquote hwides).append hoctets).cons (p := .pair o) trivial
        · rw [pairPlaces_pair, pairPlaces_run fun u hu => ne_of_wide (hwides u hu) hslash,
            List.map_map, ← hlength]
          rfl
      · refine ⟨.pair c :: octets, ?_, ?_⟩
        · rw [bytesOf_narrow hc]
          exact hoctets.cons (p := .pair c) trivial
        · rw [pairPlaces_pair, utf8Size_of_narrow hc]

/-! ## The law -/

/-- How the lexer and the reader of values see the text between two quotes. -/
structure EscapesAgree (quote : Char) (inner : List Char) (parts : List QuotedPart) : Prop where
  splits : Splits quote inner parts
  /-- The text splits in no other way. -/
  only : ∀ ps, Splits quote inner ps → ps = parts
  /-- The reader takes each character in one turn. -/
  taken : (turns 0 inner).flatMap Turn.source = inner
  places : escapePlaces inner = pairPlaces parts
  /-- Each escape has a character behind its backslash. What it takes more is plain. -/
  escapes : ∀ t ∈ turns 0 inner, t.source.head? = some '\\' →
    ∃ c us, t.source = '\\' :: c :: us ∧ EscapeTail c us ∧ ∀ u ∈ us, u ≠ '\\' ∧ u ≠ quote
  /-- A delimiter inside the text is the character behind a pair's backslash. -/
  delimiters : ∀ k, inner[k]? = some quote → ∃ j ∈ pairPlaces parts, k = j + 1
  /-- A scan over the bytes finds its pairs at the same places. -/
  bytes : ∃ octets, Splits quote (bytesOf inner) octets ∧
    pairPlaces octets = (pairPlaces parts).map (inBytes inner)

theorem Splits.agree {quote : Char} (hq : quote = '\'' ∨ quote = '"') {inner : List Char}
    {parts : List QuotedPart} (h : Splits quote inner parts) : EscapesAgree quote inner parts where
  splits := h
  only _ hps := hps.unique h
  taken := sources_of_turns 0 inner
  places := h.goAlong.places 0
  escapes := by
    intro t ht hslash
    obtain ⟨c, us, hsource, htail, -, hplain⟩ := h.goAlong.escapes ht hslash
    exact ⟨c, us, hsource, htail, fun u hu => h.fits _ (hplain u hu)⟩
  delimiters k := h.quote_behind_slash (by rcases hq with rfl | rfl <;> decide)
  bytes := h.bytes (by rcases hq with rfl | rfl <;> decide)

/-- The lexer and the reader of values agree on where escapes are. Between the quotes of each
string that the lexer finds stand plain characters and pairs of a backslash and one character. The
reader begins an escape at just the backslashes of these pairs, so none is cut off by the end of
the string, and each quote inside the string is escaped. -/
theorem escapes_begin_where_the_lexer_pairs {text : String} {l l' : Lexer} {t : Token}
    (hreaches : Lexer.Reaches text l) (hnext : l.next = .ok (t, l')) (hkind : t.kind = .string) :
    ∃ quote inner parts, (quote = '\'' ∨ quote = '"') ∧
      t.text.toList = quote :: (inner ++ [quote]) ∧ EscapesAgree quote inner parts ∧
      stringValue? t.text = some (String.ofList ((turns 0 inner).flatMap Turn.value)) := by
  obtain ⟨rest, hform⟩ := hreaches.form hnext (by simp [hkind])
  rcases hform.quoted (.inl hkind) with ⟨quote, v, -, hq, htext, hlength⟩ | ⟨-, hticked, -⟩
  · obtain ⟨inner, parts, rfl, hparts⟩ := splits_of_stringLength? hlength
    refine ⟨quote, inner, parts, hq, htext, hparts.agree hq, ?_⟩
    have hsize : quote.utf8Size = 1 := by rcases hq with rfl | rfl <;> decide
    unfold stringValue?
    rw [htext, interior?_between hsize hsize, values_of_turns]
    rfl
  · rw [hkind] at hticked
    contradiction

/-- An escaped quote, a code, and a wide character behind a backslash, which hides the first of
its bytes alone. -/
theorem three_escapes_in_one_string :
    let text := "'é\\'\\u0041\\é'"
    let inner := ['é', '\\', '\'', '\\', 'u', '0', '0', '4', '1', '\\', 'é']
    ∃ t l', (Lexer.ofText text).next = .ok (t, l') ∧ t.kind = .string ∧ t.text = text ∧
      escapePlaces inner = [1, 3, 9] ∧
      (∃ octets, Splits '\'' (bytesOf inner) octets ∧ pairPlaces octets = [2, 4, 10]) ∧
      stringValue? t.text = some "é'Aé" := by
  intro text inner
  have hpiece : firstPiece text.toList = .ok (.string, text.toList.length) := by
    simp [text, firstPiece_quote, stringLength?]
  obtain ⟨t, l', hnext, hkind, htext⟩ := Lexer.next_of_whole hpiece
  obtain ⟨quote, inner', parts, -, hcut, hagree, hvalue⟩ :=
    escapes_begin_where_the_lexer_pairs .start hnext hkind
  have hchars : text.toList = '\'' :: (inner ++ ['\'']) := by decide
  rw [htext, hchars] at hcut
  obtain ⟨rfl, hinner⟩ := List.cons.inj hcut
  obtain rfl : inner = inner' := List.append_cancel_right hinner
  have hplaces : escapePlaces inner = [1, 3, 9] := by decide
  refine ⟨t, l', hnext, hkind, htext, hplaces, ?_, ?_⟩
  · obtain ⟨octets, hoctets, hpairs⟩ := hagree.bytes
    refine ⟨octets, hoctets, ?_⟩
    rw [hpairs, ← hagree.places, hplaces]
    decide
  · rw [hvalue]
    decide

end TagDialect
