-- The states that a lexer comes to on a text. Each of them stands behind a
-- part of the text, and knows the comments of the whole text.
import TagDialect.Lexer

namespace TagDialect

/-! ## Places behind a part of the text -/

theorem Place.past_append (p : Place) (cs ds : List Char) :
    p.past (cs ++ ds) = (p.past cs).past ds := by
  unfold Place.past
  rw [List.foldl_append]

theorem Place.index_past (p : Place) (cs : List Char) :
    (p.past cs).index = p.index + cs.length := by
  induction cs generalizing p with
  | nil => rfl
  | cons c cs ih =>
    have h : p.past (c :: cs) = (p.after c).past cs := rfl
    rw [h, ih, List.length_cons]
    simp only [Place.after]
    omega

/-! ## The states of a run -/

namespace Lexer

/-- The states that a lexer on a text comes to, one token after the other. -/
inductive Reaches (text : String) : Lexer → Prop
  | start : Reaches text (ofText text)
  | next {l l' : Lexer} {t : Token} : Reaches text l → l.next = .ok (t, l') → Reaches text l'

/-- A lexer on `text` that has passed `before`. -/
def behind (text : String) (before rest : List Char) : Lexer :=
  ⟨.ofText text.toList, Place.first.past before, rest⟩

theorem behind_index (text : String) (before rest : List Char) :
    (behind text before rest).place.index = before.length := by
  simp only [behind, Place.index_past, Place.first]
  omega

/-- The token and the next state, when the piece at the head of the rest is known. -/
theorem next_of_pieceAt {l : Lexer} {kind : TokenKind} {n : Nat}
    (h : pieceAt l.comments l.place.index l.rest = .ok (kind, n)) :
    l.next = .ok (⟨kind, String.ofList (l.rest.take n),
      l.place.spanTo (l.place.past (l.rest.take n))⟩,
      ⟨l.comments, l.place.past (l.rest.take n), l.rest.drop n⟩) := by
  unfold next
  rw [h]

/-- The error of a lexer when the quoted piece ahead of it never ends. -/
def unterminated (l : Lexer) (u : Unterminated) : LexError where
  message := u.message
  unexpected := u.opener
  offset := l.place.offset
  line := l.place.line
  column := l.place.column
  extent := (l.place.offset, byteLength l.rest)

theorem next_of_unterminated {l : Lexer} {u : Unterminated}
    (h : pieceAt l.comments l.place.index l.rest = .error u) :
    l.next = .error (l.unterminated u) := by
  unfold next
  rw [h]
  rfl

theorem pieceAt_of_next {l l' : Lexer} {t : Token} (h : l.next = .ok (t, l')) :
    ∃ n, pieceAt l.comments l.place.index l.rest = .ok (t.kind, n) ∧
      t.text = String.ofList (l.rest.take n) ∧
      l' = ⟨l.comments, l.place.past (l.rest.take n), l.rest.drop n⟩ := by
  unfold next at h
  split at h
  · rename_i kind n hp
    simp only [Except.ok.injEq, Prod.mk.injEq] at h
    obtain ⟨rfl, rfl⟩ := h
    exact ⟨n, hp, rfl, rfl⟩
  · simp at h

/-- One step keeps what a state knows: it stays behind a part of its text. -/
theorem behind_next {text : String} {before rest : List Char} {l' : Lexer} {t : Token}
    (hcut : text.toList = before ++ rest) (h : (behind text before rest).next = .ok (t, l')) :
    ∃ before' rest', text.toList = before' ++ rest' ∧ l' = behind text before' rest' := by
  obtain ⟨n, -, -, rfl⟩ := pieceAt_of_next h
  refine ⟨before ++ rest.take n, rest.drop n, ?_, ?_⟩
  · rw [List.append_assoc, List.take_append_drop, hcut]
  · simp only [behind, Place.past_append]

/-- Every state of a run stands behind a part of the text. -/
theorem Reaches.cut {text : String} {l : Lexer} (h : Reaches text l) :
    ∃ before rest, text.toList = before ++ rest ∧ l = behind text before rest := by
  induction h with
  | start => exact ⟨[], text.toList, rfl, rfl⟩
  | next _ hnext ih =>
    obtain ⟨before, rest, hcut, rfl⟩ := ih
    exact behind_next hcut hnext

/-! ## All tokens of a run -/

/-- The end of the input, as the lexer sees it, is the whole run. -/
theorem collect_of_end {keep : Token → Bool} {l l' : Lexer} {t : Token}
    (h : l.next = .ok (t, l')) (hk : t.kind = .endOfInput) : l.collect keep = .ok [t] := by
  unfold collect
  split
  · rename_i hnext
    simp [h] at hnext
  · rename_i hnext
    obtain ⟨rfl, rfl⟩ : t = _ ∧ l' = _ := by simpa [h] using hnext
    rw [dif_pos hk]

/-- Any other token comes before those that the lexer behind it finds. -/
theorem collect_of_next {keep : Token → Bool} {l l' : Lexer} {t : Token} {ts : List Token}
    (h : l.next = .ok (t, l')) (hk : t.kind ≠ .endOfInput) (hrest : l'.collect keep = .ok ts) :
    l.collect keep = .ok (if keep t then t :: ts else ts) := by
  rw [collect]
  split
  · rename_i hnext
    simp [h] at hnext
  · rename_i hnext
    obtain ⟨rfl, rfl⟩ : t = _ ∧ l' = _ := by simpa [h] using hnext
    rw [dif_neg hk]
    simp only [hrest]

theorem collect_of_kept {keep : Token → Bool} {l l' : Lexer} {t : Token} {ts : List Token}
    (h : l.next = .ok (t, l')) (hk : t.kind ≠ .endOfInput) (hkeep : keep t = true)
    (hrest : l'.collect keep = .ok ts) : l.collect keep = .ok (t :: ts) := by
  rw [collect_of_next h hk hrest, if_pos hkeep]

theorem collect_of_dropped {keep : Token → Bool} {l l' : Lexer} {t : Token} {ts : List Token}
    (h : l.next = .ok (t, l')) (hk : t.kind ≠ .endOfInput) (hkeep : keep t = false)
    (hrest : l'.collect keep = .ok ts) : l.collect keep = .ok ts := by
  rw [collect_of_next h hk hrest, if_neg (by simp [hkeep])]

theorem collect_of_failure {keep : Token → Bool} {l : Lexer} {e : LexError}
    (h : l.next = .error e) : l.collect keep = .error e := by
  unfold collect
  split
  · rename_i hnext
    rw [Except.error.inj (hnext.symm.trans h)]
  · rename_i hnext
    simp [h] at hnext

theorem collect_of_token {keep : Token → Bool} {l l' : Lexer} {t : Token}
    (h : l.next = .ok (t, l')) (hk : t.kind ≠ .endOfInput) :
    l.collect keep = (l'.collect keep).map fun ts => if keep t then t :: ts else ts := by
  cases hfound : l'.collect keep with
  | ok ts => exact collect_of_next h hk hfound
  | error e =>
    rw [collect]
    split
    · rename_i hnext
      simp [h] at hnext
    · rename_i hnext
      obtain ⟨rfl, rfl⟩ : t = _ ∧ l' = _ := by simpa [h] using hnext
      rw [dif_neg hk]
      simp only [hfound]
      rfl

/-- The end of the input is the last token that a run collects, and no other one is. -/
theorem collect_ends {keep : Token → Bool} {l : Lexer} {ts : List Token}
    (h : l.collect keep = .ok ts) :
    ∃ us e, ts = us ++ [e] ∧ e.kind = .endOfInput ∧ ∀ u ∈ us, u.kind ≠ .endOfInput := by
  fun_induction collect keep l generalizing ts with
  | case1 => simp at h
  | case2 l t l' hnext hk =>
    simp only [Except.ok.injEq] at h
    exact ⟨[], t, h.symm, hk, by simp⟩
  | case3 => simp at h
  | case4 l t l' hnext hk rs hrest ih =>
    obtain ⟨us, e, rfl, he, hus⟩ := ih hrest
    simp only [Except.ok.injEq] at h
    subst h
    split
    · exact ⟨t :: us, e, rfl, he, by simpa using ⟨hk, hus⟩⟩
    · exact ⟨us, e, rfl, he, hus⟩

/-! ## Calls one after the other -/

/-- One call: what it gives, and the lexer as it leaves it. Only a token moves the lexer. -/
def call (l : Lexer) : Except LexError Token × Lexer :=
  match l.next with
  | .ok (t, l') => (.ok t, l')
  | .error e => (.error e, l)

/-- What the next calls give, one after the other. -/
def calls : Nat → Lexer → List (Except LexError Token)
  | 0, _ => []
  | n + 1, l => l.call.1 :: calls n l.call.2

theorem call_of_token {l l' : Lexer} {t : Token} (h : l.next = .ok (t, l')) :
    l.call = (.ok t, l') := by
  unfold call
  rw [h]

theorem call_of_failure {l : Lexer} {e : LexError} (h : l.next = .error e) :
    l.call = (.error e, l) := by
  unfold call
  rw [h]

/-- A call that leaves the lexer where it is gives the same each time. -/
theorem calls_of_still {l : Lexer} {r : Except LexError Token} (h : l.call = (r, l)) (n : Nat) :
    l.calls n = List.replicate n r := by
  induction n with
  | zero => rfl
  | succ n ih => rw [calls, h, ih, List.replicate_succ]

end Lexer

end TagDialect
