-- The runs of a scanner over bytes. It goes in step with the lexer over the characters, and
-- each step before the end brings it nearer to the end, so it finds the lexer's tokens.
import TagDialect.Proofs.ByteScans

namespace TagDialect

namespace ByteScanner

variable {text : String} {before rest : List Char}

/-! ## In step with the lexer -/

/-- What the scanner and the lexer both find behind the same part of a text: a quoted piece
without an end, the end of the input, or a token that is not empty. -/
inductive Agrees (text : String) (before rest : List Char) : Prop
  | failure (e : LexError) (hrest : rest ≠ [])
      (hplace : e.offset = byteLength before ∧ e.extent = (byteLength before, byteLength rest))
      (hlexer : (Lexer.behind text before rest).next = .error e)
      (hscanner : (behind text before).next = .ok (.error e)) : Agrees text before rest
  | finish (t : Token) (hrest : rest = []) (hk : t.kind = .endOfInput)
      (hlexer : (Lexer.behind text before rest).next = .ok (t, Lexer.behind text before rest))
      (hscanner : (behind text before).next = .ok (.ok (t, behind text before))) :
      Agrees text before rest
  | token (t : Token) (w rest' : List Char) (hrest : rest = w ++ rest') (hw : w ≠ [])
      (hk : t.kind ≠ .endOfInput)
      (hlexer : (Lexer.behind text before rest).next =
        .ok (t, Lexer.behind text (before ++ w) rest'))
      (hscanner : (behind text before).next = .ok (.ok (t, behind text (before ++ w)))) :
      Agrees text before rest

theorem agrees (hcut : text.toList = before ++ rest) : Agrees text before rest := by
  have hnext := next_behind hcut
  have hfound := Lexer.found_next hcut
  generalize hlexer : (Lexer.behind text before rest).next = found at hfound
  cases hfound with
  | @failure _ u hne hpiece =>
    rw [hpiece] at hnext
    have hplace := Place.offset_first before
    exact .failure _ hne ⟨hplace, congrArg (·, byteLength rest) hplace⟩ hlexer
      (hnext.trans (unterminated_behind hcut u))
  | finish =>
    have hemit := emit_behind hcut .endOfInput 0
    rw [List.take_zero, List.append_nil] at hemit
    exact .finish _ rfl rfl hlexer (hnext.trans hemit)
  | @token kind w rest hw hk hpiece =>
    rw [hpiece] at hnext
    have hemit := hnext.trans (emit_behind hcut kind w.length)
    rw [List.take_left, ← Place.past_append] at hemit
    exact .token _ w rest rfl hw hk hlexer hemit

theorem left_behind (hcut : text.toList = before ++ rest) :
    (behind text before).left = byteLength rest := by
  have hlength := congrArg List.length (drop_behind hcut)
  rwa [List.length_drop, length_bytesOf] at hlength

theorem byteLength_pos {w : List Char} (h : w ≠ []) : 0 < byteLength w := by
  cases w with
  | nil => exact absurd rfl h
  | cons c cs => exact Nat.add_pos_left c.utf8Size_pos _

/-- A token before the end leaves fewer bytes than before. -/
theorem left_lt {w rest' : List Char} (hcut : text.toList = before ++ (w ++ rest'))
    (hw : w ≠ []) : (behind text (before ++ w)).left < (behind text before).left := by
  have hpos := byteLength_pos hw
  rw [left_behind hcut, left_behind (hcut.trans (List.append_assoc before w rest').symm),
    byteLength_append]
  omega

/-! ## The run -/

section

variable {keep : Token → Bool} {t : Token}

theorem collect_of_failure {s : ByteScanner} {e : LexError} (h : s.next = .ok (.error e)) :
    s.collect keep = .ok (.error e) := by
  unfold collect
  rw [h]

theorem collect_of_finish {s s' : ByteScanner} (h : s.next = .ok (.ok (t, s')))
    (hk : t.kind = .endOfInput) : s.collect keep = .ok (.ok [t]) := by
  unfold collect
  rw [h]
  exact if_pos hk

theorem collect_of_token {s s' : ByteScanner} {found : Except LexError (List Token)}
    (h : s.next = .ok (.ok (t, s'))) (hk : t.kind ≠ .endOfInput) (hlt : s'.left < s.left)
    (hfound : s'.collect keep = .ok found) :
    s.collect keep = .ok (found.map fun ts => if keep t then t :: ts else ts) := by
  rw [collect, h]
  simp only
  rw [if_neg hk, dif_pos hlt, hfound]
  cases found <;> rfl

end

theorem collect_behind (keep : Token → Bool) (hcut : text.toList = before ++ rest) :
    (behind text before).collect keep = .ok ((Lexer.behind text before rest).collect keep) := by
  induction hlength : rest.length using Nat.strongRecOn generalizing before rest with
  | ind n ih =>
    cases agrees hcut with
    | failure e _ _ hlexer hscanner =>
      rw [collect_of_failure hscanner, Lexer.collect_of_failure hlexer]
    | finish t _ hk hlexer hscanner =>
      rw [collect_of_finish hscanner hk, Lexer.collect_of_end hlexer hk]
    | token t w rest' hrest hw hk hlexer hscanner =>
      subst hrest
      have hshorter : rest'.length < n := by
        have hpos := List.length_pos_iff.mpr hw
        rw [List.length_append] at hlength
        omega
      have hfound := ih _ hshorter (hcut.trans (List.append_assoc before w rest').symm) rfl
      rw [collect_of_token hscanner hk (left_lt hcut hw) hfound, Lexer.collect_of_token hlexer hk]

/-- The scan over the bytes finds the tokens that the lexer finds. -/
theorem tokens_eq (keep : Token → Bool) (text : String) :
    tokens keep text = .ok ((Lexer.ofText text).collect keep) := by
  unfold tokens
  rw [ofText_eq]
  exact collect_behind keep (List.nil_append text.toList).symm

/-! ## The way of a scanner -/

/-- The states that a scanner on a text comes to, one token after the other. -/
inductive Reaches (text : String) : ByteScanner → Prop
  | start {s : ByteScanner} : ofText text = .ok s → Reaches text s
  | next {s s' : ByteScanner} {t : Token} :
    Reaches text s → s.next = .ok (.ok (t, s')) → Reaches text s'

/-- A scanner goes on: it stands in its text, before the end it fails on a quoted piece or moves
forward by a byte at least, and at the end it stays. -/
structure GoesOn (s : ByteScanner) : Prop where
  inside : s.position ≤ s.bytes.length
  forward : s.position < s.bytes.length →
    (∃ e, s.next = .ok (.error e)) ∨
      ∃ t s', s.next = .ok (.ok (t, s')) ∧ t.kind ≠ .endOfInput ∧ s.position < s'.position
  stays : s.position = s.bytes.length → ∃ t, s.next = .ok (.ok (t, s)) ∧ t.kind = .endOfInput

/-- Every state of a run stands behind a part of the text. -/
theorem Reaches.cut {s : ByteScanner} (h : Reaches text s) :
    ∃ before rest, text.toList = before ++ rest ∧ s = behind text before := by
  induction h with
  | start hstart =>
    rw [ofText_eq, Except.ok.injEq] at hstart
    exact ⟨[], text.toList, rfl, hstart.symm⟩
  | next _ hnext ih =>
    obtain ⟨before, rest, hcut, rfl⟩ := ih
    cases agrees hcut with
    | failure e _ _ _ hscanner => simp [hscanner] at hnext
    | finish t _ _ _ hscanner =>
      obtain ⟨-, rfl⟩ : _ ∧ behind text before = _ := by simpa [hscanner] using hnext
      exact ⟨before, rest, hcut, rfl⟩
    | token t w rest' hrest _ _ _ hscanner =>
      obtain ⟨-, rfl⟩ : _ ∧ behind text (before ++ w) = _ := by simpa [hscanner] using hnext
      exact ⟨before ++ w, rest', by rw [hcut, hrest, List.append_assoc], rfl⟩

theorem goesOn_behind (hcut : text.toList = before ++ rest) : GoesOn (behind text before) := by
  have hinside := position_le hcut
  have hleft := left_behind hcut
  unfold left at hleft
  -- A part of the text is left exactly before the end of the bytes.
  have hend (hrest : rest ≠ []) :
      (behind text before).position ≠ (behind text before).bytes.length := by
    have hpos := byteLength_pos hrest
    omega
  cases agrees hcut with
  | failure e hrest _ _ hscanner =>
    exact ⟨hinside, fun _ => .inl ⟨e, hscanner⟩, fun h => absurd h (hend hrest)⟩
  | finish t hrest hk _ hscanner =>
    subst hrest
    refine ⟨hinside, fun hlt => ?_, fun _ => ⟨t, hscanner, hk⟩⟩
    have hzero : byteLength [] = 0 := rfl
    omega
  | token t w rest' hrest hw hk _ hscanner =>
    have hne : rest ≠ [] := by
      rw [hrest]
      exact List.append_ne_nil_of_left_ne_nil hw rest'
    refine ⟨hinside, fun _ => .inr ⟨t, _, hscanner, hk, ?_⟩, fun h => absurd h (hend hne)⟩
    have hpos := byteLength_pos hw
    simp only [behind, byteLength_append]
    omega

theorem Reaches.goesOn {s : ByteScanner} (h : Reaches text s) : GoesOn s := by
  obtain ⟨before, rest, hcut, rfl⟩ := h.cut
  exact goesOn_behind hcut

end ByteScanner

end TagDialect
