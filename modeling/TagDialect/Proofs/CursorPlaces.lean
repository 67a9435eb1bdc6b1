-- The places that the cursor comes to. Each run of a rule goes over the tokens one by one, and not
-- past the end of the input.
import TagDialect.Proofs.LoopEnds
import TagDialect.Proofs.NodeSpans

namespace TagDialect

variable {tokens : List Token} {i j k least limit : Nat}

/-! ## Places -/

/-- The cursor before the token with the index `k`. -/
def Cursor.nth (tokens : List Token) (k : Nat) : Cursor :=
  ⟨(tokens.take k).reverse, tokens.drop k⟩

/-- From the place `k` to the place `j`, and each place between them once. -/
def Track.between (tokens : List Token) (k j : Nat) : Track :=
  ⟨((List.range' k (j - k)).map (Cursor.nth tokens)).reverse, .nth tokens j⟩

namespace Cursor

theorem length_lexemes_nth : (nth tokens k).lexemes.length = tokens.length - k := by
  simp [nth, lexemes]

theorem current_nth {t : Token} (h : tokens[k]? = some t) : (nth tokens k).current = t := by
  simp [current, peek, nth, h]

theorem advance_nth (hk : k < tokens.length) : (nth tokens k).advance = nth tokens (k + 1) := by
  simp only [nth, List.drop_eq_getElem_cons hk, List.take_succ_eq_append_getElem hk,
    List.reverse_append]
  rfl

theorem finished_nth (hclosed : Parse.Closed (tokens.map Token.lexeme)) (hk : k < tokens.length) :
    Finished (nth tokens k).lexemes := by
  obtain ⟨us, e, hcut, he, -⟩ := hclosed
  have hlength := congrArg List.length hcut
  simp only [List.length_map, List.length_append, List.length_singleton] at hlength
  refine ⟨us.drop k, e, ?_, he⟩
  rw [lexemes, nth, List.map_drop, hcut, List.drop_append_of_le_length (by omega)]

end Cursor

namespace Track

theorem between_self : between tokens k k = start (.nth tokens k) := by
  simp [between, start]

theorem advance_between (hk : k ≤ j) (hj : j < tokens.length) :
    (between tokens k j).advance = between tokens k (j + 1) := by
  have hcount : j + 1 - k = j - k + 1 := by omega
  have hlast : k + (j - k) = j := by omega
  simp only [advance, between, Cursor.advance_nth hj, hcount, List.range'_1_concat, hlast,
    List.map_append, List.reverse_append]
  rfl

/-- A track that goes on from a place before the end of the tokens goes on to another one. -/
theorem Onward.between {p q : Track} (h : p.Onward q) (hp : p = between tokens k i)
    (hclosed : Parse.Closed (tokens.map Token.lexeme)) (hk : k ≤ i) (hi : i < tokens.length) :
    ∃ j, i ≤ j ∧ j < tokens.length ∧ q = Track.between tokens k j := by
  induction h generalizing i with
  | refl => exact ⟨i, Nat.le_refl i, hi, hp⟩
  | @step p q hkind _ ih =>
    subst hp
    -- The token that is passed is not the last one, as the end of the input comes behind it.
    have hahead := (Parse.Passes.advance (Cursor.finished_nth hclosed hi) hkind).finished
    have hnext : i + 1 < tokens.length := by
      have hlength := congrArg List.length (Cursor.lexemes_eq hahead)
      have hplace : (Cursor.nth tokens i).advance = .nth tokens (i + 1) := Cursor.advance_nth hi
      rw [hplace, Cursor.length_lexemes_nth, List.length_cons] at hlength
      omega
    obtain ⟨j, hij, hj, hq⟩ := ih (advance_between hk hi) (by omega) hnext
    exact ⟨j, by omega, hj, hq⟩

end Track

/-! ## What a rule takes -/

/-- A run with a result passes so many tokens or more. -/
def Parse.Takes {α : Type} (least : Nat) (rule : Parse α) : Prop :=
  ∀ {c d : Cursor} {a : α}, Finished c.lexemes → rule c = .ok a d →
    d.lexemes.length + least ≤ c.lexemes.length

namespace Parse

variable {α : Type}

theorem takes_one {rule : Parse α} {production : List Lexeme → α → Prop}
    (hsound : ∀ {c d a}, Finished c.lexemes → rule c = .ok a d →
      ∃ ws, production ws a ∧ Passes c ws d)
    (hne : ∀ {ws a}, production ws a → ws ≠ []) : Takes 1 rule := by
  intro c d a hc h
  obtain ⟨ws, hws, hpass⟩ := hsound hc h
  have hlength := congrArg List.length hpass.cut
  have hone := List.length_pos_iff.mpr (hne hws)
  rw [List.length_append] at hlength
  omega

theorem takes_zero {rule : Parse α} [Orderly rule] : Takes 0 rule := by
  intro c d a _ h
  have hle := Orderly.length_le rule c
  rwa [h] at hle

theorem takes_identifier : Takes 1 identifier :=
  takes_one identifier_reads.sound fun {_ i} h => Node.Derives.ne_nil (n := .identifier i) h

theorem takes_name : Takes 1 name :=
  takes_one name_reads.sound fun {_ n} h => Node.Derives.ne_nil (n := .name n) h

theorem takes_number : Takes 1 number :=
  takes_one number_reads.sound fun {_ n} h => Node.Derives.ne_nil (n := .number n) h

theorem takes_constant : Takes 1 constant :=
  takes_one constant_reads.sound fun {_ a} h => Node.Derives.ne_nil (n := .constant a) h

theorem takes_expression : Takes 1 expression := by
  refine takes_one expression_reads.sound fun {ws e} h => ?_
  cases e with
  | constant a =>
    cases h with
    | constant h => exact Node.Derives.ne_nil (n := .constant a) h
  | map entries span => exact Node.Derives.ne_nil (n := .map entries span) h

theorem takes_statement : Takes 1 statement :=
  takes_one statement_sound fun {_ s} h => Node.Derives.ne_nil (n := .statement s) h

theorem takes_whole : Takes 1 whole := by
  intro c d s hc h
  obtain ⟨e, hs, rfl, -⟩ := whole_eq_ok.mp h
  obtain ⟨us, hwalk⟩ := e.walks_advanceOver .semicolon
  have hone := takes_statement hc hs
  have hover := hwalk.length_le
  omega

end Parse

/-! ## Where a run ends -/

/-- The error names the place of the token and what the token is. -/
structure ParseError.Names (e : ParseError) (t : Token) : Prop where
  offset : e.offset = t.span.start
  line : e.line = t.span.line
  column : e.column = t.span.column
  extent : e.extent = (t.span.start, t.span.length)
  found : e.found = t.describe

theorem names_fault {t : Token} (h : tokens[k]? = some t) (expected : Expectation) :
    ((Cursor.nth tokens k).fault expected).Names t := by
  rw [← Cursor.current_nth h]
  exact ⟨rfl, rfl, rfl, rfl, rfl⟩

namespace Looping

open Parse (Takes Orderly)

variable {α : Type}

/-- How a run from the place `k` ends: it has come over the tokens one by one, `least` of them or
more when it has a result, and is still before the end of the tokens. An error is about the token
that it has come to. The same run without a track ends alike. -/
inductive Arrives (tokens : List Token) (k least : Nat) :
    Option (EStateM.Result ParseError Track α) → EStateM.Result ParseError Cursor α → Prop
  | ok {a : α} {j : Nat} (hleast : k + least ≤ j) (hj : j < tokens.length) :
      Arrives tokens k least (some (.ok a (.between tokens k j))) (.ok a (.nth tokens j))
  | error {e : ParseError} {j : Nat} {t : Token} (hk : k ≤ j) (ht : tokens[j]? = some t)
      (he : e.Names t) :
      Arrives tokens k least (some (.error e (.between tokens k j))) (.error e (.nth tokens j))

theorem arrives {x : Looping α} {rule : Parse α} [ho : Orderly rule] (hx : Follows x rule)
    (htakes : Takes least rule) (hclosed : Parse.Closed (tokens.map Token.lexeme))
    (hk : k < tokens.length) (hlimit : tokens.length ≤ limit) :
    Arrives tokens k least (x limit (.start (.nth tokens k))) (rule (.nth tokens k)) := by
  have hfinished := Cursor.finished_nth hclosed hk
  have hwithin : (Track.start (.nth tokens k)).Within limit := by
    refine ⟨hfinished, ?_⟩
    show (Cursor.nth tokens k).lexemes.length ≤ limit
    rw [Cursor.length_lexemes_nth]
    omega
  have hagrees : Agrees (.start (.nth tokens k)) (x limit (.start (.nth tokens k)))
    (rule (.nth tokens k)) := hx limit _ hwithin
  have hends := ho.ends (.nth tokens k)
  generalize hr : rule (.nth tokens k) = r at hagrees hends ⊢
  generalize x limit (.start (.nth tokens k)) = s at hagrees ⊢
  cases hagrees with
  | ok h =>
    obtain ⟨j, hkj, hj, rfl⟩ := h.between Track.between_self.symm hclosed (Nat.le_refl k) hk
    have hleast := htakes hfinished hr
    rw [show (Track.between tokens k j).cursor = .nth tokens j from rfl,
      Cursor.length_lexemes_nth, Cursor.length_lexemes_nth] at hleast
    exact .ok (by omega) hj
  | error h =>
    obtain ⟨j, hkj, hj, rfl⟩ := h.between Track.between_self.symm hclosed (Nat.le_refl k) hk
    have ht : tokens[j]? = some tokens[j] := List.getElem?_eq_getElem hj
    cases hends with
    | @error us expected _ _ => exact .error hkj ht (names_fault ht expected)

/-- No run goes past the end of the input. Over tokens with the end of the input last and nowhere
else, from any place among them, every rule comes to an end, and no loop asks its condition more
often than there are tokens. The cursor goes from token to token, never back, and is never moved
over the last one. With a result at least one token has been passed, but for the loop over
semicolons, which may find none; an error is about the token that the cursor has come to. -/
theorem no_run_goes_past_the_end_of_the_input
    (hclosed : Parse.Closed (tokens.map Token.lexeme)) (hk : k < tokens.length)
    (hlimit : tokens.length ≤ limit) :
    let start := Track.start (.nth tokens k)
    let c := Cursor.nth tokens k
    Arrives tokens k 1 ((Rule.identifier : Looping _) limit start) (Parse.identifier c) ∧
    Arrives tokens k 1 ((Rule.name : Looping _) limit start) (Parse.name c) ∧
    Arrives tokens k 1 ((Rule.number : Looping _) limit start) (Parse.number c) ∧
    Arrives tokens k 1 ((Rule.constant : Looping _) limit start) (Parse.constant c) ∧
    Arrives tokens k 1 ((Rule.expression : Looping _) limit start) (Parse.expression c) ∧
    Arrives tokens k 1 ((Rule.statement : Looping _) limit start) (Parse.statement c) ∧
    Arrives tokens k 0 ((Rule.semicolons : Looping _) limit start) (Parse.semicolons c) ∧
    Arrives tokens k 1 ((Rule.whole : Looping _) limit start) (Parse.whole c) :=
  ⟨arrives identifier_follows Parse.takes_identifier hclosed hk hlimit,
    arrives name_follows Parse.takes_name hclosed hk hlimit,
    arrives number_follows Parse.takes_number hclosed hk hlimit,
    arrives constant_follows Parse.takes_constant hclosed hk hlimit,
    arrives expression_follows Parse.takes_expression hclosed hk hlimit,
    arrives statement_follows Parse.takes_statement hclosed hk hlimit,
    arrives semicolons_follows Parse.takes_zero hclosed hk hlimit,
    arrives whole_follows Parse.takes_whole hclosed hk hlimit⟩

/-- A minus sign is passed before a string is found where the number should be. -/
theorem a_sign_without_a_number_is_passed :
    let tokens : List Token := [⟨.minus, "-", ⟨0, 1, 1, 1⟩⟩, ⟨.string, "'x'", ⟨1, 4, 1, 2⟩⟩,
      ⟨.endOfInput, "", ⟨4, 4, 1, 5⟩⟩]
    let e : ParseError := ⟨"number", "string 'x'", 1, 1, 2, (1, 3)⟩
    Parse.Closed (tokens.map Token.lexeme) ∧ 0 < tokens.length ∧
    Parse.number (.nth tokens 0) = .error e (.nth tokens 1) ∧
    Arrives tokens 0 1 ((Rule.number : Looping _) 3 (.start (.nth tokens 0))) (.error e (.nth tokens 1)) := by
  intro tokens e
  have hclosed : Parse.Closed (tokens.map Token.lexeme) :=
    ⟨[⟨.minus, "-"⟩, ⟨.string, "'x'"⟩], ⟨.endOfInput, ""⟩, rfl, rfl, by simp⟩
  have hlength : 0 < tokens.length := Nat.zero_lt_succ _
  have hrun : Parse.number (.nth tokens 0) = .error e (.nth tokens 1) := rfl
  obtain ⟨-, -, hnumber, -⟩ := no_run_goes_past_the_end_of_the_input hclosed hlength (Nat.le_refl 3)
  exact ⟨hclosed, hlength, hrun, hrun ▸ hnumber⟩

end Looping

end TagDialect
