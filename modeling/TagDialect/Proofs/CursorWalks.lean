-- A rule only walks forward over the tokens ahead of it. Where it fails, what it
-- says is about the token that it came to.
import TagDialect.Proofs.CursorMoves

namespace TagDialect

/-! ## Walks -/

/-- From `c` to `d` the tokens `us` are passed, one after the other. -/
structure Cursor.Walks (c : Cursor) (us : List Token) (d : Cursor) : Prop where
  ahead : c.ahead = us ++ d.ahead
  behind : d.behind = us.reverse ++ c.behind

namespace Cursor

theorem Walks.refl (c : Cursor) : c.Walks [] c := ⟨rfl, rfl⟩

theorem Walks.trans {c d e : Cursor} {us vs : List Token} (h : c.Walks us d) (h' : d.Walks vs e) :
    c.Walks (us ++ vs) e :=
  ⟨by rw [h.ahead, h'.ahead, List.append_assoc],
    by rw [h'.behind, h.behind, List.reverse_append, List.append_assoc]⟩

theorem walks_advance (c : Cursor) : ∃ us, c.Walks us c.advance := by
  unfold advance
  split
  · exact ⟨[], .refl c⟩
  · rename_i t ts hahead
    exact ⟨[t], hahead, rfl⟩

theorem walks_passOver (kind : TokenKind) (behind ts : List Token) :
    ∃ us, Walks ⟨behind, ts⟩ us (passOver kind behind ts) := by
  induction ts generalizing behind with
  | nil => exact ⟨[], .refl _⟩
  | cons t ts ih =>
    unfold passOver
    split
    · obtain ⟨us, hus⟩ := ih (t :: behind)
      have hstep : Walks ⟨behind, t :: ts⟩ [t] ⟨t :: behind, ts⟩ := ⟨rfl, rfl⟩
      exact ⟨_, hstep.trans hus⟩
    · exact ⟨[], .refl _⟩

theorem walks_advanceOver (kind : TokenKind) (c : Cursor) :
    ∃ us, c.Walks us (c.advanceOver kind) :=
  walks_passOver kind c.behind c.ahead

theorem Walks.lexemes {c d : Cursor} {us : List Token} (h : c.Walks us d) :
    c.lexemes = us.map Token.lexeme ++ d.lexemes := by
  rw [Cursor.lexemes, h.ahead, List.map_append]
  rfl

/-- A walk takes nothing back. -/
theorem Walks.length_le {c d : Cursor} {us : List Token} (h : c.Walks us d) :
    d.lexemes.length ≤ c.lexemes.length := by
  rw [h.lexemes, List.length_append]
  omega

/-- The lexemes that are passed are those of the tokens that are passed. -/
theorem Walks.eq_of_passes {c d : Cursor} {us : List Token} {ws : List Lexeme}
    (h : c.Walks us d) (hpass : Parse.Passes c ws d) : ws = us.map Token.lexeme := by
  have hcut := hpass.cut
  rw [h.lexemes] at hcut
  exact (List.append_cancel_right hcut).symm

end Cursor

namespace Parse

variable {α β : Type}

/-! ## How a run ends -/

/-- A run from `c` ends behind a walk, and a failure is about the token that comes next there. -/
inductive Ends (c : Cursor) : EStateM.Result ParseError Cursor α → Prop
  | ok {us : List Token} {a : α} {d : Cursor} (h : c.Walks us d) : Ends c (.ok a d)
  | error {us : List Token} {x : Expectation} {d : Cursor} (h : c.Walks us d) :
      Ends c (.error (d.fault x) d)

theorem Ends.after {c d : Cursor} {us : List Token} {r : EStateM.Result ParseError Cursor α}
    (hr : Ends d r) (h : c.Walks us d) : Ends c r := by
  cases hr with
  | ok h' => exact .ok (h.trans h')
  | error h' => exact .error (h.trans h')

/-- Every run of the rule ends so. -/
class Orderly (rule : Parse α) : Prop where
  ends (c : Cursor) : Ends c (rule c)

/-- Where a run ended. -/
def endOf : EStateM.Result ParseError Cursor α → Cursor
  | .ok _ d => d
  | .error _ d => d

/-- No run makes the rest longer. -/
theorem Orderly.length_le (rule : Parse α) [h : Orderly rule] (c : Cursor) :
    (endOf (rule c)).lexemes.length ≤ c.lexemes.length := by
  have hends := h.ends c
  cases hr : rule c with
  | ok a d =>
    rw [hr] at hends
    cases hends with
    | ok h => exact h.length_le
  | error e d =>
    rw [hr] at hends
    cases hends with
    | error h => exact h.length_le

/-! ## Single steps -/

instance orderly_pure (a : α) : Orderly (Pure.pure a) := ⟨fun c => .ok (.refl c)⟩

instance orderly_fail (x : Expectation) : Orderly (fail x : Parse α) := ⟨fun c => .error (.refl c)⟩

instance orderly_look : Orderly look := ⟨fun c => .ok (.refl c)⟩

instance orderly_advance : Orderly advance := by
  constructor
  intro c
  obtain ⟨us, h⟩ := c.walks_advance
  exact .ok h

instance orderly_passAll (kind : TokenKind) : Orderly (passAll kind) := by
  constructor
  intro c
  obtain ⟨us, h⟩ := c.walks_advanceOver kind
  exact .ok h

theorem Orderly.bind {x : Parse α} {f : α → Parse β} (hx : Orderly x)
    (hf : ∀ a, Orderly (f a)) : Orderly (x >>= f) := by
  constructor
  intro c
  have hends := hx.ends c
  simp only [Bind.bind, EStateM.bind]
  cases hr : x c with
  | ok a d =>
    rw [hr] at hends
    cases hends with
    | ok h => exact ((hf a).ends d).after h
  | error e d =>
    rw [hr] at hends
    cases hends with
    | error h => exact .error h

instance orderly_bind {x : Parse α} {f : α → Parse β} [hx : Orderly x] [hf : ∀ a, Orderly (f a)] :
    Orderly (x >>= f) := hx.bind hf

instance orderly_ite {p : Prop} [Decidable p] {x y : Parse α} [hx : Orderly x] [hy : Orderly y] :
    Orderly (if p then x else y) := by
  split
  · exact hx
  · exact hy

instance orderly_consume (kind : TokenKind) : Orderly (consume kind) := by
  constructor
  intro c
  unfold consume Rule.consume
  rw [look_bind]
  split
  · obtain ⟨us, h⟩ := c.walks_advance
    exact .ok h
  · exact .ok (.refl c)

instance orderly_expect (kind : TokenKind) : Orderly (expect kind) := by
  unfold expect Rule.expect
  infer_instance

instance orderly_expectAll (kinds : List TokenKind) : Orderly (expectAll kinds) := by
  induction kinds with
  | nil => exact orderly_pure _
  | cons kind kinds ih => exact orderly_bind

instance orderly_consumeAll (kinds : List TokenKind) : Orderly (consumeAll kinds) := by
  unfold consumeAll Rule.consumeAll
  infer_instance

instance orderly_spanFrom (start : Span) : Orderly (spanFrom start) := by
  unfold spanFrom Rule.spanFrom
  infer_instance

/-! ## The rules -/

instance orderly_itemsAfter {separator : TokenKind} {item : Parse α} [Orderly item] (fuel : Nat) :
    Orderly (itemsAfter separator item fuel) := by
  induction fuel with
  | zero => exact orderly_pure _
  | succ fuel ih =>
    unfold itemsAfter
    infer_instance

instance orderly_items {separator : TokenKind} {item : Parse α} [Orderly item] :
    Orderly (items separator item) :=
  ⟨fun c => (orderly_itemsAfter (c.ahead.length + 1)).ends c⟩

instance orderly_itemsBy {separator : TokenKind} {item : Parse α} [Orderly item] :
    Orderly (itemsBy separator item) := by
  unfold itemsBy Rule.itemsBy
  infer_instance

instance orderly_identifier : Orderly identifier := by
  unfold identifier Rule.identifier
  infer_instance

instance orderly_name : Orderly name := by
  unfold name Rule.name
  infer_instance

instance orderly_number : Orderly number := by
  refine orderly_look.bind fun _ => (orderly_consume _).bind fun _ => orderly_look.bind fun _ => ?_
  dsimp only
  split
  · infer_instance
  · infer_instance

instance orderly_constant : Orderly constant := by
  unfold constant Rule.constant
  infer_instance

instance orderly_map : Orderly map := by
  unfold map Rule.map
  infer_instance

instance orderly_expression : Orderly expression := by
  unfold expression Rule.expression
  infer_instance

instance orderly_argument : Orderly argument := by
  unfold argument Rule.argument
  infer_instance

instance orderly_arguments : Orderly arguments := by
  unfold arguments Rule.arguments
  infer_instance

instance orderly_timeUnit : Orderly timeUnit := by
  refine orderly_look.bind fun _ => ?_
  split <;> infer_instance

instance orderly_version : Orderly version := by
  unfold version Rule.version
  infer_instance

instance orderly_retention : Orderly retention := by
  unfold retention Rule.retention
  infer_instance

instance orderly_tagOptions : Orderly tagOptions := by
  unfold tagOptions Rule.tagOptions
  infer_instance

instance orderly_replaceTag (createIfMissing : Bool) : Orderly (replaceTag createIfMissing) := by
  unfold replaceTag Rule.replaceTag
  infer_instance

instance orderly_createTag : Orderly createTag := by
  unfold createTag Rule.createTag
  infer_instance

instance orderly_tagAction : Orderly tagAction := by
  refine orderly_look.bind fun _ => ?_
  split <;> infer_instance

instance orderly_statement : Orderly statement := by
  refine orderly_look.bind fun _ => orderly_look.bind fun _ => ?_
  split <;> infer_instance

instance orderly_semicolons : Orderly semicolons := by
  unfold semicolons Rule.semicolons
  infer_instance

instance orderly_whole : Orderly whole := by
  unfold whole Rule.whole
  infer_instance

end Parse

end TagDialect
