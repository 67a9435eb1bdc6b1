-- The loops of the parser come to an end. Each round takes a token, and the end of the input, which
-- is none that a round takes, is always ahead.
import TagDialect.LoopingParser
import TagDialect.Proofs.RuleReadings

namespace TagDialect

namespace Track

/-- From `p` on, one token after the other is passed until `q`, and none is the end of the input. -/
inductive Onward : Track → Track → Prop
  | refl (p : Track) : Onward p p
  | step {p q : Track} (hk : p.cursor.kind ≠ .endOfInput) (h : p.advance.Onward q) : Onward p q

theorem Onward.trans {p q r : Track} (h : p.Onward q) (h' : q.Onward r) : p.Onward r := by
  induction h with
  | refl => exact h'
  | step hk _ ih => exact .step hk (ih h')

theorem Onward.advance {p : Track} (hk : p.cursor.kind ≠ .endOfInput) : p.Onward p.advance :=
  .step hk (.refl _)

/-- The end of the input stays ahead. -/
theorem Onward.finished {p q : Track} (h : p.Onward q) (hp : Finished p.cursor.lexemes) :
    Finished q.cursor.lexemes := by
  induction h with
  | refl => exact hp
  | step hk _ ih => exact ih (Parse.Passes.advance hp hk).finished

theorem Onward.length_le {p q : Track} (h : p.Onward q) (hp : Finished p.cursor.lexemes) :
    q.cursor.lexemes.length ≤ p.cursor.lexemes.length := by
  induction h with
  | refl => exact Nat.le_refl _
  | step hk _ ih =>
    have hpass := Parse.Passes.advance hp hk
    refine Nat.le_trans (ih hpass.finished) ?_
    rw [Cursor.lexemes_eq hp]
    exact Nat.le_succ _

/-- The end of the input is ahead, and there are no more tokens ahead than the limit says. -/
structure Within (limit : Nat) (p : Track) : Prop where
  finished : Finished p.cursor.lexemes
  length_le : p.cursor.lexemes.length ≤ limit

theorem Onward.within {limit : Nat} {p q : Track} (h : p.Onward q) (hp : p.Within limit) :
    q.Within limit :=
  ⟨h.finished hp.finished, Nat.le_trans (h.length_le hp.finished) hp.length_le⟩

end Track

namespace Looping

open Rule Steps Loops

variable {α β : Type} {limit : Nat} {p q : Track}

/-! ## Runs that end as a run without tracks -/

/-- From `p` on, a run goes forward and ends as another one does, at the same place. -/
inductive Agrees (p : Track) :
    Option (EStateM.Result ParseError Track α) → EStateM.Result ParseError Cursor α → Prop
  | ok {a : α} {q : Track} (h : p.Onward q) : Agrees p (some (.ok a q)) (.ok a q.cursor)
  | error {e : ParseError} {q : Track} (h : p.Onward q) :
      Agrees p (some (.error e q)) (.error e q.cursor)

theorem Agrees.after {r : Option (EStateM.Result ParseError Track α)}
    {s : EStateM.Result ParseError Cursor α} (h : Agrees q r s) (hpq : p.Onward q) :
    Agrees p r s := by
  cases h with
  | ok h => exact .ok (hpq.trans h)
  | error h => exact .error (hpq.trans h)

section
variable {x y : Looping α} {rule other : Parse α} {f : α → Looping β} {g : α → Parse β}

theorem bind_of_ok {a : α} (f : α → Looping β) (h : x limit p = some (.ok a q)) :
    (x >>= f) limit p = f a limit q := by
  simp only [bind, h, Option.bind_some]

theorem Agrees.bind (hx : Agrees p (x limit p) (rule p.cursor))
    (hf : ∀ a q, p.Onward q → rule p.cursor = .ok a q.cursor →
      Agrees q (f a limit q) (g a q.cursor)) :
    Agrees p ((x >>= f) limit p) ((rule >>= g) p.cursor) := by
  simp only [Bind.bind, EStateM.bind]
  generalize x limit p = r at hx ⊢
  generalize hs : rule p.cursor = s at hx
  cases hx with
  | ok h => exact (hf _ _ h hs).after h
  | error h => exact .error h

theorem Agrees.ite {b : Prop} [Decidable b] {c : Cursor}
    (hx : b → Agrees p (x limit p) (rule c)) (hy : ¬ b → Agrees p (y limit p) (other c)) :
    Agrees p ((if b then x else y) limit p) ((if b then rule else other) c) := by
  split
  · exact hx ‹_›
  · exact hy ‹_›

end

/-- The runs of the two rules agree, with the end of the input ahead and no more tokens ahead than
rounds are allowed. -/
def Follows (x : Looping α) (rule : Parse α) : Prop :=
  ∀ (limit : Nat) (p : Track), p.Within limit → Agrees p (x limit p) (rule p.cursor)

namespace Follows

variable {x y : Looping α} {rule other : Parse α} {f : α → Looping β} {g : α → Parse β}

theorem pure (a : α) : Follows (Pure.pure a) (Pure.pure a) := fun _ p _ => .ok (.refl p)

theorem fail (expected : Expectation) :
    Follows (Steps.fail expected : Looping α) (Parse.fail expected) :=
  fun _ p _ => .error (.refl p)

theorem bind (hx : Follows x rule) (hf : ∀ a, Follows (f a) (g a)) :
    Follows (x >>= f) (rule >>= g) := fun limit p hp =>
  Agrees.bind (hx limit p hp) fun a q h _ => hf a limit q (h.within hp)

theorem ite {b : Prop} [Decidable b] (hx : Follows x rule) (hy : Follows y other) :
    Follows (if b then x else y) (if b then rule else other) := fun limit p hp =>
  Agrees.ite (fun _ => hx limit p hp) fun _ => hy limit p hp

/-- What comes behind a look ahead depends on the cursor. -/
theorem look {f : Cursor → Looping β} {g : Cursor → Parse β}
    (h : ∀ (limit : Nat) (p : Track), p.Within limit →
      Agrees p (f p.cursor limit p) (g p.cursor p.cursor)) :
    Follows (Steps.look >>= f) (Parse.look >>= g) := h

theorem look_any {f : Cursor → Looping β} {g : Cursor → Parse β} (h : ∀ c, Follows (f c) (g c)) :
    Follows (Steps.look >>= f) (Parse.look >>= g) := look fun limit p hp =>
  h p.cursor limit p hp

end Follows

/-- The end of the input is not passed. -/
theorem Agrees.advance {f : Token → Looping β} {g : Token → Parse β}
    (hp : p.Within limit) (hk : p.cursor.kind ≠ .endOfInput) (hf : ∀ t, Follows (f t) (g t)) :
    Agrees p ((Steps.advance >>= f : Looping β) limit p) ((Parse.advance >>= g) p.cursor) :=
  have hon := Track.Onward.advance hk
  (hf p.cursor.current limit p.advance (hon.within hp)).after hon

/-! ## Single tokens -/

section
variable {kind : TokenKind} {kinds : List TokenKind}

theorem consume_follows (hk : kind ≠ .endOfInput) : Follows (consume kind) (Parse.consume kind) :=
  .look fun _ _ hp => .ite (fun h => .advance hp (h ▸ hk) fun _ => .pure true) fun _ =>
    Follows.pure false _ _ hp

theorem expect_follows (hk : kind ≠ .endOfInput) : Follows (expect kind) (Parse.expect kind) :=
  .look fun _ _ hp => .ite (fun h => .ok (.advance (h ▸ hk))) fun _ => Follows.fail _ _ _ hp

theorem expectAll_follows (hk : .endOfInput ∉ kinds) :
    Follows (expectAll kinds) (Parse.expectAll kinds) := by
  induction kinds with
  | nil => exact .pure ()
  | cons kind kinds ih => exact (expect_follows (by grind)).bind fun _ => ih (by grind)

theorem consumeAll_follows (hk : .endOfInput ∉ kinds) :
    Follows (consumeAll kinds) (Parse.consumeAll kinds) :=
  .look_any fun _ => .ite ((expectAll_follows hk).bind fun _ => .pure true) (.pure false)

theorem spanFrom_follows (start : Span) : Follows (spanFrom start) (Parse.spanFrom start) :=
  .look_any fun _ => .pure _

end

/-! ## Loops -/

theorem isNext_of_kind {kind : TokenKind} (h : p.cursor.kind = kind) :
    isNext kind limit p = some (.ok true p) := by
  show some (EStateM.Result.ok (decide (p.cursor.kind = kind)) p) = _
  rw [decide_eq_true h]

theorem isNext_of_other {kind : TokenKind} (h : p.cursor.kind ≠ kind) :
    isNext kind limit p = some (.ok false p) := by
  show some (EStateM.Result.ok (decide (p.cursor.kind = kind)) p) = _
  rw [decide_eq_false h]

/-- Where each round leads to another one, no number of rounds is enough. -/
theorem rounds_eq_none {again : Looping Bool} {item : Looping α} (inside : Track → Prop)
    (h : ∀ p, inside p → ∃ q a r,
      again limit p = some (.ok true q) ∧ item limit q = some (.ok a r) ∧ inside r)
    (hp : inside p) (n : Nat) : rounds again item n limit p = none := by
  induction n generalizing p with
  | zero => rfl
  | succ n ih =>
    obtain ⟨q, a, r, hagain, hitem, hr⟩ := h p hp
    have hrest : (rounds again item n >>= fun as => Pure.pure (a :: as)) limit r = none := by
      simp only [bind, ih hr, Option.bind_none]
    rwa [rounds, bind_of_ok _ hagain, if_pos rfl, bind_of_ok _ hitem]

/-- Behind the end of the tokens the last one is seen again and again. A loop that takes it does
not end. -/
theorem passAll_behind_the_end {kind : TokenKind} {t : Token} {behind : List Token}
    (ht : t.kind = kind) (hp : p.cursor = ⟨t :: behind, []⟩) :
    (passAll kind : Looping (List Token)) limit p = none := by
  refine rounds_eq_none (fun q => q.cursor = ⟨t :: behind, []⟩) ?_ hp limit
  intro q hq
  have hk : q.cursor.kind = kind := by
    rw [hq]
    exact ht
  exact ⟨q, _, q.advance, isNext_of_kind hk, rfl, by simp [Track.advance, hq, Cursor.advance]⟩

section
variable {separator : TokenKind} {item : Looping α} {rule : Parse α}

/-- Each round takes a separator, so there are no more rounds than tokens. -/
theorem rounds_agree (hi : Follows item rule) (hs : separator ≠ .endOfInput) {n fuel : Nat}
    (hp : p.Within limit) (hn : p.cursor.lexemes.length ≤ n)
    (hfuel : p.cursor.lexemes.length ≤ fuel) :
    Agrees p (rounds (consume separator) item n limit p)
      (Parse.itemsAfter separator rule fuel p.cursor) := by
  have hpos : 0 < p.cursor.lexemes.length := by
    rw [Cursor.lexemes_eq hp.finished]
    exact Nat.zero_lt_succ _
  induction n generalizing p fuel with
  | zero => omega
  | succ n ih =>
    obtain ⟨fuel, rfl⟩ := Nat.exists_eq_succ_of_ne_zero (n := fuel) (by omega)
    rw [rounds, Parse.itemsAfter]
    refine .bind (consume_follows hs limit p hp) fun taken q hq htaken => ?_
    cases taken with
    | false => exact .ok (.refl q)
    | true =>
      obtain ⟨-, hqp⟩ : p.cursor.kind = separator ∧ q.cursor = p.cursor.advance := by
        simpa using Parse.consume_eq_ok.mp htaken
      have hq' := hq.within hp
      refine .bind (hi limit q hq') fun a r hr _ => ?_
      have hr' := hr.within hq'
      have hfewer := hr.length_le hq'.finished
      -- the separator is no longer ahead, so one round less is enough
      rw [Cursor.lexemes_eq hp.finished, List.length_cons, ← hqp] at hn hfuel
      refine .bind (ih hr' (by omega) (by omega) ?_) fun as s _ _ => .ok (.refl s)
      rw [Cursor.lexemes_eq hr'.finished]
      exact Nat.zero_lt_succ _

theorem items_follows (hi : Follows item rule) (hs : separator ≠ .endOfInput) :
    Follows (itemsAfter separator item) (Parse.items separator rule) := fun limit p hp =>
  rounds_agree hi hs hp hp.length_le (by simp [Cursor.lexemes])

theorem itemsBy_follows (hi : Follows item rule) (hs : separator ≠ .endOfInput) :
    Follows (itemsBy separator item) (Parse.itemsBy separator rule) :=
  hi.bind fun _ => (items_follows hi hs).bind fun _ => .pure _

end

/-- Each round passes a token of the kind, so there are no more rounds than tokens. -/
theorem rounds_over {kind : TokenKind} (hk : kind ≠ .endOfInput) {n : Nat}
    (hp : Finished p.cursor.lexemes) (hn : p.cursor.lexemes.length ≤ n) :
    ∃ q, p.Onward q ∧ q.cursor = p.cursor.advanceOver kind ∧
      rounds (isNext kind) advance n limit p =
        some (.ok (p.cursor.ahead.takeWhile fun t => t.kind = kind) q) := by
  induction n generalizing p with
  | zero =>
    rw [Cursor.lexemes_eq hp] at hn
    simp at hn
  | succ n ih =>
    obtain ⟨t, ts, hahead⟩ : ∃ t ts, p.cursor.ahead = t :: ts := by
      obtain ⟨t, ts, hahead, -⟩ := List.map_eq_cons_iff.mp (Cursor.lexemes_eq hp)
      exact ⟨t, ts, hahead⟩
    have hcurrent : p.cursor.current = t := by simp [Cursor.current, Cursor.peek, hahead]
    have hadvance : p.advance.cursor = ⟨t :: p.cursor.behind, ts⟩ := by
      simp [Track.advance, Cursor.advance, hahead]
    have hkind : p.cursor.kind = t.kind := congrArg Token.kind hcurrent
    by_cases ht : t.kind = kind
    · have hnext : p.cursor.kind = kind := hkind.trans ht
      have hon := Track.Onward.advance (hnext ▸ hk)
      have hpass : (advance : Looping Token) limit p = some (.ok t p.advance) := by
        rw [← hcurrent]
        rfl
      have hfewer : p.advance.cursor.lexemes.length ≤ n := by
        rw [Cursor.lexemes_eq hp, List.length_cons] at hn
        exact Nat.le_of_succ_le_succ hn
      obtain ⟨r, hr, hover, hrest⟩ := ih (hon.finished hp) hfewer
      refine ⟨r, hon.trans hr, ?_, ?_⟩
      · rw [hover, hadvance, Cursor.advanceOver, Cursor.advanceOver, hahead, Cursor.passOver,
          if_pos ht]
      · rw [rounds, bind_of_ok _ (isNext_of_kind hnext), if_pos rfl, bind_of_ok _ hpass,
          bind_of_ok _ hrest, hadvance, hahead, List.takeWhile_cons_of_pos (by simp [ht])]
        rfl
    · refine ⟨p, .refl p, ?_, ?_⟩
      · rw [Cursor.advanceOver, hahead, Cursor.passOver, if_neg ht, ← hahead]
      · rw [rounds, bind_of_ok _ (isNext_of_other (hkind ▸ ht)), hahead,
          List.takeWhile_cons_of_neg (by simp [ht])]
        rfl

theorem passAll_follows {kind : TokenKind} (hk : kind ≠ .endOfInput) :
    Follows (passAll kind) (Parse.passAll kind) := by
  intro limit p hp
  obtain ⟨q, hq, hover, hrounds⟩ := rounds_over hk hp.finished hp.length_le
  show Agrees p (rounds (isNext kind) advance limit limit p)
    (.ok (p.cursor.ahead.takeWhile fun t => t.kind = kind) (p.cursor.advanceOver kind))
  rw [hrounds, ← hover]
  exact .ok hq

/-! ## The rules -/

theorem identifier_follows : Follows identifier Parse.identifier := by
  refine .look fun _ p hp => .ite (fun h => ?_) fun _ => .ite (fun h => ?_) fun _ =>
    Follows.fail _ _ p hp
  · exact .advance hp (by simp [Cursor.kind, h]) fun _ => .pure _
  · have hk : p.cursor.kind ≠ .endOfInput := by
      rcases Parse.canBeIdentifier_cases h with h | h | ⟨k, h, -⟩ <;> simp [Cursor.kind, h]
    exact .advance hp hk fun _ => .pure _

theorem name_follows : Follows name Parse.name :=
  .look_any fun _ => (itemsBy_follows identifier_follows (by simp)).bind fun _ =>
    (spanFrom_follows _).bind fun _ => .pure _

theorem number_follows : Follows number Parse.number := by
  refine .look_any fun _ => (consume_follows (by simp)).bind fun _ => .look fun _ p hp => ?_
  generalize hk : p.cursor.current.kind = kind
  cases kind with
  | number kind =>
    exact .advance hp (by simp [Cursor.kind, hk]) fun _ =>
      (spanFrom_follows _).bind fun _ => .pure _
  | _ => exact Follows.fail _ _ p hp

theorem constant_follows : Follows constant Parse.constant := by
  refine .look fun _ p hp => .ite (fun _ => ?_) fun _ => .ite (fun _ => ?_) fun _ =>
    .ite (fun h => ?_) fun _ => .ite (fun _ => ?_) fun _ => Follows.fail _ _ p hp
  · exact number_follows.bind (fun _ => .pure _) _ p hp
  · exact identifier_follows.bind (fun _ => (expect_follows (by simp)).bind fun _ => .pure _) _ p hp
  · exact .advance hp (by rcases h with h | h <;> simp [Cursor.kind, h]) fun _ => .pure _
  · exact (passAll_follows (by simp)).bind
      (fun _ => (spanFrom_follows _).bind fun _ => .pure _) _ p hp

theorem map_follows : Follows map Parse.map :=
  (expect_follows (by simp)).bind fun _ => (expect_follows (by simp)).bind fun _ =>
    (itemsBy_follows constant_follows (by simp)).bind fun _ =>
      (consume_follows (by simp)).bind fun _ =>
        .ite ((spanFrom_follows _).bind fun _ => .pure _) (.fail _)

theorem expression_follows : Follows expression Parse.expression :=
  .look_any fun _ => .ite map_follows (constant_follows.bind fun _ => .pure _)

theorem argument_follows : Follows argument Parse.argument :=
  .look_any fun _ => .ite
    (identifier_follows.bind fun _ => (expect_follows (by simp)).bind fun _ =>
      expression_follows.bind fun _ => .pure _)
    (expression_follows.bind fun _ => .pure _)

theorem arguments_follows : Follows arguments Parse.arguments :=
  (expect_follows (by simp)).bind fun _ => (consume_follows (by simp)).bind fun _ =>
    .ite (.pure _) ((itemsBy_follows argument_follows (by simp)).bind fun _ =>
      (consume_follows (by simp)).bind fun _ => .ite (.pure _) (.fail _))

theorem timeUnit_follows : Follows timeUnit Parse.timeUnit := by
  refine .look fun _ p hp => ?_
  generalize hk : p.cursor.kind = kind
  cases kind with
  | keyword k =>
    cases k with
    | days => exact .advance hp (by simp [hk]) fun _ => .pure _
    | hours => exact .advance hp (by simp [hk]) fun _ => .pure _
    | minutes => exact .advance hp (by simp [hk]) fun _ => .pure _
    | _ => exact Follows.fail _ _ p hp
  | _ => exact Follows.fail _ _ p hp

theorem version_follows : Follows version Parse.version :=
  (consume_follows (by simp)).bind fun _ => .ite
    ((expectAll_follows (by simp)).bind fun _ => number_follows.bind fun _ => .pure _) (.pure _)

theorem retention_follows : Follows retention Parse.retention :=
  (consume_follows (by simp)).bind fun _ => .ite
    (number_follows.bind fun _ => timeUnit_follows.bind fun _ => .pure _) (.pure _)

theorem tagOptions_follows : Follows tagOptions Parse.tagOptions :=
  version_follows.bind fun _ => retention_follows.bind fun _ => .pure _

theorem replaceTag_follows (createIfMissing : Bool) :
    Follows (replaceTag createIfMissing) (Parse.replaceTag createIfMissing) :=
  (expect_follows (by simp)).bind fun _ => identifier_follows.bind fun _ =>
    tagOptions_follows.bind fun _ => .pure _

theorem createTag_follows : Follows createTag Parse.createTag :=
  (consume_follows (by simp)).bind fun _ => .ite
    ((expect_follows (by simp)).bind fun _ => replaceTag_follows true)
    ((consume_follows (by simp)).bind fun _ => .ite
      ((consumeAll_follows (by simp)).bind fun _ => identifier_follows.bind fun _ =>
        tagOptions_follows.bind fun _ => .pure _)
      (.fail _))

theorem tagAction_follows : Follows tagAction Parse.tagAction := by
  refine .look fun _ p hp => ?_
  generalize hk : p.cursor.kind = kind
  cases kind with
  | keyword k =>
    cases k with
    | create =>
      exact .advance hp (by simp [hk]) fun _ => createTag_follows.bind fun _ => .pure _
    | replace =>
      exact .advance hp (by simp [hk]) fun _ => (replaceTag_follows false).bind fun _ => .pure _
    | delete =>
      exact .advance hp (by simp [hk]) fun _ => (expect_follows (by simp)).bind fun _ =>
        (consumeAll_follows (by simp)).bind fun _ => identifier_follows.bind fun _ => .pure _
    | rename =>
      exact .advance hp (by simp [hk]) fun _ => (expect_follows (by simp)).bind fun _ =>
        identifier_follows.bind fun _ => (expect_follows (by simp)).bind fun _ =>
          identifier_follows.bind fun _ => .pure _
    | _ => exact Follows.fail _ _ p hp
  | _ => exact Follows.fail _ _ p hp

theorem statement_follows : Follows statement Parse.statement := by
  refine .look_any fun _ => .look fun _ p hp => ?_
  generalize hk : p.cursor.kind = kind
  cases kind with
  | keyword k =>
    cases k with
    | call =>
      exact .advance hp (by simp [hk]) fun _ => name_follows.bind fun _ =>
        arguments_follows.bind fun _ => (spanFrom_follows _).bind fun _ => .pure _
    | «show» =>
      exact (expectAll_follows (by simp)).bind (fun _ => name_follows.bind fun _ =>
        (spanFrom_follows _).bind fun _ => .pure _) _ p hp
    | alter =>
      exact (expectAll_follows (by simp)).bind (fun _ => name_follows.bind fun _ =>
        tagAction_follows.bind fun _ => (spanFrom_follows _).bind fun _ => .pure _) _ p hp
    | _ => exact Follows.fail _ _ p hp
  | _ => exact Follows.fail _ _ p hp

theorem semicolons_follows : Follows semicolons Parse.semicolons :=
  (passAll_follows (by simp)).bind fun _ => .pure _

theorem whole_follows : Follows whole Parse.whole :=
  statement_follows.bind fun _ => semicolons_follows.bind fun _ =>
    .look_any fun _ => .ite (.pure _) (.fail _)

end Looping

end TagDialect
