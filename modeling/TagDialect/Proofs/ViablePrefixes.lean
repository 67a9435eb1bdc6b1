-- Where a rule fails, what it has passed could still have become what it reads:
-- other lexemes ahead would have made a derivation of it. Rules keep this when
-- they are put together, so it is said once for each way to do that.
import TagDialect.Proofs.StatementReadings

namespace TagDialect

/-! ## Prefixes that can be gone on with -/

/-- The end of the input is not among the lexemes. -/
def Inner (ws : List Lexeme) : Prop := ∀ w ∈ ws, w.kind ≠ .endOfInput

@[simp] theorem Inner.nil : Inner [] := by simp [Inner]

@[simp] theorem Inner.cons_iff {w : Lexeme} {ws : List Lexeme} :
    Inner (w :: ws) ↔ w.kind ≠ .endOfInput ∧ Inner ws := by simp [Inner]

@[simp] theorem Inner.append_iff {ws vs : List Lexeme} : Inner (ws ++ vs) ↔ Inner ws ∧ Inner vs := by
  simp only [Inner, List.mem_append]
  grind

/-- A lexeme of the kind, as a statement may spell it. -/
def TokenKind.spelled (kind : TokenKind) : Lexeme where
  kind := kind
  text := match kind with
    | .keyword k => k.text
    | .leftParen => "("
    | .rightParen => ")"
    | .arrow => "=>"
    | .string => "''"
    | .number _ => "0"
    | .endOfInput => ""
    | _ => "x"

@[simp] theorem kind_spelled (kind : TokenKind) : kind.spelled.kind = kind := rfl

theorem spell_spelled (kinds : List TokenKind) : Spell kinds (kinds.map TokenKind.spelled) := by
  rw [Spell, List.map_map]
  exact List.map_id kinds

theorem inner_spelled {kinds : List TokenKind} (h : .endOfInput ∉ kinds) :
    Inner (kinds.map TokenKind.spelled) := by
  intro w hw
  obtain ⟨kind, hk, rfl⟩ := List.mem_map.mp hw
  exact fun heq => h (heq ▸ hk)

/-- A name where one is missing. -/
def sampleName : Identifier := ⟨"x", false, .origin⟩

theorem derives_sampleName : sampleName.Derives [TokenKind.identifier.spelled] := .word rfl

/-- A number where one is missing. -/
def sampleNumber : Number := ⟨.integer, "0", false, .origin⟩

theorem derives_sampleNumber : sampleNumber.Derives [(TokenKind.number .integer).spelled] :=
  .positive rfl

/-- A target where one is missing. -/
def sampleTarget : Name := ⟨[sampleName], .origin⟩

theorem derives_sampleTarget : sampleTarget.Derives [TokenKind.identifier.spelled] :=
  .parts (.items derives_sampleName .nil)

/-- What is done to tags where that is missing. -/
def sampleAction : Action := .deleteTag false sampleName

def sampleActionWords : List Lexeme :=
  [(TokenKind.keyword .delete).spelled, (TokenKind.keyword .tag).spelled,
    TokenKind.identifier.spelled]

theorem derives_sampleAction : sampleAction.DeriveTagAction sampleActionWords := by
  have hdelete : Spell [.keyword .delete, .keyword .tag]
      ([.keyword .delete, .keyword .tag].map TokenKind.spelled) := spell_spelled _
  exact .deleteTag hdelete .absent derives_sampleName

theorem inner_sampleAction : Inner sampleActionWords := by simp [sampleActionWords]

/-- More lexemes behind these make a derivation. -/
def Viable {α : Type} (production : List Lexeme → α → Prop) (ws : List Lexeme) : Prop :=
  ∃ vs a, production (ws ++ vs) a ∧ Inner vs

section
variable {α β : Type} {production : List Lexeme → α → Prop} {production' : List Lexeme → β → Prop}

/-- What is viable behind `us` is viable with `us` before it. -/
theorem Viable.behind {us ws : List Lexeme} (h : Viable (fun vs a => production (us ++ vs) a) ws) :
    Viable production (us ++ ws) := by
  obtain ⟨vs, a, ha, hvs⟩ := h
  exact ⟨vs, a, by rwa [List.append_assoc], hvs⟩

/-- What is viable as a part is viable as the whole, when something can come behind the part. -/
theorem Viable.goOn {ws : List Lexeme} (h : Viable production ws)
    (hrest : ∀ vs a, production vs a → Viable (fun us b => production' (vs ++ us) b) []) :
    Viable production' ws := by
  obtain ⟨vs, a, ha, hvs⟩ := h
  obtain ⟨us, b, hb, hus⟩ := hrest _ a ha
  exact ⟨vs ++ us, b, by simpa using hb, by simp [hvs, hus]⟩

theorem Viable.imp {part : List Lexeme → α → Prop} {ws : List Lexeme} (h : Viable part ws)
    (hpart : ∀ vs a, part vs a → production vs a) : Viable production ws := by
  obtain ⟨vs, a, ha, hvs⟩ := h
  exact ⟨vs, a, hpart _ a ha, hvs⟩

theorem Viable.before (us : List Lexeme) (h : Viable (fun vs a => production (us ++ vs) a) [])
    (hu : Inner us) : Viable production [] := by
  obtain ⟨vs, a, ha, hvs⟩ := h
  exact ⟨us ++ vs, a, ha, by simp [hu, hvs]⟩

end

namespace Parse

variable {α β : Type}

/-! ## Failing runs -/

theorem bind_eq_error {x : Parse α} {f : α → Parse β} {c d : Cursor} {e : ParseError} :
    (x >>= f) c = .error e d ↔ x c = .error e d ∨ ∃ a c', x c = .ok a c' ∧ f a c' = .error e d := by
  simp only [bind, EStateM.bind]
  cases x c with
  | ok a c' =>
    constructor
    · intro h
      exact .inr ⟨a, c', rfl, h⟩
    · rintro (h | ⟨_, _, ⟨rfl, rfl⟩, h⟩)
      · exact nomatch h
      · exact h
  | error e' c' => simp

theorem pure_ne_error {a : α} {c d : Cursor} {e : ParseError} :
    (pure a : Parse α) c ≠ .error e d := by
  intro h
  exact nomatch h

theorem advance_ne_error {c d : Cursor} {e : ParseError} : advance c ≠ .error e d := by
  intro h
  exact nomatch h

theorem spanFrom_ne_error {start : Span} {c d : Cursor} {e : ParseError} :
    spanFrom start c ≠ .error e d := by
  intro h
  exact nomatch h

theorem consume_ne_error {kind : TokenKind} {c d : Cursor} {e : ParseError} :
    consume kind c ≠ .error e d := by
  unfold consume Rule.consume
  rw [look_bind]
  split
  · exact pure_ne_error
  · exact pure_ne_error

theorem fail_eq_error {x : Expectation} {c d : Cursor} {e : ParseError} :
    (fail x : Parse α) c = .error e d ↔ e = c.fault x ∧ d = c := by
  show EStateM.Result.error (c.fault x) c = .error e d ↔ _
  grind

/-- Behind a step that cannot fail it is the rest that failed. -/
theorem rest_of_error {x : Parse α} {f : α → Parse β} {c d : Cursor} {e : ParseError}
    (hx : ∀ {e d}, x c ≠ .error e d) (h : (x >>= f) c = .error e d) :
    ∃ a c', x c = .ok a c' ∧ f a c' = .error e d :=
  (bind_eq_error.mp h).resolve_left hx

/-- Before a step that cannot fail it is the rule itself that failed. -/
theorem rule_of_error {x : Parse α} {f : α → Parse β} {c d : Cursor} {e : ParseError}
    (hf : ∀ {a c e d}, f a c ≠ .error e d) (h : (x >>= f) c = .error e d) : x c = .error e d := by
  rcases bind_eq_error.mp h with h | ⟨a, c', -, h⟩
  · exact h
  · exact absurd h hf

theorem bind_ne_error {x : Parse α} {f : α → Parse β} (hx : ∀ {c d e}, x c ≠ .error e d)
    (hf : ∀ {a c d e}, f a c ≠ .error e d) {c d : Cursor} {e : ParseError} :
    (x >>= f) c ≠ .error e d := by
  intro h
  obtain ⟨a, c', -, h⟩ := rest_of_error hx h
  exact hf h

/-! ## Rules that stop in a viable prefix -/

/-- A run of the rule that fails has passed what could still have been derived. -/
def Stops (rule : Parse α) (production : List Lexeme → α → Prop) : Prop :=
  ∀ {c d e}, Finished c.lexemes → rule c = .error e d → ∃ ws, Passes c ws d ∧ Viable production ws

theorem expect_stops {kind : TokenKind} {c d : Cursor} {e : ParseError}
    (h : expect kind c = .error e d) : d = c := by
  unfold expect Rule.expect at h
  rw [look_bind] at h
  split at h
  · exact absurd h advance_ne_error
  · exact (fail_eq_error.mp h).2

theorem expectAll_stops {kinds : List TokenKind} {c d : Cursor} {e : ParseError}
    (hc : Finished c.lexemes) (hk : .endOfInput ∉ kinds) (h : expectAll kinds c = .error e d) :
    ∃ ks vs, Passes c ks d ∧ Spell kinds (ks ++ vs) ∧ Inner vs := by
  induction kinds generalizing c with
  | nil => exact absurd h pure_ne_error
  | cons kind kinds ih =>
    rcases bind_eq_error.mp h with h | ⟨t, c', ht, h⟩
    · obtain rfl := expect_stops h
      exact ⟨[], _, .refl hc, spell_spelled (kind :: kinds), inner_spelled hk⟩
    · obtain ⟨htk, hpass⟩ := expect_sound hc (by grind) ht
      obtain ⟨ks, vs, hpass', hspell, hvs⟩ := ih hpass.finished (by grind) h
      refine ⟨t.lexeme :: ks, vs, hpass.trans hpass', ?_, hvs⟩
      simpa [Spell, Token.lexeme, htk] using hspell

theorem consumeAll_stops {kinds : List TokenKind} {c d : Cursor} {e : ParseError}
    (hc : Finished c.lexemes) (hk : .endOfInput ∉ kinds) (h : consumeAll kinds c = .error e d) :
    ∃ ks vs, Passes c ks d ∧ Spell kinds (ks ++ vs) ∧ Inner vs := by
  unfold consumeAll Rule.consumeAll at h
  rw [look_bind] at h
  split at h
  · exact expectAll_stops hc hk (rule_of_error pure_ne_error h)
  · exact absurd h pure_ne_error

/-- There is something to read, and a run of the rule that fails has passed what could still
have become it. -/
structure Open (rule : Parse α) (production : List Lexeme → α → Prop) : Prop where
  sample : Viable production []
  stops : Stops rule production

section
variable {production : List Lexeme → β → Prop} {f : α → Parse β}

theorem Open.pure {b : β} (h : production [] b) : Open (Pure.pure b) production :=
  ⟨⟨[], b, h, .nil⟩, fun _ h => absurd h pure_ne_error⟩

theorem Open.fail {x : Expectation} (h : Viable production []) :
    Open (fail x : Parse β) production := by
  refine ⟨h, ?_⟩
  intro c d e hc herror
  obtain ⟨-, rfl⟩ := fail_eq_error.mp herror
  exact ⟨[], .refl hc, h⟩

/-- A rule that never fails never stops. -/
theorem Open.of_total {rule : Parse β} (h : Viable production [])
    (hrule : ∀ {c d e}, rule c ≠ .error e d) : Open rule production :=
  ⟨h, fun _ herror => absurd herror hrule⟩

/-- One rule after another is open, when the second one is open behind all that the first one
reads. -/
theorem Open.bind {x : Parse α} {part : List Lexeme → α → Prop}
    (hsound : ∀ {c d a}, Finished c.lexemes → x c = .ok a d → ∃ ws, part ws a ∧ Passes c ws d)
    (hx : Open x part)
    (hf : ∀ ws a, part ws a → Open (f a) fun vs b => production (ws ++ vs) b) :
    Open (x >>= f) production := by
  have hrest : ∀ ws a, part ws a → Viable (fun vs b => production (ws ++ vs) b) [] :=
    fun ws a ha => (hf ws a ha).sample
  refine ⟨hx.sample.goOn hrest, ?_⟩
  intro c d e hc h
  -- What the first rule can still become is gone on with by a sample of the second one.
  rcases bind_eq_error.mp h with h | ⟨a, c₁, ha, h⟩
  · obtain ⟨ws, hpass, hviable⟩ := hx.stops hc h
    exact ⟨ws, hpass, hviable.goOn hrest⟩
  · obtain ⟨ws, hws, hpass⟩ := hsound hc ha
    obtain ⟨vs, hpass', hviable⟩ := (hf ws a hws).stops hpass.finished h
    exact ⟨ws ++ vs, hpass.trans hpass', hviable.behind⟩

/-- A rule that is open for a part is open for what each such part makes. -/
theorem Open.imp {rule : Parse β} {part : List Lexeme → β → Prop} (h : Open rule part)
    (hpart : ∀ ws b, part ws b → production ws b) : Open rule production := by
  refine ⟨h.sample.imp hpart, ?_⟩
  intro c d e hc herror
  obtain ⟨ws, hpass, hviable⟩ := h.stops hc herror
  exact ⟨ws, hpass, hviable.imp hpart⟩

theorem Open.look_bind {f : Cursor → Parse β} (hf : ∀ c, Open (f c) production) :
    Open (look >>= f) production :=
  ⟨(hf ⟨[], []⟩).sample, fun hc h => (hf _).stops hc h⟩

theorem Open.spanFrom_bind {start : Span} {f : Span → Parse β}
    (hf : ∀ span, Open (f span) production) : Open (spanFrom start >>= f) production :=
  ⟨(hf .origin).sample, fun hc h => (hf _).stops hc h⟩

variable {kind : TokenKind} {kinds : List TokenKind}

theorem Open.expect_bind {f : Token → Parse β} (hk : kind ≠ .endOfInput)
    (hf : ∀ t : Token, t.kind = kind → Open (f t) fun vs b => production (t.lexeme :: vs) b) :
    Open (expect kind >>= f) production := by
  have hsample : Viable production [] :=
    (hf ⟨kind, kind.spelled.text, .origin⟩ rfl).sample.before [kind.spelled] (by simp [hk])
  refine ⟨hsample, ?_⟩
  intro c d e hc h
  rcases bind_eq_error.mp h with h | ⟨t, c₁, ht, h⟩
  · obtain rfl := expect_stops h
    exact ⟨[], .refl hc, hsample⟩
  · obtain ⟨htk, hpass⟩ := expect_sound hc hk ht
    obtain ⟨ws, hpass', hviable⟩ := (hf t htk).stops hpass.finished h
    exact ⟨_, hpass.trans hpass', hviable.behind⟩

theorem Open.consume_bind {f : Bool → Parse β} (hk : kind ≠ .endOfInput)
    (hyes : ∀ w : Lexeme, w.kind = kind → Open (f true) fun vs b => production (w :: vs) b)
    (hno : Open (f false) production) : Open (consume kind >>= f) production := by
  refine ⟨hno.sample, ?_⟩
  intro c d e hc h
  obtain ⟨b, c₁, hb, hbody⟩ := rest_of_error consume_ne_error h
  rcases consume_sound hc hk hb with ⟨rfl, w, hw, hpass⟩ | ⟨rfl, rfl⟩
  · obtain ⟨ws, hpass', hviable⟩ := (hyes w hw).stops hpass.finished hbody
    exact ⟨_, hpass.trans hpass', hviable.behind⟩
  · exact hno.stops hc hbody

theorem Open.expectAll_bind {f : Unit → Parse β} (hk : .endOfInput ∉ kinds)
    (hf : ∀ ws, Spell kinds ws → Open (f ()) fun vs b => production (ws ++ vs) b) :
    Open (expectAll kinds >>= f) production := by
  refine ⟨(hf _ (spell_spelled kinds)).sample.before _ (inner_spelled hk), ?_⟩
  intro c d e hc h
  rcases bind_eq_error.mp h with h | ⟨u, c₁, hu, h⟩
  · obtain ⟨ks, vs, hpass, hks, hvs⟩ := expectAll_stops hc hk h
    obtain ⟨zs, b, hb, hzs⟩ := (hf _ hks).sample
    exact ⟨ks, hpass, vs ++ zs, b, by simpa using hb, by simp [hvs, hzs]⟩
  · obtain ⟨ws, hws, hpass⟩ := expectAll_sound hc hk hu
    obtain ⟨vs, hpass', hviable⟩ := (hf ws hws).stops hpass.finished h
    exact ⟨_, hpass.trans hpass', hviable.behind⟩

theorem Open.consumeAll_bind {f : Bool → Parse β} (hk : .endOfInput ∉ kinds)
    (hf : ∀ ws b, Optionally kinds ws b → Open (f b) fun vs a => production (ws ++ vs) a) :
    Open (consumeAll kinds >>= f) production := by
  refine ⟨(hf [] false .absent).sample, ?_⟩
  intro c d e hc h
  rcases bind_eq_error.mp h with h | ⟨b, c₁, hb, h⟩
  · obtain ⟨ks, vs, hpass, hks, hvs⟩ := consumeAll_stops hc hk h
    obtain ⟨zs, a, ha, hzs⟩ := (hf _ true (.present hks)).sample
    exact ⟨ks, hpass, vs ++ zs, a, by simpa using ha, by simp [hvs, hzs]⟩
  · obtain ⟨ws, hws, hpass⟩ := consumeAll_sound hc hk hb
    obtain ⟨vs, hpass', hviable⟩ := (hf ws b hws).stops hpass.finished h
    exact ⟨_, hpass.trans hpass', hviable.behind⟩

/-- Where the current token is known, the rule behind it has to be open behind that token
alone. -/
theorem Open.stops_advance {f : Token → Parse β} {c d : Cursor} {e : ParseError}
    (hf : Open (f c.current) fun vs b => production (c.current.lexeme :: vs) b)
    (hc : Finished c.lexemes) (hk : c.kind ≠ .endOfInput) (h : (advance >>= f) c = .error e d) :
    ∃ ws, Passes c ws d ∧ Viable production ws := by
  obtain ⟨t, c₁, ht, h⟩ := rest_of_error advance_ne_error h
  obtain ⟨rfl, hpass⟩ := advance_sound hc hk ht
  obtain ⟨ws, hpass', hviable⟩ := hf.stops hpass.finished h
  exact ⟨_, hpass.trans hpass', hviable.behind⟩

end

/-! ## Lists -/

section
variable {item : Parse α} {bare : α → β} {production : List Lexeme → α → Prop}
  {follow : TokenKind → Prop} {separator : TokenKind}

theorem itemsAfter_open (hi : Reads item bare production follow) (ho : Open item production)
    (hs : separator ≠ .endOfInput) (fuel : Nat) :
    Open (itemsAfter separator item fuel) (Led separator production) := by
  induction fuel with
  | zero => exact .pure .nil
  | succ fuel ih =>
    refine .consume_bind hs ?_ (.pure .nil)
    intro w hw
    refine .bind hi.sound ho ?_
    intro ws a ha
    refine .bind (itemsAfter_sound hi hs) ih ?_
    intro vs as has
    apply Open.pure
    rw [List.append_nil]
    exact .cons hw ha has

theorem items_open (hi : Reads item bare production follow) (ho : Open item production)
    (hs : separator ≠ .endOfInput) :
    Open (items separator item) (Led separator production) :=
  ⟨(itemsAfter_open hi ho hs 0).sample, fun hc h => (itemsAfter_open hi ho hs _).stops hc h⟩

theorem itemsBy_open (hi : Reads item bare production follow) (ho : Open item production)
    (hs : separator ≠ .endOfInput) :
    Open (itemsBy separator item) (Separated separator production) := by
  refine .bind hi.sound ho ?_
  intro ws a ha
  refine .bind (items_sound hi hs) (items_open hi ho hs) ?_
  intro vs as has
  apply Open.pure
  rw [List.append_nil]
  exact .items ha has

end

/-! ## Names and values -/

theorem identifier_open : Open identifier Identifier.Derives := by
  have hsample : Viable Identifier.Derives [] :=
    ⟨[TokenKind.identifier.spelled], sampleName, derives_sampleName, by simp⟩
  refine .look_bind fun c => ?_
  dsimp only
  split
  · exact .of_total hsample (bind_ne_error advance_ne_error pure_ne_error)
  · split
    · exact .of_total hsample (bind_ne_error advance_ne_error pure_ne_error)
    · exact .fail hsample

theorem name_open : Open name Name.Derives := by
  refine .look_bind fun c => .bind (itemsBy_reads identifier_reads trivial (by simp)).sound
    (itemsBy_open identifier_reads identifier_open (by simp)) ?_
  intro ws parts hparts
  refine .spanFrom_bind fun span => .pure ?_
  rw [List.append_nil]
  exact .parts hparts

theorem number_open : Open number Number.Derives := by
  have hdigit : (TokenKind.number .integer).spelled.kind = .number .integer := rfl
  refine .look_bind fun c => .consume_bind (by simp) ?_ ?_
  · intro m hm
    have hsample : Viable (fun vs n => Number.Derives (m :: vs) n) [] :=
      ⟨[_], ⟨.integer, "0", true, .origin⟩, .negative hm hdigit, by simp⟩
    refine .look_bind fun d => ?_
    dsimp only
    split
    · exact .of_total hsample
        (bind_ne_error advance_ne_error (bind_ne_error spanFrom_ne_error pure_ne_error))
    · exact .fail hsample
  · have hsample : Viable Number.Derives [] :=
      ⟨[_], sampleNumber, derives_sampleNumber, by simp⟩
    refine .look_bind fun d => ?_
    dsimp only
    split
    · exact .of_total hsample
        (bind_ne_error advance_ne_error (bind_ne_error spanFrom_ne_error pure_ne_error))
    · exact .fail hsample

theorem constant_open : Open constant Constant.Derives := by
  have hsample : Viable Constant.Derives [] :=
    ⟨[_], .number sampleNumber, .number derives_sampleNumber, by simp⟩
  refine .look_bind fun c => ?_
  dsimp only
  split
  · refine .bind number_reads.sound number_open ?_
    intro ws n hn
    exact .pure (by simpa using Constant.Derives.number hn)
  · split
    · refine .bind identifier_reads.sound identifier_open ?_
      intro ws type htype
      refine .expect_bind (by simp) ?_
      intro t ht
      exact .pure (.typed htype ht)
    · split
      · exact .of_total hsample (bind_ne_error advance_ne_error pure_ne_error)
      · split
        · refine ⟨hsample, ?_⟩
          intro c d e _ h
          rw [passAll_bind] at h
          exact absurd h (bind_ne_error spanFrom_ne_error pure_ne_error)
        · exact .fail hsample

/-! ## Lists in parentheses -/

/-- Items up to a closing parenthesis are open when what is made of them is open behind the
parenthesis. -/
theorem closing_open {γ : Type} {item : Parse α} {bare : α → β}
    {production : List Lexeme → α → Prop} {follow : TokenKind → Prop} {whole : List α → Parse γ}
    {result : List Lexeme → γ → Prop} (hi : Reads item bare production follow)
    (ho : Open item production) (hcomma : follow .comma)
    (hwhole : ∀ ws as w, Separated .comma production ws as → w.kind = .rightParen →
      Open (whole as) fun vs x => result (ws ++ w :: vs) x) :
    Open (closing whole item) result := by
  refine .bind (itemsBy_reads hi hcomma (by simp)).sound (itemsBy_open hi ho (by simp)) ?_
  intro ws as has
  have hclosed (w : Lexeme) (hw : w.kind = .rightParen) := hwhole ws as w has hw
  refine .consume_bind (by simp) hclosed (.fail ?_)
  exact (hclosed TokenKind.rightParen.spelled rfl).sample.before [TokenKind.rightParen.spelled]
    (by simp)

theorem map_open : Open map Expression.Derives := by
  refine .expect_bind (by simp) ?_
  intro m hm
  refine .expect_bind (by simp) ?_
  intro o ho
  refine closing_open constant_reads constant_open (by simp) ?_
  intro ws entries w hentries hw
  refine .spanFrom_bind fun span => .pure ?_
  exact .map (m := m.lexeme) (o := o.lexeme) hm ho hentries hw

theorem expression_open : Open expression Expression.Derives := by
  refine .look_bind fun c => ?_
  split
  · exact map_open
  · refine .bind constant_reads.sound constant_open ?_
    intro ws a ha
    exact .pure (by simpa using Expression.Derives.constant ha)

/-! ## Arguments -/

theorem argument_open : Open argument Argument.Derives := by
  refine .look_bind fun c => ?_
  split
  · refine .bind identifier_reads.sound identifier_open ?_
    intro ws i hi
    refine .expect_bind (by simp) ?_
    intro t ht
    refine .bind expression_reads.sound expression_open ?_
    intro vs x hx
    exact .pure (by simpa using Argument.Derives.named (w := t.lexeme) hi ht hx)
  · refine .bind expression_reads.sound expression_open ?_
    intro ws x hx
    exact .pure (by simpa using Argument.Derives.positional hx)

theorem arguments_open : Open arguments Argument.DeriveAll := by
  refine .expect_bind (by simp) ?_
  intro o ho
  refine .consume_bind (by simp) ?_ ?_
  · intro w hw
    exact .pure (.none (o := o.lexeme) ho hw)
  · refine closing_open argument_reads argument_open (by simp) ?_
    intro ws as w has hw
    exact .pure (.some (o := o.lexeme) ho has hw)

/-! ## Options of a tag -/

theorem timeUnit_open :
    Open timeUnit fun ws unit => ∃ u : Lexeme, u.kind = .keyword unit.keyword ∧ ws = [u] := by
  have hsample : Viable (fun ws (unit : TimeUnit) =>
      ∃ u : Lexeme, u.kind = .keyword unit.keyword ∧ ws = [u]) [] :=
    ⟨[(TokenKind.keyword .days).spelled], .days, ⟨_, rfl, rfl⟩, by simp⟩
  refine .look_bind fun c => ?_
  split
  · exact .of_total hsample (bind_ne_error advance_ne_error pure_ne_error)
  · exact .of_total hsample (bind_ne_error advance_ne_error pure_ne_error)
  · exact .of_total hsample (bind_ne_error advance_ne_error pure_ne_error)
  · exact .fail hsample

theorem version_open : Open version TagOptions.DeriveVersion := by
  refine .consume_bind (by simp) ?_ (.pure .none)
  intro w hw
  refine .expectAll_bind (by simp) ?_
  intro ks hks
  have hwords : Spell [.keyword .as, .keyword .of, .keyword .version] (w :: ks) := by
    rw [Spell, List.map_cons, hw, hks]
  refine .bind number_reads.sound number_open ?_
  intro ws n hn
  exact .pure (by simpa using TagOptions.DeriveVersion.some hwords hn)

theorem retention_open : Open retention TagOptions.DeriveRetain := by
  refine .consume_bind (by simp) ?_ (.pure .none)
  intro k hk
  refine .bind number_reads.sound number_open ?_
  intro ws n hn
  refine .bind timeUnit_reads.sound timeUnit_open ?_
  rintro _ unit ⟨u, hu, rfl⟩
  exact .pure (.some hk hn hu)

theorem tagOptions_open : Open tagOptions TagOptions.Derives := by
  refine .bind version_reads.sound version_open ?_
  intro ws v hv
  refine .bind retention_reads.sound retention_open ?_
  intro vs r hr
  exact .pure (by simpa using TagOptions.Derives.options hv hr)

/-! ## What is done to tags -/

theorem replaceTag_open (createIfMissing : Bool) :
    Open (replaceTag createIfMissing) (DerivesReplaced createIfMissing) := by
  refine .expect_bind (by simp) ?_
  intro t ht
  refine .bind identifier_reads.sound identifier_open ?_
  intro ws i hi
  refine .bind tagOptions_reads.sound tagOptions_open ?_
  intro vs o ho
  exact .pure (by simpa using DerivesReplaced.clause (t := t.lexeme) ht hi ho)

/-- What is viable behind `REPLACE` is viable with that word before it, and with the words
`CREATE OR` before that. -/
theorem derives_replaced {createIfMissing : Bool} {cs us : List Lexeme} {r : Lexeme}
    {clause : TagClause} (hc : Optionally [.keyword .create, .keyword .or] cs createIfMissing)
    (hr : r.kind = .keyword .replace) (h : DerivesReplaced createIfMissing us clause) :
    TagClause.Derives (cs ++ r :: us) clause := by
  cases h with
  | clause ht hn ho => simpa using TagClause.Derives.replace hc (.pair hr ht) hn ho

theorem createTag_open {k : Lexeme} (hk : k.kind = .keyword .create) :
    Open createTag fun ws clause => TagClause.Derives (k :: ws) clause := by
  have htag (t : Lexeme) (ht : t.kind = .keyword .tag) : Open (do
      let ifNotExists ← consumeAll [.keyword .if, .keyword .not, .keyword .exists]
      let name ← identifier
      return .create ifNotExists name (← tagOptions)) fun ws clause =>
        TagClause.Derives (k :: t :: ws) clause := by
    refine .consumeAll_bind (by simp) ?_
    intro cs b hcs
    refine .bind identifier_reads.sound identifier_open ?_
    intro ws i hi
    refine .bind tagOptions_reads.sound tagOptions_open ?_
    intro vs o ho
    exact .pure (by simpa using TagClause.Derives.create (.pair hk ht) hcs hi ho)
  refine .consume_bind (by simp) ?_ (.consume_bind (by simp) htag (.fail ?_))
  · intro o ho
    refine .expect_bind (by simp) ?_
    intro r hr
    refine (replaceTag_open true).imp ?_
    intro ws clause hclause
    exact derives_replaced (r := r.lexeme) (.present (.pair hk ho)) hr hclause
  · exact (htag (TokenKind.keyword .tag).spelled rfl).sample.before
      [(TokenKind.keyword .tag).spelled] (by simp)

theorem tagAction_open : Open tagAction fun ws a => Action.DeriveTagAction ws a := by
  have hsample : Viable (fun ws a => Action.DeriveTagAction ws a) [] :=
    ⟨sampleActionWords, sampleAction, derives_sampleAction, inner_sampleAction⟩
  refine ⟨hsample, ?_⟩
  intro c d e hc h
  unfold tagAction Rule.tagAction at h
  rw [look_bind] at h
  generalize hk : c.kind = kind at h
  split at h
  · refine Open.stops_advance ?_ hc (by simp [hk]) h
    refine .bind (createTag_reads hk).sound (createTag_open (k := c.current.lexeme) hk) ?_
    intro ws clause hclause
    exact .pure (by simpa using Action.DeriveTagAction.putTag hclause)
  · refine Open.stops_advance ?_ hc (by simp [hk]) h
    refine .bind (replaceTag_reads false).sound (replaceTag_open false) ?_
    intro ws clause hclause
    have hderives := derives_replaced (r := c.current.lexeme) .absent hk hclause
    exact .pure (by simpa using Action.DeriveTagAction.putTag hderives)
  · refine Open.stops_advance ?_ hc (by simp [hk]) h
    refine .expect_bind (by simp) ?_
    intro t ht
    refine .consumeAll_bind (by simp) ?_
    intro cs b hcs
    refine .bind identifier_reads.sound identifier_open ?_
    intro ws i hi
    have hdelete : Spell [.keyword .delete, .keyword .tag] [c.current.lexeme, t.lexeme] :=
      .pair hk ht
    exact .pure (by simpa using Action.DeriveTagAction.deleteTag hdelete hcs hi)
  · refine Open.stops_advance ?_ hc (by simp [hk]) h
    refine .expect_bind (by simp) ?_
    intro t ht
    refine .bind identifier_reads.sound identifier_open ?_
    intro ws i hi
    refine .expect_bind (by simp) ?_
    intro u hu
    refine .bind identifier_reads.sound identifier_open ?_
    intro vs j hj
    have hrename : Spell [.keyword .rename, .keyword .tag] [c.current.lexeme, t.lexeme] :=
      .pair hk ht
    exact .pure (by simpa using Action.DeriveTagAction.renameTag (t := u.lexeme) hrename hi hu hj)
  · exact (Open.fail hsample).stops hc h

/-! ## Statements -/

theorem statement_open : Open statement fun ws s => Statement.Derives ws s := by
  have hshow : Statement.Derives [(TokenKind.keyword .show).spelled,
      (TokenKind.keyword .tags).spelled, TokenKind.identifier.spelled]
      ⟨sampleTarget, .showTags, .origin⟩ := .showTags (.pair rfl rfl) derives_sampleTarget
  have hsample : Viable (fun ws s => Statement.Derives ws s) [] := ⟨_, _, hshow, by simp⟩
  refine ⟨hsample, ?_⟩
  intro c d e hc h
  unfold statement Rule.statement at h
  rw [look_bind, look_bind] at h
  generalize hk : c.kind = kind at h
  split at h
  · refine Open.stops_advance ?_ hc (by simp [hk]) h
    refine .bind name_reads.sound name_open ?_
    intro ws n hn
    refine .bind arguments_reads.sound arguments_open ?_
    intro vs as has
    refine .spanFrom_bind fun span => .pure ?_
    rw [List.append_nil]
    exact .call (k := c.current.lexeme) hk hn has
  · refine Open.stops (.expectAll_bind (by simp) ?_) hc h
    intro ks hks
    refine .bind name_reads.sound name_open ?_
    intro ws n hn
    refine .spanFrom_bind fun span => .pure ?_
    rw [List.append_nil]
    exact .showTags hks hn
  · refine Open.stops (.expectAll_bind (by simp) ?_) hc h
    intro ks hks
    refine .bind name_reads.sound name_open ?_
    intro ws n hn
    refine .bind tagAction_sound tagAction_open ?_
    intro vs a ha
    refine .spanFrom_bind fun span => .pure ?_
    simpa using Statement.Derives.alter hks hn ha
  · exact (Open.fail hsample).stops hc h

/-- Where the whole rule fails, what it has passed begins some whole statement. -/
theorem whole_stops {c d : Cursor} {e : ParseError} (hc : Finished c.lexemes)
    (h : whole c = .error e d) :
    ∃ ws vs, Passes c ws d ∧ Inner vs ∧
      ∃ s : Statement, s.DerivesWhole (ws ++ vs ++ [TokenKind.endOfInput.spelled]) := by
  rcases bind_eq_error.mp h with h | ⟨s, c₁, hs, h⟩
  · obtain ⟨ws, hpass, vs, s, hs, hvs⟩ := statement_open.stops hc h
    refine ⟨ws, vs, hpass, hvs, s, ?_⟩
    have hnone : ∀ v ∈ ([] : List Lexeme), v.kind = .semicolon := by simp
    simpa using Statement.DerivesWhole.single hs hnone (kind_spelled .endOfInput)
  · obtain ⟨ws, hws, hpass⟩ := statement_sound hc hs
    have hover : Passes c₁ (c₁.lexemes.takeWhile (Lexeme.has .semicolon))
        (c₁.advanceOver .semicolon) := .advanceOver (by simp) hpass.finished
    have hif : (if (c₁.advanceOver .semicolon).isAtEnd then pure s else fail .statementEnd)
        (c₁.advanceOver .semicolon) = EStateM.Result.error e d := h
    split at hif
    · exact absurd hif pure_ne_error
    · obtain ⟨-, rfl⟩ := fail_eq_error.mp hif
      refine ⟨_, [], hpass.trans hover, .nil, s, ?_⟩
      rw [List.append_nil]
      exact .single hws (fun v hv => kind_of_mem_takeWhile hv) rfl

end Parse

end TagDialect
