-- The nodes of a statement's tree and the tokens that each of them is read off:
-- its span goes from the first of these to the last, and the nodes inside it
-- are read off parts of them, one behind the other.
import TagDialect.Proofs.CursorWalks
import TagDialect.Proofs.StatementReadings

namespace TagDialect

/-! ## Nodes -/

/-- The parts of a statement that have a span. -/
inductive Node where
  | statement (s : Statement)
  | name (n : Name)
  | identifier (i : Identifier)
  | number (n : Number)
  | constant (c : Constant)
  | map (entries : List Constant) (span : Span)

def Expression.node : Expression → Node
  | .constant c => .constant c
  | .map entries span => .map entries span

def Argument.nodes (a : Argument) : List Node := a.name.toList.map .identifier ++ [a.value.node]

def TagOptions.nodes (o : TagOptions) : List Node :=
  o.version.toList.map .number ++ o.retain.toList.map fun r => .number r.amount

def TagClause.nodes (c : TagClause) : List Node := .identifier c.name :: c.options.nodes

def Action.nodes : Action → List Node
  | .call arguments => arguments.flatMap Argument.nodes
  | .showTags => []
  | .putTag clause => clause.nodes
  | .deleteTag _ tag => [.identifier tag]
  | .renameTag old new => [.identifier old, .identifier new]

namespace Node

def span : Node → Span
  | statement s => s.span
  | name n => n.span
  | identifier i => i.span
  | number n => n.span
  | constant c => c.span
  | map _ span => span

/-- The nodes right inside a node, in the order of the source. -/
def children : Node → List Node
  | statement s => name s.target :: s.action.nodes
  | name n => n.parts.map identifier
  | identifier _ => []
  | number _ => []
  | constant (.number n) => [number n]
  | constant (.boolean _ _) => []
  | constant (.string _ _) => []
  | constant (.typed type _ _) => [identifier type]
  | map entries _ => entries.map constant

/-- The node itself and all nodes inside it. -/
inductive Within (root : Node) : Node → Prop
  | root : Within root root
  | child {n m : Node} (hn : Within root n) (hm : m ∈ n.children) : Within root m

/-- What the node is derived from. -/
def Derives (ws : List Lexeme) : Node → Prop
  | statement s => s.Derives ws
  | name n => n.Derives ws
  | identifier i => i.Derives ws
  | number n => n.Derives ws
  | constant c => Constant.Derives ws c
  | map entries span => Expression.Derives ws (.map entries span)

/-- A name, an identifier, a number, a constant and a map all take a lexeme at least. -/
theorem Derives.ne_nil {n : Node} {ws : List Lexeme} (h : n.Derives ws) : ws ≠ [] := by
  have hidentifier {ws : List Lexeme} {i : Identifier} (h : i.Derives ws) : ws ≠ [] := by
    obtain ⟨w, rfl, -⟩ := Parse.derives_identifier h
    simp
  have hname {ws : List Lexeme} {n : Name} (h : n.Derives ws) : ws ≠ [] := by
    obtain ⟨⟨ha, -⟩⟩ := h
    simp [hidentifier ha]
  have hnumber {ws : List Lexeme} {n : Number} (h : n.Derives ws) : ws ≠ [] := by
    cases h <;> simp
  cases n with
  | statement s =>
    cases h with
    | call _ _ _ => simp
    | showTags _ hn => simp [hname hn]
    | alter _ hn _ => simp [hname hn]
  | name n => exact hname h
  | identifier i => exact hidentifier h
  | number n => exact hnumber h
  | constant c =>
    cases h with
    | number h => exact hnumber h
    | truth _ => simp
    | falsehood _ => simp
    | strings hne _ => exact hne
    | typed _ _ => simp
  | map entries span =>
    cases h with
    | map _ _ _ _ => simp

end Node

/-! ## Nodes over tokens -/

/-- The span goes from the first of the tokens to the last. -/
def Spans (us : List Token) (span : Span) : Prop :=
  ∃ a b, us.head? = some a ∧ us.getLast? = some b ∧ span = a.span.to b.span

mutual

/-- The node is read off the tokens, and the nodes inside it off parts of them. -/
inductive Laid : List Token → Node → Prop
  | node {us : List Token} {n : Node} (hspan : Spans us n.span)
      (hd : n.Derives (us.map Token.lexeme)) (hinside : LaidIn us n.children) : Laid us n

/-- The nodes are read off parts of the tokens, one behind the other. -/
inductive LaidIn : List Token → List Node → Prop
  | nil {us : List Token} : LaidIn us []
  | cons {gap us vs : List Token} {n : Node} {ns : List Node} (hn : Laid us n)
      (hns : LaidIn vs ns) : LaidIn (gap ++ (us ++ vs)) (n :: ns)

end

theorem LaidIn.behind {vs : List Token} {ns : List Node} (us : List Token) (h : LaidIn vs ns) :
    LaidIn (us ++ vs) ns := by
  cases h with
  | nil => exact .nil
  | cons hn hns =>
    rw [← List.append_assoc]
    exact .cons hn hns

theorem LaidIn.append {us vs : List Token} {ns ms : List Node} (h : LaidIn us ns)
    (h' : LaidIn vs ms) : LaidIn (us ++ vs) (ns ++ ms) := by
  induction ns generalizing us with
  | nil => exact h'.behind us
  | cons n ns ih =>
    cases h with
    | cons hn hns =>
      rw [List.append_assoc, List.append_assoc]
      exact .cons hn (ih hns)

theorem Laid.single {us : List Token} {n : Node} (h : Laid us n) : LaidIn us [n] := by
  have hcons : LaidIn ([] ++ (us ++ [])) [n] := .cons h .nil
  rwa [List.nil_append, List.append_nil] at hcons

/-- Each of the nodes has its own part of the tokens. -/
theorem LaidIn.part {us : List Token} {ns : List Node} (h : LaidIn us ns) {n : Node}
    (hn : n ∈ ns) : ∃ xs vs zs, us = xs ++ vs ++ zs ∧ Laid vs n := by
  induction ns generalizing us with
  | nil => simp at hn
  | cons m ns ih =>
    cases h with
    | @cons gap vs zs _ _ hm hns =>
      rcases List.mem_cons.mp hn with rfl | hn
      · exact ⟨gap, vs, zs, (List.append_assoc ..).symm, hm⟩
      · obtain ⟨xs, vs', zs', rfl, hlaid⟩ := ih hns hn
        exact ⟨gap ++ vs ++ xs, vs', zs', by simp, hlaid⟩

/-! ## The nodes that a rule reads -/

namespace Parse

/-- Between the cursors stand the nodes, and the end of the input is still ahead. -/
structure Covers (c d : Cursor) (ns : List Node) : Prop where
  laid : ∃ us, c.Walks us d ∧ LaidIn us ns
  finished : Finished d.lexemes

theorem Covers.refl {c : Cursor} (h : Finished c.lexemes) : Covers c c [] :=
  ⟨⟨[], .refl c, .nil⟩, h⟩

theorem Covers.trans {c d e : Cursor} {ns ms : List Node} (h : Covers c d ns)
    (h' : Covers d e ms) : Covers c e (ns ++ ms) := by
  obtain ⟨us, hus, hns⟩ := h.laid
  obtain ⟨vs, hvs, hms⟩ := h'.laid
  exact ⟨⟨us ++ vs, hus.trans hvs, hns.append hms⟩, h'.finished⟩

section
variable {α : Type} {c d : Cursor} {ws : List Lexeme}

/-- Whatever a rule passes, it walks over. -/
theorem covers_of_passes {rule : Parse α} [Orderly rule] {a : α} (h : rule c = .ok a d)
    (hpass : Passes c ws d) : Covers c d [] := by
  have hends := (inferInstance : Orderly rule).ends c
  rw [h] at hends
  cases hends with
  | ok hwalk => exact ⟨⟨_, hwalk, .nil⟩, hpass.finished⟩

/-- A walk that is not over at once starts at the current token and ends at the previous one. -/
theorem spans_of_walk {us : List Token} (h : c.Walks us d) (hne : us ≠ []) :
    Spans us (d.spanFrom c.current.span) := by
  obtain ⟨a, vs, rfl⟩ := List.exists_cons_of_ne_nil hne
  obtain ⟨b, zs, hlast⟩ : ∃ b zs, (a :: vs).reverse = b :: zs := by
    apply List.exists_cons_of_ne_nil
    simp
  refine ⟨a, b, rfl, ?_, ?_⟩
  · rw [← List.head?_reverse, hlast]
    rfl
  · -- The last token of the walk is the one that the cursor has just passed.
    have hbehind := h.behind
    rw [hlast] at hbehind
    simp [Cursor.spanFrom, Cursor.previousSpan, hbehind, Cursor.current, Cursor.peek, h.ahead]

/-- The nodes between the cursors are those of one node, when that is derived from all that is
passed there and has the whole span. -/
theorem Covers.node {n : Node} (h : Covers c d n.children) (hpass : Passes c ws d)
    (hd : n.Derives ws) (hspan : n.span = d.spanFrom c.current.span) : Covers c d [n] := by
  obtain ⟨us, hwalk, hinside⟩ := h.laid
  obtain rfl := hwalk.eq_of_passes hpass
  have hne : us ≠ [] := by
    intro hnil
    subst hnil
    exact hd.ne_nil rfl
  have hlaid : Laid us n := .node (hspan ▸ spans_of_walk hwalk hne) hd hinside
  exact ⟨⟨us, hwalk, hlaid.single⟩, h.finished⟩

end

/-! ### Rules -/

section
variable {α : Type} {nodes : α → List Node}

/-- What the rule reads holds the nodes, and it walks over nothing else. -/
def Lays (rule : Parse α) (nodes : α → List Node) : Prop :=
  ∀ {c d a}, Finished c.lexemes → rule c = .ok a d → Covers c d (nodes a)

/-- Behind the nodes `ns`, which were read before, the rule reads the rest of the nodes of its
value. -/
structure LaysBehind (ns : List Node) (rule : Parse α) (nodes : α → List Node) : Prop where
  rest {c d : Cursor} {a : α} (hc : Finished c.lexemes) (h : rule c = .ok a d) :
    ∃ ms, Covers c d ms ∧ nodes a = ns ++ ms

theorem LaysBehind.lays {rule : Parse α} (h : LaysBehind [] rule nodes) : Lays rule nodes := by
  intro c d a hc ha
  obtain ⟨ms, hcovers, hnodes⟩ := h.rest hc ha
  rwa [hnodes, List.nil_append]

end

section
variable {α β : Type} {nodes : β → List Node} {ns : List Node} {f : α → Parse β}

theorem LaysBehind.of_lays {rule : Parse β} (h : Lays rule nodes) : LaysBehind [] rule nodes :=
  ⟨fun hc ha => ⟨_, h hc ha, (List.nil_append _).symm⟩⟩

theorem LaysBehind.pure {b : β} (h : nodes b = ns) : LaysBehind ns (Pure.pure b) nodes := by
  constructor
  intro c d a hc ha
  obtain ⟨rfl, rfl⟩ := pure_eq_ok.mp ha
  exact ⟨[], .refl hc, by rw [h, List.append_nil]⟩

theorem LaysBehind.fail {x : Expectation} : LaysBehind ns (fail x : Parse β) nodes :=
  ⟨fun _ ha => absurd ha fail_ne_ok⟩

theorem LaysBehind.bind {x : Parse α} {part : α → List Node} (hx : Lays x part)
    (hf : ∀ a, LaysBehind (ns ++ part a) (f a) nodes) : LaysBehind ns (x >>= f) nodes := by
  constructor
  intro c d b hc hb
  obtain ⟨a, e, ha, hb⟩ := bind_eq_ok.mp hb
  have hpart := hx hc ha
  obtain ⟨ms, hcovers, hnodes⟩ := (hf a).rest hpart.finished hb
  exact ⟨part a ++ ms, hpart.trans hcovers, by rw [hnodes, List.append_assoc]⟩

/-- A rule that reads no node makes no difference to the rest. -/
theorem LaysBehind.skip {x : Parse α} (hx : Lays x fun _ => [])
    (hf : ∀ a, LaysBehind ns (f a) nodes) : LaysBehind ns (x >>= f) nodes := by
  refine .bind hx fun a => ?_
  rw [List.append_nil]
  exact hf a

theorem LaysBehind.look_bind {f : Cursor → Parse β} (hf : ∀ c, LaysBehind ns (f c) nodes) :
    LaysBehind ns (look >>= f) nodes :=
  ⟨fun hc hb => (hf _).rest hc hb⟩

end

/-! ### Single tokens -/

section
variable {c d : Cursor} {kind : TokenKind} {kinds : List TokenKind}

theorem covers_advance {t : Token} (hc : Finished c.lexemes) (hk : c.kind ≠ .endOfInput)
    (h : advance c = .ok t d) : Covers c d [] :=
  covers_of_passes h (advance_sound hc hk h).2

/-- The current token is no part of a node, so the rule behind it reads all the nodes. -/
theorem covers_behind_first {α : Type} {nodes : α → List Node} {f : Token → Parse α} {a : α}
    (hf : LaysBehind [] (f c.current) nodes) (hc : Finished c.lexemes) (hk : c.kind ≠ .endOfInput)
    (h : (advance >>= f) c = .ok a d) : Covers c d (nodes a) := by
  obtain ⟨t, e, ht, h⟩ := bind_eq_ok.mp h
  obtain ⟨rfl, -⟩ := advance_eq_ok.mp ht
  have hfirst := covers_advance hc hk ht
  exact hfirst.trans (hf.lays hfirst.finished h)

theorem expect_lays (hk : kind ≠ .endOfInput) : Lays (expect kind) fun _ => [] :=
  fun hc h => covers_of_passes h (expect_sound hc hk h).2

theorem expectAll_lays (hk : .endOfInput ∉ kinds) : Lays (expectAll kinds) fun _ => [] := by
  intro c d u hc h
  obtain ⟨ws, -, hpass⟩ := expectAll_sound hc hk h
  exact covers_of_passes h hpass

theorem consume_lays (hk : kind ≠ .endOfInput) : Lays (consume kind) fun _ => [] := by
  intro c d b hc h
  rcases consume_sound hc hk h with ⟨-, w, -, hpass⟩ | ⟨-, rfl⟩
  · exact covers_of_passes h hpass
  · exact .refl hc

theorem consumeAll_lays (hk : .endOfInput ∉ kinds) : Lays (consumeAll kinds) fun _ => [] := by
  intro c d b hc h
  obtain ⟨ws, -, hpass⟩ := consumeAll_sound hc hk h
  exact covers_of_passes h hpass

theorem spanFrom_advance (hc : Finished c.lexemes) (start : Span) :
    c.advance.spanFrom start = start.to c.current.span := by
  cases hahead : c.ahead with
  | nil =>
    obtain ⟨us, e, hlast, -⟩ := hc
    simp [Cursor.lexemes, hahead] at hlast
  | cons t ts =>
    simp [Cursor.spanFrom, Cursor.previousSpan, Cursor.advance, Cursor.current, Cursor.peek, hahead]

theorem span_to_self (span : Span) : span.to span = span := by simp [Span.to]

end

/-! ### Lists -/

section
variable {α : Type} {item : Parse α} {nodes : α → List Node} {separator : TokenKind}

theorem itemsAfter_lays (hi : Lays item nodes) (hs : separator ≠ .endOfInput) (fuel : Nat) :
    Lays (itemsAfter separator item fuel) (List.flatMap nodes) := by
  apply LaysBehind.lays
  induction fuel with
  | zero => exact .pure rfl
  | succ fuel ih =>
    refine .skip (consume_lays hs) fun more => ?_
    split
    · exact .bind hi fun _ => .bind ih.lays fun _ => .pure rfl
    · exact .pure rfl

theorem itemsBy_lays (hi : Lays item nodes) (hs : separator ≠ .endOfInput) :
    Lays (itemsBy separator item) (List.flatMap nodes) := by
  apply LaysBehind.lays
  have hothers : Lays (items separator item) (List.flatMap nodes) := fun hc h =>
    itemsAfter_lays hi hs _ hc h
  exact .bind hi fun _ => .bind hothers fun _ => .pure rfl

end

/-! ### Names and values -/

theorem span_of_identifier {c d : Cursor} {i : Identifier} (h : identifier c = .ok i d) :
    d = c.advance ∧ i.span = c.current.span := by
  unfold identifier Rule.identifier at h
  rw [look_bind] at h
  split at h
  · obtain ⟨t, e, ht, h⟩ := bind_eq_ok.mp h
    obtain ⟨rfl, rfl⟩ := pure_eq_ok.mp h
    exact ⟨(advance_eq_ok.mp ht).2, rfl⟩
  · split at h
    · obtain ⟨t, e, ht, h⟩ := bind_eq_ok.mp h
      obtain ⟨rfl, rfl⟩ := pure_eq_ok.mp h
      exact ⟨(advance_eq_ok.mp ht).2, rfl⟩
    · exact absurd h fail_ne_ok

theorem identifier_lays : Lays identifier fun i => [.identifier i] := by
  intro c d i hc h
  obtain ⟨ws, hws, hpass⟩ := identifier_reads.sound hc h
  refine Covers.node (n := .identifier i) (covers_of_passes h hpass) hpass hws ?_
  obtain ⟨rfl, hspan⟩ := span_of_identifier h
  rw [spanFrom_advance hc, span_to_self]
  exact hspan

theorem name_lays : Lays name fun n => [.name n] := by
  intro c d n hc h
  obtain ⟨ws, hws, hpass⟩ := name_reads.sound hc h
  unfold name Rule.name at h
  rw [look_bind] at h
  obtain ⟨parts, e, hparts, h⟩ := bind_eq_ok.mp h
  rw [spanFrom_bind, pure_eq_ok] at h
  obtain ⟨rfl, rfl⟩ := h
  have hcovers := itemsBy_lays identifier_lays (by simp) hc hparts
  rw [← List.map_eq_flatMap] at hcovers
  exact Covers.node (n := .name _) hcovers hpass hws rfl

theorem span_of_number {c d : Cursor} {n : Number} (h : number c = .ok n d) :
    n.span = d.spanFrom c.current.span := by
  unfold number Rule.number at h
  rw [look_bind] at h
  obtain ⟨negative, e, -, h⟩ := bind_eq_ok.mp h
  rw [look_bind] at h
  generalize e.current.kind = kind at h
  split at h
  · obtain ⟨t, e', -, h⟩ := bind_eq_ok.mp h
    rw [spanFrom_bind, pure_eq_ok] at h
    obtain ⟨rfl, rfl⟩ := h
    rfl
  · exact absurd h fail_ne_ok

theorem number_lays : Lays number fun n => [.number n] := by
  intro c d n hc h
  obtain ⟨ws, hws, hpass⟩ := number_reads.sound hc h
  exact Covers.node (n := .number n) (covers_of_passes h hpass) hpass hws (span_of_number h)

theorem constant_lays : Lays constant fun a => [.constant a] := by
  intro c d a hc h
  obtain ⟨ws, hws, hpass⟩ := constant_sound hc h
  have hcovers := covers_of_passes h hpass
  unfold constant Rule.constant at h
  rw [look_bind] at h
  split at h
  · obtain ⟨n, e, hn, h⟩ := bind_eq_ok.mp h
    obtain ⟨rfl, rfl⟩ := pure_eq_ok.mp h
    -- The constant has the tokens and the span of its number.
    exact Covers.node (n := .constant (.number n)) (number_lays hc hn) hpass hws (span_of_number hn)
  · split at h
    · obtain ⟨type, e, htype, h⟩ := bind_eq_ok.mp h
      obtain ⟨value, e', hvalue, h⟩ := bind_eq_ok.mp h
      obtain ⟨rfl, rfl⟩ := pure_eq_ok.mp h
      have hname := identifier_lays hc htype
      have hstring := expect_lays (by simp) hname.finished hvalue
      obtain ⟨-, rfl, rfl⟩ := expect_eq_ok.mp hvalue
      refine Covers.node (n := .constant (.typed _ _ _)) (hname.trans hstring) hpass hws ?_
      rw [spanFrom_advance hname.finished, ← (span_of_identifier htype).2]
      rfl
    · split at h
      · obtain ⟨t, e, ht, h⟩ := bind_eq_ok.mp h
        obtain ⟨rfl, rfl⟩ := pure_eq_ok.mp h
        obtain ⟨rfl, rfl⟩ := advance_eq_ok.mp ht
        refine Covers.node (n := .constant (.boolean _ _)) hcovers hpass hws ?_
        rw [spanFrom_advance hc, span_to_self]
        rfl
      · split at h
        · rw [passAll_bind, spanFrom_bind, pure_eq_ok] at h
          obtain ⟨rfl, rfl⟩ := h
          exact Covers.node (n := .constant (.string _ _)) hcovers hpass hws rfl
        · exact absurd h fail_ne_ok

/-- Items up to a closing parenthesis hold the nodes of the items. -/
theorem closing_covers {α γ : Type} {item : Parse α} {nodes : α → List Node}
    (whole : List α → Parse γ) (hlays : Lays item nodes) {c d : Cursor} {x : γ}
    (hc : Finished c.lexemes) (h : closing whole item c = .ok x d) :
    ∃ as e, Covers c e (as.flatMap nodes) ∧ whole as e = .ok x d := by
  obtain ⟨as, e, has, hrest⟩ := bind_eq_ok.mp h
  obtain ⟨closed, e', hclosed, hwhole⟩ := bind_eq_ok.mp hrest
  have hitems := itemsBy_lays hlays (by simp) hc has
  have hparen := consume_lays (by simp) hitems.finished hclosed
  split at hwhole
  · have hcovers := hitems.trans hparen
    rw [List.append_nil] at hcovers
    exact ⟨as, e', hcovers, hwhole⟩
  · exact absurd hwhole fail_ne_ok

theorem map_lays : Lays map fun e => [e.node] := by
  intro c d x hc h
  obtain ⟨ws, ⟨hws, -⟩, hpass⟩ := map_reads.sound hc h
  unfold map Rule.map at h
  obtain ⟨m, c₁, hm, h⟩ := bind_eq_ok.mp h
  obtain ⟨o, c₂, ho, h⟩ := bind_eq_ok.mp h
  have hword := expect_lays (by simp) hc hm
  have hopen := expect_lays (by simp) hword.finished ho
  obtain ⟨entries, e, hitems, h⟩ := closing_covers _ constant_lays hopen.finished h
  rw [spanFrom_bind, pure_eq_ok] at h
  obtain ⟨rfl, rfl⟩ := h
  obtain ⟨-, rfl, -⟩ := expect_eq_ok.mp hm
  rw [← List.map_eq_flatMap] at hitems
  exact Covers.node (n := .map entries _) ((hword.trans hopen).trans hitems) hpass hws rfl

theorem expression_lays : Lays expression fun e => [e.node] := by
  intro c d x hc h
  unfold expression Rule.expression at h
  rw [look_bind] at h
  split at h
  · exact map_lays hc h
  · obtain ⟨a, e, ha, h⟩ := bind_eq_ok.mp h
    obtain ⟨rfl, rfl⟩ := pure_eq_ok.mp h
    exact constant_lays hc ha

/-! ### Arguments and options -/

theorem argument_lays : Lays argument Argument.nodes := by
  apply LaysBehind.lays
  refine .look_bind fun c => ?_
  split
  · exact .bind identifier_lays fun _ => .skip (expect_lays (by simp)) fun _ =>
      .bind expression_lays fun _ => .pure rfl
  · exact .bind expression_lays fun _ => .pure rfl

theorem arguments_lays : Lays arguments (List.flatMap Argument.nodes) := by
  intro c d as hc h
  unfold arguments Rule.arguments at h
  obtain ⟨o, c₁, ho, h⟩ := bind_eq_ok.mp h
  obtain ⟨empty, c₂, hempty, hbody⟩ := bind_eq_ok.mp h
  have hopen := expect_lays (by simp) hc ho
  have hclose := consume_lays (by simp) hopen.finished hempty
  split at hbody
  · obtain ⟨rfl, rfl⟩ := pure_eq_ok.mp hbody
    exact hopen.trans hclose
  · obtain ⟨as', e, hitems, hwhole⟩ := closing_covers pure argument_lays hclose.finished hbody
    obtain ⟨rfl, rfl⟩ := pure_eq_ok.mp hwhole
    exact (hopen.trans hclose).trans hitems

theorem timeUnit_lays : Lays timeUnit fun _ => [] := by
  intro c d unit hc h
  obtain ⟨ws, -, hpass⟩ := timeUnit_reads.sound hc h
  exact covers_of_passes h hpass

theorem version_lays : Lays version fun v => v.toList.map .number := by
  apply LaysBehind.lays
  refine .skip (consume_lays (by simp)) fun present => ?_
  split
  · exact .skip (expectAll_lays (by simp)) fun _ => .bind number_lays fun _ => .pure rfl
  · exact .pure rfl

theorem retention_lays : Lays retention fun r => r.toList.map fun r => .number r.amount := by
  apply LaysBehind.lays
  refine .skip (consume_lays (by simp)) fun present => ?_
  split
  · exact .bind number_lays fun _ => .skip timeUnit_lays fun _ => .pure rfl
  · exact .pure rfl

theorem tagOptions_lays : Lays tagOptions TagOptions.nodes := by
  apply LaysBehind.lays
  exact .bind version_lays fun _ => .bind retention_lays fun _ => .pure rfl

/-! ### Statements -/

theorem replaceTag_lays (createIfMissing : Bool) :
    Lays (replaceTag createIfMissing) TagClause.nodes := by
  apply LaysBehind.lays
  exact .skip (expect_lays (by simp)) fun _ => .bind identifier_lays fun _ =>
    .bind tagOptions_lays fun _ => .pure rfl

theorem createTag_lays : Lays createTag TagClause.nodes := by
  apply LaysBehind.lays
  refine .skip (consume_lays (by simp)) fun orReplace => ?_
  split
  · exact .skip (expect_lays (by simp)) fun _ => .of_lays (replaceTag_lays true)
  · refine .skip (consume_lays (by simp)) fun tag => ?_
    split
    · exact .skip (consumeAll_lays (by simp)) fun _ => .bind identifier_lays fun _ =>
        .bind tagOptions_lays fun _ => .pure rfl
    · exact .fail

theorem tagAction_lays : Lays tagAction Action.nodes := by
  intro c d a hc h
  unfold tagAction Rule.tagAction at h
  rw [look_bind] at h
  generalize hk : c.kind = kind at h
  split at h
  · refine covers_behind_first ?_ hc (by simp [hk]) h
    exact .bind createTag_lays fun _ => .pure rfl
  · refine covers_behind_first ?_ hc (by simp [hk]) h
    exact .bind (replaceTag_lays false) fun _ => .pure rfl
  · refine covers_behind_first ?_ hc (by simp [hk]) h
    exact .skip (expect_lays (by simp)) fun _ => .skip (consumeAll_lays (by simp)) fun _ =>
      .bind identifier_lays fun _ => .pure rfl
  · refine covers_behind_first ?_ hc (by simp [hk]) h
    exact .skip (expect_lays (by simp)) fun _ => .bind identifier_lays fun _ =>
      .skip (expect_lays (by simp)) fun _ => .bind identifier_lays fun _ => .pure rfl
  · exact absurd h fail_ne_ok

theorem statement_lays : Lays statement fun s => [.statement s] := by
  intro c d s hc h
  obtain ⟨ws, hws, hpass⟩ := statement_sound hc h
  unfold statement Rule.statement at h
  rw [look_bind, look_bind] at h
  generalize hk : c.kind = kind at h
  split at h
  · obtain ⟨t, e, ht, h⟩ := bind_eq_ok.mp h
    obtain ⟨n, e', hn, h⟩ := bind_eq_ok.mp h
    obtain ⟨as, e'', has, h⟩ := bind_eq_ok.mp h
    rw [spanFrom_bind, pure_eq_ok] at h
    obtain ⟨rfl, rfl⟩ := h
    have hword := covers_advance hc (by simp [hk]) ht
    have hname := name_lays hword.finished hn
    exact Covers.node (n := .statement _)
      ((hword.trans hname).trans (arguments_lays hname.finished has)) hpass hws rfl
  · obtain ⟨u, e, hu, h⟩ := bind_eq_ok.mp h
    obtain ⟨n, e', hn, h⟩ := bind_eq_ok.mp h
    rw [spanFrom_bind, pure_eq_ok] at h
    obtain ⟨rfl, rfl⟩ := h
    have hwords := expectAll_lays (by simp) hc hu
    exact Covers.node (n := .statement _) (hwords.trans (name_lays hwords.finished hn)) hpass hws rfl
  · obtain ⟨u, e, hu, h⟩ := bind_eq_ok.mp h
    obtain ⟨n, e', hn, h⟩ := bind_eq_ok.mp h
    obtain ⟨a, e'', ha, h⟩ := bind_eq_ok.mp h
    rw [spanFrom_bind, pure_eq_ok] at h
    obtain ⟨rfl, rfl⟩ := h
    have hwords := expectAll_lays (by simp) hc hu
    have hname := name_lays hwords.finished hn
    exact Covers.node (n := .statement _)
      ((hwords.trans hname).trans (tagAction_lays hname.finished ha)) hpass hws rfl
  · exact absurd h fail_ne_ok

end Parse

end TagDialect
