-- Where the nodes of a statement stand. The tokens of a text come one behind the
-- other, so the spans of nodes that are read off parts of them lie inside one
-- another, or one behind the other.
import TagDialect.Proofs.NodeSpans
import TagDialect.Proofs.TokenPlaces

namespace TagDialect

/-! ## Tokens in order -/

/-- The tokens stand one behind the other, and none ends before it starts. -/
structure Ordered (us : List Token) : Prop where
  apart : us.Pairwise fun a b => a.span.stop ≤ b.span.start
  forward : ∀ u ∈ us, u.span.start ≤ u.span.stop

theorem Ordered.sublist {us vs : List Token} (h : Ordered vs) (hsub : us.Sublist vs) : Ordered us :=
  ⟨h.apart.sublist hsub, fun u hu => h.forward u (hsub.mem hu)⟩

/-- A token stands no sooner than the place that the tokens are laid out from. -/
theorem le_start_of_placed {p : Place} {ws : List Lexeme} {t : Token} (h : t ∈ placed p ws) :
    p.offset ≤ t.span.start ∧ t.span.start ≤ t.span.stop := by
  obtain ⟨us, vs, -, hspan⟩ := mem_placed h
  simp only [hspan, Place.spanTo, Place.past_append, Place.offset_past]
  omega

theorem ordered_placed (p : Place) (ws : List Lexeme) : Ordered (placed p ws) := by
  refine ⟨?_, fun t ht => (le_start_of_placed ht).2⟩
  induction ws generalizing p with
  | nil => exact .nil
  | cons w ws ih => exact List.pairwise_cons.mpr ⟨fun t ht => (le_start_of_placed ht).1, ih _⟩

theorem ordered_tokenize {text : String} {tokens : List Token} (h : tokenize text = .ok tokens) :
    Ordered tokens := by
  obtain ⟨ws, -, -, rfl⟩ := tokenize_eq_ok.mp h
  exact (ordered_placed .first _).sublist List.filter_sublist

/-- All tokens lie between the start of the first one and the end of the last one. -/
theorem Ordered.between {us : List Token} {a b : Token} (h : Ordered us) (ha : us.head? = some a)
    (hb : us.getLast? = some b) {u : Token} (hu : u ∈ us) :
    a.span.start ≤ u.span.start ∧ u.span.stop ≤ b.span.stop := by
  obtain ⟨hapart, hforward⟩ := h
  constructor
  · obtain ⟨vs, rfl⟩ := List.head?_eq_some_iff.mp ha
    rcases List.mem_cons.mp hu with rfl | hu
    · exact Nat.le_refl _
    · exact (hforward a List.mem_cons_self).trans ((List.pairwise_cons.mp hapart).1 u hu)
  · obtain ⟨vs, rfl⟩ := List.getLast?_eq_some_iff.mp hb
    rcases List.mem_append.mp hu with hu | hu
    · have hbefore := (List.pairwise_append.mp hapart).2.2 u hu b (by simp)
      exact hbefore.trans (hforward b (by simp))
    · rw [List.mem_singleton.mp hu]

/-! ## Spans over tokens in order -/

/-- A span over tokens in order starts where the first of them does, and ends where the last
of them does. -/
theorem Spans.ends {us : List Token} {span : Span} (h : Spans us span) (ho : Ordered us) :
    ∃ a b, us.head? = some a ∧ us.getLast? = some b ∧
      span = ⟨a.span.start, b.span.stop, a.span.line, a.span.column⟩ := by
  obtain ⟨a, b, ha, hb, rfl⟩ := h
  refine ⟨a, b, ha, hb, ?_⟩
  have hle := (ho.between ha hb (List.mem_of_head? ha)).2
  simp only [Span.to, Nat.max_eq_left hle]

theorem Spans.between {us : List Token} {span : Span} (h : Spans us span) (ho : Ordered us)
    {u : Token} (hu : u ∈ us) : span.start ≤ u.span.start ∧ u.span.stop ≤ span.stop := by
  obtain ⟨a, b, ha, hb, rfl⟩ := h.ends ho
  exact ho.between ha hb hu

/-- A span over tokens in order starts and ends with tokens among them. -/
theorem Spans.edges {us : List Token} {span : Span} (h : Spans us span) (ho : Ordered us) :
    (∃ a ∈ us, a.span.start = span.start) ∧ ∃ b ∈ us, b.span.stop = span.stop := by
  obtain ⟨a, b, ha, hb, rfl⟩ := h.ends ho
  exact ⟨⟨a, List.mem_of_head? ha, rfl⟩, ⟨b, List.mem_of_getLast? hb, rfl⟩⟩

/-! ## Nodes over tokens in order -/

theorem Laid.spans {us : List Token} {n : Node} (h : Laid us n) : Spans us n.span := by
  cases h with
  | node hspan _ _ => exact hspan

theorem Laid.derives {us : List Token} {n : Node} (h : Laid us n) :
    n.Derives (us.map Token.lexeme) := by
  cases h with
  | node _ hd _ => exact hd

theorem Laid.inside {us : List Token} {n : Node} (h : Laid us n) : LaidIn us n.children := by
  cases h with
  | node _ _ hinside => exact hinside

/-- A node starts and ends with tokens that it is among. -/
theorem LaidIn.edges {us : List Token} {ns : List Node} (h : LaidIn us ns) (ho : Ordered us)
    {n : Node} (hn : n ∈ ns) :
    (∃ a ∈ us, a.span.start = n.span.start) ∧ ∃ b ∈ us, b.span.stop = n.span.stop := by
  obtain ⟨xs, vs, zs, rfl, hlaid⟩ := h.part hn
  have hsub : vs.Sublist (xs ++ vs ++ zs) :=
    (List.sublist_append_right xs vs).trans (List.sublist_append_left _ zs)
  obtain ⟨⟨a, ha, hstart⟩, b, hb, hstop⟩ := hlaid.spans.edges (ho.sublist hsub)
  exact ⟨⟨a, hsub.mem ha, hstart⟩, b, hsub.mem hb, hstop⟩

/-- Nodes that are read one behind the other stand so. -/
theorem LaidIn.apart {us : List Token} {ns : List Node} (h : LaidIn us ns) (ho : Ordered us) :
    ns.Pairwise fun n m => n.span.stop ≤ m.span.start := by
  induction ns generalizing us with
  | nil => exact .nil
  | cons n ns ih =>
    cases h with
    | @cons gap us vs _ _ hn hns =>
      -- All other nodes are read off tokens behind those of the first one.
      have hboth := ho.sublist (List.sublist_append_right gap (us ++ vs))
      have hrest := hboth.sublist (List.sublist_append_right us vs)
      refine List.pairwise_cons.mpr ⟨?_, ih hns hrest⟩
      intro m hm
      obtain ⟨-, b, hb, hstop⟩ := hn.spans.edges (hboth.sublist (List.sublist_append_left us vs))
      obtain ⟨⟨a, ha, hstart⟩, -⟩ := hns.edges hrest hm
      rw [← hstop, ← hstart]
      exact (List.pairwise_append.mp hboth.apart).2.2 b hb a ha

/-- The nodes right inside a node lie within its span, one behind the other. -/
theorem Laid.children {us : List Token} {n : Node} (h : Laid us n) (ho : Ordered us) :
    (∀ m ∈ n.children, n.span.start ≤ m.span.start ∧ m.span.stop ≤ n.span.stop) ∧
      n.children.Pairwise fun m m' => m.span.stop ≤ m'.span.start := by
  refine ⟨?_, h.inside.apart ho⟩
  intro m hm
  obtain ⟨⟨a, ha, hstart⟩, b, hb, hstop⟩ := h.inside.edges ho hm
  rw [← hstart, ← hstop]
  exact ⟨(h.spans.between ho ha).1, (h.spans.between ho hb).2⟩

/-- Every node inside a node is read off a part of its tokens. -/
theorem Laid.within {us : List Token} {n m : Node} (h : Laid us n) (hm : n.Within m) :
    ∃ xs vs zs, us = xs ++ vs ++ zs ∧ Laid vs m := by
  induction hm with
  | root => exact ⟨[], us, [], by simp, h⟩
  | child _ hm ih =>
    obtain ⟨xs, vs, zs, rfl, hlaid⟩ := ih
    obtain ⟨xs', vs', zs', rfl, hlaid'⟩ := hlaid.inside.part hm
    exact ⟨xs ++ xs', vs', zs' ++ zs, by simp, hlaid'⟩

end TagDialect
