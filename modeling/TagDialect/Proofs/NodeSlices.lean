-- Each node of a statement is found again in the text at its span alone. The cut
-- on both sides changes none of the tokens in between, and the rule of the node
-- reads the same node off them.
import TagDialect.Proofs.CutTexts
import TagDialect.Proofs.SpanOrder
import TagDialect.Proofs.RelaidTexts

namespace TagDialect

/-! ## The stretch of a text that tokens take up -/

theorem exists_kept {α : Type} {p : α → Bool} {ts xs us : List α} {a : α}
    (h : ts.filter p = xs ++ a :: us) :
    ∃ before rest, ts = before ++ a :: rest ∧ rest.filter p = us ∧ p a = true ∧
      before.filter p = xs := by
  obtain ⟨before, rest, rfl, hbefore, hrest⟩ := List.filter_eq_append_iff.mp h
  obtain ⟨skipped, rest, rfl, hskipped, ha, hrest⟩ := List.filter_eq_cons_iff.mp hrest
  refine ⟨before ++ skipped, rest, by simp, hrest, ha, ?_⟩
  rw [List.filter_append, List.filter_eq_nil_iff.mpr hskipped, List.append_nil, hbefore]

/-- What is kept of a list in a row is kept of one stretch of it, which starts and ends with
what is kept. -/
theorem exists_stretch {α : Type} {p : α → Bool} {ts xs us zs : List α} (hne : us ≠ [])
    (h : ts.filter p = xs ++ us ++ zs) :
    ∃ before inner after, ts = before ++ (inner ++ after) ∧ inner.filter p = us ∧
      inner.head? = us.head? ∧ inner.getLast? = us.getLast? ∧ after.filter p = zs := by
  obtain ⟨vs, b, hlast⟩ := (List.eq_nil_or_concat us).resolve_left hne
  rw [List.concat_eq_append] at hlast
  have hback : ts.filter p = (xs ++ vs) ++ b :: zs := by simp [h, hlast]
  obtain ⟨upto, after, rfl, hafter, hb, hupto⟩ := exists_kept hback
  obtain ⟨a, us, rfl⟩ := List.exists_cons_of_ne_nil hne
  have hfront : (upto ++ [b]).filter p = xs ++ a :: us := by simp [hupto, hb, hlast]
  obtain ⟨before, rest, hcut, hrest, ha, -⟩ := exists_kept hfront
  refine ⟨before, a :: rest, after, ?_, by simp [ha, hrest], rfl, ?_, hafter⟩
  · rw [← List.append_assoc, ← hcut, List.append_assoc, List.singleton_append]
  · have hend := congrArg List.getLast? hcut
    rw [List.getLast?_concat, List.getLast?_append_of_ne_nil before (List.cons_ne_nil a rest)] at hend
    rw [← hend, hlast, List.getLast?_concat]

/-- A list of tokens at their places is cut where its lexemes are. -/
theorem placed_eq_append {p : Place} {ws : List Lexeme} {us vs : List Token}
    (h : placed p ws = us ++ vs) :
    ∃ ws₁ ws₂, ws = ws₁ ++ ws₂ ∧ us = placed p ws₁ ∧ vs = placed (p.past (chars ws₁)) ws₂ := by
  have hws : ws = us.map Token.lexeme ++ vs.map Token.lexeme := by
    rw [← List.map_append, ← h, lexemes_placed]
  refine ⟨_, _, hws, ?_⟩
  rw [hws, placed_append] at h
  have hlength : us.length = (placed p (us.map Token.lexeme)).length := by
    rw [← List.length_map (f := Token.lexeme), ← List.length_map (f := Token.lexeme),
      lexemes_placed]
  exact List.append_inj h.symm hlength

theorem start_of_head {p : Place} {ws : List Lexeme} {a : Token}
    (h : (placed p ws).head? = some a) : a.span.start = p.offset := by
  cases ws with
  | nil => simp [placed] at h
  | cons w ws =>
    obtain rfl := Option.some.inj h
    rfl

theorem stop_of_last {p : Place} {ws : List Lexeme} {b : Token}
    (h : (placed p ws).getLast? = some b) : b.span.stop = (p.past (chars ws)).offset := by
  rcases List.eq_nil_or_concat ws with rfl | ⟨ws, w, rfl⟩
  · simp [placed] at h
  · rw [List.concat_eq_append] at h ⊢
    rw [placed_append, placed, placed, List.getLast?_concat] at h
    obtain rfl := Option.some.inj h
    simp [Place.spanTo, Place.past_append]

/-- Visible tokens of a text in a row are those of pieces in a row, which make up the part of the
text between the first and the last of them. -/
theorem pieces_of_part {text : String} {xs us zs : List Token} {a b : Token}
    (h : tokenize text = .ok (xs ++ us ++ zs)) (hz : zs ≠ []) (ha : us.head? = some a)
    (hb : us.getLast? = some b) :
    ∃ before ms after, text.toList = before ++ (chars ms ++ after) ∧
      a.span.start = byteLength before ∧ b.span.stop = byteLength (before ++ chars ms) ∧
      Pieces ms after ∧ ms.filter Lexeme.isVisible = us.map Token.lexeme := by
  obtain ⟨ws, hws, hchars, htokens⟩ := tokenize_eq_ok.mp h
  have hne : us ≠ [] := by
    rintro rfl
    simp at ha
  obtain ⟨before, part, after, hcut, hpart, hhead, hlast, hafter⟩ := exists_stretch hne htokens.symm
  obtain ⟨ws₁, ws₂, hws₁, rfl, hrest⟩ := placed_eq_append hcut
  obtain ⟨ms, ws₃, rfl, rfl, rfl⟩ := placed_eq_append hrest.symm
  -- The end of the input is behind the part, so the part is one of pieces.
  obtain ⟨ws₃, e, rfl⟩ : ∃ vs e, ws₃ = vs ++ [e] := by
    rcases List.eq_nil_or_concat ws₃ with rfl | ⟨vs, e, rfl⟩
    · exact absurd hafter.symm hz
    · exact ⟨vs, e, List.concat_eq_append⟩
  rw [← List.append_assoc, ← List.append_assoc] at hws₁
  obtain ⟨rfl, -⟩ := List.append_inj' hws₁ rfl
  refine ⟨chars ws₁, ms, chars ws₃, ?_, ?_, ?_, ?_, ?_⟩
  · simp [← hchars]
  · rw [start_of_head (hhead.trans ha), Place.offset_first]
  · rw [stop_of_last (hlast.trans hb), ← Place.past_append, Place.offset_first]
  · have hpieces := (Pieces.append_iff.mp (Pieces.append_iff.mp hws).1).2
    rwa [List.append_nil] at hpieces
  · rw [← lexemes_visible, hpart]

/-- Tokens of a text in a row, with no number or point right next to another, are the tokens of
the part of the text between the first and the last of them. -/
theorem tokenize_slice {text : String} {xs us zs : List Token} {a b : Token}
    (h : tokenize text = .ok (xs ++ us ++ zs)) (hz : zs ≠ []) (ha : us.head? = some a)
    (hb : us.getLast? = some b) (hk : ∀ u ∈ us, u.kind ≠ .unrecognized)
    (hs : Spread (us.map Token.lexeme)) :
    ∃ inner tokens, slice? text.toList a.span.start b.span.stop = some inner ∧
      tokenize (String.ofList inner) = .ok tokens ∧
      tokens.map Token.lexeme = us.map Token.lexeme ++ [.finish] := by
  obtain ⟨before, ms, after, htext, hstart, hstop, hms, hvisible⟩ := pieces_of_part h hz ha hb
  have hpieces : Pieces ms [] := by
    refine hms.cut ?_ (hvisible ▸ hs)
    intro m hm hunrecognized
    have hkept : m ∈ us.map Token.lexeme := by
      rw [← hvisible]
      exact List.mem_filter.mpr ⟨hm, by rw [Lexeme.isVisible, hunrecognized]; rfl⟩
    obtain ⟨u, hu, rfl⟩ := List.mem_map.mp hkept
    exact hk u hu hunrecognized
  refine ⟨chars ms, _, ?_, tokenize_eq_ok.mpr ⟨ms, hpieces, String.toList_ofList.symm, rfl⟩, ?_⟩
  · rw [htext, hstart, hstop]
    exact slice?_between _ _ _
  · rw [lexemes_visible, List.filter_append, hvisible]
    rfl

/-! ## Nodes that are read again -/

/-- The rule reads the whole text, and reads the same value off it, up to what `bare` takes
away. -/
def ReadsAll {α β : Type} (rule : Parse α) (bare : α → β) (text : String) (a : α) : Prop :=
  ∃ tokens b d e, tokenize text = .ok tokens ∧ rule (.ofTokens tokens) = .ok b d ∧
    d.ahead = [e] ∧ e.kind = .endOfInput ∧ bare b = bare a

/-- The text is one of the node alone: the node's own rule reads the whole text, and reads the
same node off it, up to spans. -/
def Node.ReadsAgain (text : String) : Node → Prop
  | statement s => ∃ t, parse text = .ok t ∧ t.bare = s.bare
  | name n => ReadsAll Parse.name (Name.erase Identifier.bare) text n
  | identifier i => ReadsAll Parse.identifier Identifier.bare text i
  | number n => ReadsAll Parse.number Number.bare text n
  | constant c => ReadsAll Parse.constant (Constant.erase Identifier.bare) text c
  | map entries span =>
    ReadsAll Parse.expression (Expression.erase Identifier.bare) text (.map entries span)

section
variable {text : String} {tokens : List Token} {ws : List Lexeme}

/-- A rule that may end where the input does reads all of what is derived for it. -/
theorem Parse.Reads.readsAll {α β : Type} {rule : Parse α} {bare : α → β}
    {production : List Lexeme → α → Prop} {follow : TokenKind → Prop} {a : α}
    (hr : Reads rule bare production follow) (hf : follow .endOfInput)
    (h : tokenize text = .ok tokens) (hcut : tokens.map Token.lexeme = ws ++ [.finish])
    (ha : production ws a) : ReadsAll rule bare text a := by
  have hfinished : Finished [Lexeme.finish] := ⟨[], .finish, rfl, rfl⟩
  obtain ⟨b, hb, d, hd, hrest⟩ :=
    hr.complete (c := .ofTokens tokens) hfinished hcut ha hf
  obtain ⟨e, hahead, he⟩ := List.map_eq_singleton_iff.mp hrest
  exact ⟨tokens, b, d, e, h, hd, hahead, congrArg Lexeme.kind he, hb⟩

/-- What a node is derived from is a text of the node alone. -/
theorem Node.Derives.readsAgain {n : Node} (hn : n.Derives ws) (h : tokenize text = .ok tokens)
    (hcut : tokens.map Token.lexeme = ws ++ [.finish]) : n.ReadsAgain text := by
  cases n with
  | statement s =>
    have hwhole : s.DerivesWhole (ws ++ [] ++ [.finish]) := .single hn (by simp) rfl
    rw [List.append_nil, ← hcut] at hwhole
    exact (exists_parse_iff h _).mpr ⟨s, hwhole, rfl⟩
  | name n => exact Parse.name_reads.readsAll (by simp) h hcut hn
  | identifier i => exact Parse.identifier_reads.readsAll trivial h hcut hn
  | number n => exact Parse.number_reads.readsAll trivial h hcut hn
  | constant c => exact Parse.constant_reads.readsAll (by simp) h hcut hn
  | map entries span => exact Parse.expression_reads.readsAll (by simp) h hcut hn

end

/-! ## The law of the spans -/

/-- Every node of a statement is read off a part of the tokens, with the end of the input behind
it. -/
theorem laid_of_parse {text : String} {tokens : List Token} {s : Statement} {n : Node}
    (htokens : tokenize text = .ok tokens) (h : parse text = .ok s)
    (hn : (Node.statement s).Within n) :
    ∃ xs us zs, tokens = xs ++ us ++ zs ∧ zs ≠ [] ∧ Laid us n := by
  have hclosed := closed_tokenize htokens
  obtain ⟨d, hd⟩ := (parse_eq_ok htokens).mp h
  obtain ⟨e, hs, -, -⟩ := Parse.whole_eq_ok.mp hd
  have hcovers := Parse.statement_lays (c := .ofTokens tokens) hclosed.finished hs
  obtain ⟨us, hwalk, hlaid⟩ := hcovers.laid
  have hbehind : e.ahead ≠ [] := by
    intro hnil
    obtain ⟨vs, w, hlast, -⟩ := hcovers.finished
    simp [Cursor.lexemes, hnil] at hlast
  obtain ⟨xs, vs, zs, rfl, hstatement⟩ := hlaid.part List.mem_cons_self
  obtain ⟨xs', vs', zs', rfl, hnode⟩ := hstatement.within hn
  have hcut : tokens = xs ++ (xs' ++ vs' ++ zs') ++ zs ++ e.ahead := hwalk.ahead
  exact ⟨xs ++ xs', vs', zs' ++ (zs ++ e.ahead), by simp [hcut], by simp [hbehind], hnode⟩

/-- The first and the last token of a part have their places among all tokens. -/
theorem exists_index_of_part {us : List Token} {a b : Token} (xs zs : List Token)
    (ha : us.head? = some a) (hb : us.getLast? = some b) :
    ∃ i j : Nat, i ≤ j ∧ (xs ++ us ++ zs)[i]? = some a ∧ (xs ++ us ++ zs)[j]? = some b := by
  obtain ⟨vs, rfl⟩ := List.getLast?_eq_some_iff.mp hb
  refine ⟨xs.length, xs.length + vs.length, by omega, ?_, ?_⟩
  · rw [List.append_assoc, List.getElem?_append_right (Nat.le_refl _), Nat.sub_self,
      ← List.head?_eq_getElem?, List.head?_append_of_ne_nil _ (by simp), ha]
  · rw [List.getElem?_append_left (by simp), List.getElem?_append_right (by omega)]
    simp

/-- Every node of a statement has its own part of the text. Its span goes from the start of one
visible token to the end of the same or a later one, with the line and the column of the first;
the nodes right inside it lie within its span, one behind the other; and the part of the text at
its span, taken alone, is read by the node's own rule as the same node, up to spans, and to its
end. -/
theorem every_node_is_read_again_at_its_span {text : String} {s : Statement}
    (h : parse text = .ok s) :
    ∃ tokens, tokenize text = .ok tokens ∧ ∀ n, (Node.statement s).Within n →
      (∃ (i j : Nat) (a b : Token), i ≤ j ∧ tokens[i]? = some a ∧ tokens[j]? = some b ∧
        n.span = ⟨a.span.start, b.span.stop, a.span.line, a.span.column⟩) ∧
      (∀ m ∈ n.children, n.span.start ≤ m.span.start ∧ m.span.stop ≤ n.span.stop) ∧
      (n.children.Pairwise fun m m' => m.span.stop ≤ m'.span.start) ∧
      ∃ inner, slice? text.toList n.span.start n.span.stop = some inner ∧
        n.ReadsAgain (String.ofList inner) := by
  obtain ⟨tokens, htokens⟩ : ∃ tokens, tokenize text = .ok tokens := by
    cases htokens : tokenize text with
    | error e => simp [parse, htokens] at h
    | ok tokens => exact ⟨tokens, rfl⟩
  refine ⟨tokens, htokens, ?_⟩
  intro n hn
  obtain ⟨xs, us, zs, rfl, hz, hlaid⟩ := laid_of_parse htokens h hn
  have hordered : Ordered us := (ordered_tokenize htokens).sublist
    ((List.sublist_append_right xs us).trans (List.sublist_append_left _ zs))
  obtain ⟨a, b, ha, hb, hspan⟩ := hlaid.spans.ends hordered
  obtain ⟨i, j, hle, hi, hj⟩ := exists_index_of_part xs zs ha hb
  obtain ⟨hinside, hapart⟩ := hlaid.children hordered
  have hderives := hlaid.derives
  have hk : ∀ u ∈ us, u.kind ≠ .unrecognized := by
    intro u hu hunrecognized
    have hplace := hderives.placed u.lexeme (List.mem_map_of_mem hu)
    simp [Token.lexeme, hunrecognized, TokenKind.hasPlace] at hplace
  obtain ⟨inner, tokens, hslice, htext, hlexemes⟩ :=
    tokenize_slice htokens hz ha hb hk hderives.spread
  refine ⟨⟨i, j, a, b, hle, hi, hj, hspan⟩, hinside, hapart, inner, ?_, ?_⟩
  · rw [hspan]
    exact hslice
  · exact hderives.readsAgain htext hlexemes

/-- A number with its sign, cut out between a parenthesis and a comma. -/
theorem a_number_with_a_sign_is_read_again :
    let n : Number := ⟨.integer, "2", true, ⟨7, 10, 1, 8⟩⟩
    let s : Statement := ⟨⟨[⟨"p", false, ⟨5, 6, 1, 6⟩⟩], ⟨5, 6, 1, 6⟩⟩,
      .call [⟨none, .constant (.number n)⟩, ⟨none, .constant (.string "é" ⟨11, 15, 1, 12⟩)⟩],
      ⟨0, 16, 1, 1⟩⟩
    parse "call p(- 2,'é')" = .ok s ∧ (Node.statement s).Within (.number n) ∧
      slice? "call p(- 2,'é')".toList 7 10 = some ['-', ' ', '2'] ∧
      (Node.number n).ReadsAgain "- 2" := by
  intro n s
  have htokens : tokenize "call p(- 2,'é')" = .ok [⟨.keyword .call, "call", ⟨0, 4, 1, 1⟩⟩,
      ⟨.identifier, "p", ⟨5, 6, 1, 6⟩⟩, ⟨.leftParen, "(", ⟨6, 7, 1, 7⟩⟩,
      ⟨.minus, "-", ⟨7, 8, 1, 8⟩⟩, ⟨.number .integer, "2", ⟨9, 10, 1, 10⟩⟩,
      ⟨.comma, ",", ⟨10, 11, 1, 11⟩⟩, ⟨.string, "'é'", ⟨11, 15, 1, 12⟩⟩,
      ⟨.rightParen, ")", ⟨15, 16, 1, 15⟩⟩, ⟨.endOfInput, "", ⟨16, 16, 1, 16⟩⟩] := by
    refine tokenize_eq_ok.mpr ⟨[⟨.keyword .call, "call"⟩, ⟨.whitespace, " "⟩, ⟨.identifier, "p"⟩,
      ⟨.leftParen, "("⟩, ⟨.minus, "-"⟩, ⟨.whitespace, " "⟩, ⟨.number .integer, "2"⟩,
      ⟨.comma, ","⟩, ⟨.string, "'é'"⟩, ⟨.rightParen, ")"⟩], ?_, rfl, rfl⟩
    simp only [Pieces, ne_eq, reduceCtorEq, not_false_eq_true, true_and, and_true]
    exact ⟨rfl, rfl, rfl, rfl, rfl, rfl, rfl, rfl, rfl, rfl⟩
  have hparse : parse "call p(- 2,'é')" = .ok s := by
    unfold parse
    rw [htokens]
    rfl
  have hwithin : (Node.statement s).Within (.number n) :=
    .child (.child .root (m := .constant (.number n)) (by simp [s, Node.children, Action.nodes,
      Argument.nodes, Expression.node])) (by simp [Node.children])
  obtain ⟨tokens, -, hnodes⟩ := every_node_is_read_again_at_its_span hparse
  obtain ⟨-, -, -, inner, hslice, hreads⟩ := hnodes _ hwithin
  have hinner : slice? "call p(- 2,'é')".toList 7 10 = some ['-', ' ', '2'] := by rfl
  obtain rfl := Option.some.inj (hslice.symm.trans hinner)
  exact ⟨hparse, hwithin, hinner, hreads⟩

end TagDialect
