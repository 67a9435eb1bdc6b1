-- What comes behind the tokens of a statement. Two runs over the same tokens, with
-- semicolons and the end of the input behind these in different numbers, read
-- the same value and leave the same tokens, or the first one fails.
import TagDialect.Proofs.CursorWalks
import TagDialect.Proofs.StatementReadings

namespace TagDialect

namespace Parse

variable {α β : Type}

/-! ## Ends of token sequences -/

theorem EndsStatement.not_name {kind : TokenKind} (h : EndsStatement kind) :
    kind.canBeIdentifier = false := by
  rcases h with rfl | rfl <;> rfl

theorem not_ends_keyword (k : Keyword) : ¬ EndsStatement (.keyword k) :=
  fun h => h.ne_keyword k rfl

/-- Semicolons or none, and the end of the input. -/
inductive Ending : List Token → Prop
  | finish {e : Token} (he : e.kind = .endOfInput) : Ending [e]
  | semicolon {t : Token} {ts : List Token} (ht : t.kind = .semicolon) (h : Ending ts) :
      Ending (t :: ts)

theorem Ending.kind {ts : List Token} (h : Ending ts) {t : Token} (ht : t ∈ ts) :
    EndsStatement t.kind := by
  induction h with
  | finish he =>
    obtain rfl := List.mem_singleton.mp ht
    exact .inr he
  | semicolon hk _ ih =>
    rcases List.mem_cons.mp ht with rfl | ht
    · exact .inl hk
    · exact ih ht

theorem Ending.ne_nil {ts : List Token} (h : Ending ts) : ts ≠ [] := by
  cases h <;> simp

/-- No token of another kind comes first in an ending. -/
theorem Ending.exists_head {ts : List Token} (h : Ending ts) {kind : TokenKind}
    (hk : ¬ EndsStatement kind) : ∃ u us, ts = u :: us ∧ u.kind ≠ kind := by
  obtain ⟨u, us, rfl⟩ := List.exists_cons_of_ne_nil h.ne_nil
  exact ⟨u, us, rfl, fun hu => hk (hu ▸ h.kind List.mem_cons_self)⟩

/-- The semicolons are passed over up to the end of the input. -/
theorem Ending.passOver {ts : List Token} (h : Ending ts) (behind : List Token) :
    (Cursor.passOver .semicolon behind ts).kind = .endOfInput := by
  induction h generalizing behind with
  | finish he =>
    rw [Cursor.passOver, if_neg (by simp [he])]
    exact he
  | semicolon ht _ ih =>
    rw [Cursor.passOver, if_pos ht]
    exact ih _

/-! ## Cursors with the same tokens ahead -/

/-- The cursors have passed the same tokens. The same tokens come next, and then an ending each.
Some token has been passed, or comes next for both. -/
inductive Tied : Cursor → Cursor → Prop
  | ahead {behind shared ys ys' : List Token} (t : Token) (h : Ending ys) (h' : Ending ys') :
      Tied ⟨behind, t :: (shared ++ ys)⟩ ⟨behind, t :: (shared ++ ys')⟩
  | spent {behind ys ys' : List Token} (t : Token) (h : Ending ys) (h' : Ending ys') :
      Tied ⟨t :: behind, ys⟩ ⟨t :: behind, ys'⟩

theorem tied_behind {behind ys ys' : List Token} (t : Token) (shared : List Token) (h : Ending ys)
    (h' : Ending ys') : Tied ⟨t :: behind, shared ++ ys⟩ ⟨t :: behind, shared ++ ys'⟩ := by
  cases shared with
  | nil => exact .spent t h h'
  | cons u shared => exact .ahead u h h'

theorem peek_of_ending (behind : List Token) {shared ys : List Token} (h : Ending ys) {n : Nat}
    (hn : shared.length ≤ n) : EndsStatement (Cursor.peekKind ⟨behind, shared ++ ys⟩ n) := by
  simp only [Cursor.peekKind, Cursor.peek]
  rw [List.getElem?_append_right hn]
  cases hy : ys[n - shared.length]? with
  | some t => exact h.kind (List.mem_of_getElem? hy)
  | none =>
    obtain ⟨zs, e, rfl⟩ := List.eq_nil_or_concat ys |>.resolve_left h.ne_nil
    rw [List.concat_eq_append] at h ⊢
    rw [← List.append_assoc, List.getLast?_concat]
    exact h.kind (t := e) (by simp)

theorem kind_of_ending (behind : List Token) {ys : List Token} (h : Ending ys) :
    EndsStatement (Cursor.kind ⟨behind, ys⟩) := by
  have hnone : ([] : List Token).length ≤ 0 := Nat.le_refl 0
  exact peek_of_ending behind h hnone

theorem peek_of_shared {behind shared : List Token} (ys : List Token) {n : Nat}
    (hn : n < shared.length) : Cursor.peekKind ⟨behind, shared ++ ys⟩ n = shared[n].kind := by
  simp only [Cursor.peekKind, Cursor.peek]
  rw [List.getElem?_append_left hn, List.getElem?_eq_getElem hn]

section
variable {c c' : Cursor}

theorem Tied.cut (h : Tied c c') : ∃ shared ys ys', Ending ys ∧ Ending ys' ∧
    c = ⟨c.behind, shared ++ ys⟩ ∧ c' = ⟨c.behind, shared ++ ys'⟩ := by
  cases h with
  | ahead t h h' => exact ⟨t :: _, _, _, h, h', rfl, rfl⟩
  | spent t h h' => exact ⟨[], _, _, h, h', rfl, rfl⟩

/-- A kind that ends no statement comes at the same distance for both. -/
theorem Tied.peekKind_iff (h : Tied c c') {kind : TokenKind} (hk : ¬ EndsStatement kind)
    (n : Nat) : c'.peekKind n = kind ↔ c.peekKind n = kind := by
  obtain ⟨shared, ys, ys', hys, hys', hc, hc'⟩ := h.cut
  rw [hc, hc']
  by_cases hn : n < shared.length
  · rw [peek_of_shared ys hn, peek_of_shared ys' hn]
  · have hends := peek_of_ending c.behind hys (Nat.le_of_not_lt hn)
    have hends' := peek_of_ending c.behind hys' (Nat.le_of_not_lt hn)
    constructor
    · rintro rfl
      exact absurd hends' hk
    · rintro rfl
      exact absurd hends hk

theorem Tied.kind_iff (h : Tied c c') {kind : TokenKind} (hk : ¬ EndsStatement kind) :
    c'.kind = kind ↔ c.kind = kind := h.peekKind_iff hk 0

/-- The same token comes next for both, or neither has one left of those that they share. -/
theorem Tied.next (h : Tied c c') : (c'.current = c.current ∧ Tied c.advance c'.advance) ∨
    (EndsStatement c.kind ∧ EndsStatement c'.kind) := by
  cases h with
  | ahead t h h' => exact .inl ⟨rfl, tied_behind t _ h h'⟩
  | spent t h h' =>
    exact .inr ⟨kind_of_ending _ h, kind_of_ending _ h'⟩

theorem Tied.advance (h : Tied c c') (hk : ¬ EndsStatement c.kind) :
    c'.current = c.current ∧ Tied c.advance c'.advance :=
  h.next.resolve_right fun hends => hk hends.1

theorem Tied.spanFrom (h : Tied c c') (start : Span) : c'.spanFrom start = c.spanFrom start := by
  cases h with
  | @ahead behind shared ys ys' t _ _ => cases behind <;> rfl
  | spent => rfl

theorem tied_passOver {kind : TokenKind} (hk : ¬ EndsStatement kind) {ys ys' : List Token}
    (h : Ending ys) (h' : Ending ys') (t : Token) (behind shared : List Token) :
    Tied (Cursor.passOver kind (t :: behind) (shared ++ ys))
      (Cursor.passOver kind (t :: behind) (shared ++ ys')) := by
  induction shared generalizing t behind with
  | nil =>
    have hstill {ys : List Token} (h : Ending ys) :
        Cursor.passOver kind (t :: behind) ys = ⟨t :: behind, ys⟩ := by
      obtain ⟨y, ys, rfl, hy⟩ := h.exists_head hk
      rw [Cursor.passOver, if_neg hy]
    rw [List.nil_append, List.nil_append, hstill h, hstill h']
    exact .spent t h h'
  | cons u shared ih =>
    rw [List.cons_append, List.cons_append, Cursor.passOver, Cursor.passOver]
    split
    · exact ih u (t :: behind)
    · exact .ahead u h h'

/-- Tokens of a kind that ends no statement are passed over in the same way. -/
theorem Tied.advanceOver (h : Tied c c') {kind : TokenKind} (hk : ¬ EndsStatement kind)
    (hc : c.kind = kind) : Tied (c.advanceOver kind) (c'.advanceOver kind) := by
  cases h with
  | @ahead behind shared ys ys' t h h' =>
    have ht : t.kind = kind := hc
    rw [Cursor.advanceOver, Cursor.advanceOver, Cursor.passOver, if_pos ht, Cursor.passOver,
      if_pos ht]
    exact tied_passOver hk h h' t behind shared
  | spent t h h' =>
    exact absurd (hc ▸ kind_of_ending _ h) hk

theorem Tied.takeWhile (h : Tied c c') {kind : TokenKind} (hk : ¬ EndsStatement kind) :
    (c'.ahead.takeWhile fun t => t.kind = kind) = c.ahead.takeWhile fun t => t.kind = kind := by
  obtain ⟨shared, ys, ys', hys, hys', hc, hc'⟩ := h.cut
  have hnone {ys : List Token} (h : Ending ys) : (ys.takeWhile fun t => t.kind = kind) = [] := by
    obtain ⟨y, ys, rfl, hy⟩ := h.exists_head hk
    rw [List.takeWhile_cons_of_neg (by simpa using hy)]
  rw [hc, hc', List.takeWhile_append, List.takeWhile_append, hnone hys, hnone hys']

/-- Behind the semicolons both are at the end of the input, or neither is. -/
theorem Tied.isAtEnd (h : Tied c c') :
    (c'.advanceOver .semicolon).kind = .endOfInput ↔
      (c.advanceOver .semicolon).kind = .endOfInput := by
  obtain ⟨shared, ys, ys', hys, hys', hc, hc'⟩ := h.cut
  rw [hc, hc', Cursor.advanceOver, Cursor.advanceOver]
  generalize c.behind = behind
  clear hc hc'
  induction shared generalizing behind with
  | nil => simp only [List.nil_append, hys.passOver, hys'.passOver]
  | cons t shared ih =>
    rw [List.cons_append, List.cons_append, Cursor.passOver, Cursor.passOver]
    split
    · exact ih _
    · exact Iff.rfl

end

/-! ## Runs that read the same -/

/-- A run fails, or another one succeeds with the same value and with the same tokens ahead. -/
inductive Keeps :
    EStateM.Result ParseError Cursor α → EStateM.Result ParseError Cursor α → Prop
  | ok {a : α} {d d' : Cursor} (h : Tied d d') : Keeps (.ok a d) (.ok a d')
  | error {e : ParseError} {d : Cursor} {r : EStateM.Result ParseError Cursor α} :
      Keeps (.error e d) r

/-- The rule reads the same from wherever the same tokens are ahead. -/
def Steady (rule : Parse α) : Prop := ∀ c c', Tied c c' → Keeps (rule c) (rule c')

/-- The rule fails where no token of a statement is left. -/
def Needy (rule : Parse α) : Prop :=
  ∀ c, EndsStatement c.kind → ∃ e d, rule c = .error e d

theorem Keeps.exists_ok {r r' : EStateM.Result ParseError Cursor α} {a : α} {d : Cursor}
    (h : Keeps r r') (hr : r = .ok a d) : ∃ d', r' = .ok a d' ∧ Tied d d' := by
  cases h with
  | ok h =>
    obtain ⟨rfl, rfl⟩ := EStateM.Result.ok.inj hr
    exact ⟨_, rfl, h⟩
  | error => cases hr

theorem Keeps.bind {x y : Parse α} {f g : α → Parse β} {c c' : Cursor} (h : Keeps (x c) (y c'))
    (hfg : ∀ a d d', x c = .ok a d → y c' = .ok a d' → Tied d d' → Keeps (f a d) (g a d')) :
    Keeps ((x >>= f) c) ((y >>= g) c') := by
  simp only [Bind.bind, EStateM.bind]
  cases hx : x c with
  | ok a d =>
    obtain ⟨d', hx', hd⟩ := h.exists_ok hx
    rw [hx']
    exact hfg a d d' hx hx' hd
  | error e d => exact .error

theorem Steady.bind {x : Parse α} {f : α → Parse β} (h : Steady x) (hf : ∀ a, Steady (f a)) :
    Steady (x >>= f) := by
  intro c c' htied
  exact (h c c' htied).bind fun a d d' _ _ hd => hf a d d' hd

theorem Steady.pure (a : α) : Steady (Pure.pure a : Parse α) := fun _ _ h => .ok h

theorem Steady.fail (x : Expectation) : Steady (Parse.fail x : Parse α) := fun _ _ _ => .error

theorem Steady.spanFrom (start : Span) : Steady (Parse.spanFrom start) := by
  intro c c' h
  have hspan : Parse.spanFrom start c' = .ok (c.spanFrom start) c' := by
    rw [← h.spanFrom]
    rfl
  rw [hspan]
  exact .ok h

theorem Needy.bind {x : Parse α} {f : α → Parse β} (h : Needy x) : Needy (x >>= f) := by
  intro c hc
  obtain ⟨e, d, hx⟩ := h c hc
  exact ⟨e, d, by simp only [Bind.bind, EStateM.bind, hx]⟩

/-- A rule that fails without a token of a statement needs to be followed only where the same
token comes next. -/
theorem Steady.of_next {rule : Parse α} (hneedy : Needy rule)
    (h : ∀ c c', Tied c c' → c'.current = c.current → Tied c.advance c'.advance →
      Keeps (rule c) (rule c')) : Steady rule := by
  intro c c' htied
  rcases htied.next with ⟨hcurrent, hadvance⟩ | ⟨hends, -⟩
  · exact h c c' htied hcurrent hadvance
  · obtain ⟨e, d, hrule⟩ := hneedy c hends
    rw [hrule]
    exact .error

/-! ### Single tokens -/

/-- Passing a token that comes next for both, and what comes behind it. -/
theorem Keeps.advance_bind {f : Token → Parse β} (hf : ∀ t, Steady (f t)) {c c' : Cursor}
    (hcurrent : c'.current = c.current) (h : Tied c.advance c'.advance) :
    Keeps ((Parse.advance >>= f) c) ((Parse.advance >>= f) c') := by
  show Keeps (f c.current c.advance) (f c'.current c'.advance)
  rw [hcurrent]
  exact hf _ _ _ h

section
variable {kind : TokenKind} {kinds : List TokenKind}

theorem consume_steady (hk : ¬ EndsStatement kind) : Steady (consume kind) := by
  intro c c' h
  unfold consume Rule.consume
  rw [look_bind, look_bind]
  by_cases hkind : c.kind = kind
  · rw [if_pos hkind, if_pos ((h.kind_iff hk).mpr hkind)]
    exact .ok (h.advance (hkind ▸ hk)).2
  · rw [if_neg hkind, if_neg (mt (h.kind_iff hk).mp hkind)]
    exact .ok h

theorem expect_steady (hk : ¬ EndsStatement kind) : Steady (expect kind) := by
  intro c c' h
  unfold expect Rule.expect
  rw [look_bind, look_bind]
  by_cases hkind : c.kind = kind
  · rw [if_pos hkind, if_pos ((h.kind_iff hk).mpr hkind)]
    obtain ⟨hcurrent, hadvance⟩ := h.advance (hkind ▸ hk)
    exact Keeps.advance_bind (f := Pure.pure) Steady.pure hcurrent hadvance
  · rw [if_neg hkind]
    exact .error

theorem expectAll_steady (hk : ∀ k ∈ kinds, ¬ EndsStatement k) : Steady (expectAll kinds) := by
  induction kinds with
  | nil => exact .pure _
  | cons kind kinds ih =>
    obtain ⟨hkind, hkinds⟩ := List.forall_mem_cons.mp hk
    exact (expect_steady hkind).bind fun _ => ih hkinds

theorem consumeAll_steady (hk : ∀ k ∈ kinds, ¬ EndsStatement k) : Steady (consumeAll kinds) := by
  intro c c' h
  have hpeek (c : Cursor) : (List.range kinds.length).map c.peekKind = kinds ↔
      ∀ i (hi : i < kinds.length), c.peekKind i = kinds[i] := by
    constructor
    · intro heq i hi
      have hget := List.getElem_of_eq heq.symm hi
      simpa using hget.symm
    · intro heq
      exact List.ext_getElem (by simp) fun i _ hi => by simpa using heq i hi
  have hsame : (List.range kinds.length).map c'.peekKind = kinds ↔
      (List.range kinds.length).map c.peekKind = kinds := by
    rw [hpeek, hpeek]
    exact forall₂_congr fun i hi => h.peekKind_iff (hk _ (List.getElem_mem hi)) i
  unfold consumeAll Rule.consumeAll
  rw [look_bind, look_bind]
  by_cases hkinds : (List.range kinds.length).map c.peekKind = kinds
  · rw [if_pos hkinds, if_pos (hsame.mpr hkinds)]
    exact (expectAll_steady hk).bind (fun _ => .pure _) _ _ h
  · rw [if_neg hkinds, if_neg (mt hsame.mp hkinds)]
    exact .ok h

end

/-! ### Lists -/

section
variable {separator : TokenKind} {item : Parse α} [Orderly item]

/-- The fuel does not matter as long as there is more of it than tokens. -/
theorem itemsAfter_steady (hs : ¬ EndsStatement separator) (hi : Steady item) {fuel fuel' : Nat}
    {c c' : Cursor} (hfuel : c.lexemes.length < fuel) (hfuel' : c'.lexemes.length < fuel')
    (h : Tied c c') :
    Keeps (itemsAfter separator item fuel c) (itemsAfter separator item fuel' c') := by
  induction fuel generalizing fuel' c c' with
  | zero => omega
  | succ fuel ih =>
    obtain ⟨fuel', rfl⟩ : ∃ n, fuel' = n + 1 := ⟨fuel' - 1, by omega⟩
    unfold itemsAfter
    refine (consume_steady hs c c' h).bind fun more d d' hd hd' htied => ?_
    split
    · rename_i hmore
      -- the separator took a token from both
      have hshort {c d : Cursor} (hd : consume separator c = .ok more d) (hc : c.ahead ≠ []) :
          d.lexemes.length < c.lexemes.length := by
        rcases consume_eq_ok.mp hd with ⟨-, -, rfl⟩ | ⟨hfalse, -, -⟩
        · obtain ⟨t, ts, hts⟩ := List.exists_cons_of_ne_nil hc
          simp [Cursor.lexemes, Cursor.advance, hts]
        · rw [hmore] at hfalse
          cases hfalse
      obtain ⟨shared, ys, ys', hys, hys', hc, hc'⟩ := h.cut
      have hlength := hshort hd (by rw [hc]; simp [hys.ne_nil])
      have hlength' := hshort hd' (by rw [hc']; simp [hys'.ne_nil])
      refine (hi d d' htied).bind fun a e e' he he' htied' => ?_
      have hle := Orderly.length_le item d
      have hle' := Orderly.length_le item d'
      rw [he] at hle
      rw [he'] at hle'
      simp only [endOf] at hle hle'
      have hnext : Keeps (itemsAfter separator item fuel e) (itemsAfter separator item fuel' e') :=
        ih (by omega) (by omega) htied'
      exact hnext.bind fun _ _ _ _ _ h => .ok h
    · exact .ok htied

theorem itemsBy_steady (hs : ¬ EndsStatement separator) (hi : Steady item) :
    Steady (itemsBy separator item) := by
  refine hi.bind fun a => ?_
  intro c c' h
  rw [items_bind, items_bind]
  have hlength (c : Cursor) : c.lexemes.length < c.ahead.length + 1 := by simp [Cursor.lexemes]
  exact (itemsAfter_steady hs hi (hlength c) (hlength c') h).bind fun _ _ _ _ _ h => .ok h

end

/-! ### Names and values -/

theorem identifier_needy : Needy identifier := by
  intro c hc
  have hname : c.current.kind.canBeIdentifier = false := hc.not_name
  have hticked : c.current.kind ≠ .backquoted := by
    intro hk
    simp [hk, TokenKind.canBeIdentifier] at hname
  unfold identifier Rule.identifier
  rw [look_bind, if_neg hticked, if_neg (by simp [hname])]
  exact ⟨_, _, rfl⟩

theorem identifier_steady : Steady identifier := by
  refine .of_next identifier_needy fun c c' _ hcurrent hadvance => ?_
  unfold identifier Rule.identifier
  rw [look_bind, look_bind, hcurrent]
  split
  · exact .advance_bind (fun _ => .pure _) hcurrent hadvance
  · split
    · exact .advance_bind (fun _ => .pure _) hcurrent hadvance
    · exact .error

theorem name_steady : Steady name := by
  have hitems : Steady (itemsBy .dot identifier) :=
    itemsBy_steady (by simp [EndsStatement]) identifier_steady
  refine .of_next ?_ fun c c' h hcurrent _ => ?_
  · intro c hc
    exact identifier_needy.bind.bind c hc
  · unfold name Rule.name
    rw [look_bind, look_bind, hcurrent]
    exact hitems.bind (fun _ => (Steady.spanFrom _).bind fun _ => .pure _) c c' h

theorem number_needy : Needy number := by
  intro c hc
  have hminus : c.kind ≠ .minus := by rcases hc with h | h <;> simp [h]
  have hconsume : consume .minus c = .ok false c := consume_eq_ok.mpr (.inr ⟨rfl, hminus, rfl⟩)
  have hskip (f : Bool → Parse Number) : (consume .minus >>= f) c = f false c := by
    simp only [Bind.bind, EStateM.bind, hconsume]
  have hkind : EndsStatement c.current.kind := hc
  unfold number Rule.number
  rw [look_bind, hskip, look_bind]
  generalize c.current.kind = kind at hkind
  rcases hkind with rfl | rfl <;> exact ⟨_, _, rfl⟩

theorem number_steady : Steady number := by
  refine .of_next number_needy fun c c' h hcurrent _ => ?_
  unfold number Rule.number
  rw [look_bind, look_bind, hcurrent]
  refine (consume_steady (by simp [EndsStatement]) c c' h).bind fun negative d d' _ _ htied => ?_
  rw [look_bind, look_bind]
  rcases htied.next with ⟨hcurrent, hadvance⟩ | ⟨hends, -⟩
  · rw [hcurrent]
    generalize d.current.kind = kind
    split
    · refine .advance_bind (fun _ => ?_) hcurrent hadvance
      exact (Steady.spanFrom _).bind fun _ => .pure _
    · exact .error
  · have hkind : EndsStatement d.current.kind := hends
    generalize d.current.kind = kind at hkind
    rcases hkind with rfl | rfl <;> exact .error

theorem constant_needy : Needy constant := by
  intro c hc
  have hkind : EndsStatement c.current.kind := hc
  unfold constant Rule.constant
  rw [look_bind]
  generalize c.current.kind = kind at hkind
  rcases hkind with rfl | rfl <;> exact ⟨_, _, rfl⟩

theorem constant_steady : Steady constant := by
  refine .of_next constant_needy fun c c' h hcurrent hadvance => ?_
  have hstring : ¬ EndsStatement .string := by simp [EndsStatement]
  unfold constant Rule.constant
  rw [look_bind, look_bind]
  simp only [hcurrent, h.peekKind_iff hstring]
  split
  · exact number_steady.bind (fun _ => .pure _) c c' h
  · split
    · exact identifier_steady.bind (fun _ => (expect_steady hstring).bind fun _ => .pure _) c c' h
    · split
      · exact .advance_bind (fun _ => .pure _) hcurrent hadvance
      · split
        · rename_i hk
          rw [passAll_bind, passAll_bind, h.takeWhile hstring]
          exact (Steady.spanFrom _).bind (fun _ => .pure _) _ _ (h.advanceOver hstring hk)
        · exact .error

/-- Items up to a closing parenthesis. -/
theorem closing_steady {γ : Type} {item : Parse α} [Orderly item] (hi : Steady item)
    {whole : List α → Parse γ} (hw : ∀ as, Steady (whole as)) : Steady (closing whole item) := by
  refine (itemsBy_steady (by simp [EndsStatement]) hi).bind fun as => ?_
  refine (consume_steady (by simp [EndsStatement])).bind fun closed => ?_
  split
  · exact hw as
  · exact .fail _

theorem map_steady : Steady map := by
  refine (expect_steady (not_ends_keyword _)).bind fun t => ?_
  refine (expect_steady (by simp [EndsStatement])).bind fun _ => ?_
  exact closing_steady constant_steady fun _ => (Steady.spanFrom _).bind fun _ => .pure _

theorem expression_steady : Steady expression := by
  intro c c' h
  unfold expression Rule.expression
  rw [look_bind, look_bind]
  simp only [h.kind_iff (not_ends_keyword .map),
    h.peekKind_iff (show ¬ EndsStatement .leftParen by simp [EndsStatement])]
  split
  · exact map_steady c c' h
  · exact constant_steady.bind (fun _ => .pure _) c c' h

theorem argument_steady : Steady argument := by
  intro c c' h
  have harrow : ¬ EndsStatement .arrow := by simp [EndsStatement]
  have hname : c'.kind.canBeIdentifier = c.kind.canBeIdentifier := by
    rcases h.next with ⟨hcurrent, -⟩ | ⟨hends, hends'⟩
    · simp only [Cursor.kind, hcurrent]
    · rw [hends.not_name, hends'.not_name]
  unfold argument Rule.argument
  rw [look_bind, look_bind]
  simp only [hname, h.peekKind_iff harrow]
  split
  · refine identifier_steady.bind (fun _ => (expect_steady harrow).bind fun _ => ?_) c c' h
    exact expression_steady.bind fun _ => .pure _
  · exact expression_steady.bind (fun _ => .pure _) c c' h

theorem arguments_steady : Steady arguments := by
  refine (expect_steady (by simp [EndsStatement])).bind fun _ => ?_
  refine (consume_steady (by simp [EndsStatement])).bind fun empty => ?_
  split
  · exact .pure _
  · exact closing_steady argument_steady .pure

/-! ### Options of a tag -/

theorem timeUnit_steady : Steady timeUnit := by
  intro c c' h
  unfold timeUnit Rule.timeUnit
  rw [look_bind, look_bind]
  rcases h.next with ⟨hcurrent, hadvance⟩ | ⟨hends, -⟩
  · have hkind : c'.kind = c.kind := congrArg Token.kind hcurrent
    rw [hkind]
    generalize c.kind = kind
    split
    · exact .advance_bind (fun _ => .pure _) hcurrent hadvance
    · exact .advance_bind (fun _ => .pure _) hcurrent hadvance
    · exact .advance_bind (fun _ => .pure _) hcurrent hadvance
    · exact .error
  · generalize c.kind = kind at hends
    rcases hends with rfl | rfl <;> exact .error

theorem version_steady : Steady version := by
  refine (consume_steady (not_ends_keyword _)).bind fun present => ?_
  split
  · refine (expectAll_steady (by simp [EndsStatement])).bind fun _ => ?_
    exact number_steady.bind fun _ => .pure _
  · exact .pure _

theorem retention_steady : Steady retention := by
  refine (consume_steady (not_ends_keyword _)).bind fun present => ?_
  split
  · exact number_steady.bind fun _ => timeUnit_steady.bind fun _ => .pure _
  · exact .pure _

theorem tagOptions_steady : Steady tagOptions :=
  version_steady.bind fun _ => retention_steady.bind fun _ => .pure _

/-! ### What is done to tags -/

theorem replaceTag_steady (createIfMissing : Bool) : Steady (replaceTag createIfMissing) :=
  (expect_steady (not_ends_keyword _)).bind fun _ => identifier_steady.bind fun _ =>
    tagOptions_steady.bind fun _ => .pure _

theorem createTag_steady : Steady createTag := by
  refine (consume_steady (not_ends_keyword _)).bind fun orReplace => ?_
  split
  · exact (expect_steady (not_ends_keyword _)).bind fun _ => replaceTag_steady true
  · refine (consume_steady (not_ends_keyword _)).bind fun tag => ?_
    split
    · refine (consumeAll_steady (by simp [EndsStatement])).bind fun _ => ?_
      exact identifier_steady.bind fun _ => tagOptions_steady.bind fun _ => .pure _
    · exact .fail _

theorem tagAction_steady : Steady tagAction := by
  intro c c' h
  unfold tagAction Rule.tagAction
  rw [look_bind, look_bind]
  rcases h.next with ⟨hcurrent, hadvance⟩ | ⟨hends, -⟩
  · have hkind : c'.kind = c.kind := congrArg Token.kind hcurrent
    rw [hkind]
    generalize c.kind = kind
    split
    · exact .advance_bind (fun _ => createTag_steady.bind fun _ => .pure _) hcurrent hadvance
    · exact .advance_bind (fun _ => (replaceTag_steady false).bind fun _ => .pure _) hcurrent
        hadvance
    · refine .advance_bind (fun _ => (expect_steady (not_ends_keyword _)).bind fun _ => ?_) hcurrent
        hadvance
      refine (consumeAll_steady (by simp [EndsStatement])).bind fun _ => ?_
      exact identifier_steady.bind fun _ => .pure _
    · refine .advance_bind (fun _ => (expect_steady (not_ends_keyword _)).bind fun _ => ?_) hcurrent
        hadvance
      refine identifier_steady.bind fun _ => (expect_steady (not_ends_keyword _)).bind fun _ => ?_
      exact identifier_steady.bind fun _ => .pure _
    · exact .error
  · generalize c.kind = kind at hends
    rcases hends with rfl | rfl <;> exact .error

/-! ### Statements -/

theorem statement_needy : Needy statement := by
  intro c hc
  unfold statement Rule.statement
  rw [look_bind, look_bind]
  generalize c.kind = kind at hc
  rcases hc with rfl | rfl <;> exact ⟨_, _, rfl⟩

theorem statement_steady : Steady statement := by
  refine .of_next statement_needy fun c c' h hcurrent hadvance => ?_
  unfold statement Rule.statement
  rw [look_bind, look_bind, look_bind, look_bind]
  have hkind : c'.kind = c.kind := congrArg Token.kind hcurrent
  rw [hcurrent, hkind]
  generalize c.kind = kind
  split
  · refine .advance_bind (fun _ => name_steady.bind fun _ => ?_) hcurrent hadvance
    exact arguments_steady.bind fun _ => (Steady.spanFrom _).bind fun _ => .pure _
  · refine (expectAll_steady (by simp [EndsStatement])).bind (fun _ => ?_) c c' h
    exact name_steady.bind fun _ => (Steady.spanFrom _).bind fun _ => .pure _
  · refine (expectAll_steady (by simp [EndsStatement])).bind (fun _ => ?_) c c' h
    refine name_steady.bind fun _ => tagAction_steady.bind fun _ => ?_
    exact (Steady.spanFrom _).bind fun _ => .pure _
  · exact .error

/-- A whole statement is read from the same tokens, whichever ending comes behind them. -/
theorem whole_of_ending {shared ys ys' : List Token} (h : Ending ys) (h' : Ending ys')
    {d : Cursor} {s : Statement} (hs : whole (.ofTokens (shared ++ ys)) = .ok s d) :
    ∃ d', whole (.ofTokens (shared ++ ys')) = .ok s d' := by
  obtain ⟨e, hstatement, rfl, hend⟩ := whole_eq_ok.mp hs
  cases shared with
  | nil =>
    obtain ⟨e', d', hfail⟩ := statement_needy (.ofTokens ys) (kind_of_ending [] h)
    rw [List.nil_append, hfail] at hstatement
    cases hstatement
  | cons t shared =>
    have htied : Tied (.ofTokens (t :: shared ++ ys)) (.ofTokens (t :: shared ++ ys')) :=
      .ahead t h h'
    have hkeeps := statement_steady _ _ htied
    obtain ⟨e', hstatement', htied⟩ := hkeeps.exists_ok hstatement
    exact ⟨_, whole_eq_ok.mpr ⟨e', hstatement', rfl, htied.isAtEnd.mpr hend⟩⟩

end Parse

/-- Two texts with the same tokens and then an ending each parse to the same statement, or neither
of them parses. -/
theorem parse_of_ending {text text' : String} {shared ys ys' : List Token}
    (htext : tokenize text = .ok (shared ++ ys)) (htext' : tokenize text' = .ok (shared ++ ys'))
    (h : Parse.Ending ys) (h' : Parse.Ending ys') (s : Statement) :
    parse text' = .ok s ↔ parse text = .ok s := by
  rw [parse_eq_ok htext, parse_eq_ok htext']
  constructor
  · rintro ⟨d, hd⟩
    exact Parse.whole_of_ending h' h hd
  · rintro ⟨d, hd⟩
    exact Parse.whole_of_ending h h' hd

end TagDialect
