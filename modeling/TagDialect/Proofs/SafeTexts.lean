-- No operation on a text goes wrong. A scan over its bytes finds the tokens, what the parser
-- takes from a token is there, and a fault is a piece of the text.
import TagDialect.Canonical
import TagDialect.Proofs.ScannerRuns
import TagDialect.Proofs.FailurePlaces
import TagDialect.Proofs.UnclosedQuotes
import TagDialect.Proofs.SpanOrder

namespace TagDialect

/-! ## What the parser takes from a token -/

theorem string_ends {quote : Char} {cs : List Char}
    (h : stringLength? quote cs = some cs.length) : ∃ inner, cs = inner ++ [quote] := by
  fun_induction stringLength? quote cs with
  | case1 => simp at h
  | case2 => simp at h
  | case3 d ds ih =>
    obtain ⟨n, hn, hlength⟩ := Option.map_eq_some_iff.mp h
    obtain rfl : n = ds.length := by simpa using hlength
    obtain ⟨inner, rfl⟩ := ih hn
    exact ⟨'\\' :: d :: inner, rfl⟩
  | case4 cs hslash =>
    obtain rfl : cs = [] := by simpa using h
    exact ⟨[], rfl⟩
  | case5 c cs hslash hquote ih =>
    obtain ⟨n, hn, hlength⟩ := Option.map_eq_some_iff.mp h
    obtain rfl : n = cs.length := by simpa using hlength
    obtain ⟨inner, rfl⟩ := ih hn
    exact ⟨c :: inner, rfl⟩

theorem name_ends {cs : List Char} (h : nameLength? cs = some cs.length) :
    ∃ inner, cs = inner ++ ['\x60'] := by
  fun_induction nameLength? cs with
  | case1 => simp at h
  | case2 => exact ⟨[], rfl⟩
  | case3 => simp at h
  | case4 cs ih =>
    obtain ⟨n, hn, hlength⟩ := Option.map_eq_some_iff.mp h
    obtain rfl : n = cs.length := by simpa using hlength
    obtain ⟨inner, rfl⟩ := ih hn
    exact ⟨'\x60' :: '\x60' :: inner, rfl⟩
  | case5 d cs htick => simp at h
  | case6 c d cs htick ih =>
    obtain ⟨n, hn, hlength⟩ := Option.map_eq_some_iff.mp h
    obtain rfl : n = (d :: cs).length := by simpa using hlength
    obtain ⟨inner, hinner⟩ := ih hn
    exact ⟨c :: inner, by rw [hinner]; rfl⟩

/-- What stands between two narrow characters is the interior. -/
theorem interior?_of_ends {quote : Char} (hquote : ¬ IsWide quote) {w : List Char}
    (h : ∃ inner, w = inner ++ [quote]) : ∃ inner, interior? (quote :: w) = some inner := by
  obtain ⟨inner, rfl⟩ := h
  exact ⟨inner, interior?_between (utf8Size_of_narrow hquote) (utf8Size_of_narrow hquote) inner⟩

/-- No rule matches a quoted piece. -/
theorem not_chosen_quoted {cs : List Char} {kind : TokenKind} {n : Nat}
    (hkind : kind = .string ∨ kind = .backquoted) : ¬ Chosen cs kind n := by
  rintro (⟨w, rest, -, -, hbest⟩ | ⟨rfl, -, -⟩)
  · rcases hkind with rfl | rfl
    · cases hbest.fits with
      | mark hmark => cases hmark
    · cases hbest.fits with
      | mark hmark => cases hmark
  · rcases hkind with h | h <;> contradiction

theorem exists_cons_of_length {c : Char} {cs w rest : List Char} {n : Nat}
    (hcut : w ++ rest = c :: cs) (hlength : w.length = 1 + n) :
    ∃ v, w = c :: v ∧ cs = v ++ rest ∧ v.length = n := by
  cases w with
  | nil =>
    rw [List.length_nil] at hlength
    omega
  | cons d v =>
    obtain ⟨rfl, rfl⟩ := List.cons.inj hcut
    rw [List.length_cons] at hlength
    exact ⟨v, rfl, rfl, by omega⟩

/-- The characters of a quoted piece: its opening mark, and what the scan passes behind that up to
the closing one. -/
theorem PieceForm.quoted {w rest : List Char} {kind : TokenKind}
    (h : PieceForm (w ++ rest) kind w.length) (hkind : kind = .string ∨ kind = .backquoted) :
    (∃ quote v, kind = .string ∧ (quote = '\'' ∨ quote = '"') ∧ w = quote :: v ∧
      stringLength? quote v = some v.length) ∨
    ∃ v, kind = .backquoted ∧ w = '\x60' :: v ∧ nameLength? v = some v.length := by
  generalize hcut : w ++ rest = cs at h
  generalize hlength : w.length = n at h
  cases h with
  | @string quote cs n hq hn =>
    obtain ⟨v, rfl, rfl, rfl⟩ := exists_cons_of_length hcut hlength
    have hend := stringLength?_elsewhere hn []
    rw [List.append_nil] at hend
    exact .inl ⟨quote, v, rfl, hq, rfl, hend⟩
  | @ticked cs n hn =>
    obtain ⟨v, rfl, rfl, rfl⟩ := exists_cons_of_length hcut hlength
    have hend := (nameLength?_elsewhere hn).2 [] (by simp)
    rw [List.append_nil] at hend
    exact .inr ⟨v, rfl, rfl, hend⟩
  | chosen _ _ h => exact absurd h (not_chosen_quoted hkind)
  | comment => rcases hkind with h | h <;> contradiction
  | slash => rcases hkind with h | h <;> contradiction

/-- A quoted piece has an interior. -/
theorem PieceForm.interior {w rest : List Char} {kind : TokenKind}
    (h : PieceForm (w ++ rest) kind w.length) (hkind : kind = .string ∨ kind = .backquoted) :
    ∃ inner, interior? w = some inner := by
  rcases h.quoted hkind with ⟨quote, v, -, hq, rfl, hend⟩ | ⟨v, -, rfl, hend⟩
  · have hnarrow : ¬ IsWide quote := by rcases hq with rfl | rfl <;> decide
    exact interior?_of_ends hnarrow (string_ends hend)
  · exact interior?_of_ends (by decide) (name_ends hend)

/-- A token of a run is the first piece of what was ahead. -/
theorem Lexer.Reaches.form {text : String} {l l' : Lexer} {t : Token} (h : Reaches text l)
    (hnext : l.next = .ok (t, l')) (hkind : t.kind ≠ .endOfInput) :
    ∃ rest, PieceForm (t.text.toList ++ rest) t.kind t.text.toList.length := by
  obtain ⟨before, ahead, hcut, rfl⟩ := h.cut
  have hfound := found_next hcut
  rw [hnext] at hfound
  cases hfound with
  | finish => exact absurd rfl hkind
  | @token kind w rest hw _ hpiece =>
    refine ⟨rest, ?_⟩
    obtain ⟨c, v, rfl⟩ := List.exists_cons_of_ne_nil hw
    rw [String.toList_ofList]
    exact firstPiece_eq_ok.mp hpiece

/-- Takes what the parser can take from a token: its length and, when it is quoted, its value. -/
def Token.take (t : Token) : Except Misuse Unit := do
  let _ ← Octets.difference t.span.stop t.span.start
  match t.kind with
  | .string => do
    let _ ← Octets.stringValue t.text
  | .backquoted => do
    let _ ← Octets.nameValue t.text
  | _ => return ()

/-- A token that gives what the parser can take from it. -/
structure Token.Readable (t : Token) : Prop where
  length : Octets.difference t.span.stop t.span.start = .ok t.span.length
  string : t.kind = .string → ∃ value, stringValue? t.text = some value ∧
    Octets.stringValue t.text = .ok value
  ticked : t.kind = .backquoted → ∃ name, nameValue? t.text = some name ∧
    Octets.nameValue t.text = .ok name

theorem Token.Readable.take {t : Token} (h : t.Readable) : t.take = .ok () := by
  unfold Token.take
  rw [h.length]
  simp only [bind, Except.bind]
  split
  · rename_i hk
    obtain ⟨value, -, hvalue⟩ := h.string hk
    rw [hvalue]
    rfl
  · rename_i hk
    obtain ⟨name, -, hname⟩ := h.ticked hk
    rw [hname]
    rfl
  · rfl

theorem interior_of_pieces {ws : List Lexeme} {rest : List Char} (h : Pieces ws rest) {w : Lexeme}
    (hw : w ∈ ws) (hkind : w.kind = .string ∨ w.kind = .backquoted) :
    ∃ inner, interior? w.text.toList = some inner := by
  obtain ⟨us, vs, rfl⟩ := List.mem_iff_append.mp hw
  obtain ⟨-, hpiece, -⟩ := (Pieces.append_iff.mp h).2
  cases hcut : w.text.toList ++ (chars vs ++ rest) with
  | nil => exact absurd (List.append_eq_nil_iff.mp hcut).1 (h.text_ne_nil hw)
  | cons c cs =>
    rw [hcut] at hpiece
    have hform := firstPiece_eq_ok.mp hpiece
    rw [← hcut] at hform
    exact hform.interior hkind

theorem readable_tokenizeAll {text : String} {tokens : List Token}
    (h : tokenizeAll text = .ok tokens) : ∀ t ∈ tokens, t.Readable := by
  obtain ⟨ws, hws, -, rfl⟩ := tokenizeAll_eq_ok.mp h
  intro t ht
  have hinterior (hkind : t.kind = .string ∨ t.kind = .backquoted) :
      ∃ inner, interior? t.text.toList = some inner := by
    have hmem := List.mem_map_of_mem (f := Token.lexeme) ht
    rw [lexemes_placed] at hmem
    rcases List.mem_append.mp hmem with hmem | hmem
    · exact interior_of_pieces hws hmem hkind
    · have hend : t.kind = .endOfInput := congrArg Lexeme.kind (List.mem_singleton.mp hmem)
      simp [hend] at hkind
  refine ⟨?_, fun hk => ?_, fun hk => ?_⟩
  · exact if_pos (le_start_of_placed ht).2
  · obtain ⟨inner, hinner⟩ := hinterior (.inl hk)
    have hvalue : stringValue? t.text = some _ := Option.map_eq_some_iff.mpr ⟨inner, hinner, rfl⟩
    exact ⟨_, hvalue, Octets.stringValue_eq hvalue⟩
  · obtain ⟨inner, hinner⟩ := hinterior (.inr hk)
    have hname : nameValue? t.text = some _ := Option.map_eq_some_iff.mpr ⟨inner, hinner, rfl⟩
    exact ⟨_, hname, Octets.nameValue_eq hname⟩

theorem readable_tokenize {text : String} {tokens : List Token}
    (h : tokenize text = .ok tokens) : ∀ t ∈ tokens, t.Readable := by
  rw [tokenize_eq_filter] at h
  cases hall : tokenizeAll text with
  | error e => simp [hall, Except.map] at h
  | ok all =>
    rw [hall] at h
    rw [← Except.ok.inj h]
    exact fun t ht => readable_tokenizeAll hall t (List.mem_of_mem_filter ht)

/-! ## The whole way from a text -/

namespace Checked

/-- The statement of a text, by a scan over its bytes and with all that the parser can take from
the tokens. -/
def parse (text : String) : Except Misuse (Except Fault Statement) := do
  match ← ByteScanner.tokens (fun t => !t.kind.isHidden) text with
  | .error e => return .error (.lexical e)
  | .ok tokens => do
    tokens.forM Token.take
    match Parse.whole.run tokens with
    | .error e => return .error (.grammatical e)
    | .ok s => return .ok s

def format (text : String) : Except Misuse (Except Fault String) := do
  return (← parse text).map Statement.format

def check (text : String) : Except Misuse (Except Fault Bool) := do
  return (← format text).map fun canonical => canonical.toList == trimEnd text.toList

theorem forM_take {tokens : List Token} (h : ∀ t ∈ tokens, t.Readable) :
    tokens.forM Token.take = .ok () := by
  induction tokens with
  | nil => rfl
  | cons t ts ih =>
    obtain ⟨ht, hts⟩ := List.forall_mem_cons.mp h
    unfold List.forM
    rw [ht.take]
    exact ih hts

theorem parse_eq (text : String) : parse text = .ok (TagDialect.parse text) := by
  unfold parse TagDialect.parse
  rw [ByteScanner.tokens_eq, ← tokenize]
  cases htokens : tokenize text with
  | error e => rfl
  | ok tokens =>
    simp only [bind, Except.bind, forM_take (readable_tokenize htokens)]
    cases Parse.whole.run tokens <;> rfl

theorem format_eq (text : String) : format text = .ok (TagDialect.format text) := by
  unfold format TagDialect.format
  rw [parse_eq]
  cases TagDialect.parse text <;> rfl

theorem check_eq (text : String) : check text = .ok (TagDialect.check text) := by
  unfold check TagDialect.check
  rw [format_eq]
  cases TagDialect.format text <;> rfl

end Checked

/-! ## The place of a fault -/

/-- A fault in a text: its stretch starts where the fault is, and is a piece of the text. -/
def Fault.Inside (text : String) (fault : Fault) : Prop :=
  ∃ word start length, fault.offset? = some start ∧ fault.label? = some (word, start, length) ∧
    ∃ piece, slice? text.toList start (start + length) = some piece

/-- A quoted piece without an end runs to the end of the text. -/
theorem rest_of_lexical {text : String} {e : LexError} (h : tokenize text = .error e) :
    ∃ before rest, text.toList = before ++ rest ∧ e.offset = byteLength before ∧
      e.extent = (byteLength before, byteLength rest) := by
  obtain ⟨before, quote, rest, u, hcut, -, rfl⟩ := unclosed_of_tokenize h
  have hoffset := Place.offset_first before
  exact ⟨before, quote :: rest, hcut, hoffset, congrArg (·, byteLength (quote :: rest)) hoffset⟩

/-- A token is a piece of its text. -/
theorem slice?_of_token {text : String} {tokens : List Token} (h : tokenize text = .ok tokens)
    {t : Token} (ht : t ∈ tokens) :
    ∃ piece, slice? text.toList t.span.start (t.span.start + t.span.length) = some piece := by
  have hforward := (ordered_tokenize h).forward t ht
  have hstop : t.span.start + t.span.length = t.span.stop := by
    unfold Span.length
    omega
  obtain ⟨before, rest, hcut, hspan, -⟩ := cut_of_token h ht
  refine ⟨t.text.toList, ?_⟩
  rw [hstop, hspan, hcut]
  simp only [Place.spanTo, Place.offset_first]
  exact slice?_between _ _ _

/-- Every fault that the parser finds is in the text. -/
theorem inside_of_parse {text : String} {fault : Fault} (h : parse text = .error fault) :
    fault.Inside text := by
  rcases fault_of_parse h with ⟨e, rfl, htokens⟩ | ⟨e, tokens, rfl, htokens⟩
  · obtain ⟨before, rest, hcut, hoffset, hextent⟩ := rest_of_lexical htokens
    exact ⟨"starts here", byteLength before, byteLength rest, congrArg some hoffset,
      by rw [Fault.label?, hextent], rest, ByteScanner.slice?_rest hcut⟩
  · obtain ⟨t, ht, hoffset, -, -, hextent⟩ := token_of_grammatical htokens h
    exact ⟨"here", t.span.start, t.span.length, congrArg some hoffset,
      by rw [Fault.label?, hextent], slice?_of_token htokens ht⟩

/-! ## The law -/

/-- No operation on a text goes wrong. A scan over its bytes, with each cut, run, depth and
difference checked, finds the tokens that the lexer finds, with the hidden ones and without
them. Each call before the end fails on a quoted piece or moves forward, so the scan ends. What
is taken from a token is there, so a statement is found, formatted and checked without a misuse,
and a fault is in the text. A report on it only counts lines and characters up to there. -/
theorem no_operation_on_a_text_goes_wrong (text : String) :
    ByteScanner.tokens (fun _ => true) text = .ok (tokenizeAll text) ∧
    ByteScanner.tokens (fun t => !t.kind.isHidden) text = .ok (tokenize text) ∧
    (∀ s, ByteScanner.Reaches text s → s.GoesOn) ∧
    (∀ tokens, tokenizeAll text = .ok tokens → ∀ t ∈ tokens, t.Readable) ∧
    Checked.parse text = .ok (parse text) ∧
    Checked.format text = .ok (format text) ∧
    Checked.check text = .ok (check text) ∧
    ∀ fault, parse text = .error fault → fault.Inside text :=
  ⟨ByteScanner.tokens_eq _ text, ByteScanner.tokens_eq _ text, fun _ h => h.goesOn,
    fun _ => readable_tokenizeAll, Checked.parse_eq text, Checked.format_eq text,
    Checked.check_eq text, fun _ => inside_of_parse⟩

/-- A backslash hides the first byte of the wide character behind it, and the scan goes on inside
that character up to the quote. -/
theorem a_backslash_hides_a_part_of_a_wide_character :
    let tokens : List Token := [⟨.string, "'\\é'", ⟨0, 5, 1, 1⟩⟩, ⟨.endOfInput, "", ⟨5, 5, 1, 5⟩⟩]
    tokenizeAll "'\\é'" = .ok tokens ∧
      ByteScanner.tokens (fun _ => true) "'\\é'" = .ok (.ok tokens) ∧
      ∃ value, Octets.stringValue "'\\é'" = .ok value ∧ value = "é" := by
  intro tokens
  have htokens : tokenizeAll "'\\é'" = .ok tokens := by
    unfold tokenizeAll
    refine Lexer.collect_of_kept rfl (by simp) rfl ?_
    exact Lexer.collect_of_end rfl rfl
  obtain ⟨hscan, -, -, hreadable, -⟩ := no_operation_on_a_text_goes_wrong "'\\é'"
  have hread := hreadable tokens htokens ⟨.string, "'\\é'", ⟨0, 5, 1, 1⟩⟩ (by simp [tokens])
  obtain ⟨value, hvalue, htaken⟩ := hread.string rfl
  refine ⟨htokens, hscan.trans (congrArg Except.ok htokens), value, htaken, ?_⟩
  exact (Option.some.inj hvalue).symm.trans rfl

end TagDialect
