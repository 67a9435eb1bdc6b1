-- A scanner over bytes, one step at a time. Behind a part of its text it stands at the edge of a
-- character, and what it finds there over the bytes is the piece that the characters ahead start
-- with. So no cut, no run and no difference goes wrong on the way.
import TagDialect.Proofs.ByteLengths
import TagDialect.Proofs.CheckedScans
import TagDialect.Proofs.TokenPlaces

namespace TagDialect

open Octets

/-! ## The scanner behind a part of its text -/

namespace ByteScanner

/-- The scanner on `text` that has passed `before`. -/
def behind (text : String) (before : List Char) : ByteScanner where
  text := text
  bytes := octets text
  position := byteLength before
  line := (Place.first.past before).line
  column := (Place.first.past before).column
  lastClose := CommentIndex.lastClose? 0 (octets text)
  pairs := (CommentIndex.ofText (octets text)).openers.map ending

theorem ofText_eq (text : String) : ofText text = .ok (behind text []) := by
  have hpair := pair_eq (CommentIndex.walked_start (octets text))
  rw [Array.map_empty] at hpair
  unfold ofText
  simp only [hpair]
  rfl

variable {text : String} {before rest : List Char}

theorem bytes_behind (hcut : text.toList = before ++ rest) :
    (behind text before).bytes = bytesOf before ++ bytesOf rest := by
  rw [← bytesOf_append, ← hcut]
  exact octets_eq text

/-- The bytes from where the scanner stands are those of what is left. -/
theorem drop_behind (hcut : text.toList = before ++ rest) :
    (behind text before).bytes.drop (behind text before).position = bytesOf rest := by
  rw [bytes_behind hcut]
  exact List.drop_left' (length_bytesOf before)

theorem position_le (hcut : text.toList = before ++ rest) :
    (behind text before).position ≤ (behind text before).bytes.length := by
  rw [bytes_behind hcut, List.length_append, length_bytesOf]
  exact Nat.le_add_right _ _

theorem getElem?_behind (hcut : text.toList = before ++ rest) (n : Nat) :
    (behind text before).bytes[(behind text before).position + n]? = (bytesOf rest)[n]? := by
  rw [← List.getElem?_drop, drop_behind hcut]

/-! ## Cuts -/

/-- A piece of the text is at the edges of characters on both sides. -/
theorem cut_behind {piece : List Char} (hcut : text.toList = before ++ (piece ++ rest)) :
    (behind text before).cut (behind text before).position
      ((behind text before).position + byteLength piece) = .ok piece := by
  have hslice := slice?_between before piece rest
  rw [byteLength_append, ← hcut] at hslice
  unfold cut
  exact hslice ▸ rfl

theorem slice?_rest (hcut : text.toList = before ++ rest) :
    slice? text.toList (byteLength before) (byteLength before + byteLength rest) = some rest := by
  have hslice := slice?_between before rest []
  rwa [List.append_nil, byteLength_append, ← hcut] at hslice

/-- The rest of the text starts at the edge of a character. -/
theorem cut_rest (hcut : text.toList = before ++ rest) :
    (behind text before).cut (behind text before).position (behind text before).bytes.length =
      .ok rest := by
  have hstop : (behind text before).bytes.length = byteLength before + byteLength rest := by
    rw [bytes_behind hcut, List.length_append, length_bytesOf, length_bytesOf]
  unfold cut
  rw [hstop]
  exact slice?_rest hcut ▸ rfl

theorem count_foldl (p : Place) (cs : List Char) :
    cs.foldl count (p.line, p.column) = ((p.past cs).line, (p.past cs).column) := by
  induction cs generalizing p with
  | nil => rfl
  | cons c cs ih =>
    have hafter : count (p.line, p.column) c = ((p.after c).line, (p.after c).column) := by
      unfold count Place.after
      split <;> rfl
    rw [List.foldl_cons, hafter, ih]
    rfl

/-- The token of the next characters, counted in bytes. -/
theorem emit_behind (hcut : text.toList = before ++ rest) (kind : TokenKind) (n : Nat) :
    (behind text before).emit kind (inBytes rest n) =
      .ok (.ok (⟨kind, String.ofList (rest.take n), (Place.first.past before).spanTo
        ((Place.first.past before).past (rest.take n))⟩, behind text (before ++ rest.take n))) := by
  have hsplit : text.toList = before ++ (rest.take n ++ rest.drop n) := by
    rw [List.take_append_drop, hcut]
  have hstop : (behind text before).position + inBytes rest n =
      (behind text (before ++ rest.take n)).position := (byteLength_append before _).symm
  have hcount := count_foldl (Place.first.past before) (rest.take n)
  rw [← Place.past_append] at hcount
  unfold emit
  simp only [inBytes, cut_behind hsplit, bind, Except.bind]
  rw [← inBytes, hstop]
  simp only [behind, hcount, Place.spanTo, Place.offset_first, ← Place.past_append]
  rfl

theorem unterminated_behind (hcut : text.toList = before ++ rest) (u : Unterminated) :
    (behind text before).unterminated u =
      .ok (.error {
        message := u.message
        unexpected := u.opener
        offset := (Place.first.past before).offset
        line := (Place.first.past before).line
        column := (Place.first.past before).column
        extent := ((Place.first.past before).offset, byteLength rest) }) := by
  have hlength := congrArg List.length (drop_behind hcut)
  rw [List.length_drop, length_bytesOf] at hlength
  unfold unterminated difference
  rw [if_pos (position_le hcut), hlength, Place.offset_first]
  rfl

/-! ## Comments -/

/-- What comes behind the opener is at the edge of a character. -/
theorem cut_body {body : List Char} (hcut : text.toList = before ++ '/' :: '*' :: body) :
    (behind text before).cut ((behind text before).position + 2)
      (behind text before).bytes.length = .ok body := by
  have hsplit : text.toList = before ++ ['/', '*'] ++ body := by
    rw [hcut, List.append_assoc]
    rfl
  have hstart : (behind text (before ++ ['/', '*'])).position = (behind text before).position + 2 :=
    byteLength_append before _
  rw [← hstart]
  exact cut_rest hsplit

/-- A scanner that knows the comments of its bytes finds the end that they are matched with. -/
theorem commentEnd?_eq {s : ByteScanner} {index : CommentIndex} {body tail : List Char}
    (hclose : s.lastClose = index.lastClose) (hpairs : s.pairs = index.openers.map ending)
    (hdrop : s.bytes.drop s.position = '/' :: '*' :: tail)
    (hopens : Comment.opens ('/' :: '*' :: tail) = true)
    (hcut : s.cut (s.position + 2) s.bytes.length = .ok body)
    (hbody : octets (String.ofList body) = tail) :
    s.commentEnd? = .ok ((index.bodyLength? s.position tail).map (s.position + 2 + ·)) := by
  have hsearch := search_ending index.openers s.position 0 index.openers.size
  have hnested : nestedLength? 0 ('/' :: '*' :: tail) =
      .ok ((Comment.balancedLength? 0 tail).map (· + 2)) := nestedLength?_opener hopens
  unfold commentEnd? CommentIndex.bodyLength?
  rw [hclose, hpairs, hdrop, hcut, Array.size_map, hsearch, hnested]
  rcases index.lastClose with - | close
  · rfl
  · by_cases hlt : close < s.position + 2
    · simp only [if_pos hlt]
      rfl
    · simp only [if_neg hlt, bind, Except.bind, hbody]
      -- The end from the table, the end by depth, and the first closer.
      rcases CommentIndex.search index.openers s.position 0 index.openers.size with
        - | - | n
      · rcases Comment.balancedLength? 0 tail with - | n
        · rfl
        · have hsum : s.position + (n + 2) = s.position + 2 + n := by omega
          exact congrArg (Except.ok ∘ some) hsum
      · rfl
      · rfl

theorem commentEnd?_behind {body : List Char}
    (hcut : text.toList = before ++ '/' :: '*' :: body)
    (hopens : Comment.opens ('/' :: '*' :: body) = true) :
    (behind text before).commentEnd? =
      .ok ((Comment.bodyLength? body).map fun n =>
        (behind text before).position + 2 + inBytes body n) := by
  have hbytes : bytesOf ('/' :: '*' :: body) = '/' :: '*' :: bytesOf body :=
    (Comment.bytesOf_opener hopens).2.2
  have hcut' : octets text = bytesOf before ++ bytesOf ('/' :: '*' :: body) := bytes_behind hcut
  have htable := CommentIndex.bodyLength?_ofText hcut'
  rw [length_bytesOf, hbytes, List.drop_succ_cons, List.drop_succ_cons, List.drop_zero,
    Comment.bodyLength?_bytesOf] at htable
  have hdrop := drop_behind hcut
  rw [← Comment.opens_bytesOf, hbytes] at hopens
  have hindex : (behind text before).pairs =
      (CommentIndex.ofText (octets text)).openers.map ending := rfl
  have hbody : octets (String.ofList body) = bytesOf body := by rw [octets_eq, String.toList_ofList]
  rw [commentEnd?_eq rfl hindex (hbytes ▸ hdrop) hopens (cut_body hcut) hbody]
  refine congrArg Except.ok ?_
  refine (congrArg _ htable).trans ?_
  rw [Option.map_map]
  rfl

/-! ## Words and numbers -/

/-- A number at the head of the text is as long in bytes as in characters. -/
theorem number?_behind (hcut : text.toList = before ++ rest) :
    number? (behind text before).bytes (behind text before).position =
      .ok (Numeral.read? rest) := by
  rw [number?_eq (position_le hcut), drop_behind hcut, Numeral.read?_bytesOf]

theorem inBytes_number {n : Nat} {kind : NumberKind} (h : Numeral.read? rest = some (n, kind)) :
    inBytes rest n = n := by
  obtain ⟨⟨w, ds, rfl, rfl, hmatch⟩, -⟩ := Numeral.read?_eq_some h
  rw [inBytes, List.take_left, byteLength_narrow (Numeral.narrow_ruleMatch hmatch)]

theorem inBytes_run {belongs : Char → Bool} (h : ∀ c, IsWide c → belongs c = false)
    (cs : List Char) :
    inBytes cs (cs.takeWhile belongs).length = (cs.takeWhile belongs).length := by
  have htake : cs.take (cs.takeWhile belongs).length = cs.takeWhile belongs :=
    (List.prefix_iff_eq_take.mp (List.takeWhile_prefix belongs)).symm
  rw [inBytes, htake, byteLength_narrow (narrow_takeWhile h cs)]

theorem runLength_behind {belongs : Char → Bool} (h : ∀ c, IsWide c → belongs c = false)
    (hcut : text.toList = before ++ rest) :
    runLength (behind text before).bytes (behind text before).position belongs =
      .ok (rest.takeWhile belongs).length := by
  rw [runLength_eq (position_le hcut), drop_behind hcut, takeWhile_bytesOf h]

theorem wordOrNumber_behind (hcut : text.toList = before ++ rest) :
    (behind text before).wordOrNumber =
      (behind text before).emit (TagDialect.wordOrNumber rest).1
        (inBytes rest (TagDialect.wordOrNumber rest).2) := by
  have hword : byteLength (rest.take (wordLength rest)) = wordLength rest :=
    inBytes_run (fun _ => isWordChar_wide) rest
  have hsplit : text.toList =
      before ++ (rest.take (wordLength rest) ++ rest.drop (wordLength rest)) := by
    rw [List.take_append_drop, hcut]
  have hpiece := cut_behind hsplit
  rw [hword] at hpiece
  have hrun : runLength (behind text before).bytes (behind text before).position isWordChar =
      .ok (wordLength rest) := runLength_behind (fun _ => isWordChar_wide) hcut
  unfold wordOrNumber TagDialect.wordOrNumber
  simp only [hrun, number?_behind hcut, hpiece, bind, Except.bind]
  rcases hread : Numeral.read? rest with - | ⟨m, kind⟩
  · cases Keyword.ofWord? (rest.take (wordLength rest)) <;> simp only [inBytes, hword]
  · by_cases hlong : wordLength rest ≤ m
    · simp only [if_pos hlong, inBytes_number hread]
    · simp only [if_neg hlong]
      cases Keyword.ofWord? (rest.take (wordLength rest)) <;> simp only [inBytes, hword]

/-! ## One step -/

theorem inBytes_one_add {c : Char} (h : ¬ IsWide c) (cs : List Char) (n : Nat) :
    inBytes (c :: cs) (1 + n) = 1 + inBytes cs n := by
  rw [Nat.add_comm, inBytes_succ, utf8Size_of_narrow h]

theorem inBytes_two_add {c d : Char} (hc : ¬ IsWide c) (hd : ¬ IsWide d) (cs : List Char)
    (n : Nat) : inBytes (c :: d :: cs) (2 + n) = 2 + inBytes cs n := by
  have hsum : 2 + n = 1 + (1 + n) := by omega
  rw [hsum, inBytes_one_add hc, inBytes_one_add hd]
  omega

theorem punctuation?_wide {c : Char} (h : IsWide c) : punctuation? c = none := by
  have hne (d : Char) (hd : ¬ IsWide d) : c ≠ d := ne_of_wide h hd
  simp [punctuation?, hne '(' (by decide), hne ')' (by decide), hne ',' (by decide),
    hne ';' (by decide), hne '+' (by decide), hne '-' (by decide)]

theorem opens_behind (hcut : text.toList = before ++ rest) :
    Comment.opens ((behind text before).bytes.drop (behind text before).position) =
      Comment.opens rest := by
  rw [drop_behind hcut, Comment.opens_bytesOf]

/-- A wide character is a piece that no rule knows. -/
theorem next_wide {c : Char} {cs : List Char} (hwide : IsWide c)
    (hcut : text.toList = before ++ c :: cs) :
    (behind text before).next = (behind text before).emit .unrecognized c.utf8Size := by
  obtain ⟨o, os, hos, hall, -⟩ := bytesOf_wide hwide cs
  have ho := hall o List.mem_cons_self
  have hne (d : Char) (hd : ¬ IsWide d) : o ≠ d := ne_of_wide ho hd
  have hhere : (behind text before).bytes[(behind text before).position]? = some o :=
    (getElem?_behind hcut 0).trans (by rw [hos]; rfl)
  unfold next
  rw [hhere]
  simp [isBlank_wide ho, isWordChar_wide ho, punctuation?_wide ho, opens_behind hcut,
    Comment.not_opens_wide hwide, cut_rest hcut, hne '-' (by decide), hne '\'' (by decide),
    hne '"' (by decide), hne '\x60' (by decide), hne '=' (by decide), hne '.' (by decide), bind,
    Except.bind]

theorem firstPiece_wide {c : Char} (cs : List Char) (hwide : IsWide c) :
    firstPiece (c :: cs) = .ok (.unrecognized, 1) := by
  have hne (d : Char) (hd : ¬ IsWide d) : c ≠ d := ne_of_wide hwide hd
  simp [firstPiece, pieceAt, isBlank_wide hwide, isWordChar_wide hwide, punctuation?_wide hwide,
    Comment.not_opens_wide hwide, hne '-' (by decide), hne '\'' (by decide), hne '"' (by decide),
    hne '\x60' (by decide), hne '=' (by decide), hne '.' (by decide)]

section

variable {c : Char} {cs : List Char} (hnarrow : ¬ IsWide c)
  (hcut : text.toList = before ++ c :: cs)

include hnarrow hcut

theorem here_behind : (behind text before).bytes[(behind text before).position]? = some c :=
  (getElem?_behind hcut 0).trans (by rw [bytesOf_narrow hnarrow]; rfl)

theorem then_behind {d : Char} (hd : ¬ IsWide d) :
    (behind text before).bytes[(behind text before).position + 1]? = some d ↔
      cs.head? = some d := by
  rw [getElem?_behind hcut, bytesOf_narrow hnarrow, List.getElem?_cons_succ,
    ← List.head?_eq_getElem?, head?_bytesOf hd]

theorem after_behind :
    (behind text before).bytes.drop ((behind text before).position + 1) = bytesOf cs :=
  drop_succ_of_drop ((drop_behind hcut).trans (bytesOf_narrow hnarrow cs))

end

/-- At an opener stands a comment, or a slash that nothing closes. -/
theorem next_opener {body : List Char} (hcut : text.toList = before ++ '/' :: '*' :: body)
    (hopens : Comment.opens ('/' :: '*' :: body) = true) :
    (behind text before).next =
      match Comment.bodyLength? body with
      | some n => (behind text before).emit .blockComment (2 + inBytes body n)
      | none => (behind text before).emit .unrecognized 1 := by
  have hblank : ¬ isBlank '/' = true := by decide
  have hdash (p : Prop) : ¬ ('/' = '-' ∧ p) := fun h => absurd h.1 (by decide)
  unfold next
  simp only [here_behind (by decide) hcut, if_neg hblank, if_neg (hdash _), opens_behind hcut,
    if_pos hopens, commentEnd?_behind hcut hopens, bind, Except.bind]
  cases Comment.bodyLength? body with
  | none => rfl
  | some n =>
    have hlength : (behind text before).position + 2 + inBytes body n -
        (behind text before).position = 2 + inBytes body n := by omega
    simp only [Option.map_some, difference]
    rw [if_pos (by omega), hlength]

theorem next_narrow {c : Char} {cs : List Char} (hnarrow : ¬ IsWide c)
    (hcut : text.toList = before ++ c :: cs) :
    (behind text before).next =
      match firstPiece (c :: cs) with
      | .ok (kind, n) => (behind text before).emit kind (inBytes (c :: cs) n)
      | .error u => (behind text before).unterminated u := by
  have hone := inBytes_one_add hnarrow cs
  have hsingle : inBytes (c :: cs) 1 = 1 := hone 0
  have hafter := after_behind hnarrow hcut
  by_cases hopen : Comment.opens (c :: cs) = true
  · obtain ⟨body, hbody, -⟩ := Comment.eq_of_opens hopen
    obtain ⟨rfl, rfl⟩ := List.cons.inj hbody
    rw [next_opener hcut hopen, firstPiece_opener hopen]
    cases Comment.bodyLength? body with
    | none => simp only [hsingle]
    | some n => simp only [inBytes_two_add hnarrow (d := '*') (by decide)]
  unfold next firstPiece pieceAt
  simp only [here_behind hnarrow hcut, then_behind hnarrow hcut (d := '-') (by decide),
    then_behind hnarrow hcut (d := '>') (by decide), opens_behind hcut, hafter, if_neg hopen]
  by_cases hblank : isBlank c = true
  · have hrun := runLength_behind (fun _ => isBlank_wide) hcut
    have hlength := inBytes_run (fun _ => isBlank_wide) (c :: cs)
    rw [List.takeWhile_cons_of_pos hblank, List.length_cons, Nat.add_comm] at hrun hlength
    simp only [if_pos hblank, hrun, hlength]
    rfl
  simp only [if_neg hblank]
  by_cases hdash : c = '-' ∧ cs.head? = some '-'
  · obtain ⟨ds, rfl⟩ := List.head?_eq_some_iff.mp hdash.2
    rw [bytesOf_narrow (by decide)] at hafter
    simp only [if_pos hdash, Comment.lineLength_bytesOf, drop_succ_of_drop hafter,
      inBytes_two_add hnarrow (d := '-') (by decide), List.drop_succ_cons, List.drop_zero]
  simp only [if_neg hdash]
  by_cases hquote : c = '\'' ∨ c = '"'
  · simp only [if_pos hquote, stringLength?_bytesOf hnarrow]
    cases stringLength? c cs with
    | none => rfl
    | some n => simp only [Option.map_some, hone]
  simp only [if_neg hquote]
  by_cases htick : c = '\x60'
  · simp only [if_pos htick, nameLength?_bytesOf]
    cases nameLength? cs with
    | none => rfl
    | some n => simp only [Option.map_some, hone]
  simp only [if_neg htick]
  by_cases harrow : c = '=' ∧ cs.head? = some '>'
  · obtain ⟨ds, rfl⟩ := List.head?_eq_some_iff.mp harrow.2
    simp only [if_pos harrow]
    exact congrArg _ (inBytes_two_add hnarrow (by decide) ds 0).symm
  simp only [if_neg harrow]
  by_cases hdot : c = '.'
  · simp only [if_pos hdot, number?_behind hcut, bind, Except.bind]
    rcases hread : Numeral.read? (c :: cs) with - | ⟨n, kind⟩
    · simp only [hsingle]
    · simp only [inBytes_number hread]
  simp only [if_neg hdot]
  by_cases hword : isWordChar c = true
  · simp only [if_pos hword, wordOrNumber_behind hcut]
  simp only [if_neg hword]
  cases punctuation? c with
  | none =>
    simp only [cut_rest hcut, bind, Except.bind]
    rfl
  | some kind => simp only [hsingle]

/-- The piece here, found over the bytes. -/
theorem next_behind (hcut : text.toList = before ++ rest) :
    (behind text before).next =
      match firstPiece rest with
      | .ok (kind, n) => (behind text before).emit kind (inBytes rest n)
      | .error u => (behind text before).unterminated u := by
  cases rest with
  | nil =>
    have hnone : (behind text before).bytes[(behind text before).position]? = none :=
      getElem?_behind hcut 0
    unfold next
    rw [hnone]
    rfl
  | cons c cs =>
    by_cases hwide : IsWide c
    · rw [next_wide hwide hcut, firstPiece_wide cs hwide]
      rfl
    · exact next_narrow hwide hcut

end ByteScanner

end TagDialect
