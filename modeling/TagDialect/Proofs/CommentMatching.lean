-- The laws of block comments. One pass over the whole text pairs openers with
-- closers on a stack. Whatever stands before an opener, the pass gives it the
-- same end as a depth scan that starts at the opener.
import TagDialect.Proofs.LexerRuns

namespace TagDialect

namespace Comment

/-! ## The plain definition -/

/-- How many characters a depth scan takes up to the end of the closer at which the depth
comes back to zero. -/
def scanLength? (depth : Nat) : List Char → Option Nat
  | [] => none
  | [_] => none
  | a :: b :: cs =>
    if opens (a :: b :: cs) then (scanLength? (depth + 1) cs).map (· + 2)
    else if closes (a :: b :: cs) then
      if depth - 1 = 0 then some 2 else (scanLength? (depth - 1) cs).map (· + 2)
    else (scanLength? depth (b :: cs)).map (· + 1)

/-- Some closer stands in the text. -/
def HasClose (cs : List Char) : Prop := ∃ k, closes (cs.drop k) = true

/-- The comment that opens the text has `n` characters. A depth scan from the opener comes
back to zero there, or it never does and the first closer behind the opener ends there. -/
inductive Ends (cs : List Char) (n : Nat) : Prop
  | balanced : scanLength? 0 cs = some n → Ends cs n
  | first (k : Nat) : scanLength? 0 cs = none → n = k + 4 → closes (cs.drop (k + 2)) = true →
      (∀ j < k, closes (cs.drop (j + 2)) = false) → Ends cs n

theorem eq_of_opens {cs : List Char} (h : opens cs = true) :
    ∃ body, cs = '/' :: '*' :: body ∧ body.head? ≠ some '+' := by
  unfold opens at h
  split at h
  · rename_i a b body
    simp only [Bool.and_eq_true, beq_iff_eq, bne_iff_ne, ne_eq] at h
    obtain ⟨⟨rfl, rfl⟩, hplus⟩ := h
    exact ⟨body, rfl, hplus⟩
  · simp at h

theorem balancedLength?_opener {a b : Char} {cs : List Char} (depth : Nat)
    (ho : opens (a :: b :: cs) = true) :
    balancedLength? depth (a :: b :: cs) = (balancedLength? (depth + 1) cs).map (· + 2) := by
  simp only [balancedLength?, ho, if_true]

theorem balancedLength?_last {a b : Char} {cs : List Char} (ho : ¬ opens (a :: b :: cs) = true)
    (hc : closes (a :: b :: cs) = true) : balancedLength? 0 (a :: b :: cs) = some 2 := by
  simp [balancedLength?, ho, hc]

theorem balancedLength?_closer {a b : Char} {cs : List Char} (depth : Nat)
    (ho : ¬ opens (a :: b :: cs) = true) (hc : closes (a :: b :: cs) = true) :
    balancedLength? (depth + 1) (a :: b :: cs) = (balancedLength? depth cs).map (· + 2) := by
  simp [balancedLength?, ho, hc]

theorem balancedLength?_plain {a b : Char} {cs : List Char} (depth : Nat)
    (ho : ¬ opens (a :: b :: cs) = true) (hc : ¬ closes (a :: b :: cs) = true) :
    balancedLength? depth (a :: b :: cs) = (balancedLength? depth (b :: cs)).map (· + 1) := by
  simp [balancedLength?, ho, hc]

/-- Inside a comment the scan counts one more than the comments open inside it. -/
theorem scanLength?_succ (depth : Nat) (cs : List Char) :
    scanLength? (depth + 1) cs = balancedLength? depth cs := by
  fun_induction balancedLength? depth cs with
  | case1 depth => rfl
  | case2 depth c => rfl
  | case3 depth a b cs ho ih =>
    unfold scanLength?
    rw [if_pos ho, ih]
  | case4 a b cs ho hc =>
    unfold scanLength?
    rw [if_neg ho, if_pos hc]
    rfl
  | case5 a b cs ho hc depth ih =>
    unfold scanLength?
    rw [if_neg ho, if_pos hc, if_neg (by omega), Nat.add_sub_cancel, ih]
  | case6 depth a b cs ho hc ih =>
    unfold scanLength?
    rw [if_neg ho, if_neg hc, ih]

theorem scanLength?_opener {body : List Char} (h : opens ('/' :: '*' :: body) = true) :
    scanLength? 0 ('/' :: '*' :: body) = (balancedLength? 0 body).map (· + 2) := by
  unfold scanLength?
  rw [if_pos h, scanLength?_succ]

/-! ## No closer, no end -/

theorem hasClose_cons {c : Char} {cs : List Char} (h : HasClose cs) : HasClose (c :: cs) := by
  obtain ⟨k, hk⟩ := h
  exact ⟨k + 1, hk⟩

theorem hasClose_of_balancedLength? {depth : Nat} {cs : List Char} {n : Nat}
    (h : balancedLength? depth cs = some n) : HasClose cs := by
  fun_induction balancedLength? depth cs generalizing n with
  | case1 => simp at h
  | case2 => simp at h
  | case3 depth a b cs ho ih =>
    obtain ⟨m, hm, -⟩ := Option.map_eq_some_iff.mp h
    exact hasClose_cons (hasClose_cons (ih hm))
  | case4 a b cs ho hc => exact ⟨0, hc⟩
  | case5 a b cs ho hc depth ih => exact ⟨0, hc⟩
  | case6 depth a b cs ho hc ih =>
    obtain ⟨m, hm, -⟩ := Option.map_eq_some_iff.mp h
    exact hasClose_cons (ih hm)

/-- The first closer is a closer, and none stands before it. -/
theorem firstCloseLength?_eq_some {cs : List Char} {n : Nat} :
    firstCloseLength? cs = some n ↔
      ∃ k, n = k + 2 ∧ closes (cs.drop k) = true ∧ ∀ j < k, closes (cs.drop j) = false := by
  induction cs generalizing n with
  | nil => simp [firstCloseLength?, closes]
  | cons c cs ih =>
    unfold firstCloseLength?
    split
    · rename_i hc
      rw [Option.some.injEq]
      constructor
      · rintro rfl
        exact ⟨0, rfl, hc, fun j hj => absurd hj (Nat.not_lt_zero j)⟩
      · rintro ⟨k, rfl, -, hbefore⟩
        cases k with
        | zero => rfl
        | succ k =>
          have h0 := hbefore 0 (Nat.succ_pos k)
          rw [List.drop_zero, hc] at h0
          simp at h0
    · rename_i hc
      rw [Option.map_eq_some_iff]
      constructor
      · rintro ⟨m, hm, rfl⟩
        obtain ⟨k, rfl, hk, hbefore⟩ := ih.mp hm
        refine ⟨k + 1, rfl, hk, ?_⟩
        intro j hj
        cases j with
        | zero => simpa using hc
        | succ j => exact hbefore j (by omega)
      · rintro ⟨k, rfl, hk, hbefore⟩
        cases k with
        | zero => exact absurd hk hc
        | succ k =>
          refine ⟨k + 2, ih.mpr ⟨k, rfl, hk, ?_⟩, by omega⟩
          intro j hj
          exact hbefore (j + 1) (by omega)

theorem firstCloseLength?_eq_none (cs : List Char) :
    firstCloseLength? cs = none ↔ ¬ HasClose cs := by
  induction cs with
  | nil => simp [firstCloseLength?, HasClose, closes]
  | cons c cs ih =>
    unfold firstCloseLength?
    split
    · rename_i hc
      have hclose : HasClose (c :: cs) := ⟨0, hc⟩
      simp [hclose]
    · rename_i hc
      rw [Option.map_eq_none_iff, ih]
      constructor
      · rintro hno ⟨k, hk⟩
        cases k with
        | zero => exact hc hk
        | succ k => exact hno ⟨k, hk⟩
      · intro hno hclose
        exact hno (hasClose_cons hclose)

/-- A comment has an end as soon as some closer stands behind its opener. -/
theorem bodyLength?_eq_none (body : List Char) : bodyLength? body = none ↔ ¬ HasClose body := by
  unfold bodyLength?
  rcases hb : balancedLength? 0 body with _ | n
  · exact firstCloseLength?_eq_none body
  · have hclose := hasClose_of_balancedLength? hb
    simp [hclose]

theorem ends_iff {body : List Char} (h : opens ('/' :: '*' :: body) = true) (n : Nat) :
    Ends ('/' :: '*' :: body) n ↔ (bodyLength? body).map (· + 2) = some n := by
  have hscan := scanLength?_opener h
  unfold bodyLength?
  rcases hb : balancedLength? 0 body with _ | m
  · rw [hb, Option.map_none] at hscan
    constructor
    · intro hends
      cases hends with
      | balanced hn => simp [hscan] at hn
      | first k _ hn hk hbefore =>
        have hfirst := firstCloseLength?_eq_some.mpr ⟨k, rfl, hk, hbefore⟩
        simp [hfirst, hn]
    · intro hn
      obtain ⟨m, hm, rfl⟩ := Option.map_eq_some_iff.mp hn
      obtain ⟨k, rfl, hk, hbefore⟩ := firstCloseLength?_eq_some.mp hm
      exact .first k hscan rfl hk hbefore
  · rw [hb, Option.map_some] at hscan
    constructor
    · intro hends
      cases hends with
      | balanced hn => exact hscan.symm.trans hn
      | first k hn => simp [hscan] at hn
    · intro hn
      exact .balanced (hscan.trans hn)

end Comment

namespace CommentIndex

open Comment

/-! ## The last closer -/

theorem le_of_lastClose? {i m : Nat} {cs : List Char} (h : lastClose? i cs = some m) : i ≤ m := by
  induction cs generalizing i with
  | nil => simp [lastClose?] at h
  | cons c cs ih =>
    unfold lastClose? at h
    rcases hl : lastClose? (i + 1) cs with _ | m'
    · simp only [hl, Option.orElse_eq_orElse, Option.orElse_none] at h
      split at h
      · simp only [Option.some.injEq] at h
        omega
      · simp at h
    · simp only [hl, Option.orElse_eq_orElse, Option.orElse_some, Option.some.injEq] at h
      subst h
      have := ih hl
      omega

/-- No closer stands behind the last one. -/
theorem lastClose?_ge {cs : List Char} {k : Nat} (i : Nat) (h : closes (cs.drop k) = true) :
    ∃ m, lastClose? i cs = some m ∧ i + k ≤ m := by
  induction cs generalizing i k with
  | nil => simp [closes] at h
  | cons c cs ih =>
    unfold lastClose?
    cases k with
    | zero =>
      rw [List.drop_zero] at h
      rcases hl : lastClose? (i + 1) cs with _ | m
      · exact ⟨i, by simp [h], by omega⟩
      · have := le_of_lastClose? hl
        exact ⟨m, rfl, by omega⟩
    | succ k =>
      obtain ⟨m, hm, hle⟩ := ih (i + 1) h
      exact ⟨m, by simp [hm], by omega⟩

/-! ## The table of one pass -/

/-- What the pass knows when `rest` is left of the text, from character `i` on. An entry
off the stack holds its final answer. An entry on the stack, below `depth` others, gets
its answer from the scan of the rest at that depth. -/
structure Walked (text : List Char) (i : Nat) (rest : List Char) (stack : List Nat)
    (openers : Array (Nat × Option Nat)) : Prop where
  left : text.drop i = rest
  distinct : stack.Nodup
  closed : ∀ k o found, openers[k]? = some (o, found) → k ∉ stack →
    found = balancedLength? 0 (text.drop (o + 2))
  opened : ∀ depth k, stack[depth]? = some k → ∃ o, openers[k]? = some (o, none) ∧ o + 2 ≤ i ∧
    balancedLength? 0 (text.drop (o + 2)) =
      (balancedLength? depth rest).map (· + (i - (o + 2)))

section
variable {text : List Char} {i : Nat} {a b : Char} {cs : List Char} {stack : List Nat}
  {openers : Array (Nat × Option Nat)}

theorem drop_add_two (h : text.drop i = a :: b :: cs) : text.drop (i + 2) = cs := by
  rw [← List.drop_drop, h]
  rfl

theorem drop_add_one (h : text.drop i = a :: b :: cs) : text.drop (i + 1) = b :: cs := by
  rw [← List.drop_drop, h]
  rfl

theorem lt_size_of_getElem? {k : Nat} {e : Nat × Option Nat} (h : openers[k]? = some e) :
    k < openers.size := by
  rw [Array.getElem?_eq_some_iff] at h
  exact h.1

/-- An opener goes on top of the stack, with the whole rest before it. -/
theorem Walked.opener (h : Walked text i (a :: b :: cs) stack openers)
    (ho : opens (a :: b :: cs) = true) :
    Walked text (i + 2) cs (openers.size :: stack) (openers.push (i, none)) := by
  have hfresh : openers.size ∉ stack := by
    intro hmem
    obtain ⟨depth, hdepth⟩ := List.mem_iff_getElem?.mp hmem
    obtain ⟨o, hget, -⟩ := h.opened depth _ hdepth
    have := lt_size_of_getElem? hget
    omega
  refine ⟨drop_add_two h.left, List.nodup_cons.mpr ⟨hfresh, h.distinct⟩, ?_, ?_⟩
  · intro k o found hget hk
    rw [List.mem_cons, not_or] at hk
    rw [Array.getElem?_push, if_neg hk.1] at hget
    exact h.closed k o found hget hk.2
  · intro depth k hk
    cases depth with
    | zero =>
      simp only [List.getElem?_cons_zero, Option.some.injEq] at hk
      subst hk
      refine ⟨i, by simp, Nat.le_refl _, ?_⟩
      rw [drop_add_two h.left, Nat.sub_self]
      simp
    | succ depth =>
      rw [List.getElem?_cons_succ] at hk
      obtain ⟨o, hget, hle, heq⟩ := h.opened depth k hk
      refine ⟨o, ?_, by omega, ?_⟩
      · rw [Array.getElem?_push, if_neg (by have := lt_size_of_getElem? hget; omega)]
        exact hget
      · rw [heq, balancedLength?_opener depth ho, Option.map_map]
        congr 1
        funext n
        simp only [Function.comp_apply]
        omega

/-- A closer gives its answer to the entry on top of the stack. -/
theorem Walked.closer {k : Nat} (h : Walked text i (a :: b :: cs) (k :: stack) openers)
    (ho : ¬ opens (a :: b :: cs) = true) (hc : closes (a :: b :: cs) = true) :
    Walked text (i + 2) cs stack (openers.modify k fun (o, _) => (o, some (i - o))) := by
  obtain ⟨hnew, hdistinct⟩ := List.nodup_cons.mp h.distinct
  obtain ⟨top, htop, hle, heq⟩ := h.opened 0 k rfl
  refine ⟨drop_add_two h.left, hdistinct, ?_, ?_⟩
  · intro j o found hget hj
    rw [Array.getElem?_modify] at hget
    split at hget
    · rename_i hjk
      subst hjk
      simp only [htop, Option.map_some, Option.some.injEq, Prod.mk.injEq] at hget
      obtain ⟨rfl, rfl⟩ := hget
      rw [heq, balancedLength?_last ho hc, Option.map_some, Option.some.injEq]
      omega
    · rename_i hjk
      refine h.closed j o found hget ?_
      rw [List.mem_cons, not_or]
      exact ⟨Ne.symm hjk, hj⟩
  · intro depth j hj
    obtain ⟨o, hget, hle', heq'⟩ := h.opened (depth + 1) j (by rwa [List.getElem?_cons_succ])
    refine ⟨o, ?_, by omega, ?_⟩
    · have hjk : k ≠ j := fun hkj => hnew (hkj ▸ List.mem_of_getElem? hj)
      rw [Array.getElem?_modify, if_neg hjk]
      exact hget
    · rw [heq', balancedLength?_closer depth ho hc, Option.map_map]
      congr 1
      funext n
      simp only [Function.comp_apply]
      omega

/-- A closer that no opener waits for changes nothing. -/
theorem Walked.stray (h : Walked text i (a :: b :: cs) [] openers) :
    Walked text (i + 2) cs [] openers := by
  refine ⟨drop_add_two h.left, List.nodup_nil, h.closed, ?_⟩
  intro depth k hk
  simp at hk

theorem Walked.plain (h : Walked text i (a :: b :: cs) stack openers)
    (ho : ¬ opens (a :: b :: cs) = true) (hc : ¬ closes (a :: b :: cs) = true) :
    Walked text (i + 1) (b :: cs) stack openers := by
  refine ⟨drop_add_one h.left, h.distinct, h.closed, ?_⟩
  intro depth k hk
  obtain ⟨o, hget, hle, heq⟩ := h.opened depth k hk
  refine ⟨o, hget, by omega, ?_⟩
  rw [heq, balancedLength?_plain depth ho hc, Option.map_map]
  congr 1
  funext n
  simp only [Function.comp_apply]
  omega

/-- At the end of the text nothing closes the openers that are left on the stack. -/
theorem Walked.done {rest : List Char} (h : Walked text i rest stack openers)
    (hrest : ∀ depth, balancedLength? depth rest = none) (k o : Nat) (found : Option Nat)
    (hget : openers[k]? = some (o, found)) :
    found = balancedLength? 0 (text.drop (o + 2)) := by
  by_cases hk : k ∈ stack
  · obtain ⟨depth, hdepth⟩ := List.mem_iff_getElem?.mp hk
    obtain ⟨o', hget', -, heq⟩ := h.opened depth k hdepth
    rw [hget, Option.some.injEq, Prod.mk.injEq] at hget'
    obtain ⟨rfl, rfl⟩ := hget'
    rw [heq, hrest, Option.map_none]
  · exact h.closed k o found hget hk

end

/-- Each entry of the table holds what a depth scan from its opener finds. -/
theorem pair_entry {text : List Char} {i : Nat} {rest : List Char} {stack : List Nat}
    {openers : Array (Nat × Option Nat)} (h : Walked text i rest stack openers) (k o : Nat)
    (found : Option Nat) (hget : (pair i stack openers rest)[k]? = some (o, found)) :
    found = balancedLength? 0 (text.drop (o + 2)) := by
  fun_induction pair i stack openers rest with
  | case1 i stack openers => exact h.done (fun _ => rfl) k o found hget
  | case2 i stack openers c => exact h.done (fun _ => rfl) k o found hget
  | case3 i stack openers a b cs ho ih => exact ih (h.opener ho) hget
  | case4 i openers a b cs ho hc ih => exact ih h.stray hget
  | case5 i openers a b cs ho hc k stack ih => exact ih (h.closer ho hc) hget
  | case6 i stack openers a b cs ho hc ih => exact ih (h.plain ho hc) hget

/-! ## The answer at an opener -/

/-- The search finds no entry but one of its key. -/
theorem search_found {entries : Array (Nat × Option Nat)} {key low high : Nat}
    {found : Option Nat} (h : search entries key low high = some found) :
    ∃ k : Nat, entries[k]? = some (key, found) := by
  fun_induction search entries key low high with
  | case1 => simp at h
  | case2 low high hlt mid found' hget =>
    simp only [Option.some.injEq] at h
    subst h
    exact ⟨_, hget⟩
  | case3 low high hlt mid k found' hget hne hless ih => exact ih h
  | case4 low high hlt mid k found' hget hne hless ih => exact ih h
  | case5 => simp at h

theorem walked_start (text : List Char) : Walked text 0 text [] #[] := by
  refine ⟨rfl, List.nodup_nil, ?_, ?_⟩
  · intro k o found hget
    simp at hget
  · intro depth k hk
    simp at hk

/-- The table of a text agrees with a scan of the text behind any of its openers, whether
the pass has met that opener or stepped over it. -/
theorem bodyLength?_ofText {text before rest : List Char} (hcut : text = before ++ rest) :
    (ofText text).bodyLength? before.length (rest.drop 2) =
      Comment.bodyLength? (rest.drop 2) := by
  have hdrop : text.drop (before.length + 2) = rest.drop 2 := by
    rw [hcut, ← List.drop_drop, List.drop_left]
  have hnone (h : ∀ m, lastClose? 0 text = some m → m < before.length + 2) :
      Comment.bodyLength? (rest.drop 2) = none := by
    rw [bodyLength?_eq_none]
    rintro ⟨k, hk⟩
    rw [← hdrop, List.drop_drop] at hk
    obtain ⟨m, hm, hle⟩ := lastClose?_ge 0 hk
    have := h m hm
    omega
  unfold bodyLength? ofText
  simp only
  split
  · rename_i hlast
    rw [hnone (by simp [hlast])]
  · rename_i close hlast
    split
    · rename_i hlt
      rw [hnone (by simp [hlast, hlt])]
    · unfold Comment.bodyLength?
      congr 1
      split
      · rename_i balanced hfound
        obtain ⟨k, hk⟩ := search_found hfound
        rw [pair_entry (walked_start text) k _ _ hk, hdrop]
      · rfl

end CommentIndex

/-- The piece at an opener: one comment, or a slash that nothing closes. -/
theorem pieceAt_opener (comments : CommentIndex) (i : Nat) {body : List Char}
    (hopen : Comment.opens ('/' :: '*' :: body) = true) :
    pieceAt comments i ('/' :: '*' :: body) =
      match comments.bodyLength? i body with
      | some n => .ok (.blockComment, 2 + n)
      | none => .ok (.unrecognized, 1) := by
  have hblank : isBlank '/' = false := by decide
  unfold pieceAt
  simp only [hblank, hopen, if_true, List.drop_succ_cons, List.drop_zero]
  rfl

/-! ## The laws -/

/-- Wherever a comment opens in a text, the table of the whole text gives it the plain end:
that of a depth scan from the opener, or else that of the first closer. It has none exactly
when no closer follows. A lexer that comes to the opener makes one comment up to that end,
or takes the slash for an unrecognized character. -/
theorem every_comment_ends_where_a_scan_from_its_opener_ends (text : String)
    (before rest : List Char) (hcut : text.toList = before ++ rest)
    (hopen : Comment.opens rest = true) :
    let found := ((CommentIndex.ofText text.toList).bodyLength? before.length (rest.drop 2)).map
      (· + 2)
    (∀ n, found = some n ↔ Comment.Ends rest n) ∧
    (found = none ↔ ¬ Comment.HasClose (rest.drop 2)) ∧
    ∀ l, Lexer.Reaches text l → l.rest = rest → ∃ t l', l.next = .ok (t, l') ∧
      ((∃ n, Comment.Ends rest n ∧ t.kind = .blockComment ∧
          t.text = String.ofList (rest.take n) ∧ l'.rest = rest.drop n) ∨
        (¬ Comment.HasClose (rest.drop 2) ∧ t.kind = .unrecognized ∧ t.text = "/" ∧
          l'.rest = rest.drop 1)) := by
  obtain ⟨body, rfl, -⟩ := Comment.eq_of_opens hopen
  have hends := Comment.ends_iff hopen
  have hnone := Comment.bodyLength?_eq_none body
  intro found
  have hfound : found = (Comment.bodyLength? body).map (· + 2) :=
    congrArg (Option.map (· + 2)) (CommentIndex.bodyLength?_ofText hcut)
  refine ⟨?_, ?_, ?_⟩
  · intro n
    rw [hfound, hends]
  · rw [hfound, Option.map_eq_none_iff]
    exact hnone
  · intro l hl hrest
    obtain ⟨before', rest', hcut', rfl⟩ := hl.cut
    have hr : rest' = '/' :: '*' :: body := hrest
    subst hr
    have hbody : (CommentIndex.ofText text.toList).bodyLength? before'.length body =
        Comment.bodyLength? body := CommentIndex.bodyLength?_ofText hcut'
    have hpiece := pieceAt_opener (.ofText text.toList) before'.length hopen
    rw [hbody, ← Lexer.behind_index text before' ('/' :: '*' :: body)] at hpiece
    rcases hlength : Comment.bodyLength? body with _ | n
    · rw [hlength] at hpiece
      exact ⟨_, _, Lexer.next_of_pieceAt hpiece, .inr ⟨hnone.mp hlength, rfl, rfl, rfl⟩⟩
    · simp only [hlength, Nat.add_comm 2 n] at hpiece
      have hn : Comment.Ends ('/' :: '*' :: body) (n + 2) := by
        rw [hends, hlength]
        rfl
      exact ⟨_, _, Lexer.next_of_pieceAt hpiece, .inl ⟨n + 2, hn, rfl, rfl, rfl⟩⟩

/-- An opener that the pass steps over, because it shares its star with a closer. -/
theorem an_opener_behind_a_closer_ends_at_its_own_closer :
    ("*/* a */".toList = ['*'] ++ "/* a */".toList ∧ Comment.opens "/* a */".toList = true) ∧
    ((CommentIndex.ofText "*/* a */".toList).bodyLength? 1 " a */".toList).map (· + 2) =
      some 7 := by
  refine ⟨⟨by decide, by decide⟩, ?_⟩
  have hlaw := every_comment_ends_where_a_scan_from_its_opener_ends "*/* a */" ['*']
    "/* a */".toList (by decide) (by decide)
  exact (hlaw.1 7).mpr (.balanced (by decide))

end TagDialect
