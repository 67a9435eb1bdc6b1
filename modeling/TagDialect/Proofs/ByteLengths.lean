-- The lengths that the scans find over the bytes of a text. A scan passes over the bytes of a
-- wide character one by one, so it finds the end that the scan over the characters finds, as
-- many bytes away as the characters up to there take.
import TagDialect.Proofs.ByteReadings
import TagDialect.Proofs.LexedPieces

namespace TagDialect

/-! ## Scans character by character -/

/-- The bytes that the first `n` characters take. -/
def inBytes (cs : List Char) (n : Nat) : Nat := byteLength (cs.take n)

@[simp] theorem inBytes_zero (cs : List Char) : inBytes cs 0 = 0 := rfl

@[simp] theorem inBytes_succ (c : Char) (cs : List Char) (n : Nat) :
    inBytes (c :: cs) (n + 1) = c.utf8Size + inBytes cs n := rfl

/-- A scan for a length that passes over wide characters one by one. -/
def PassesWide (f : List Char → Option Nat) : Prop :=
  ∀ c cs, IsWide c → f (c :: cs) = (f cs).map (· + 1)

theorem PassesWide.all {f : List Char → Option Nat} (h : PassesWide f) {ws : List Char}
    (hw : ∀ c ∈ ws, IsWide c) (cs : List Char) : f (ws ++ cs) = (f cs).map (· + ws.length) := by
  induction ws with
  | nil => simp
  | cons c ws ih =>
    obtain ⟨hc, hws⟩ := List.forall_mem_cons.mp hw
    rw [List.cons_append, h c _ hc, ih hws, Option.map_map]
    rfl

/-- One more character that the scan passes over, as a character and in bytes. -/
theorem PassesWide.step {f : List Char → Option Nat} (h : PassesWide f) {c : Char} {cs : List Char}
    (hc : ¬ IsWide c → f (c :: bytesOf cs) = (f (bytesOf cs)).map (· + 1)) {r : Option Nat}
    (hr : f (bytesOf cs) = r.map (inBytes cs)) :
    f (bytesOf (c :: cs)) = (r.map (· + 1)).map (inBytes (c :: cs)) := by
  have hmap : (f (bytesOf cs)).map (· + c.utf8Size) =
      (r.map (· + 1)).map (inBytes (c :: cs)) := by
    rw [hr, Option.map_map, Option.map_map]
    congr 1
    funext n
    simp only [Function.comp_apply, inBytes_succ]
    omega
  rw [← hmap]
  by_cases hwide : IsWide c
  · obtain ⟨o, os, hos, hall, hlength⟩ := bytesOf_wide hwide cs
    rw [hos, h.all hall, List.length_cons, hlength]
  · rw [bytesOf_narrow hwide, hc hwide, utf8Size_of_narrow hwide]

/-- Two narrow characters that the scan takes together. -/
theorem map_inBytes_two {a b : Char} (ha : ¬ IsWide a) (hb : ¬ IsWide b) (cs : List Char)
    (r : Option Nat) :
    (r.map (inBytes cs)).map (· + 2) = (r.map (· + 2)).map (inBytes (a :: b :: cs)) := by
  rw [Option.map_map, Option.map_map]
  congr 1
  funext n
  simp only [Function.comp_apply, inBytes_succ, utf8Size_of_narrow ha, utf8Size_of_narrow hb]
  omega

/-- A narrow character stands at the head of the bytes when it stands at the head of the
characters. -/
theorem head?_bytesOf {a : Char} (ha : ¬ IsWide a) (cs : List Char) :
    (bytesOf cs).head? = some a ↔ cs.head? = some a := by
  cases cs with
  | nil => rfl
  | cons c cs =>
    by_cases hc : IsWide c
    · obtain ⟨o, os, hos, hwide, -⟩ := bytesOf_wide hc cs
      rw [hos]
      simp [ne_of_wide hc ha, ne_of_wide (hwide o List.mem_cons_self) ha]
    · rw [bytesOf_narrow hc]
      rfl

/-! ## Quoted pieces -/

theorem stringLength?_passesWide {quote : Char} (hq : ¬ IsWide quote) :
    PassesWide (stringLength? quote) := fun _ cs hc =>
  stringLength?_cons cs (ne_of_wide hc (by decide)) (ne_of_wide hc hq)

theorem stringLength?_bytesOf {quote : Char} (hq : ¬ IsWide quote) (cs : List Char) :
    stringLength? quote (bytesOf cs) = (stringLength? quote cs).map (inBytes cs) := by
  have hpasses := stringLength?_passesWide hq
  have hslash : ¬ IsWide '\\' := by decide
  fun_induction stringLength? quote cs with
  | case1 => rfl
  | case2 => rw [bytesOf_narrow hslash]; rfl
  | case3 d ds ih =>
    rw [bytesOf_narrow hslash]
    by_cases hd : IsWide d
    · -- The backslash hides the first byte alone, and the others are passed over.
      obtain ⟨o, os, hos, hwide, hlength⟩ := bytesOf_wide hd ds
      rw [hos, List.cons_append, stringLength?_slash,
        hpasses.all fun x hx => hwide x (List.mem_cons_of_mem o hx), ih]
      simp only [Option.map_map]
      congr 1
      funext n
      simp only [Function.comp_apply, inBytes_succ, utf8Size_of_narrow hslash]
      omega
    · rw [bytesOf_narrow hd, stringLength?_slash, ih, map_inBytes_two hslash hd]
  | case4 cs hne =>
    rw [bytesOf_narrow hq, stringLength?_quote hne]
    simp [utf8Size_of_narrow hq]
  | case5 c cs hne hquote ih => exact hpasses.step (fun _ => stringLength?_cons _ hne hquote) ih

theorem nameLength?_bytesOf (cs : List Char) :
    nameLength? (bytesOf cs) = (nameLength? cs).map (inBytes cs) := by
  have hpasses : PassesWide nameLength? := fun _ cs hc =>
    nameLength?_cons cs (ne_of_wide hc (by decide))
  have htick : ¬ IsWide '`' := by decide
  fun_induction nameLength? cs with
  | case1 => rfl
  | case2 => rw [bytesOf_narrow htick]; rfl
  | case3 c hc => exact hpasses.step (r := none) (fun _ => nameLength?_cons _ hc) rfl
  | case4 cs ih =>
    rw [bytesOf_narrow htick, bytesOf_narrow htick, nameLength?, if_pos rfl, if_pos rfl, ih,
      map_inBytes_two htick htick]
  | case5 d cs hd =>
    rw [bytesOf_narrow htick, nameLength?_tick (by simp [head?_bytesOf htick, hd])]
    simp [utf8Size_of_narrow htick]
  | case6 c d cs hc ih => exact hpasses.step (fun _ => nameLength?_cons _ hc) ih

/-! ## Comments -/

namespace Comment

theorem lineLength_plain {c : Char} {cs : List Char} (hfeed : c ≠ '\n') (hreturn : c ≠ '\r')
    (hcarried : ¬ (c = '\\' ∧ cs.head? = some '\n')) :
    lineLength (c :: cs) = lineLength cs + 1 := by
  cases cs with
  | nil => simp [lineLength, hfeed, hreturn]
  | cons d ds =>
    rw [lineLength, if_neg hfeed, if_neg hreturn]
    rw [if_neg (by simpa using hcarried), Nat.add_comm]

theorem lineLength_carried (cs : List Char) :
    lineLength ('\\' :: '\n' :: cs) = lineLength cs + 2 := by
  rw [lineLength, if_neg (by decide), if_neg (by decide)]
  simp only [and_self, if_true]
  exact Nat.add_comm _ _

theorem some_lineLength_bytesOf (cs : List Char) :
    some (lineLength (bytesOf cs)) = (some (lineLength cs)).map (inBytes cs) := by
  have hpasses : PassesWide (some ∘ lineLength) := fun c cs hc =>
    congrArg some (lineLength_plain (ne_of_wide hc (by decide)) (ne_of_wide hc (by decide))
      fun h => ne_of_wide hc (by decide) h.1)
  have hfeed : ¬ IsWide '\n' := by decide
  have hslash : ¬ IsWide '\\' := by decide
  have hreturn : ¬ IsWide '\r' := by decide
  fun_induction lineLength cs with
  | case1 => rfl
  | case2 cs =>
    rw [bytesOf_narrow hfeed, lineLength_feed]
    simp [utf8Size_of_narrow hfeed]
  | case3 cs hhead =>
    obtain ⟨ds, rfl⟩ := List.head?_eq_some_iff.mp hhead
    rw [bytesOf_narrow hreturn, bytesOf_narrow hfeed, lineLength_return]
    simp [utf8Size_of_narrow hreturn, utf8Size_of_narrow hfeed]
  | case4 cs hhead =>
    rw [bytesOf_narrow hreturn, lineLength_return, if_neg (mt (head?_bytesOf hfeed cs).mp hhead)]
    simp [utf8Size_of_narrow hreturn]
  | case5 c hne hne' =>
    exact hpasses.step (r := some 0)
      (fun _ => congrArg some (lineLength_plain hne hne' (by simp [bytesOf]))) rfl
  | case6 c hne hne' d ds hcarried ih =>
    obtain ⟨rfl, rfl⟩ := hcarried
    rw [bytesOf_narrow hslash, bytesOf_narrow hfeed, lineLength_carried, Nat.add_comm 2]
    exact (congrArg (Option.map (· + 2)) ih).trans (map_inBytes_two hslash hfeed ds _)
  | case7 c hne hne' d ds hcarried ih =>
    rw [Nat.add_comm 1]
    refine hpasses.step (r := some _) (fun _ => congrArg some (lineLength_plain hne hne' ?_)) ih
    rw [head?_bytesOf hfeed]
    simpa using hcarried

theorem lineLength_bytesOf (cs : List Char) :
    lineLength (bytesOf cs) = inBytes cs (lineLength cs) :=
  Option.some.inj (some_lineLength_bytesOf cs)

/-- Two narrow characters at the head of the characters stand at the head of the bytes. -/
theorem two_bytesOf {a b : Char} (ha : ¬ IsWide a) (hb : ¬ IsWide b) (cs : List Char) :
    (bytesOf cs).take 2 = [a, b] ↔ cs.take 2 = [a, b] := by
  cases cs with
  | nil => rfl
  | cons c cs =>
    by_cases hc : IsWide c
    · obtain ⟨o, os, hos, hwide, -⟩ := bytesOf_wide hc cs
      rw [hos]
      simp [ne_of_wide hc ha, ne_of_wide (hwide o List.mem_cons_self) ha]
    · have hhead := head?_bytesOf hb cs
      rw [bytesOf_narrow hc]
      rcases hbytes : bytesOf cs with - | ⟨o, os⟩ <;> rcases cs with - | ⟨d, ds⟩ <;>
        simp_all

theorem opens_iff (cs : List Char) :
    opens cs = true ↔ cs.take 2 = ['/', '*'] ∧ (cs.drop 2).head? ≠ some '+' := by
  rcases cs with - | ⟨a, - | ⟨b, cs⟩⟩ <;> simp [opens]

theorem closes_iff (cs : List Char) : closes cs = true ↔ cs.take 2 = ['*', '/'] := by
  rcases cs with - | ⟨a, - | ⟨b, cs⟩⟩ <;> simp [closes]

theorem opens_bytesOf (cs : List Char) : opens (bytesOf cs) = opens cs := by
  have hslash : ¬ IsWide '/' := by decide
  have hstar : ¬ IsWide '*' := by decide
  have hplus : ¬ IsWide '+' := by decide
  rw [Bool.eq_iff_iff, opens_iff, opens_iff, two_bytesOf hslash hstar]
  refine and_congr_right fun htwo => ?_
  obtain ⟨body, rfl⟩ : ∃ body, cs = '/' :: '*' :: body :=
    ⟨cs.drop 2, (List.take_append_drop 2 cs).symm.trans (by rw [htwo]; rfl)⟩
  rw [bytesOf_narrow hslash, bytesOf_narrow hstar]
  exact not_congr (head?_bytesOf hplus body)

theorem closes_bytesOf (cs : List Char) : closes (bytesOf cs) = closes cs := by
  rw [Bool.eq_iff_iff, closes_iff, closes_iff, two_bytesOf (by decide) (by decide)]

theorem balancedLength?_pass {c : Char} {cs : List Char} (depth : Nat)
    (ho : ¬ opens (c :: cs) = true) (hc : ¬ closes (c :: cs) = true) :
    balancedLength? depth (c :: cs) = (balancedLength? depth cs).map (· + 1) := by
  cases cs with
  | nil => rfl
  | cons d ds => exact balancedLength?_plain depth ho hc

theorem not_opens_wide {c : Char} (h : IsWide c) (cs : List Char) : ¬ opens (c :: cs) = true := by
  simp [opens_of_ne cs (ne_of_wide h (by decide))]

theorem not_closes_wide {c : Char} (h : IsWide c) (cs : List Char) :
    ¬ closes (c :: cs) = true := by
  simp [closes_iff, ne_of_wide h (d := '*') (by decide)]

/-- The bytes of an opener are the same two characters. -/
theorem bytesOf_opener {a b : Char} {cs : List Char} (h : opens (a :: b :: cs) = true) :
    ¬ IsWide a ∧ ¬ IsWide b ∧ bytesOf (a :: b :: cs) = a :: b :: bytesOf cs := by
  obtain ⟨rfl, rfl⟩ : a = '/' ∧ b = '*' := by simpa using ((opens_iff _).mp h).1
  have hslash : ¬ IsWide '/' := by decide
  have hstar : ¬ IsWide '*' := by decide
  exact ⟨hslash, hstar, by rw [bytesOf_narrow hslash, bytesOf_narrow hstar]⟩

/-- The bytes of a closer are the same two characters. -/
theorem bytesOf_closer {a b : Char} {cs : List Char} (h : closes (a :: b :: cs) = true) :
    ¬ IsWide a ∧ ¬ IsWide b ∧ bytesOf (a :: b :: cs) = a :: b :: bytesOf cs := by
  obtain ⟨rfl, rfl⟩ : a = '*' ∧ b = '/' := by simpa using (closes_iff _).mp h
  have hslash : ¬ IsWide '/' := by decide
  have hstar : ¬ IsWide '*' := by decide
  exact ⟨hstar, hslash, by rw [bytesOf_narrow hstar, bytesOf_narrow hslash]⟩

theorem balancedLength?_bytesOf (depth : Nat) (cs : List Char) :
    balancedLength? depth (bytesOf cs) = (balancedLength? depth cs).map (inBytes cs) := by
  have hpasses (depth : Nat) : PassesWide (balancedLength? depth) := fun c cs hc =>
    balancedLength?_pass depth (not_opens_wide hc cs) (not_closes_wide hc cs)
  have hopens := opens_bytesOf
  have hcloses := closes_bytesOf
  fun_induction balancedLength? depth cs with
  | case1 depth => rfl
  | case2 depth c => exact (hpasses depth).step (r := none) (fun _ => rfl) rfl
  | case3 depth a b cs ho ih =>
    obtain ⟨ha, hb, hbytes⟩ := bytesOf_opener ho
    rw [← hopens, hbytes] at ho
    rw [hbytes, balancedLength?_opener depth ho, ih, map_inBytes_two ha hb]
  | case4 a b cs ho hc =>
    obtain ⟨ha, hb, hbytes⟩ := bytesOf_closer hc
    rw [← hopens, hbytes] at ho
    rw [← hcloses, hbytes] at hc
    rw [hbytes, balancedLength?_last ho hc]
    exact map_inBytes_two ha hb cs (some 0)
  | case5 a b cs ho hc depth ih =>
    obtain ⟨ha, hb, hbytes⟩ := bytesOf_closer hc
    rw [← hopens, hbytes] at ho
    rw [← hcloses, hbytes] at hc
    rw [hbytes, balancedLength?_closer depth ho hc, ih, map_inBytes_two ha hb]
  | case6 depth a b cs ho hc ih =>
    refine (hpasses depth).step (fun ha => balancedLength?_pass depth ?_ ?_) ih
    · rwa [← bytesOf_narrow ha, hopens]
    · rwa [← bytesOf_narrow ha, hcloses]

theorem firstCloseLength?_bytesOf (cs : List Char) :
    firstCloseLength? (bytesOf cs) = (firstCloseLength? cs).map (inBytes cs) := by
  have hpasses : PassesWide firstCloseLength? := fun c cs hc => by
    rw [firstCloseLength?, if_neg (not_closes_wide hc cs)]
  have hcloses := closes_bytesOf
  fun_induction firstCloseLength? cs with
  | case1 => rfl
  | case2 c cs hc =>
    obtain ⟨d, ds, rfl⟩ : ∃ d ds, cs = d :: ds := by
      rcases cs with - | ⟨d, ds⟩
      · simp [closes] at hc
      · exact ⟨d, ds, rfl⟩
    obtain ⟨hwide, hwide', hbytes⟩ := bytesOf_closer hc
    rw [← hcloses, hbytes] at hc
    rw [hbytes, firstCloseLength?, if_pos hc]
    exact map_inBytes_two hwide hwide' ds (some 0)
  | case3 c cs hc ih =>
    refine hpasses.step (fun hwide => ?_) ih
    rw [← hcloses, bytesOf_narrow hwide] at hc
    rw [firstCloseLength?, if_neg hc]

theorem bodyLength?_bytesOf (body : List Char) :
    bodyLength? (bytesOf body) = (bodyLength? body).map (inBytes body) := by
  unfold bodyLength?
  rw [balancedLength?_bytesOf, firstCloseLength?_bytesOf]
  cases balancedLength? 0 body <;> rfl

end Comment
end TagDialect
