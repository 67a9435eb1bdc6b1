-- Formatting files in place: every file that is meant ends up with its canonical text or
-- stays as it was, nothing else changes, and what was written is canonical for the next run.
import TagDialect.Commands
import TagDialect.Proofs.MeantFiles
import TagDialect.Proofs.CanonicalTexts

namespace TagDialect

/-! ## What becomes of a file's bytes -/

theorem fromUTF8?_eq_some {bytes : ByteArray} {text : String} :
    String.fromUTF8? bytes = some text ↔ bytes = text.toUTF8 := by
  unfold String.fromUTF8?
  constructor
  · intro h
    split at h
    · cases h
      simp [String.fromUTF8]
    · contradiction
  · rintro rfl
    rw [String.toUTF8_eq_toByteArray, dif_pos text.isValidUTF8]
    rfl

/-- Bytes that are no text, or the text of no statement. -/
def Refused (bytes : ByteArray) : Prop :=
  ∀ text, String.fromUTF8? bytes = some text → ∃ e, parse text = .error e

/-- The bytes of the canonical text of the statement that bytes hold, with a line feed at its
end. -/
def canonicalBytes? (bytes : ByteArray) : Option ByteArray :=
  match String.fromUTF8? bytes with
  | none => none
  | some text =>
    match format text with
    | .error _ => none
    | .ok canonical => some (canonical ++ "\n").toUTF8

theorem canonicalBytes?_eq_some {bytes new : ByteArray} :
    canonicalBytes? bytes = some new ↔ ∃ text canonical, String.fromUTF8? bytes = some text ∧
      format text = .ok canonical ∧ new = (canonical ++ "\n").toUTF8 := by
  unfold canonicalBytes?
  rcases htext : String.fromUTF8? bytes with - | text
  · simp
  · rcases hformat : format text with e | canonical
    · simp [hformat]
    · simp [hformat, eq_comm]

theorem exists_of_format {text canonical : String} (h : format text = .ok canonical) :
    ∃ s, parse text = .ok s ∧ s.WellFormed ∧ canonical = s.format := by
  rcases hparse : parse text with e | s
  · simp [format, hparse] at h
  · refine ⟨s, rfl, wellFormed_of_parse hparse, ?_⟩
    simpa [format, hparse, eq_comm] using h

theorem canonicalBytes?_eq_none {bytes : ByteArray} :
    canonicalBytes? bytes = none ↔ Refused bytes := by
  unfold canonicalBytes? Refused
  rcases htext : String.fromUTF8? bytes with - | text
  · simp
  · rcases hparse : parse text with e | s
    · simp [format, hparse]
    · simp [format, hparse]

theorem blanks_lineFeed : Blanks "\n" := by simp [Blanks, isBlank]

/-- Bytes that were made canonical are so already. -/
theorem canonicalBytes?_canonical {bytes new : ByteArray} (h : canonicalBytes? bytes = some new) :
    canonicalBytes? new = some new := by
  obtain ⟨text, canonical, -, hformat, hnew⟩ := canonicalBytes?_eq_some.mp h
  obtain ⟨s, -, hs, rfl⟩ := exists_of_format hformat
  exact canonicalBytes?_eq_some.mpr
    ⟨_, _, fromUTF8?_eq_some.mpr hnew, format_trailing hs blanks_lineFeed, hnew⟩

/-- The bytes that formatting in place leaves in a file. -/
def settle (bytes : ByteArray) : ByteArray := (canonicalBytes? bytes).getD bytes

theorem settle_of_refused {bytes : ByteArray} (h : canonicalBytes? bytes = none) :
    settle bytes = bytes := by rw [settle, h]; rfl

theorem settle_of_canonical {bytes new : ByteArray} (h : canonicalBytes? bytes = some new) :
    settle bytes = new := by rw [settle, h]; rfl

theorem canonicalBytes?_settle (bytes : ByteArray) :
    canonicalBytes? (settle bytes) = canonicalBytes? bytes := by
  rcases h : canonicalBytes? bytes with - | new
  · rw [settle_of_refused h, h]
  · rw [settle_of_canonical h, canonicalBytes?_canonical h]

theorem settle_settle (bytes : ByteArray) : settle (settle bytes) = settle bytes := by
  rw [settle, canonicalBytes?_settle]
  rcases h : canonicalBytes? bytes with - | new
  · rfl
  · rw [settle_of_canonical h]; rfl

/-! ## One input -/

/-- Whether the file that an input leads to holds a statement. -/
def Disk.accepts (d : Disk) (input : String) : Bool :=
  match d.spot? input with
  | some (.file steps) => ((d.content? steps).map canonicalBytes?).join.isSome
  | _ => false

variable {w : World} {i : Invocation} {input : String} {steps : List String} {bytes : ByteArray}

theorem Disk.accepts_of_leadsTo {d : Disk} (h : d.LeadsTo input steps)
    (hbytes : d.content? steps = some bytes) :
    d.accepts input = (canonicalBytes? bytes).isSome := by
  simp [Disk.accepts, h.2, hbytes]

/-- The status of a command that stumbles over nothing but files without a statement. -/
def statusOf (accepted : Bool) : Status := if accepted then .fine else .failed

namespace World

theorem read_of_leadsTo (h : w.disk.LeadsTo input steps)
    (hbytes : w.disk.content? steps = some bytes) :
    w.read input = (decode input (some input) bytes, w) := by
  simp [read, h.1, h.2, hbytes]

theorem process_text (several : Bool) (h : w.disk.LeadsTo input steps) {text : String}
    (hbytes : w.disk.content? steps = some text.toUTF8) :
    w.process i several input =
      w.add input (answer w.host.draw i several ⟨input, some input, text⟩) := by
  rw [process, read_of_leadsTo h hbytes, decode, fromUTF8?_eq_some.mpr rfl]

theorem add_kept {o : Outcome} (h : o.rewrite = none) :
    w.add input o = (w.say o.out o.err, o.status) := by
  simp [add, h]

/-- A text that is not refused is written. -/
theorem add_rewrite (h : w.disk.LeadsTo input steps) (hwrites : w.host.refusal input = none)
    {o : Outcome} {text : String} (ho : o.rewrite = some text) :
    (w.add input o).1.disk = w.disk.write steps text.toUTF8 ∧ (w.add input o).2 = o.status := by
  simp [add, ho, hwrites, say, store, h.2]

theorem host_store (w : World) (path text : String) : (w.store path text).host = w.host := by
  unfold store
  split <;> rfl

/-- Nothing that is added changes the host. -/
theorem host_add (w : World) (path : String) (o : Outcome) : (w.add path o).1.host = w.host := by
  simp only [add]
  split
  · rfl
  · split
    · exact host_store ..
    · rfl

theorem host_process (w : World) (i : Invocation) (several : Bool) (path : String) :
    (w.process i several path).1.host = w.host := by
  have hread : (w.read path).2.host = w.host := by
    unfold read
    split
    · rfl
    · split <;> rfl
  unfold process
  split
  · rename_i e after hafter
    rw [host_add, ← hread, hafter]
  · rename_i source after hafter
    rw [host_add, ← hread, hafter]

/-- A file without a statement fails, formatted or checked, and nothing is written. -/
theorem process_refused (several : Bool) (hcommand : i.command = .fmt ∨ i.command = .check)
    (h : w.disk.LeadsTo input steps) (hbytes : w.disk.content? steps = some bytes)
    (hnone : canonicalBytes? bytes = none) :
    (w.process i several input).1.disk = w.disk ∧ (w.process i several input).2 = .failed := by
  rw [canonicalBytes?_eq_none] at hnone
  rcases htext : String.fromUTF8? bytes with - | text
  · rw [process, read_of_leadsTo h hbytes, decode, htext]
    exact ⟨rfl, rfl⟩
  · obtain ⟨e, he⟩ := hnone text htext
    rw [fromUTF8?_eq_some.mp htext] at hbytes
    rw [process_text several h hbytes]
    have hanswer : ∃ err,
        answer w.host.draw i several ⟨input, some input, text⟩ = .failed err := by
      rcases hcommand with hc | hc
      · simp [answer, hc, answerFmt, format, he]
      · simp [answer, hc, answerCheck, check, format, he]
    obtain ⟨err, herr⟩ := hanswer
    rw [herr]
    exact ⟨rfl, rfl⟩

/-- Formatting in place writes the canonical bytes into a file with a statement, unless they
stand there. -/
theorem process_fmt (several : Bool) (hcommand : i.command = .fmt) (hwrite : i.ownFlag = true)
    (h : w.disk.LeadsTo input steps) (hwrites : w.host.refusal input = none)
    (hbytes : w.disk.content? steps = some bytes)
    {new : ByteArray} (hnew : canonicalBytes? bytes = some new) :
    (new = bytes → (w.process i several input).1.disk = w.disk) ∧
      (new ≠ bytes → (w.process i several input).1.disk = w.disk.write steps new) ∧
      (w.process i several input).2 = .fine := by
  obtain ⟨text, canonical, htext, hformat, rfl⟩ := canonicalBytes?_eq_some.mp hnew
  obtain rfl := fromUTF8?_eq_some.mp htext
  rw [process_text several h hbytes]
  have hanswer : answer w.host.draw i several ⟨input, some input, text⟩ = ⟨"", "", .fine,
      if canonical ++ "\n" = text then none else some (canonical ++ "\n")⟩ := by
    simp [answer, hcommand, answerFmt, hwrite, hformat]
  rw [hanswer]
  by_cases hsame : canonical ++ "\n" = text
  · rw [add_kept (if_pos hsame)]
    exact ⟨fun _ => rfl, fun hdiffer => absurd (by rw [hsame]) hdiffer, rfl⟩
  · obtain ⟨hdisk, hstatus⟩ := add_rewrite (o := ⟨"", "", .fine, _⟩) h hwrites (if_neg hsame)
    exact ⟨fun hbytes => absurd (String.toByteArray_inj.mp hbytes) hsame, fun _ => hdisk, hstatus⟩

/-- A file with its canonical bytes passes the check. -/
theorem process_check (several : Bool) (hcommand : i.command = .check)
    (h : w.disk.LeadsTo input steps) (hbytes : w.disk.content? steps = some bytes)
    (hsettled : canonicalBytes? bytes = some bytes) :
    (w.process i several input).1.disk = w.disk ∧ (w.process i several input).2 = .fine := by
  obtain ⟨_, canonical, -, hformat, rfl⟩ := canonicalBytes?_eq_some.mp hsettled
  obtain ⟨s, -, hs, rfl⟩ := exists_of_format hformat
  rw [process_text several h hbytes]
  have hanswer :
      answer w.host.draw i several ⟨input, some input, s.format ++ "\n"⟩ = .fine "" := by
    simp [answer, hcommand, answerCheck, check_trailing hs blanks_lineFeed]
  rw [hanswer]
  exact ⟨rfl, rfl⟩

end World

/-! ## All inputs -/

/-- The files at the hit places have been settled, and nothing else has changed. -/
structure Disk.Settles (d d' : Disk) (hit : List String → Prop) : Prop where
  tree : d.SameTree d'
  settled : ∀ steps, hit steps → d'.content? steps = (d.content? steps).map settle
  kept : ∀ steps, ¬ hit steps → d'.content? steps = d.content? steps

namespace Disk.Settles

variable {d d' d'' : Disk} {hit hit' : List String → Prop}

theorem refl (d : Disk) : d.Settles d fun _ => False :=
  ⟨.refl d, fun _ h => h.elim, fun _ _ => rfl⟩

theorem trans (h : d.Settles d' hit) (h' : d'.Settles d'' hit') :
    d.Settles d'' fun steps => hit steps ∨ hit' steps := by
  refine ⟨h.tree.trans h'.tree, fun steps hor => ?_, fun steps hor => ?_⟩
  · by_cases hlater : hit' steps
    · rw [h'.settled steps hlater]
      by_cases hfirst : hit steps
      · rw [h.settled steps hfirst, Option.map_map]
        congr 1
        exact funext settle_settle
      · rw [h.kept steps hfirst]
    · rw [h'.kept steps hlater, h.settled steps (hor.resolve_right hlater)]
  · rw [not_or] at hor
    rw [h'.kept steps hor.2, h.kept steps hor.1]

theorem congr (h : d.Settles d' hit) (hsame : ∀ steps, hit steps ↔ hit' steps) :
    d.Settles d' hit' := by
  rwa [← funext fun steps => propext (hsame steps)]

theorem leadsTo (h : d.Settles d' hit) : d'.LeadsTo input steps ↔ d.LeadsTo input steps := by
  simp only [Disk.LeadsTo, h.tree.spot?]

/-- What settles has the canonical bytes that it had before. -/
theorem canonical (h : d.Settles d' hit) (steps : List String) :
    (d'.content? steps).map canonicalBytes? = (d.content? steps).map canonicalBytes? := by
  by_cases hhit : hit steps
  · rw [h.settled steps hhit, Option.map_map]
    congr 1
    exact funext canonicalBytes?_settle
  · rw [h.kept steps hhit]

theorem accepts (h : d.Settles d' hit) (input : String) : d'.accepts input = d.accepts input := by
  simp only [Disk.accepts, h.tree.spot?, h.canonical]

end Disk.Settles

theorem worse_statusOf (a b : Bool) : (statusOf a).worse (statusOf b) = statusOf (a && b) := by
  cases a <;> cases b <;> rfl

namespace World

/-- Formatting one input in place settles its file. -/
theorem process_settles (several : Bool) (hcommand : i.command = .fmt) (hwrite : i.ownFlag = true)
    (hwrites : w.host.refusal input = none) (h : w.disk.LeadsTo input steps) :
    w.disk.Settles (w.process i several input).1.disk (fun s => s = steps) ∧
      (w.process i several input).2 = statusOf (w.disk.accepts input) := by
  obtain ⟨bytes, hbytes⟩ := Disk.exists_content h
  rw [Disk.accepts_of_leadsTo h hbytes]
  -- Where nothing is written, the file holds what it settles to.
  have hkept : settle bytes = bytes → w.disk.Settles w.disk fun s => s = steps := fun hsettled =>
    ⟨.refl _, by rintro s rfl; simp [hbytes, hsettled], fun _ _ => rfl⟩
  rcases hnew : canonicalBytes? bytes with - | new
  · obtain ⟨hdisk, hstatus⟩ := process_refused several (.inl hcommand) h hbytes hnew
    rw [hdisk, hstatus]
    exact ⟨hkept (settle_of_refused hnew), rfl⟩
  · obtain ⟨hsame, hdiffer, hstatus⟩ := process_fmt several hcommand hwrite h hwrites hbytes hnew
    rw [hstatus]
    refine ⟨?_, rfl⟩
    by_cases heq : new = bytes
    · rw [hsame heq]
      exact hkept (by rw [settle_of_canonical hnew, heq])
    · rw [hdiffer heq]
      refine ⟨Disk.sameTree_write (Disk.mem_places_of_spot? h.2) new, ?_, fun s hs => ?_⟩
      · rintro s rfl
        simp [Disk.content?_write, hbytes, settle_of_canonical hnew]
      · rw [Disk.content?_write, if_neg hs]

theorem processAll_cons (i : Invocation) (several : Bool) (w : World) (input : String)
    (inputs : List String) : w.processAll i several (input :: inputs) =
      (((w.process i several input).1.processAll i several inputs).1,
        (w.process i several input).2.worse
          ((w.process i several input).1.processAll i several inputs).2) := rfl

theorem host_processAll (w : World) (i : Invocation) (several : Bool) (inputs : List String) :
    (w.processAll i several inputs).1.host = w.host := by
  induction inputs generalizing w with
  | nil => rfl
  | cons input inputs ih => rw [processAll_cons, ih, host_process]

/-- Formatting inputs in place settles their files, and fails when one of them fails. -/
theorem processAll_settles (several : Bool) (hcommand : i.command = .fmt)
    (hwrite : i.ownFlag = true) (w : World) (hwrites : ∀ path, w.host.refusal path = none)
    (inputs : List String) (h : ∀ input ∈ inputs, ∃ steps, w.disk.LeadsTo input steps) :
    w.disk.Settles (w.processAll i several inputs).1.disk
        (fun steps => ∃ input ∈ inputs, w.disk.LeadsTo input steps) ∧
      (w.processAll i several inputs).2 = statusOf (inputs.all w.disk.accepts) := by
  induction inputs generalizing w with
  | nil => simpa [processAll, statusOf] using Disk.Settles.refl w.disk
  | cons input inputs ih =>
    obtain ⟨⟨steps, hleads⟩, hrest⟩ := List.forall_mem_cons.mp h
    obtain ⟨hsettles, hstatus⟩ :=
      process_settles several hcommand hwrite (hwrites input) hleads
    obtain ⟨hothers, hstatuses⟩ := ih (w.process i several input).1 (by rwa [host_process])
      fun p hp => by simpa only [hsettles.leadsTo] using hrest p hp
    simp only [hsettles.leadsTo] at hothers
    rw [funext hsettles.accepts] at hstatuses
    rw [processAll_cons]
    refine ⟨(hsettles.trans hothers).congr fun s => ?_, ?_⟩
    · simp [hleads.iff_eq]
    · rw [hstatus, hstatuses, worse_statusOf, List.all_cons]

/-- On a settled file formatting in place and checking change nothing. -/
theorem process_settled (several : Bool)
    (hcommand : i.command = .fmt ∧ i.ownFlag = true ∨ i.command = .check)
    (hwrites : w.host.refusal input = none) (h : w.disk.LeadsTo input steps) (hbytes : w.disk.content? steps = some bytes)
    (hsettled : settle bytes = bytes) :
    (w.process i several input).1.disk = w.disk ∧
      (w.process i several input).2 = statusOf (w.disk.accepts input) := by
  rw [Disk.accepts_of_leadsTo h hbytes]
  rcases hnew : canonicalBytes? bytes with - | new
  · exact process_refused several (hcommand.imp And.left id) h hbytes hnew
  · obtain rfl : new = bytes := (settle_of_canonical hnew).symm.trans hsettled
    rcases hcommand with ⟨hfmt, hwrite⟩ | hcheck
    · obtain ⟨hsame, -, hstatus⟩ := process_fmt several hfmt hwrite h hwrites hbytes hnew
      exact ⟨hsame rfl, hstatus⟩
    · exact process_check several hcheck h hbytes hnew

theorem processAll_settled (several : Bool)
    (hcommand : i.command = .fmt ∧ i.ownFlag = true ∨ i.command = .check) (w : World)
    (hwrites : ∀ path, w.host.refusal path = none) (inputs : List String)
    (h : ∀ input ∈ inputs, ∃ steps bytes, w.disk.LeadsTo input steps ∧
      w.disk.content? steps = some bytes ∧ settle bytes = bytes) :
    (w.processAll i several inputs).1.disk = w.disk ∧
      (w.processAll i several inputs).2 = statusOf (inputs.all w.disk.accepts) := by
  induction inputs generalizing w with
  | nil => exact ⟨rfl, rfl⟩
  | cons input inputs ih =>
    obtain ⟨⟨steps, bytes, hleads, hbytes, hsettled⟩, hrest⟩ := List.forall_mem_cons.mp h
    obtain ⟨hdisk, hstatus⟩ :=
      process_settled several hcommand (hwrites input) hleads hbytes hsettled
    obtain ⟨hdisks, hstatuses⟩ :=
      ih (w.process i several input).1 (by rwa [host_process]) (by rwa [hdisk])
    rw [hdisk] at hdisks hstatuses
    rw [processAll_cons]
    exact ⟨hdisks, by rw [hstatus, hstatuses, worse_statusOf, List.all_cons]⟩

end World

/-! ## A run and the runs after it -/

/-- One of the files that paths mean holds no statement. -/
def Disk.Refuses (d : Disk) (paths : List String) : Prop :=
  ∃ steps, d.Meant paths steps ∧ ∃ bytes, d.content? steps = some bytes ∧ Refused bytes

theorem Disk.Settles.meant {d d' : Disk} {hit : List String → Prop} (h : d.Settles d' hit)
    {paths : List String} : d'.Meant paths steps ↔ d.Meant paths steps :=
  ⟨h.tree.symm.meant, h.tree.meant⟩

theorem Disk.Settles.refuses {d d' : Disk} {hit : List String → Prop} (h : d.Settles d' hit)
    {paths : List String} : d'.Refuses paths ↔ d.Refuses paths := by
  have hcontent : ∀ (e : Disk) steps, (∃ bytes, e.content? steps = some bytes ∧ Refused bytes) ↔
      (e.content? steps).map canonicalBytes? = some none := fun e steps => by
    simp only [← canonicalBytes?_eq_none, Option.map_eq_some_iff]
  simp only [Disk.Refuses, hcontent, h.canonical, h.meant]

theorem code_statusOf {accepted : Bool} {refused : Prop} (h : accepted = true ↔ ¬ refused) :
    (statusOf accepted).code = 2 ∧ refused ∨ (statusOf accepted).code = 0 ∧ ¬ refused := by
  by_cases hrefused : refused
  · rw [Bool.eq_false_iff.mpr fun hall => h.mp hall hrefused]
    exact .inl ⟨rfl, hrefused⟩
  · rw [h.mpr hrefused]
    exact .inr ⟨rfl, hrefused⟩

theorem all_accepts {d : Disk} {paths inputs : List String} (hfinds : d.Finds paths inputs) :
    inputs.all d.accepts = true ↔ ¬ d.Refuses paths := by
  obtain ⟨hleads, hmeant⟩ := hfinds
  rw [List.all_eq_true]
  constructor
  · rintro hall ⟨steps, hm, bytes, hbytes, hrefused⟩
    obtain ⟨input, hinput, hleads⟩ := (hmeant steps).mp hm
    have haccepts := hall input hinput
    rw [Disk.accepts_of_leadsTo hleads hbytes, canonicalBytes?_eq_none.mpr hrefused] at haccepts
    contradiction
  · intro hnone input hinput
    obtain ⟨steps, hleads⟩ := hleads input hinput
    obtain ⟨bytes, hbytes⟩ := Disk.exists_content hleads
    rw [Disk.accepts_of_leadsTo hleads hbytes]
    rcases hnew : canonicalBytes? bytes with - | new
    · exact absurd ⟨steps, (hmeant steps).mpr ⟨input, hinput, hleads⟩, bytes, hbytes,
        canonicalBytes?_eq_none.mp hnew⟩ hnone
    · rfl

namespace World

/-- A run leaves the host as it is. -/
theorem host_run (w : World) (i : Invocation) : (w.run i).1.host = w.host := by
  unfold run
  split
  · rfl
  · exact host_processAll ..

/-- When a path leads nowhere, no command touches a file. -/
theorem run_of_missing {path : String} (hpath : path ∈ i.files)
    (hdash : isStandardInput path = false) (h : w.disk.spot? path = none) :
    (w.run i).1.disk = w.disk ∧ (w.run i).2 = 2 := by
  obtain ⟨e, he⟩ := Disk.discover_of_missing hpath hdash h
  rw [run, look, he]
  exact ⟨rfl, rfl⟩

/-- Formatting in place settles the files that are meant. -/
theorem run_fmt (hd : w.disk.Sound) (hwalk : w.disk.Lists w.host.walk)
    (hwrites : ∀ path, w.host.refusal path = none) (hcommand : i.command = .fmt)
    (hwrite : i.ownFlag = true)
    (hpaths : ∀ path ∈ i.files, isStandardInput path = false ∧ w.disk.spot? path ≠ none) :
    w.disk.Settles (w.run i).1.disk (w.disk.Meant i.files) ∧
      ((w.run i).2 = 2 ∧ w.disk.Refuses i.files ∨ (w.run i).2 = 0 ∧ ¬ w.disk.Refuses i.files) := by
  obtain ⟨inputs, hinputs, hleads, hmeant⟩ := Disk.discover_of_found hd hwalk hpaths
  obtain ⟨hsettles, hstatus⟩ :=
    processAll_settles (1 < inputs.length) hcommand hwrite w hwrites inputs hleads
  rw [run, look, hinputs]
  refine ⟨hsettles.congr fun steps => (hmeant steps).symm, ?_⟩
  simp only [hstatus]
  exact code_statusOf (all_accepts ⟨hleads, hmeant⟩)

/-- Once the files that are meant are settled, formatting in place and checking change nothing,
and come off alike. -/
theorem run_settled (hd : w.disk.Sound) (hwalk : w.disk.Lists w.host.walk)
    (hwrites : ∀ path, w.host.refusal path = none)
    (hcommand : i.command = .fmt ∧ i.ownFlag = true ∨ i.command = .check)
    (hpaths : ∀ path ∈ i.files, isStandardInput path = false ∧ w.disk.spot? path ≠ none)
    (hsettled : ∀ steps bytes, w.disk.Meant i.files steps → w.disk.content? steps = some bytes →
      settle bytes = bytes) :
    (w.run i).1.disk = w.disk ∧
      ((w.run i).2 = 2 ∧ w.disk.Refuses i.files ∨ (w.run i).2 = 0 ∧ ¬ w.disk.Refuses i.files) := by
  obtain ⟨inputs, hinputs, hleads, hmeant⟩ := Disk.discover_of_found hd hwalk hpaths
  obtain ⟨hdisk, hstatus⟩ := processAll_settled (1 < inputs.length) hcommand w hwrites inputs
    fun input hinput => by
      obtain ⟨steps, hlead⟩ := hleads input hinput
      obtain ⟨bytes, hbytes⟩ := Disk.exists_content hlead
      exact ⟨steps, bytes, hlead, hbytes,
        hsettled steps bytes ((hmeant steps).mpr ⟨input, hinput, hlead⟩) hbytes⟩
  rw [run, look, hinputs]
  refine ⟨hdisk, ?_⟩
  simp only [hstatus]
  exact code_statusOf (all_accepts ⟨hleads, hmeant⟩)

end World

/-- Formatting files in place is safe and comes to rest, when a walk through a folder lists the files
below it and no writing is refused. A path that leads nowhere stops the run before it touches a file.
Else every file that is meant keeps its bytes when they are no statement, gets the canonical text of
its statement when they are one, and no other file changes; the exit code tells whether a file was
refused. The new text is read as the statement that the old one was. A second run changes nothing,
and a check comes off as the first run did. -/
theorem formatting_in_place_is_safe_and_comes_to_rest {w : World} {i : Invocation}
    (hd : w.disk.Sound) (hwalk : w.disk.Lists w.host.walk)
    (hwrites : ∀ path, w.host.refusal path = none) (hfmt : i.command = .fmt)
    (hwrite : i.ownFlag = true) (hdash : ∀ path ∈ i.files, isStandardInput path = false) :
    ((∃ path ∈ i.files, w.disk.spot? path = none) →
      (w.run i).1.disk = w.disk ∧ (w.run i).2 = 2) ∧
    ((∀ path ∈ i.files, w.disk.spot? path ≠ none) →
      (∀ steps, w.disk.Meant i.files steps → ∃ bytes, w.disk.content? steps = some bytes ∧
        (Refused bytes → (w.run i).1.disk.content? steps = some bytes) ∧
        ∀ text s, String.fromUTF8? bytes = some text → parse text = .ok s →
          format text = .ok s.format ∧
          (w.run i).1.disk.content? steps = some (s.format ++ "\n").toUTF8 ∧
          ∃ t, parse (s.format ++ "\n") = .ok t ∧ t.plain = s.plain) ∧
      (∀ steps, ¬ w.disk.Meant i.files steps →
        (w.run i).1.disk.content? steps = w.disk.content? steps) ∧
      ((w.run i).2 = 2 ∧ w.disk.Refuses i.files ∨
        (w.run i).2 = 0 ∧ ¬ w.disk.Refuses i.files)) ∧
    ∀ w' : World, w'.host = w.host → w'.disk = (w.run i).1.disk →
      (w'.run i).1.disk = w'.disk ∧
      ∀ j : Invocation, j.command = .check → j.files = i.files →
        (w'.run j).2 = (w.run i).2 ∧ (w'.run j).2 ≠ 1 := by
  refine ⟨?_, ?_, ?_⟩
  · rintro ⟨path, hpath, hnone⟩
    exact World.run_of_missing hpath (hdash path hpath) hnone
  · intro hfound
    obtain ⟨hsettles, hcode⟩ := World.run_fmt hd hwalk hwrites hfmt hwrite fun path hpath =>
      ⟨hdash path hpath, hfound path hpath⟩
    refine ⟨fun steps hm => ?_, hsettles.kept, hcode⟩
    obtain ⟨bytes, hbytes⟩ := hm.exists_content
    have hafter := hsettles.settled steps hm
    rw [hbytes, Option.map_some] at hafter
    refine ⟨bytes, hbytes, fun hrefused => ?_, fun text s htext hparse => ?_⟩
    · rw [hafter, settle_of_refused (canonicalBytes?_eq_none.mpr hrefused)]
    · have hformat : format text = .ok s.format := by rw [format, hparse]
      have hnew := canonicalBytes?_eq_some.mpr ⟨text, s.format, htext, hformat, rfl⟩
      exact ⟨hformat, by rw [hafter, settle_of_canonical hnew],
        parse_trailing (wellFormed_of_parse hparse) blanks_lineFeed⟩
  · intro w' hhost hw'
    by_cases hmissing : ∃ path ∈ i.files, w.disk.spot? path = none
    · obtain ⟨path, hpath, hnone⟩ := hmissing
      obtain ⟨hdisk, hcode⟩ := World.run_of_missing hpath (hdash path hpath) hnone
      rw [hdisk] at hw'
      rw [← hw'] at hnone
      refine ⟨(World.run_of_missing hpath (hdash path hpath) hnone).1, fun j _ hfiles => ?_⟩
      have hcheck := (World.run_of_missing (hfiles ▸ hpath) (hdash path hpath) hnone).2
      rw [hcheck, hcode]
      exact ⟨rfl, by simp⟩
    · have hpaths : ∀ path ∈ i.files, isStandardInput path = false ∧ w.disk.spot? path ≠ none :=
        fun path hpath => ⟨hdash path hpath, fun hnone => hmissing ⟨path, hpath, hnone⟩⟩
      obtain ⟨hsettles, hcode⟩ := World.run_fmt hd hwalk hwrites hfmt hwrite hpaths
      rw [← hw'] at hsettles
      have hd' := hsettles.tree.sound hd
      have hwalk' : w'.disk.Lists w'.host.walk := hhost ▸ hsettles.tree.lists hwalk
      rw [← hhost] at hwrites
      have hsettled : ∀ steps bytes, w'.disk.Meant i.files steps →
          w'.disk.content? steps = some bytes → settle bytes = bytes := by
        intro steps bytes hm hbytes
        rw [hsettles.settled steps (hsettles.meant.mp hm), Option.map_eq_some_iff] at hbytes
        obtain ⟨old, -, rfl⟩ := hbytes
        exact settle_settle old
      simp only [← hsettles.tree.spot?] at hpaths
      refine ⟨(World.run_settled hd' hwalk' hwrites (.inl ⟨hfmt, hwrite⟩) hpaths hsettled).1, ?_⟩
      intro j hcheck hfiles
      rw [← hfiles] at hpaths hsettled
      have hchecked := (World.run_settled hd' hwalk' hwrites (.inr hcheck) hpaths hsettled).2
      rw [hsettles.refuses, hfiles] at hchecked
      grind

/-- In the folder `/work/d` a statement is set right that is listed twice, by its path from the root
and by one through the folder above, beside a file below that folder that is no text. -/
theorem a_statement_is_set_right_beside_a_file_that_is_no_text :
    ∃ (w : World) (i : Invocation), i.command = .fmt ∧
      i.files = ["/work/a.sql", "../d", "../a.sql"] ∧ w.disk.here = ["work", "d"] ∧
      w.disk.content? ["work", "a.sql"] = some "show tags t".toUTF8 ∧
      w.disk.content? ["work", "d", "b.sql"] = some ⟨#[0xff]⟩ ∧
      (w.run i).1.disk.content? ["work", "a.sql"] = some "SHOW TAGS t\n".toUTF8 ∧
      (w.run i).1.disk.content? ["work", "d", "b.sql"] = some ⟨#[0xff]⟩ ∧ (w.run i).2 = 2 ∧
      ((w.run i).1.run { i with command := .check }).2 = 2 := by
  let disk : Disk := ⟨["work", "d"], [], [(["work", "a.sql"], "show tags t".toUTF8),
    (["work", "d", "b.sql"], ⟨#[0xff]⟩)]⟩
  let i : Invocation := ⟨0, true, .fmt, true, ["/work/a.sql", "../d", "../a.sql"]⟩
  have hd : disk.Sound := by decide
  obtain ⟨-, hfound, hagain⟩ := formatting_in_place_is_safe_and_comes_to_rest
    (w := .fresh disk .empty) (i := i) hd (Disk.lists_walk hd) (fun _ => rfl) rfl rfl (by decide)
  obtain ⟨hfiles, -, hcode⟩ := hfound (by decide)
  let ws : List Lexeme := [⟨.keyword .show, "show"⟩, ⟨.whitespace, " "⟩, ⟨.keyword .tags, "tags"⟩,
    ⟨.whitespace, " "⟩, ⟨.identifier, "t"⟩]
  obtain ⟨s, hparse, hformat⟩ : ∃ s, parse "show tags t" = .ok s ∧ s.format = "SHOW TAGS t" :=
    ⟨_, (parse_eq_ok (tokenize_eq_ok.mpr ⟨ws, by decide, rfl, rfl⟩)).mpr ⟨_, rfl⟩, by decide⟩
  have hstatement : disk.Meant i.files ["work", "a.sql"] := .named List.mem_cons_self (by decide)
  have hno : disk.Meant i.files ["work", "d", "b.sql"] :=
    @Disk.Meant.below disk i.files "../d" ["work", "d"] ["b.sql"] "b.sql" (by decide) (by decide)
      (by decide) rfl (by decide)
  have hrefused : Refused ⟨#[0xff]⟩ := fun text htext =>
    absurd htext (by rw [String.fromUTF8?, dif_neg (by decide)]; simp)
  have hfails : (World.run i (.fresh disk .empty)).2 = 2 :=
    (hcode.resolve_right fun h => h.2 ⟨_, hno, _, rfl, hrefused⟩).1
  refine ⟨.fresh disk .empty, i, rfl, rfl, rfl, rfl, rfl, ?_, ?_, hfails, ?_⟩
  · obtain ⟨bytes, hbytes, -, hnew⟩ := hfiles _ hstatement
    cases hbytes
    have hafter := (hnew _ s (fromUTF8?_eq_some.mpr rfl) hparse).2.1
    rwa [hformat] at hafter
  · obtain ⟨bytes, hbytes, hkept, -⟩ := hfiles _ hno
    cases hbytes
    exact hkept hrefused
  · exact ((hagain _ (World.host_run _ i) rfl).2 { i with command := .check } rfl rfl).1.trans hfails

end TagDialect
