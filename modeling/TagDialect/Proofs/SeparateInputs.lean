-- The inputs of one command do not disturb each other: what the command says on several inputs is
-- what it says on each of them alone, one after the other, and the worst of them decides how it
-- ends.
import TagDialect.Proofs.RewrittenFiles
import Mathlib.Data.List.Perm.Basic
import Mathlib.Order.MinMax

namespace TagDialect

/-- The command writes nothing back into the files. -/
def Invocation.OnlyReads (i : Invocation) : Prop := ¬ (i.command = .fmt ∧ i.ownFlag = true)

variable {w w' : World} {i : Invocation} {input : String} {source : Source}

/-! ## How a source comes off -/

/-- What is added when something fails, when it is not in canonical form, and else. -/
inductive Verdict (fails unformatted : Prop) : Outcome → Prop
  | failed {err : String} (h : fails) : Verdict fails unformatted (.failed err)
  | unformatted {err : String} (h : ¬ fails) (hother : unformatted) :
      Verdict fails unformatted ⟨"", err, .unformatted, none⟩
  | fine {out : String} (h : ¬ fails) (hother : ¬ unformatted) :
      Verdict fails unformatted (.fine out)

namespace Verdict

variable {fails unformatted : Prop} {o : Outcome}

theorem rewrite (h : Verdict fails unformatted o) : o.rewrite = none := by
  cases h <;> rfl

theorem out (h : Verdict fails unformatted o) (hfails : fails) : o.out = "" := by
  cases h with
  | failed => rfl
  | unformatted => rfl
  | fine h => exact absurd hfails h

theorem code (h : Verdict fails unformatted o) : (o.status.code = 2 ↔ fails) ∧
    (o.status.code = 1 ↔ ¬ fails ∧ unformatted) ∧ o.status.code ≤ 2 := by
  cases h with
  | failed h => simp [Outcome.failed, Status.code, h]
  | unformatted h hother => simp [Status.code, h, hother]
  | fine h hother => simp [Outcome.fine, Status.code, h, hother]

end Verdict

/-- The command has no answer to the text: it is no statement or, where only tokens are asked for,
it cannot be cut into tokens. -/
def Invocation.Rejects (i : Invocation) (text : String) : Prop :=
  match i.command with
  | .tokens => ∃ e, tokenize text = .error e
  | .parse | .fmt | .check => ∃ e, parse text = .error e

/-- The command asks for canonical form, and the text is a statement without it. -/
def Invocation.Objects (i : Invocation) (text : String) : Prop :=
  i.command = .check ∧ check text = .ok false

/-- How the source comes off, given what is added for it. -/
abbrev Invocation.Judges (i : Invocation) (text : String) : Outcome → Prop :=
  Verdict (i.Rejects text) (i.Objects text)

/-- Hidden tokens make no difference to whether a text can be cut. -/
theorem tokenizeAll_error_iff (text : String) :
    (∃ e, tokenizeAll text = .error e) ↔ ∃ e, tokenize text = .error e := by
  rw [tokenize_eq_filter]
  cases tokenizeAll text <;> simp [Except.map]

section
variable (draw : String → String → Fault → String)

theorem judges_parse (hc : i.command = .parse) (plain several : Bool) (source : Source) :
    i.Judges source.text (answerParse draw plain several source) := by
  unfold answerParse
  split
  · rename_i e he
    exact .failed (by simp [Invocation.Rejects, hc, he])
  · rename_i s hs
    exact .fine (by simp [Invocation.Rejects, hc, hs]) (by simp [Invocation.Objects, hc])

theorem judges_tokens (hc : i.command = .tokens) (plain hidden : Bool) (source : Source) :
    i.Judges source.text (answerTokens draw plain hidden source) := by
  have hrejects : i.Rejects source.text ↔
      ∃ e, (if hidden then tokenizeAll source.text else tokenize source.text) = .error e := by
    simp only [Invocation.Rejects, hc]
    split
    · exact (tokenizeAll_error_iff source.text).symm
    · exact Iff.rfl
  unfold answerTokens
  split
  · rename_i e he
    exact .failed (hrejects.mpr ⟨e, he⟩)
  · rename_i tokens htokens
    exact .fine (by simp [hrejects, htokens]) (by simp [Invocation.Objects, hc])

theorem judges_fmt (hc : i.command = .fmt) (plain : Bool) (source : Source) :
    i.Judges source.text (answerFmt draw plain false source) := by
  unfold answerFmt format
  cases hs : parse source.text with
  | error e => exact .failed (by simp [Invocation.Rejects, hc, hs])
  | ok s =>
    exact .fine (by simp [Invocation.Rejects, hc, hs]) (by simp [Invocation.Objects, hc])

theorem judges_check (hc : i.command = .check) (plain : Bool) (source : Source) :
    i.Judges source.text (answerCheck draw plain source) := by
  have hrejects : i.Rejects source.text ↔ ∃ e, check source.text = .error e := by
    simp only [Invocation.Rejects, hc, check, format]
    cases parse source.text <;> simp
  unfold answerCheck
  split
  · rename_i e he
    exact .failed (hrejects.mpr ⟨e, he⟩)
  · rename_i hcheck
    exact .fine (by simp [hrejects, hcheck]) (by simp [Invocation.Objects, hcheck])
  · rename_i hcheck
    exact .unformatted (by simp [hrejects, hcheck]) ⟨hc, hcheck⟩

theorem judges_answer (hreads : i.OnlyReads) (several : Bool) (source : Source) :
    i.Judges source.text (answer draw i several source) := by
  unfold answer
  split
  · rename_i hc
    exact judges_parse draw hc i.plain several source
  · rename_i hc
    exact judges_tokens draw hc i.plain i.ownFlag source
  · rename_i hc
    have hflag : i.ownFlag = false := by simpa [Invocation.OnlyReads, hc] using hreads
    rw [hflag]
    exact judges_fmt draw hc i.plain source
  · rename_i hc
    exact judges_check draw hc i.plain source

/-- The line that `parse` prints above the statement of an input that came off well, when there are
several. -/
def heading (i : Invocation) (several : Bool) (name : String) (status : Status) : String :=
  if i.command = .parse ∧ several = true ∧ status = .fine then "-- " ++ name ++ "\n" else ""

/-- But for its heading, a source adds the same whether it is the only one or not. -/
theorem answer_several (i : Invocation) (several : Bool) (source : Source) :
    answer draw i several source = { answer draw i false source with
      out := heading i several source.name (answer draw i false source).status ++
        (answer draw i false source).out } := by
  cases hc : i.command with
  | parse =>
    simp only [answer, heading, hc, answerParse]
    cases hs : parse source.text with
    | error e => simp [Outcome.failed]
    | ok s => cases several <;> simp [Outcome.fine, String.append_assoc]
  | tokens => simp [answer, heading, hc]
  | fmt => simp [answer, heading, hc]
  | check => simp [answer, heading, hc]

end

/-! ## How an input comes off -/

/-- What an input of a world adds. -/
def World.answerTo (w : World) (i : Invocation) (several : Bool) (input : String) : Outcome :=
  match (w.read input).1 with
  | .error e => unreadable input e
  | .ok source => answer w.host.draw i several source

/-- The input cannot be read, or the command has no answer to its text. -/
def World.Fails (w : World) (i : Invocation) (input : String) : Prop :=
  ∀ source, (w.read input).1 = .ok source → i.Rejects source.text

/-- The input is read, and is not canonical where that is asked for. -/
def World.Unformatted (w : World) (i : Invocation) (input : String) : Prop :=
  ∃ source, (w.read input).1 = .ok source ∧ i.Objects source.text

/-- The name that messages call an input by. -/
def inputName (input : String) : String := if isStandardInput input then "<stdin>" else input

theorem verdict_answerTo (hreads : i.OnlyReads) (w : World) (several : Bool) (input : String) :
    Verdict (w.Fails i input) (w.Unformatted i input) (w.answerTo i several input) := by
  unfold World.answerTo World.Fails World.Unformatted
  cases (w.read input).1 with
  | error e => exact .failed fun source hsource => nomatch hsource
  | ok source => simpa [eq_comm] using judges_answer w.host.draw hreads several source

theorem name_of_decode {name : String} {path : Option String} {bytes : ByteArray}
    (h : decode name path bytes = .ok source) : source.name = name := by
  unfold decode at h
  split at h
  · rw [← Except.ok.inj h]
  · contradiction

theorem name_of_read (h : (w.read input).1 = .ok source) : source.name = inputName input := by
  unfold World.read at h
  unfold inputName
  split at h
  · rename_i hdash
    rw [if_pos hdash]
    exact name_of_decode h
  · rename_i hdash
    rw [if_neg hdash]
    split at h
    · exact name_of_decode h
    · contradiction
    · contradiction

theorem answerTo_several (w : World) (i : Invocation) (several : Bool) (input : String) :
    w.answerTo i several input = { w.answerTo i false input with
      out := heading i several (inputName input) (w.answerTo i false input).status ++
        (w.answerTo i false input).out } := by
  unfold World.answerTo
  cases hread : (w.read input).1 with
  | error e => simp [unreadable, Outcome.failed, heading]
  | ok source =>
    rw [← name_of_read hread]
    exact answer_several w.host.draw i several source

/-! ## One input after the other -/

theorem world_of_read (w : World) (input : String) :
    (w.read input).2 = { w with input := if isStandardInput input then .empty else w.input } := by
  unfold World.read
  split
  · rfl
  · split <;> rfl

/-- What is read depends on the disk, and on the standard input when that is the input. -/
theorem answerTo_congr {several : Bool} (hhost : w'.host = w.host) (hdisk : w'.disk = w.disk)
    (hinput : isStandardInput input = true → w'.input = w.input) :
    w'.answerTo i several input = w.answerTo i several input := by
  have hread : (w'.read input).1 = (w.read input).1 := by
    unfold World.read
    split
    · rename_i hdash
      rw [hinput hdash]
    · rw [hdisk]
      split <;> rfl
  rw [World.answerTo, hread, hhost]
  rfl

theorem process_eq_add (w : World) (i : Invocation) (several : Bool) (input : String) :
    w.process i several input = (w.read input).2.add input (w.answerTo i several input) := by
  have hhost : (w.read input).2.host = w.host := by rw [world_of_read]
  unfold World.process World.answerTo
  split
  · rename_i e after hread
    rw [hread]
  · rename_i source after hread
    rw [← hhost, hread]

/-- An input that is only read adds its texts, and takes nothing but the standard input. -/
theorem process_of_onlyReads (hreads : i.OnlyReads) (w : World) (several : Bool) (input : String) :
    w.process i several input =
      ({ host := w.host
         disk := w.disk
         input := if isStandardInput input then .empty else w.input
         out := w.out ++ (w.answerTo i several input).out
         err := w.err ++ (w.answerTo i several input).err },
        (w.answerTo i several input).status) := by
  rw [process_eq_add, world_of_read,
    World.add_kept (verdict_answerTo hreads w several input).rewrite]
  rfl

theorem code_worse (a b : Status) : (a.worse b).code = max a.code b.code := by
  cases a <;> cases b <;> rfl

/-- The inputs add their texts one after the other, each as if it were read from the first world,
and the worst of them decides. -/
theorem processAll_of_onlyReads (hreads : i.OnlyReads) (several : Bool) (inputs : List String)
    (w : World) (honce : inputs.countP isStandardInput ≤ 1) :
    let answers := inputs.map (w.answerTo i several)
    (w.processAll i several inputs).1.disk = w.disk ∧
      (w.processAll i several inputs).1.out = w.out ++ String.join (answers.map Outcome.out) ∧
      (w.processAll i several inputs).1.err = w.err ++ String.join (answers.map Outcome.err) ∧
      (w.processAll i several inputs).2.code =
        (answers.map fun o => o.status.code).foldr max 0 := by
  induction inputs generalizing w with
  | nil => simp [World.processAll, Status.code]
  | cons input inputs ih =>
    have hstep := process_of_onlyReads hreads w several input
    rw [List.countP_cons] at honce
    obtain ⟨hdisk, hout, herr, hcode⟩ := ih (w.process i several input).1 (by omega)
    -- the standard input is not both the first one and among the others
    have hothers : inputs.map ((w.process i several input).1.answerTo i several) =
        inputs.map (w.answerTo i several) := by
      refine List.map_congr_left fun other hother => answerTo_congr (by rw [hstep]) (by rw [hstep])
        fun hdash => ?_
      have hpos : 0 < inputs.countP isStandardInput :=
        List.countP_pos_iff.mpr ⟨other, hother, hdash⟩
      have hfirst : ¬ isStandardInput input = true := fun hfirst => by
        rw [if_pos hfirst] at honce
        omega
      rw [hstep]
      exact if_neg hfirst
    rw [hothers] at hout herr hcode
    rw [hstep] at hdisk hout herr hcode
    rw [World.processAll_cons, hstep]
    simp only [hdisk, hout, herr, code_worse, hcode, List.map_cons, String.join_cons,
      List.foldr_cons, String.append_assoc, and_self]

/-! ## One input alone -/

section
variable {look : String → Option Look} {path : String} {paths inputs : List String}

theorem exists_of_discover_cons (h : discover look (path :: paths) = .ok inputs) :
    ∃ first others, discover look [path] = .ok first ∧ discover look paths = .ok others ∧
      inputs = first ++ others := by
  simp only [discover] at h ⊢
  split at h
  · contradiction
  · rename_i first hfirst
    split at h
    · contradiction
    · rename_i others hothers
      exact ⟨first, others, by simp, hothers, (Except.ok.inj h).symm⟩

/-- A file among the inputs of a folder is an input of its own. -/
theorem discover_statementFile {entries : List String}
    (h : input ∈ statementFiles look entries) : discover look [input] = .ok [input] := by
  obtain ⟨-, hkept⟩ := List.mem_filter.mp h
  rw [Bool.and_eq_true] at hkept
  obtain ⟨hfile, hname⟩ := hkept
  rcases hlook : look input with - | (_ | entries)
  · simp [hlook] at hfile
  · simp [discover, isStandardInput_of_fileName hname, hlook]
  · simp [hlook, Look.isFile] at hfile

/-- Each input that paths mean stands for itself. -/
theorem discover_alone (h : discover look paths = .ok inputs) (hinput : input ∈ inputs) :
    discover look [input] = .ok [input] := by
  induction paths generalizing inputs with
  | nil =>
    obtain rfl : [] = inputs := Except.ok.inj h
    contradiction
  | cons path paths ih =>
    obtain ⟨first, others, hfirst, hothers, rfl⟩ := exists_of_discover_cons h
    rcases List.mem_append.mp hinput with hinput | hinput
    · have hself : discover look [path] = .ok [path] → discover look [input] = .ok [input] := by
        intro hpath
        obtain rfl : [path] = first := Except.ok.inj (hpath.symm.trans hfirst)
        rwa [List.mem_singleton.mp hinput]
      by_cases hdash : isStandardInput path = true
      · exact hself (by simp [discover, hdash])
      · rw [Bool.not_eq_true] at hdash
        rcases hlook : look path with - | (_ | entries)
        · simp [discover, hdash, hlook] at hfirst
        · exact hself (by simp [discover, hdash, hlook])
        · have hfolder : statementFiles look entries = first := by
            simpa [discover, hdash, hlook] using hfirst
          exact discover_statementFile (hfolder ▸ hinput)
    · exact ih hothers hinput

end

/-- The command over one input, on the same disk and the same standard input, with nothing
written yet. -/
def World.alone (w : World) (i : Invocation) (input : String) : World × Nat :=
  World.run { i with files := [input] } { w with out := "", err := "" }

theorem run_eq {inputs : List String} (h : discover w.look i.files = .ok inputs) :
    w.run i = ((w.processAll i (1 < inputs.length) inputs).1,
      (w.processAll i (1 < inputs.length) inputs).2.code) := by
  rw [World.run, h]

theorem eq_fine_iff (s : Status) : s = .fine ↔ s.code = 0 := by
  cases s <;> simp [Status.code]

theorem run_of_onlyReads (hreads : i.OnlyReads) {inputs : List String}
    (h : discover w.look i.files = .ok inputs)
    (honce : inputs.countP isStandardInput ≤ 1) :
    (w.run i).1.disk = w.disk ∧
      (w.run i).1.out = w.out ++ String.join (inputs.map fun input =>
        heading i (1 < inputs.length) (inputName input) (w.answerTo i false input).status ++
          (w.answerTo i false input).out) ∧
      (w.run i).1.err = w.err ++
        String.join (inputs.map fun input => (w.answerTo i false input).err) ∧
      (w.run i).2 =
        (inputs.map fun input => (w.answerTo i false input).status.code).foldr max 0 := by
  obtain ⟨hdisk, hout, herr, hcode⟩ :=
    processAll_of_onlyReads hreads (1 < inputs.length) inputs w honce
  rw [funext (answerTo_several w i (1 < inputs.length)), List.map_map] at hout herr hcode
  rw [run_eq h]
  exact ⟨hdisk, hout, herr, hcode⟩

/-- An input alone adds what it adds to other inputs, without a heading. -/
theorem alone_eq (hreads : i.OnlyReads) (h : discover w.look [input] = .ok [input]) :
    (w.alone i input).1.out = (w.answerTo i false input).out ∧
      (w.alone i input).1.err = (w.answerTo i false input).err ∧
      (w.alone i input).2 = (w.answerTo i false input).status.code := by
  let fresh : World := { w with out := "", err := "" }
  have hanswer : fresh.answerTo { i with files := [input] } false input =
      w.answerTo i false input := answerTo_congr rfl rfl fun _ => rfl
  obtain ⟨-, hout, herr, hcode⟩ := run_of_onlyReads (w := fresh)
    (i := { i with files := [input] }) hreads h List.countP_le_length
  simp only [List.map_cons, List.map_nil, hanswer] at hout herr hcode
  rw [World.alone, hout, herr, hcode]
  simp [fresh, heading]

/-! ## The worst code -/

theorem foldr_max_le_iff {codes : List Nat} {k : Nat} :
    codes.foldr max 0 ≤ k ↔ ∀ code ∈ codes, code ≤ k := by
  induction codes with
  | nil => simp
  | cons code codes ih => rw [List.foldr_cons, max_le_iff, ih, List.forall_mem_cons]

theorem le_foldr_max_iff {codes : List Nat} {k : Nat} (hk : 0 < k) :
    k ≤ codes.foldr max 0 ↔ ∃ code ∈ codes, k ≤ code := by
  induction codes with
  | nil => simpa using hk.ne'
  | cons code codes ih => rw [List.foldr_cons, le_max_iff, ih, List.exists_mem_cons_iff]

theorem foldr_max_eq_iff {codes : List Nat} {k : Nat} (hk : 0 < k) :
    codes.foldr max 0 = k ↔ k ∈ codes ∧ ∀ code ∈ codes, code ≤ k := by
  rw [← foldr_max_le_iff]
  constructor
  · rintro rfl
    obtain ⟨code, hmem, hge⟩ := (le_foldr_max_iff hk).mp le_rfl
    have hsame : codes.foldr max 0 = code := hge.antisymm (foldr_max_le_iff.mp le_rfl code hmem)
    exact ⟨hsame ▸ hmem, le_rfl⟩
  · rintro ⟨hmem, hle⟩
    exact hle.antisymm ((le_foldr_max_iff hk).mpr ⟨k, hmem, le_rfl⟩)

/-- The greatest code of several verdicts tells what the worst one is. -/
theorem code_of_verdicts (inputs : List String) {fails unformatted : String → Prop}
    {answers : String → Outcome}
    (h : ∀ input, Verdict (fails input) (unformatted input) (answers input)) :
    let code := (inputs.map fun input => (answers input).status.code).foldr max 0
    (code = 2 ↔ ∃ input ∈ inputs, fails input) ∧
      (code = 1 ↔ (∀ input ∈ inputs, ¬ fails input) ∧ ∃ input ∈ inputs, unformatted input) ∧
      code ≤ 2 := by
  intro code
  have hmost : ∀ input, (answers input).status.code ≤ 2 := fun input => (h input).code.2.2
  have hleast : ∀ input, (answers input).status.code ≤ 1 ↔ ¬ fails input := fun input => by
    rw [← (h input).code.1]
    have := hmost input
    omega
  refine ⟨?_, ?_, ?_⟩
  · simp [code, foldr_max_eq_iff, hmost, (h _).code.1]
  · rw [foldr_max_eq_iff Nat.one_pos, List.mem_map, List.forall_mem_map]
    simp only [hleast, (h _).code.2.1]
    constructor
    · rintro ⟨⟨input, hinput, -, hother⟩, hnone⟩
      exact ⟨hnone, input, hinput, hother⟩
    · rintro ⟨hnone, input, hinput, hother⟩
      exact ⟨⟨input, hinput, hnone input hinput, hother⟩, hnone⟩
  · simp [code, foldr_max_le_iff, hmost]

/-- The inputs of a command that writes nothing back are dealt with one by one. When they cannot
all be found, the code is 2 and nothing happens but a message. Else the command prints, in the order
of the inputs, what it prints on each of them alone, and so for the messages; but `parse` names each
input above its statement when there are several. An input fails when it cannot be read, or is
rejected, and then nothing is printed for it. The code is 2 when an input fails, else 1 when the
check objects to one, else 0; it is the greatest one of the inputs alone, in whichever order. -/
theorem inputs_are_dealt_with_one_by_one (hreads : i.OnlyReads) :
    (∀ e, discover w.look i.files = .error e →
      w.run i = ({ w with err := w.err ++ ("Error: " ++ e.message ++ "\n") }, 2)) ∧
    ∀ inputs, discover w.look i.files = .ok inputs → inputs.countP isStandardInput ≤ 1 →
      (w.run i).1.disk = w.disk ∧
      (w.run i).1.out = w.out ++ String.join (inputs.map fun input =>
        (if i.command = .parse ∧ 1 < inputs.length ∧ (w.alone i input).2 = 0 then
          "-- " ++ inputName input ++ "\n" else "") ++ (w.alone i input).1.out) ∧
      (w.run i).1.err = w.err ++ String.join (inputs.map fun input => (w.alone i input).1.err) ∧
      (∀ input ∈ inputs, ((w.alone i input).2 = 2 ↔ w.Fails i input) ∧
        ((w.alone i input).2 = 1 ↔ ¬ w.Fails i input ∧ w.Unformatted i input) ∧
        (w.alone i input).2 ≤ 2 ∧ (w.Fails i input → (w.alone i input).1.out = "")) ∧
      (w.run i).2 = (inputs.map fun input => (w.alone i input).2).foldr max 0 ∧
      ((w.run i).2 = 2 ↔ ∃ input ∈ inputs, w.Fails i input) ∧
      ((w.run i).2 = 1 ↔
        (∀ input ∈ inputs, ¬ w.Fails i input) ∧ ∃ input ∈ inputs, w.Unformatted i input) ∧
      (w.run i).2 ≤ 2 ∧
      ∀ files others, discover w.look files = .ok others → others.Perm inputs →
        (w.run { i with files := files }).2 = (w.run i).2 := by
  refine ⟨fun e he => ?_, fun inputs hfound honce => ?_⟩
  · rw [World.run, he]
    simp [World.say, undiscovered, Outcome.failed, Status.code]
  have halone : ∀ input ∈ inputs, _ := fun input hinput =>
    alone_eq hreads (discover_alone hfound hinput)
  have hverdicts := verdict_answerTo hreads w false
  obtain ⟨hdisk, hout, herr, hcode⟩ := run_of_onlyReads hreads hfound honce
  obtain ⟨htwo, hone, hmost⟩ := code_of_verdicts inputs hverdicts
  rw [← hcode] at htwo hone hmost
  refine ⟨hdisk, ?_, ?_, fun input hinput => ?_, ?_, htwo, hone, hmost,
    fun files others hothers hperm => ?_⟩
  · rw [hout]
    congr 2
    refine List.map_congr_left fun input hinput => ?_
    obtain ⟨hsame, -, hcode⟩ := halone input hinput
    simp only [hsame, hcode, heading, decide_eq_true_eq, eq_fine_iff]
  · rw [herr]
    congr 2
    exact List.map_congr_left fun input hinput => (halone input hinput).2.1.symm
  · obtain ⟨hsame, -, hcode⟩ := halone input hinput
    obtain ⟨hfails, hother, hleast⟩ := (hverdicts input).code
    rw [hsame, hcode]
    exact ⟨hfails, hother, hleast, (hverdicts input).out⟩
  · rw [hcode]
    congr 1
    exact List.map_congr_left fun input hinput => (halone input hinput).2.2.symm
  · obtain ⟨-, -, -, hsame⟩ := run_of_onlyReads (i := { i with files := files }) hreads hothers
      (hperm.countP_eq _ ▸ honce)
    rw [hsame, hcode]
    exact (hperm.map _).foldr_eq 0

/-- A file that is no text decides a check of three inputs, wherever it comes: one named by its path
from the root, the standard input, and the file, which is found below the folder above. -/
theorem a_file_that_is_no_text_decides_the_check :
    ∃ (w : World) (i : Invocation), i.command = .check ∧ i.files = ["/work/a.sql", "-", "../d"] ∧
      w.disk.here = ["work", "e"] ∧ w.disk.content? ["work", "d", "b.sql"] = some ⟨#[0xff]⟩ ∧
      discover w.look i.files = .ok ["/work/a.sql", "-", "../d/b.sql"] ∧
      (w.alone i "../d/b.sql").2 = 2 ∧ (w.alone i "../d/b.sql").1.out = "" ∧ (w.run i).2 = 2 ∧
      (w.run { i with files := ["../d", "-", "/work/a.sql"] }).2 = 2 := by
  let disk : Disk := ⟨["work", "e"], [], [(["work", "a.sql"], "show tags t".toUTF8),
    (["work", "d", "b.sql"], ⟨#[0xff]⟩)]⟩
  let i : Invocation := ⟨0, true, .check, false, ["/work/a.sql", "-", "../d"]⟩
  let host : Host := ⟨fun _ => ["../d", "../d/b.sql"], fun _ _ fault => fault.message, fun _ => none⟩
  let w : World := ⟨host, disk, "SHOW TAGS u\n".toUTF8, "", ""⟩
  have hfound : discover w.look i.files = .ok ["/work/a.sql", "-", "../d/b.sql"] := by decide
  have hothers : discover w.look ["../d", "-", "/work/a.sql"] =
      .ok ["../d/b.sql", "-", "/work/a.sql"] := by decide
  obtain ⟨-, hruns⟩ := inputs_are_dealt_with_one_by_one (w := w) (i := i)
    (by simp [Invocation.OnlyReads, i])
  obtain ⟨-, -, -, heach, -, hfails, -, -, hperm⟩ := hruns _ hfound (by decide)
  have hlast : w.Fails i "../d/b.sql" := by
    intro source hsource
    have hleads : w.disk.LeadsTo "../d/b.sql" ["work", "d", "b.sql"] := ⟨by decide, by decide⟩
    rw [World.read_of_leadsTo hleads rfl, decode, String.fromUTF8?, dif_neg (by decide)] at hsource
    contradiction
  obtain ⟨hcode, -, -, hout⟩ := heach "../d/b.sql" (by decide)
  have hrun : (w.run i).2 = 2 := hfails.mpr ⟨"../d/b.sql", by decide, hlast⟩
  exact ⟨w, i, rfl, rfl, rfl, rfl, hfound, hcode.mpr hlast, hout hlast, hrun,
    (hperm _ _ hothers (by decide)).trans hrun⟩

end TagDialect
